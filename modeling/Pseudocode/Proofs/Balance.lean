import Pseudocode.Proofs.Frames
import Pseudocode.Proofs.Groups
import Pseudocode.Proofs.Lexemes

/-!
# Balanced brackets

A text whose brackets are well nested becomes a well-nested stream of tokens, and the
parser never finds fault with its brackets. A text whose brackets are not is refused.

The first part follows the text and the stream with one scan each. The second part has
to say what becomes of a closer without an opener. Most are fatal at once: the stream
then begins with tokens that no parse survives, and they are never taken back. A brace
closed at the level of the program is not. It ends the statement around it in the
stream, and the layout does not know; from there on the stream has one block less open
than the layout, and no end of the text makes up for it.
-/
namespace Pseudocode

theorem Token.Kind.mark?_ofWord (word : List Char) : (Token.Kind.ofWord word).mark? = none := by
  simp only [Token.Kind.ofWord]
  repeat' split
  all_goals rfl

namespace Layout

/-- The sort of bracket that a frame is in the stream of tokens. -/
def Frame.pair (f : Frame) : Pair :=
  match f.bracket with
  | .statement | .brace | .arrow => .curly
  | .paren => .round

/-- The sort of bracket that a frame is in the text, if it is one there. -/
def Frame.explicit? (f : Frame) : Option Pair :=
  match f.bracket with
  | .statement | .arrow => none
  | .brace => some .curly
  | .paren => some .round

def explicit (s : Layout) : List Pair := s.frames.filterMap Frame.explicit?

/-- The tokens of the program block so far. -/
def inner (s : Layout) : List Token := s.tokens.toList.tail

theorem inner_push {tokens : Array Token} (h : 0 < tokens.size) (t : Token) :
    (tokens.push t).toList.tail = tokens.toList.tail ++ [t] := by
  have hne : tokens.toList ≠ [] := by
    rw [← List.length_pos_iff, Array.length_toList]
    exact h
  rw [Array.toList_push, List.tail_append_of_ne_nil hne]

/-- With `base` open before the program's tokens, the frames are open after them. -/
def Tracks (base : List Pair) (s : Layout) : Prop :=
  Mark.scan base (Token.marks s.inner) = some (s.frames.map Frame.pair)

section
variable {s : Layout} {base : List Pair} {f g : Frame} {rest : List Frame}

theorem marks_emit (hs : s.Anchored) (kind : Token.Kind) (p : Position) :
    Token.marks (s.emit kind p).inner = Token.marks s.inner ++ kind.mark?.toList := by
  rw [inner, emit, inner_push hs.started, Token.marks_append, Token.marks_cons]
  simp [inner, Token.marks]

theorem Tracks.emit (h : Tracks base s) (hs : s.Anchored) {kind : Token.Kind}
    (hk : kind.mark? = none) (p : Position) : Tracks base (s.emit kind p) := by
  rw [Tracks, marks_emit hs, hk, Option.toList_none, List.append_nil]
  exact h

theorem mark?_opener (bracket : Bracket) (opener : Nat) :
    bracket.opener.mark? = some (.opens (Frame.pair ⟨bracket, opener⟩)) := by
  cases bracket <;> rfl

theorem Tracks.openWith (h : Tracks base s) (hs : s.Anchored) (bracket : Bracket) (p : Position) :
    Tracks base (s.openWith bracket bracket.opener p) := by
  have hm := marks_emit hs bracket.opener p
  have hscan := Mark.scan_snoc h (.opens (Frame.pair ⟨bracket, s.tokens.size⟩))
  rw [mark?_opener bracket s.tokens.size] at hm
  rw [Tracks, show (s.openWith bracket bracket.opener p).inner =
    (s.emit bracket.opener p).inner from rfl, hm]
  exact hscan

/-- The closer of the innermost frame. -/
theorem Tracks.close (h : Tracks base s) (hs : s.Anchored) (hf : s.frames = f :: rest)
    {kind : Token.Kind} (hk : kind.mark? = some (.closes f.pair)) (p : Position) :
    Tracks base (({ s with frames := rest } : Layout).emit kind p) := by
  have hm := marks_emit (hs.tail hf) kind p
  have hscan := Mark.scan_snoc h (.closes f.pair)
  rw [hf, List.map_cons] at hscan
  rw [Tracks, hm, hk]
  simp only [Mark.take, if_true] at hscan
  exact hscan

theorem Frame.pair_of_implicit (hi : f.bracket.Implicit) : f.pair = .curly := by
  unfold Frame.pair
  cases hb : f.bracket with
  | statement => rfl
  | arrow => rfl
  | brace => rfl
  | paren => rw [hb] at hi; exact hi.elim

/-- The end of an implicit block closes it, or takes back that it was opened. -/
theorem Tracks.closeTop (h : Tracks base s) (hs : s.Anchored) (hf : s.frames = f :: rest)
    (hi : f.bracket.Implicit) (p : Position) : Tracks base (s.closeTop p) := by
  rw [closeTop_of_frames p hf]
  by_cases hlast : f.opener + 1 = s.tokens.size
  · have hmem : f ∈ s.frames := hf ▸ List.mem_cons_self
    obtain ⟨hpos, -⟩ := hs.pointed f hmem
    obtain ⟨token, htoken, hk⟩ := hs.toList_of_last hmem hlast
    have hne : s.tokens.pop.toList ≠ [] := by
      rw [← List.length_pos_iff, Array.length_toList, Array.size_pop]
      omega
    unfold Tracks at h ⊢
    rw [inner, htoken, List.tail_append_of_ne_nil hne, Token.marks_append, hf] at h
    have hmark : Token.marks [token] = [.opens f.pair] := by
      rw [Token.marks_cons, hk, mark?_opener f.bracket f.opener]
      rfl
    rw [hmark] at h
    obtain ⟨before, hb, he⟩ := Mark.scan_of_snoc_opens h
    simp only [closeBlock, hlast, if_true]
    cases he
    exact hb
  · have hc : (Token.Kind.blockClose).mark? = some (.closes f.pair) := by
      rw [Frame.pair_of_implicit hi]
      rfl
    have ht := h.close hs hf hc p
    simp only [closeBlock, hlast, if_false]
    exact ht

theorem Tracks.closeArrows (h : Tracks base s) (hs : s.Anchored) (p : Position) :
    Tracks base (s.closeArrows p) :=
  hs.closeArrows_induct p (fun _ _ _ hs hf ha h => h.closeTop hs hf (by rw [ha]; trivial) p) h

theorem explicit_closeArrows (s : Layout) (p : Position) :
    (s.closeArrows p).explicit = s.explicit := by
  rw [explicit, explicit, frames_closeArrows]
  induction s.frames with
  | nil => rfl
  | cons f rest ih =>
      by_cases ha : f.bracket = .arrow
      · rw [List.dropWhile_cons_of_pos (by simp [ha]), ih, List.filterMap_cons]
        simp [Frame.explicit?, ha]
      · rw [List.dropWhile_cons_of_neg (by simp [ha])]

theorem explicit_of_frames {p : Position} {frames : List Frame}
    (hd : (s.closeArrows p).frames = frames) :
    s.explicit = frames.filterMap Frame.explicit? := by
  rw [← explicit_closeArrows s p, explicit, hd]

/-- Without an open bracket of the text only the statement of the program is open. -/
theorem bottom_of_explicit (hst : Stacked s.frames) (he : s.explicit = []) (p : Position) :
    ∃ f, (s.closeArrows p).frames = [f] ∧ f.bracket = .statement := by
  obtain ⟨frames, hd, hinner⟩ := hst.innermost_closeArrows p
  rw [explicit_of_frames hd] at he
  cases hinner with
  | bottom hf => exact ⟨_, hd, hf⟩
  | paren hf _ => simp [Frame.explicit?, hf] at he
  | braces hf hg _ => simp [Frame.explicit?, hf, hg] at he

/-- The bracket that the lexeme closes, if it closes one, is open innermost in the text. -/
def Finds (s : Layout) (l : Lexeme) : Prop :=
  ∀ pair, l.mark? = some (.closes pair) → s.explicit.head? = some pair

theorem Lone.mark? {l : Lexeme} {kind : Token.Kind} (h : Lone l kind) :
    l.mark? = none ∧ kind.mark? = none := by
  cases h with
  | less | operator | quoted => exact ⟨rfl, rfl⟩
  | word content => exact ⟨rfl, Token.Kind.mark?_ofWord content⟩

section
variable {p : Position} {l : Lexeme} {kind : Token.Kind} {next : Layout}

theorem Stray.scan (h : Stray s p l kind) : Mark.scan s.explicit l.mark?.toList = none := by
  cases h with
  | @paren f rest hd hf hfloor =>
      rw [explicit_of_frames hd]
      cases rest with
      | nil => simp [Frame.explicit?, hf, Lexeme.mark?, Mark.scan_cons, Mark.take]
      | cons g rest =>
          have hg := hfloor g rfl
          simp [Frame.explicit?, hf, hg, Lexeme.mark?, Mark.scan_cons, Mark.take]
  | bottom hd hf | held hd hf =>
      rw [explicit_of_frames hd]
      simp [Frame.explicit?, hf, Lexeme.mark?, Mark.scan_cons, Mark.take]

theorem Stray.not_finds (h : Stray s p l kind) : ¬ s.Finds l := by
  intro hfind
  have hnone := h.scan
  cases h with
  | paren | bottom | held =>
      obtain ⟨pairs, hpairs⟩ := List.head?_eq_some_iff.1 (hfind _ rfl)
      rw [hpairs, Lexeme.mark?, Option.toList_some, Mark.scan_closes] at hnone
      cases hnone

/-- A lexeme that finds its bracket changes the open brackets as a scan of the text does. -/
theorem Taken.explicit (ht : Taken s p l next) (hfind : s.Finds l) :
    Mark.scan s.explicit l.mark?.toList = some next.explicit := by
  cases ht with
  | blank | unclosed | ignored | joined | arrow | parenOpen | braceOpen => rfl
  | token hl =>
      rw [hl.mark?.1]
      rfl
  | @broken f rest hd hf _ =>
      have hskip : f.explicit? = none := by simp only [Frame.explicit?, hf]
      rw [explicit_of_frames hd, List.filterMap_cons_none hskip, Layout.explicit, openStatement,
        Layout.openWith, frames_closeTop p hd]
      rfl
  | parenClose hd hf =>
      rw [explicit_of_frames hd]
      simp [Frame.explicit?, hf, Lexeme.mark?, Layout.explicit, Layout.emit]
  | braceClose hd hf hg =>
      rw [explicit_of_frames hd]
      simp [Frame.explicit?, hf, hg, Lexeme.mark?, Layout.explicit, Layout.emit]
  | stray hl => exact absurd hfind hl.not_finds

/-- A closer finds its bracket or is stray. -/
theorem Taken.finds_or_stray (ht : Taken s p l next) :
    s.Finds l ∨ ∃ kind, Stray s p l kind ∧ next = (s.closeArrows p).emit kind p := by
  cases ht with
  | token hl => exact .inl fun pair hpair => by rw [hl.mark?.1] at hpair; cases hpair
  | parenClose hd hf | braceClose hd hf hg =>
      refine .inl fun pair hpair => ?_
      cases hpair
      rw [explicit_of_frames hd]
      simp [Frame.explicit?, *]
  | stray hl => exact .inr ⟨_, hl, rfl⟩
  | _ => exact .inl fun pair hpair => by cases hpair

/-- While the brackets of the text match, the stream and the layout stay in step. -/
theorem Tracks.taken (h : Tracks base s) (hs : s.Anchored) (ht : Taken s p l next)
    (hfind : s.Finds l) : Tracks base next := by
  have harrows := h.closeArrows hs p
  have hanchored := hs.closeArrows p
  cases ht with
  | blank | unclosed | ignored | joined => exact h
  | token hl => exact h.emit hs hl.mark?.2 p
  | arrow => exact (h.emit hs rfl p).openWith (hs.emit .arrow p) .arrow p
  | parenOpen => exact h.openWith hs .paren p
  | braceOpen => exact (h.openWith hs .brace p).openWith (hs.openWith .brace p) .statement p
  | broken hd hf _ =>
      exact (harrows.closeTop hanchored hd (by rw [hf]; trivial) p).openWith
        (hanchored.closeTop hd p) .statement _
  | parenClose hd hf => exact harrows.close hanchored hd (by rw [Frame.pair, hf]; rfl) p
  | braceClose hd hf hg =>
      exact (harrows.closeTop hanchored hd (by rw [hf]; trivial) p).close (hanchored.closeTop hd p)
        (frames_closeTop p hd) (by rw [Frame.pair, hg]; rfl) p
  | stray hl => exact absurd hfind hl.not_finds

end

end

/-- What is known of a layout after a text with these brackets. -/
inductive Standing (word : List Mark) (s : Layout) : Prop
  /-- So far every closer had its opener. -/
  | live : Tracks [] s → Mark.scan [] word = some s.explicit → Standing word s
  /-- A brace was closed at the level of the program, and the stream lacks a block. -/
  | spent : Tracks [.curly] s → Mark.scan [] word = none → Standing word s
  /-- The stream begins with tokens that close the program block or more, and goes on. -/
  | doomed {first : Token} {front : List Token} : Keeps (first :: front) s →
      (∀ reached, Mark.scan [.curly] (Token.marks front) = some reached → reached = []) →
      Mark.scan [] word = none → Standing word s

section
variable {s : Layout} {f : Frame} {rest : List Frame} {tail : List Pair}

/-- What is open of the whole stream, the program block included. -/
def OpenAbove (tail : List Pair) (s : Layout) : Prop :=
  Mark.scan [.curly] (Token.marks s.inner) = some (s.frames.map Frame.pair ++ tail)

theorem Tracks.openAbove_live (h : Tracks [] s) : OpenAbove [.curly] s :=
  Mark.scan_above [.curly] h

theorem Tracks.openAbove_spent (h : Tracks [.curly] s) : OpenAbove [] s := by
  rw [OpenAbove, List.append_nil]
  exact h

/-- Tokens that no parse survives are there to stay. -/
theorem doomed_emit {word : List Mark} (hs : s.Anchored) {kind : Token.Kind} (p : Position)
    (hscan : ∀ reached, Mark.scan [.curly] (Token.marks (s.emit kind p).inner) = some reached →
      reached = [])
    (hw : Mark.scan [] word = none) : Standing word (s.emit kind p) := by
  have hsize : 0 < (s.emit kind p).tokens.toList.length := by simp [emit]
  obtain ⟨first, front, hfront⟩ := List.exists_cons_of_length_pos hsize
  have hkeeps : Keeps (first :: front) (s.emit kind p) := by
    refine ⟨hfront ▸ List.prefix_refl _, fun f hf => ?_⟩
    have hlt := hs.lt_size hf
    rw [← hfront, Array.length_toList, emit, Array.size_push]
    omega
  rw [inner, hfront] at hscan
  exact .doomed hkeeps hscan hw

/-- A closer of the wrong sort. -/
theorem standing_of_mismatch {word : List Mark} (hs : s.Anchored) (h : OpenAbove tail s)
    (hf : s.frames = f :: rest) {kind : Token.Kind} {p : Pair}
    (hk : kind.mark? = some (.closes p)) (hne : f.pair ≠ p) (q : Position)
    (hw : Mark.scan [] word = none) : Standing word (s.emit kind q) := by
  refine doomed_emit hs q (fun reached hr => ?_) hw
  rw [marks_emit hs, hk, Option.toList_some, Mark.scan_snoc h, hf] at hr
  simp [Mark.take, hne] at hr

/-- A stray closer: fatal, except for a brace at the level of the program, which costs a block. -/
theorem Stray.standing {word : List Mark} {p : Position} {l : Lexeme} {kind : Token.Kind}
    (h : Stray s p l kind) (hs : s.Anchored) (hopen : OpenAbove tail (s.closeArrows p))
    (hw : Mark.scan [] word = none)
    (hbottom : ∀ f, (s.closeArrows p).frames = [f] → f.bracket = .statement →
      Standing word ((s.closeArrows p).emit .blockClose p)) :
    Standing word ((s.closeArrows p).emit kind p) := by
  have hanchored := hs.closeArrows p
  cases h with
  | paren hd hf _ =>
      exact standing_of_mismatch hanchored hopen hd rfl (by simp [Frame.pair, hf]) p hw
  | bottom hd hf => exact hbottom _ hd hf
  | held hd hf =>
      exact standing_of_mismatch hanchored hopen hd rfl (by simp [Frame.pair, hf]) p hw

theorem scan_emit_blockClose (hs : s.Anchored) (h : OpenAbove tail s)
    (hf : s.frames = f :: rest) (hp : f.pair = .curly) (p : Position) :
    Mark.scan [.curly] (Token.marks (s.emit .blockClose p).inner) =
      some (rest.map Frame.pair ++ tail) := by
  rw [marks_emit hs, show (Token.Kind.blockClose).mark?.toList = [.closes .curly] from rfl,
    Mark.scan_snoc h, hf]
  simp [Mark.take, hp]

end

theorem scan_none_append {word : List Mark} (h : Mark.scan [] word = none) (more : List Mark) :
    Mark.scan [] (word ++ more) = none := by
  rw [Mark.scan_append, h]
  rfl

/-- One more lexeme. -/
theorem Standing.taken {word : List Mark} {s next : Layout} (h : Standing word s)
    (hs : s.Anchored) {p : Position} {l : Lexeme} (ht : Taken s p l next) (hm : Moves s next) :
    Standing (word ++ l.mark?.toList) next := by
  cases h with
  | doomed hk hf hw => exact .doomed (hm.keeps hk) hf (scan_none_append hw _)
  | spent htracks hw =>
      have hw' := scan_none_append hw l.mark?.toList
      obtain hfind | ⟨kind, hstray, rfl⟩ := ht.finds_or_stray
      · exact .spent (htracks.taken hs ht hfind) hw'
      · have hopen := (htracks.closeArrows hs p).openAbove_spent
        refine hstray.standing hs hopen hw' fun f hd hf => ?_
        refine doomed_emit (hs.closeArrows p) p (fun reached hr => ?_) hw'
        rw [scan_emit_blockClose (hs.closeArrows p) hopen hd (by simp [Frame.pair, hf])] at hr
        exact (Option.some.inj hr).symm
  | live htracks hw =>
      have hword : Mark.scan [] (word ++ l.mark?.toList) = Mark.scan s.explicit l.mark?.toList := by
        rw [Mark.scan_append, hw]
        rfl
      obtain hfind | ⟨kind, hstray, rfl⟩ := ht.finds_or_stray
      · exact .live (htracks.taken hs ht hfind) (hword.trans (ht.explicit hfind))
      · have hw' := hword.trans hstray.scan
        have hopen := (htracks.closeArrows hs p).openAbove_live
        refine hstray.standing hs hopen hw' fun f hd hf => .spent ?_ hw'
        -- The statement is closed in the stream and stays open in the layout.
        have hp : f.pair = .curly := by simp [Frame.pair, hf]
        rw [Tracks, scan_emit_blockClose (hs.closeArrows p) hopen hd hp, emit, hd]
        simp [hp]

theorem Standing.step {word : List Mark} {s : Layout} (h : Standing word s) (hs : s.Anchored)
    (hst : Stacked s.frames) (p : Position) (l : Lexeme) :
    Standing (word ++ l.mark?.toList) (s.step (p, l)) :=
  h.taken hs (step_taken hst p l) (step_moves s (p, l))

theorem standing_start : Standing [] start := .live rfl rfl

theorem append_marks_cons (word : List Mark) (l : Lexeme) (ls : List Lexeme) :
    word ++ (l :: ls).filterMap Lexeme.mark? =
      (word ++ l.mark?.toList) ++ ls.filterMap Lexeme.mark? := by
  cases hm : l.mark? <;> simp [hm]

/-- Every text leaves its layout in good order and in a known standing. -/
theorem standing_foldl {word : List Mark} {s : Layout} (h : Standing word s) (hs : s.Anchored)
    (hst : Stacked s.frames) (p : Position) (ls : List Lexeme) :
    let last := (Lexeme.place p ls).foldl Layout.step s
    Standing (word ++ ls.filterMap Lexeme.mark?) last ∧ last.Anchored ∧ Stacked last.frames := by
  induction ls generalizing word s p with
  | nil => exact ⟨by simpa [Lexeme.place] using h, hs, hst⟩
  | cons l ls ih =>
      rw [append_marks_cons]
      exact ih (h.step hs hst p l) (hs.step (p, l)) (hst.step (p, l)) _

def programOpener : Token := ⟨.blockOpen false, .ofPosition .start⟩

theorem keeps_programOpener_start : Keeps [programOpener] start := by
  refine ⟨⟨_, rfl⟩, fun f hf => ?_⟩
  have hpos := (anchored_start.pointed f hf).1
  simp only [List.length_singleton]
  omega

theorem toList_of_moves {s : Layout} (h : Moves start s) :
    s.tokens.toList = programOpener :: s.inner := by
  obtain ⟨more, hmore⟩ := (h.keeps keeps_programOpener_start).begins
  rw [inner, ← hmore]
  rfl

section
variable {s : Layout} {base tail : List Pair}

/-- The end of a text in which a bracket of the text is open leaves the program block open, or
closes something else in its place. -/
theorem scan_finish_ne_nil (h : Tracks base s) (hs : s.Anchored) (hst : Stacked s.frames)
    (htail : ∀ {s : Layout}, Tracks base s → OpenAbove tail s) (p : Position)
    (hbottom : ∀ f, (s.closeArrows p).frames = [f] → f.bracket = .statement →
      Mark.scan [.curly] (Token.marks (s.finish p).inner) ≠ some []) :
    Mark.scan [.curly] (Token.marks (s.finish p).inner) ≠ some [] := by
  have h₁ := h.closeArrows hs p
  have hs₁ := hs.closeArrows p
  obtain ⟨frames, hd, hinner⟩ := hst.innermost_closeArrows p
  cases hinner with
  | bottom hf => exact hbottom _ hd hf
  | paren hf _ =>
      rw [finish_of_paren p hd hf, marks_emit hs₁, Token.Kind.mark?, Option.toList_some,
        Mark.scan_snoc (htail h₁), hd]
      simp [Mark.take, Frame.pair, hf]
  | @braces f g rest hf hg hr =>
      have hi : f.bracket.Implicit := by rw [hf]; trivial
      have ht : ((s.closeArrows p).closeTop p).frames = g :: rest := frames_closeTop p hd
      rw [finish_of_statement p hd hf, scan_emit_blockClose (hs₁.closeTop hd p)
        (htail (h₁.closeTop hs₁ hd hi p)) ht (by simp [Frame.pair, hg])]
      cases hr <;> simp

/-- Brackets that are not well nested are never accepted. -/
theorem Standing.rejected {word : List Mark} (h : Standing word s) (hm : Moves start s)
    (hst : Stacked s.frames) (hw : Mark.scan [] word ≠ some []) (p : Position) (root : Node) :
    Parser.run (.ready []) (s.finish p).tokens.toList ≠ .ok (.complete root) := by
  have hs := hm.anchored anchored_start
  intro hr
  rw [toList_of_moves (hm.trans (finish_moves s p))] at hr
  have hopener : programOpener.kind = .blockOpen false := rfl
  obtain ⟨hscan, hearly⟩ := Parser.scan_of_accepted hopener hr
  cases h with
  | live ht hword =>
      refine scan_finish_ne_nil ht hs hst Tracks.openAbove_live p (fun f hd hf => ?_) hscan
      have he : s.explicit = [] := by
        rw [explicit_of_frames hd]
        simp [Frame.explicit?, hf]
      exact absurd (hword.trans (by rw [he])) hw
  | spent ht hword =>
      refine scan_finish_ne_nil ht hs hst Tracks.openAbove_spent p (fun f hd hf => ?_) hscan
      have hi : f.bracket.Implicit := by rw [hf]; trivial
      have h₂ := (ht.closeArrows hs p).closeTop (hs.closeArrows p) hd hi p
      have hs₂ := (hs.closeArrows p).closeTop hd p
      rw [finish_of_statement p hd hf, marks_emit hs₂, Token.Kind.mark?, Option.toList_some,
        Mark.scan_snoc h₂, closeTop_of_frames p hd]
      simp [Mark.take]
  | @doomed first front hk hfatal hword =>
      -- The text ends with one more token, behind those that decide.
      have hclosed : Moves s ((s.closeArrows p).closeStatement p) :=
        (closeArrows_moves s p).trans (closeStatement_moves _ p)
      have hk' := hclosed.keeps hk
      obtain ⟨more, hmore⟩ := hk'.begins
      have hfinal : (s.finish p).inner = front ++ (more ++ [⟨.blockClose, .ofPosition p⟩]) := by
        rw [inner, finish, emit, Array.toList_push, ← hmore]
        simp
      rw [hfinal] at hscan hearly
      rw [Token.marks_append] at hscan
      obtain ⟨reached, hreached⟩ := Mark.scan_prefix (List.prefix_append _ _) hscan
      obtain ⟨token, back, hback⟩ : ∃ token back, more ++ [⟨.blockClose, .ofPosition p⟩] =
          token :: back := List.exists_cons_of_ne_nil (by simp)
      apply hearly front token back (by rw [hback])
      rw [hreached, hfatal reached hreached]

/-- Well-nested brackets of a text end in a well-nested program block. -/
theorem Standing.nested {word : List Mark} (h : Standing word s) (hs : s.Anchored)
    (hst : Stacked s.frames) (hw : Mark.scan [] word = some []) (p : Position) :
    ∃ inner last, (s.finish p).inner = inner ++ [last] ∧ last.kind = .blockClose ∧
      WellNested (Token.marks inner) := by
  cases h with
  | spent _ hword => rw [hw] at hword; cases hword
  | doomed _ _ hword => rw [hw] at hword; cases hword
  | live ht hword =>
      have he : s.explicit = [] := (Option.some.inj (hw.symm.trans hword)).symm
      obtain ⟨f, hd, hf⟩ := bottom_of_explicit hst he p
      have hs₁ := hs.closeArrows p
      have h₂ := (ht.closeArrows hs p).closeTop hs₁ hd (by rw [hf]; trivial) p
      rw [Tracks, closeTop_of_frames p hd] at h₂
      refine ⟨((s.closeArrows p).closeTop p).inner, ⟨.blockClose, .ofPosition p⟩, ?_, rfl, ?_⟩
      · rw [finish_of_statement p hd hf, inner, emit, inner_push (hs₁.closeTop hd p).started]
        rfl
      · rw [wellNested_iff_scan, closeTop_of_frames p hd]
        exact h₂

end

end Layout

open Layout

theorem Lexeme.mem_of_mem_place {p start : Position} {l : Lexeme} {ls : List Lexeme}
    (h : (p, l) ∈ place start ls) : l ∈ ls := by
  induction ls generalizing start with
  | nil => cases h
  | cons first ls ih =>
      rcases List.mem_cons.1 h with heq | htail
      · cases heq
        exact List.mem_cons_self
      · exact List.mem_cons_of_mem _ (ih htail)

/-- Only a quote without a partner keeps a text from being laid out. -/
theorem tokenize_of_closed {source : String}
    (h : ∀ l ∈ Lexeme.all source.toList, ∀ content, l ≠ .unclosed content) :
    tokenize source = .ok (Layout.ofSource source.toList) := by
  simp only [tokenize]
  split
  next p hsome =>
    obtain ⟨⟨q, l⟩, hmem, hl⟩ := List.exists_of_findSome?_eq_some hsome
    cases l with
    | unclosed content => exact absurd rfl (h _ (Lexeme.mem_of_mem_place hmem) content)
    | _ => cases hl
  next => rfl

theorem eq_ofSource_of_tokenize {source : String} {layout : Layout}
    (h : tokenize source = .ok layout) : layout = Layout.ofSource source.toList := by
  simp only [tokenize] at h
  split at h
  · cases h
  · exact (Except.ok.inj h).symm

theorem parse_of_tokenize {source : String} {layout : Layout} (h : tokenize source = .ok layout)
    (limit : Nat) : parse source limit = parseTokens limit layout.tokens.toList := by
  rw [parse, h]
  rfl

theorem tokenize_of_quotesPaired {source : String} (h : QuotesPaired source.toList) :
    tokenize source = .ok (Layout.ofSource source.toList) :=
  tokenize_of_closed fun _ hl content => Lexeme.ne_unclosed_of_quotesPaired h hl content

theorem Parser.parseTokens_of_not_accepted {tokens : List Token}
    (h : ∀ root, run (.ready []) tokens ≠ .ok (.complete root)) (limit : Nat) :
    ∃ e, parseTokens limit tokens = .error e ∧ (tokens.length ≤ limit → e.kind = "ParseError") := by
  by_cases ho : Overflows limit (.ready []) tokens
  · exact ⟨.tooDeep, parseTokens_eq_tooDeep ho, fun hle => absurd ho.lt_length (by omega)⟩
  · rw [parseTokens_eq_run ho]
    cases hp : run (.ready []) tokens >>= finish with
    | ok tree => exact absurd (run_bind_finish_eq_ok.1 hp) (h tree)
    | error e => exact ⟨e, rfl, fun _ => run_bind_finish_error_kind hp⟩

/-- The brackets of a text outside its string literals decide: well nested, they become one
program block with every bracket matched, and no error is about brackets; otherwise there is an
error, and with a limit on nesting that the tokens cannot reach it is one of the parser. -/
theorem skeleton_decides_nesting (source : String) (h : QuotesPaired source.toList) :
    ∃ layout, tokenize source = .ok layout ∧
      (WellNested (skeleton source.toList) →
        (∃ first inner last, layout.tokens.toList = first :: (inner ++ [last]) ∧
          first.kind = .blockOpen false ∧ last.kind = .blockClose ∧
          WellNested (Token.marks inner)) ∧
        ∀ limit e, parse source limit = .error e → ¬ e.Unbalanced) ∧
      (¬ WellNested (skeleton source.toList) →
        ∀ limit, ∃ e, parse source limit = .error e ∧
          (layout.tokens.size ≤ limit → e.kind = "ParseError")) := by
  refine ⟨_, tokenize_of_quotesPaired h, ?_⟩
  obtain ⟨hstanding, hs, hst⟩ := standing_foldl standing_start anchored_start stacked_start
    .start (Lexeme.all source.toList)
  rw [List.nil_append, Lexeme.filterMap_mark?_all] at hstanding
  have hm := foldl_step_moves start (Lexeme.place .start (Lexeme.all source.toList))
  constructor
  · intro hw
    obtain ⟨inner, last, hinner, hlast, hnested⟩ := hstanding.nested hs hst
      (wellNested_iff_scan.1 hw) (Position.start.advance source.toList)
    have hlist : (Layout.ofSource source.toList).tokens.toList =
        programOpener :: (inner ++ [last]) := by
      rw [toList_of_moves (ofSource_moves _), ← hinner]
      rfl
    refine ⟨⟨_, _, _, hlist, rfl, hlast, hnested⟩, fun limit e he => ?_⟩
    rw [parse_of_tokenize (tokenize_of_quotesPaired h), hlist] at he
    exact Parser.parseTokens_not_unbalanced rfl hlast hnested he
  · intro hw limit
    have hrejected := hstanding.rejected hm hst (fun hscan => hw (wellNested_iff_scan.2 hscan))
      (Position.start.advance source.toList)
    rw [parse_of_tokenize (tokenize_of_quotesPaired h), ← Array.length_toList]
    exact Parser.parseTokens_of_not_accepted hrejected limit

/-- A brace in a string literal does not count, a closer before its opener is an error. -/
theorem skeleton_decides_nesting_samples :
    (∃ layout, tokenize "F(\"\x7d\")" = .ok layout ∧ ∃ first inner last,
      layout.tokens.toList = first :: (inner ++ [last]) ∧ first.kind = .blockOpen false ∧
      last.kind = .blockClose ∧ WellNested (Token.marks inner)) ∧
    (∃ layout, tokenize "\x7d x <- (1 \x7b" = .ok layout ∧
      ∀ limit, ∃ e, parse "\x7d x <- (1 \x7b" limit = .error e ∧
        (layout.tokens.size ≤ limit → e.kind = "ParseError")) := by
  constructor
  · obtain ⟨layout, ht, hgood, -⟩ := skeleton_decides_nesting "F(\"\x7d\")" (by decide +kernel)
    exact ⟨layout, ht, (hgood (wellNested_iff_scan.2 (by decide +kernel))).1⟩
  · obtain ⟨layout, ht, -, hbad⟩ :=
      skeleton_decides_nesting "\x7d x <- (1 \x7b" (by decide +kernel)
    refine ⟨layout, ht, hbad fun hw => ?_⟩
    exact absurd (wellNested_iff_scan.1 hw) (by decide +kernel)

end Pseudocode
