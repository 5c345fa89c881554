import Mathlib.Logic.Relation
import Pseudocode.Layout

/-!
# The open brackets of a layout

Every lexeme changes the layout by a few elementary moves: a token is added, a bracket
is opened, an implicit block ends, an explicit one is left. What all moves keep is shown
of the moves alone, and holds in unbalanced texts too.

Which moves a closing lexeme makes depends on the innermost bracket that is no arrow.
There are three cases, and each has an equation below.
-/
namespace Pseudocode.Layout

def Bracket.opener : Bracket → Token.Kind
  | statement | arrow => .blockOpen false
  | brace => .blockOpen true
  | paren => .argumentsOpen

/-- A bracket that does not stand in the text. -/
def Bracket.Implicit : Bracket → Prop
  | statement | arrow => True
  | brace | paren => False

/-- Ends the innermost bracket as an implicit one. -/
def closeTop (s : Layout) (p : Position) : Layout :=
  match s.frames with
  | f :: rest => { s with tokens := closeBlock p s.tokens f, frames := rest }
  | [] => s

theorem closeTop_of_frames {s : Layout} {f : Frame} {rest : List Frame} (p : Position)
    (h : s.frames = f :: rest) :
    s.closeTop p = { s with tokens := closeBlock p s.tokens f, frames := rest } := by
  simp only [closeTop, h]

theorem frames_closeTop {s : Layout} {f : Frame} {rest : List Frame} (p : Position)
    (h : s.frames = f :: rest) : (s.closeTop p).frames = rest := by
  rw [closeTop_of_frames p h]

inductive Move : Layout → Layout → Prop
  | emit (s : Layout) (kind : Token.Kind) (p : Position) : Move s (s.emit kind p)
  | opened (s : Layout) (bracket : Bracket) (p : Position) :
      Move s (s.openWith bracket bracket.opener p)
  | ended {s : Layout} {f : Frame} {rest : List Frame} (p : Position) :
      s.frames = f :: rest → f.bracket.Implicit → Move s (s.closeTop p)
  | left {s : Layout} {f : Frame} {rest : List Frame} :
      s.frames = f :: rest → Move s { s with frames := rest }
  | ignored (s : Layout) (diagnostics : Array Diagnostic) :
      Move s { s with diagnostics := diagnostics }

abbrev Moves : Layout → Layout → Prop := Relation.ReflTransGen Move

theorem closeArrows_of_arrow {s : Layout} {f : Frame} {rest : List Frame} (p : Position)
    (h : s.frames = f :: rest) (ha : f.bracket = .arrow) :
    s.closeArrows p = (s.closeTop p).closeArrows p := by
  simp [closeArrows, closeTop_of_frames p h, h, ha]

theorem closeArrows_of_not_arrow {s : Layout} (p : Position)
    (h : ∀ f ∈ s.frames.head?, f.bracket ≠ .arrow) : s.closeArrows p = s := by
  obtain ⟨tokens, frames, diagnostics⟩ := s
  cases frames with
  | nil => rfl
  | cons f rest =>
      have ha : f.bracket ≠ .arrow := h f rfl
      simp [closeArrows, ha]

theorem frames_closeArrows (s : Layout) (p : Position) :
    (s.closeArrows p).frames = s.frames.dropWhile (·.bracket = .arrow) := rfl

/-- What the end of one right-hand side keeps, the end of all of them keeps. -/
theorem closeArrows_induct {P : Layout → Prop} (p : Position)
    (hP : ∀ (s : Layout) (f : Frame) (rest : List Frame), s.frames = f :: rest →
      f.bracket = .arrow → P s → P (s.closeTop p))
    (s : Layout) (hs : P s) : P (s.closeArrows p) := by
  induction hf : s.frames generalizing s with
  | nil =>
      rw [closeArrows_of_not_arrow p (by simp [hf])]
      exact hs
  | cons f rest ih =>
      by_cases ha : f.bracket = .arrow
      · rw [closeArrows_of_arrow p hf ha]
        exact ih _ (hP s f rest hf ha hs) (frames_closeTop p hf)
      · rw [closeArrows_of_not_arrow p (by simpa [hf] using ha)]
        exact hs

theorem closeStatement_of_statement {s : Layout} {f : Frame} {rest : List Frame} (p : Position)
    (h : s.frames = f :: rest) (hb : f.bracket = .statement) :
    s.closeStatement p = s.closeTop p := by
  obtain ⟨bracket, opener⟩ := f
  simp only at hb
  subst hb
  simp only [closeStatement, closeTop, h]

theorem closeStatement_of_not_statement {s : Layout} (p : Position)
    (h : ∀ f ∈ s.frames.head?, f.bracket ≠ .statement) : s.closeStatement p = s := by
  cases hf : s.frames with
  | nil => simp only [closeStatement, hf]
  | cons f rest =>
      obtain ⟨bracket, opener⟩ := f
      have hb : bracket ≠ .statement := h ⟨bracket, opener⟩ (by simp [hf])
      cases bracket with
      | statement => exact absurd rfl hb
      | brace => simp only [closeStatement, hf]
      | paren => simp only [closeStatement, hf]
      | arrow => simp only [closeStatement, hf]

/-- A statement is open innermost, or something else is. -/
theorem statement_or_not (frames : List Frame) :
    (∃ f rest, frames = f :: rest ∧ f.bracket = .statement) ∨
      ∀ f ∈ frames.head?, f.bracket ≠ .statement := by
  cases frames with
  | nil => exact .inr fun f hf => by cases hf
  | cons f rest =>
      by_cases hb : f.bracket = .statement
      · exact .inl ⟨f, rest, rfl, hb⟩
      · exact .inr fun g hg => by rwa [← Option.some.inj hg]

/-- At the bottom lies a statement. Parentheses and arrows lie on anything, and braces have a
statement directly on them. -/
inductive Stacked : List Frame → Prop
  | bottom {f : Frame} : f.bracket = .statement → Stacked [f]
  | paren {f : Frame} {rest : List Frame} : f.bracket = .paren → Stacked rest → Stacked (f :: rest)
  | arrow {f : Frame} {rest : List Frame} : f.bracket = .arrow → Stacked rest → Stacked (f :: rest)
  | braces {f g : Frame} {rest : List Frame} : f.bracket = .statement → g.bracket = .brace →
      Stacked rest → Stacked (f :: g :: rest)

/-- The innermost bracket that is no arrow, with the brackets around it. -/
inductive Innermost : List Frame → Prop
  | bottom {f : Frame} : f.bracket = .statement → Innermost [f]
  | paren {f : Frame} {rest : List Frame} : f.bracket = .paren → Stacked rest →
      Innermost (f :: rest)
  | braces {f g : Frame} {rest : List Frame} : f.bracket = .statement → g.bracket = .brace →
      Stacked rest → Innermost (f :: g :: rest)

theorem Stacked.innermost {frames : List Frame} (h : Stacked frames) :
    Innermost (frames.dropWhile (·.bracket = .arrow)) := by
  induction h with
  | bottom hf => rw [List.dropWhile_cons_of_neg (by simp [hf])]; exact .bottom hf
  | paren hf hr => rw [List.dropWhile_cons_of_neg (by simp [hf])]; exact .paren hf hr
  | arrow hf _ ih => rw [List.dropWhile_cons_of_pos (by simp [hf])]; exact ih
  | braces hf hg hr => rw [List.dropWhile_cons_of_neg (by simp [hf])]; exact .braces hf hg hr

/-- The frames that are left when the right-hand sides end. -/
theorem Stacked.innermost_closeArrows {s : Layout} (h : Stacked s.frames) (p : Position) :
    ∃ frames, (s.closeArrows p).frames = frames ∧ Innermost frames := ⟨_, rfl, h.innermost⟩

section
variable {s : Layout} {f g : Frame} {rest : List Frame} (p : Position)

theorem insideParen_iff : s.insideParen = true ↔
    ∃ f rest, s.frames.dropWhile (·.bracket = .arrow) = f :: rest ∧ f.bracket = .paren := by
  unfold insideParen
  split
  · rename_i f rest h
    simp [h]
  · rename_i h
    simp [h]

theorem breakLine_of_paren (h : (s.closeArrows p).frames = f :: rest) (hf : f.bracket = .paren) :
    s.breakLine p = s := by
  have hp : s.insideParen = true := insideParen_iff.2 ⟨f, rest, h, hf⟩
  rw [breakLine, if_pos hp]

theorem breakLine_of_statement (h : (s.closeArrows p).frames = f :: rest)
    (hf : f.bracket = .statement) :
    s.breakLine p = ((s.closeArrows p).closeTop p).openStatement (p.next '\n') := by
  have hp : ¬ s.insideParen = true := by
    rw [insideParen_iff]
    rintro ⟨f', rest', h', hf'⟩
    rw [frames_closeArrows] at h
    rw [h] at h'
    cases h'
    rw [hf] at hf'
    cases hf'
  rw [breakLine, if_neg hp, closeStatement_of_statement p h hf]

theorem closeParen_of_paren (h : (s.closeArrows p).frames = f :: rest) (hf : f.bracket = .paren) :
    s.closeParen p = ({ s.closeArrows p with frames := rest } : Layout).emit .argumentsClose p := by
  simp only [closeParen, leave, h, hf, if_true]

theorem closeParen_of_statement (h : (s.closeArrows p).frames = f :: rest)
    (hf : f.bracket = .statement) :
    s.closeParen p = (s.closeArrows p).emit .argumentsClose p := by
  simp [closeParen, leave, h, hf]

theorem closeBrace_of_braces (h : (s.closeArrows p).frames = f :: g :: rest)
    (hf : f.bracket = .statement) (hg : g.bracket = .brace) :
    s.closeBrace p =
      ({ (s.closeArrows p).closeTop p with frames := rest } : Layout).emit .blockClose p := by
  have hin : (s.closeArrows p).insideBrace = true := by
    obtain ⟨b, i⟩ := f
    obtain ⟨c, j⟩ := g
    simp only at hf hg
    subst hf hg
    simp only [insideBrace, h]
  have ht : ((s.closeArrows p).closeTop p).frames = g :: rest := frames_closeTop p h
  simp only [closeBrace, hin, if_true]
  rw [closeStatement_of_statement p h hf]
  simp only [leave, ht, hg, if_true]

theorem closeBrace_of_bottom (h : (s.closeArrows p).frames = [f]) (hf : f.bracket = .statement) :
    s.closeBrace p = (s.closeArrows p).emit .blockClose p := by
  have hin : (s.closeArrows p).insideBrace = false := by simp [insideBrace, h]
  simp [closeBrace, hin, leave, h, hf]

theorem closeBrace_of_paren (h : (s.closeArrows p).frames = f :: rest) (hf : f.bracket = .paren) :
    s.closeBrace p = (s.closeArrows p).emit .blockClose p := by
  have hin : (s.closeArrows p).insideBrace = false := by
    obtain ⟨b, i⟩ := f
    simp only at hf
    subst hf
    simp [insideBrace, h]
  simp [closeBrace, hin, leave, h, hf]

theorem finish_of_statement (h : (s.closeArrows p).frames = f :: rest)
    (hf : f.bracket = .statement) :
    s.finish p = ((s.closeArrows p).closeTop p).emit .blockClose p := by
  rw [finish, closeStatement_of_statement p h hf]

theorem finish_of_paren (h : (s.closeArrows p).frames = f :: rest) (hf : f.bracket = .paren) :
    s.finish p = (s.closeArrows p).emit .blockClose p := by
  rw [finish, closeStatement_of_not_statement p (by simp [h, hf])]

end

/-- The token of a lexeme that opens and closes nothing. -/
inductive Lone : Lexeme → Token.Kind → Prop
  | less : Lone .less .less
  | operator (c : Char) : Lone (.operator c) (.operation (String.singleton c))
  | quoted (content : List Char) : Lone (.quoted content) (.text (String.ofList content))
  | word (content : List Char) : Lone (.word content) (.ofWord content)

/-- A closer at `p` that does not find its bracket open innermost. -/
inductive Stray (s : Layout) (p : Position) : Lexeme → Token.Kind → Prop
  | paren {f : Frame} {rest : List Frame} : (s.closeArrows p).frames = f :: rest →
      f.bracket = .statement → (∀ g ∈ rest.head?, g.bracket = .brace) →
      Stray s p .parenClose .argumentsClose
  | bottom {f : Frame} : (s.closeArrows p).frames = [f] → f.bracket = .statement →
      Stray s p .braceClose .blockClose
  | held {f : Frame} {rest : List Frame} : (s.closeArrows p).frames = f :: rest →
      f.bracket = .paren → Stray s p .braceClose .blockClose

/-- What becomes of a layout with a lexeme at `p`. Closers and line breaks first end the right-hand
sides that are open innermost, and the bracket behind these decides about the rest. -/
inductive Taken (s : Layout) (p : Position) : Lexeme → Layout → Prop
  | blank (c : Char) : Taken s p (.blank c) s
  | unclosed (content : List Char) : Taken s p (.unclosed content) s
  | ignored (c : Char) : Taken s p (.ignored c) { s with diagnostics := s.diagnostics.push ⟨c, p⟩ }
  | token {l : Lexeme} {kind : Token.Kind} : Lone l kind → Taken s p l (s.emit kind p)
  | arrow : Taken s p .arrow ((s.emit .arrow p).openWith .arrow Bracket.arrow.opener p)
  | parenOpen : Taken s p .parenOpen (s.openWith .paren Bracket.paren.opener p)
  | braceOpen : Taken s p .braceOpen ((s.openWith .brace Bracket.brace.opener p).openStatement p)
  | joined {f : Frame} {rest : List Frame} : (s.closeArrows p).frames = f :: rest →
      f.bracket = .paren → Taken s p .newline s
  | broken {f : Frame} {rest : List Frame} : (s.closeArrows p).frames = f :: rest →
      f.bracket = .statement → (∀ g ∈ rest.head?, g.bracket = .brace) →
      Taken s p .newline (((s.closeArrows p).closeTop p).openStatement (p.next '\n'))
  | parenClose {f : Frame} {rest : List Frame} : (s.closeArrows p).frames = f :: rest →
      f.bracket = .paren →
      Taken s p .parenClose
        (({ s.closeArrows p with frames := rest } : Layout).emit .argumentsClose p)
  | braceClose {f g : Frame} {rest : List Frame} : (s.closeArrows p).frames = f :: g :: rest →
      f.bracket = .statement → g.bracket = .brace →
      Taken s p .braceClose
        (({ (s.closeArrows p).closeTop p with frames := rest } : Layout).emit .blockClose p)
  | stray {l : Lexeme} {kind : Token.Kind} : Stray s p l kind →
      Taken s p l ((s.closeArrows p).emit kind p)

/-- The one case split on what a lexeme does. What a step keeps is shown along it. -/
theorem step_taken {s : Layout} (h : Stacked s.frames) (p : Position) (l : Lexeme) :
    Taken s p l (s.step (p, l)) := by
  obtain ⟨frames, hd, hinner⟩ := h.innermost_closeArrows p
  cases l with
  | newline =>
      rw [step]
      cases hinner with
      | bottom hf =>
          rw [breakLine_of_statement p hd hf]
          exact .broken hd hf fun g hg => by cases hg
      | paren hf _ =>
          rw [breakLine_of_paren p hd hf]
          exact .joined hd hf
      | braces hf hg _ =>
          rw [breakLine_of_statement p hd hf]
          exact .broken hd hf fun g' hg' => by cases hg'; exact hg
  | parenClose =>
      rw [step]
      cases hinner with
      | bottom hf =>
          rw [closeParen_of_statement p hd hf]
          exact .stray (.paren hd hf fun g hg => by cases hg)
      | paren hf _ =>
          rw [closeParen_of_paren p hd hf]
          exact .parenClose hd hf
      | braces hf hg _ =>
          rw [closeParen_of_statement p hd hf]
          exact .stray (.paren hd hf fun g' hg' => by cases hg'; exact hg)
  | braceClose =>
      rw [step]
      cases hinner with
      | bottom hf =>
          rw [closeBrace_of_bottom p hd hf]
          exact .stray (.bottom hd hf)
      | paren hf _ =>
          rw [closeBrace_of_paren p hd hf]
          exact .stray (.held hd hf)
      | braces hf hg _ =>
          rw [closeBrace_of_braces p hd hf hg]
          exact .braceClose hd hf hg
  | blank c => exact .blank c
  | ignored c => exact .ignored c
  | unclosed content => exact .unclosed content
  | arrow => exact .arrow
  | parenOpen => exact .parenOpen
  | braceOpen => exact .braceOpen
  | less => exact .token .less
  | operator c => exact .token (.operator c)
  | quoted content => exact .token (.quoted content)
  | word content => exact .token (.word content)

/-- The end of a text ends the statement that is open innermost, unless a parenthesis is. -/
theorem finish_cases {s : Layout} (h : Stacked s.frames) (p : Position) :
    ∃ f rest, (s.closeArrows p).frames = f :: rest ∧
      (f.bracket = .statement ∧ s.finish p = ((s.closeArrows p).closeTop p).emit .blockClose p ∨
        f.bracket = .paren ∧ s.finish p = (s.closeArrows p).emit .blockClose p) := by
  obtain ⟨frames, hd, hinner⟩ := h.innermost_closeArrows p
  cases hinner with
  | bottom hf | braces hf _ _ => exact ⟨_, _, hd, .inl ⟨hf, finish_of_statement p hd hf⟩⟩
  | paren hf _ => exact ⟨_, _, hd, .inr ⟨hf, finish_of_paren p hd hf⟩⟩

/-- Frames point to their openers, an inner one to a later token than an outer one. The first
token belongs to no frame. -/
structure Anchored (s : Layout) : Prop where
  started : 0 < s.tokens.size
  ordered : s.frames.Pairwise fun f g => g.opener < f.opener
  pointed : ∀ f ∈ s.frames, 0 < f.opener ∧
    ∃ token, s.tokens[f.opener]? = some token ∧ token.kind = f.bracket.opener

theorem Anchored.lt_size {s : Layout} (h : s.Anchored) {f : Frame} (hf : f ∈ s.frames) :
    f.opener < s.tokens.size := by
  obtain ⟨-, token, ht, -⟩ := h.pointed f hf
  exact (Array.getElem?_eq_some_iff.1 ht).choose

theorem Anchored.tail {s : Layout} {f : Frame} {rest : List Frame} (h : s.Anchored)
    (hf : s.frames = f :: rest) : ({ s with frames := rest } : Layout).Anchored where
  started := h.started
  ordered := (List.pairwise_cons.1 (hf ▸ h.ordered)).2
  pointed g hg := h.pointed g (hf ▸ List.mem_cons_of_mem f hg)

theorem Anchored.emit {s : Layout} (h : s.Anchored) (kind : Token.Kind) (p : Position) :
    (s.emit kind p).Anchored where
  started := by simp [Layout.emit]
  ordered := h.ordered
  pointed f hf := by
    obtain ⟨hpos, token, ht, hk⟩ := h.pointed f hf
    refine ⟨hpos, token, ?_, hk⟩
    rw [Layout.emit, Array.getElem?_push_lt (h.lt_size hf)]
    rw [Array.getElem?_eq_getElem (h.lt_size hf)] at ht
    exact ht

theorem Anchored.openWith {s : Layout} (h : s.Anchored) (bracket : Bracket) (p : Position) :
    (s.openWith bracket bracket.opener p).Anchored where
  started := by simp [Layout.openWith]
  ordered := List.pairwise_cons.2 ⟨fun _ hg => h.lt_size hg, h.ordered⟩
  pointed f hf := by
    rcases List.mem_cons.1 hf with rfl | hf
    · exact ⟨h.started, _, Array.getElem?_push_size, rfl⟩
    · exact (h.emit bracket.opener p).pointed f hf

/-- A frame with nothing in it has its opener at the end of the stream. -/
theorem Anchored.toList_of_last {s : Layout} (h : s.Anchored) {f : Frame} (hf : f ∈ s.frames)
    (hlast : f.opener + 1 = s.tokens.size) :
    ∃ token, s.tokens.toList = s.tokens.pop.toList ++ [token] ∧
      token.kind = f.bracket.opener := by
  obtain ⟨-, token, ht, hk⟩ := h.pointed f hf
  have hget : s.tokens.toList.getLast? = some token := by
    rw [List.getLast?_eq_getElem?, Array.length_toList, ← hlast, Nat.add_sub_cancel]
    simpa using ht
  obtain ⟨front, hfront⟩ := List.getLast?_eq_some_iff.1 hget
  refine ⟨token, ?_, hk⟩
  rw [Array.toList_pop, hfront, List.dropLast_concat]

/-- Taking the opener of the innermost frame back leaves the other openers in place. -/
theorem Anchored.closeTop {s : Layout} {f : Frame} {rest : List Frame} (h : s.Anchored)
    (hf : s.frames = f :: rest) (p : Position) : (s.closeTop p).Anchored := by
  rw [closeTop_of_frames p hf]
  have hrest := h.tail hf
  have hpos : 0 < f.opener := (h.pointed f (by simp [hf])).1
  unfold closeBlock
  split
  · rename_i hlast
    refine ⟨by simp only [Array.size_pop]; omega, hrest.ordered, fun g hg => ?_⟩
    obtain ⟨hpos, token, ht, hk⟩ := hrest.pointed g hg
    refine ⟨hpos, token, ?_, hk⟩
    have hord := h.ordered
    rw [hf] at hord
    have hlt : g.opener < f.opener := List.rel_of_pairwise_cons hord hg
    rw [Array.getElem?_pop, if_pos (by omega)]
    exact ht
  · exact hrest.emit .blockClose p

/-- The ends of right-hand sides find the layout anchored, one after the other. -/
theorem Anchored.closeArrows_induct {P : Layout → Prop} (p : Position)
    (hP : ∀ (s : Layout) (f : Frame) (rest : List Frame), s.Anchored → s.frames = f :: rest →
      f.bracket = .arrow → P s → P (s.closeTop p))
    {s : Layout} (hs : s.Anchored) (h : P s) : P (s.closeArrows p) := by
  have hboth := Layout.closeArrows_induct (P := fun s => s.Anchored ∧ P s) p
    (fun s f rest hf ha ⟨hs, h⟩ => ⟨hs.closeTop hf p, hP s f rest hs hf ha h⟩) s ⟨hs, h⟩
  exact hboth.2

theorem Move.anchored {s next : Layout} (h : Move s next) (hs : s.Anchored) : next.Anchored := by
  cases h with
  | emit kind p => exact hs.emit kind p
  | opened bracket p => exact hs.openWith bracket p
  | ended p hf _ => exact hs.closeTop hf p
  | left hf => exact hs.tail hf
  | ignored diagnostics => exact ⟨hs.started, hs.ordered, hs.pointed⟩

theorem Moves.anchored {s next : Layout} (h : Moves s next) (hs : s.Anchored) : next.Anchored := by
  induction h with
  | refl => exact hs
  | tail _ hm ih => exact hm.anchored ih

/-- The stream begins with `front`, and no frame has its opener at the end of it. -/
structure Keeps (front : List Token) (s : Layout) : Prop where
  begins : front <+: s.tokens.toList
  apart : ∀ f ∈ s.frames, f.opener + 1 ≠ front.length

theorem Keeps.length_le {front : List Token} {s : Layout} (h : Keeps front s) :
    front.length ≤ s.tokens.size := by
  simpa using h.begins.length_le

theorem Keeps.emit {front : List Token} {s : Layout} (h : Keeps front s) (kind : Token.Kind)
    (p : Position) : Keeps front (s.emit kind p) where
  begins := by
    rw [Layout.emit, Array.toList_push]
    exact h.begins.trans (List.prefix_append _ _)
  apart := h.apart

/-- Only an opener is ever taken back, so what is kept stays. -/
theorem Move.keeps {front : List Token} {s next : Layout} (h : Move s next)
    (hs : Keeps front s) : Keeps front next := by
  cases h with
  | emit kind p => exact hs.emit kind p
  | opened bracket p =>
      refine ⟨(hs.emit bracket.opener p).begins, fun f hf => ?_⟩
      rcases List.mem_cons.1 hf with rfl | hf
      · have hlen := hs.length_le
        simp only
        omega
      · exact hs.apart f hf
  | @ended f rest p hf _ =>
      have hrest : ∀ g ∈ rest, g.opener + 1 ≠ front.length :=
        fun g hg => hs.apart g (hf ▸ List.mem_cons_of_mem f hg)
      rw [closeTop_of_frames p hf]
      refine ⟨?_, hrest⟩
      unfold closeBlock
      split
      · rename_i hlast
        have hne := hs.apart f (by simp [hf])
        have hlen := hs.length_le
        rw [Array.toList_pop]
        apply List.prefix_of_prefix_length_le hs.begins (List.dropLast_prefix _)
        have hsize : s.tokens.toList.dropLast.length = s.tokens.size - 1 := by simp
        omega
      · exact (hs.emit .blockClose p).begins
  | @left f rest hf => exact ⟨hs.begins, fun g hg => hs.apart g (hf ▸ List.mem_cons_of_mem f hg)⟩
  | ignored diagnostics => exact ⟨hs.begins, hs.apart⟩

theorem Moves.keeps {front : List Token} {s next : Layout} (h : Moves s next)
    (hs : Keeps front s) : Keeps front next := by
  induction h with
  | refl => exact hs
  | tail _ hm ih => exact hm.keeps ih

theorem closeArrows_moves (s : Layout) (p : Position) : Moves s (s.closeArrows p) := by
  apply closeArrows_induct p (fun s' f rest hf ha hs => ?_) s .refl
  exact hs.tail (.ended p hf (by rw [ha]; trivial))

theorem closeStatement_moves (s : Layout) (p : Position) : Moves s (s.closeStatement p) := by
  obtain ⟨f, rest, hf, hb⟩ | hnot := statement_or_not s.frames
  · rw [closeStatement_of_statement p hf hb]
    exact .single (.ended p hf (by rw [hb]; trivial))
  · rw [closeStatement_of_not_statement p hnot]

theorem leave_moves (s : Layout) (bracket : Bracket) : Moves s (s.leave bracket) := by
  unfold leave
  split
  · rename_i f rest hf
    split
    · exact .single (.left hf)
    · exact .refl
  · exact .refl

theorem step_moves (s : Layout) (l : Position × Lexeme) : Moves s (s.step l) := by
  obtain ⟨p, l⟩ := l
  cases l with
  | newline =>
      simp only [step, breakLine]
      split
      · exact .refl
      · exact ((closeArrows_moves s p).trans (closeStatement_moves _ p)).tail
          (.opened _ .statement _)
  | blank c => exact .refl
  | ignored c => exact .single (.ignored s _)
  | arrow => exact (Relation.ReflTransGen.single (.emit s .arrow p)).tail (.opened _ .arrow p)
  | less => exact .single (.emit s .less p)
  | parenOpen => exact .single (.opened s .paren p)
  | parenClose =>
      exact ((closeArrows_moves s p).trans (leave_moves _ .paren)).tail (.emit _ .argumentsClose p)
  | braceOpen =>
      exact (Relation.ReflTransGen.single (.opened s .brace p)).tail (.opened _ .statement p)
  | braceClose =>
      simp only [step, closeBrace]
      split
      · exact (((closeArrows_moves s p).trans (closeStatement_moves _ p)).trans
          (leave_moves _ .brace)).tail (.emit _ .blockClose p)
      · exact ((closeArrows_moves s p).trans (leave_moves _ .brace)).tail (.emit _ .blockClose p)
  | operator c => exact .single (.emit s _ p)
  | quoted content => exact .single (.emit s _ p)
  | unclosed content => exact .refl
  | word content => exact .single (.emit s _ p)

theorem foldl_step_moves (s : Layout) (ls : List (Position × Lexeme)) :
    Moves s (ls.foldl step s) := by
  induction ls generalizing s with
  | nil => exact .refl
  | cons l ls ih => exact (step_moves s l).trans (ih (s.step l))

theorem finish_moves (s : Layout) (p : Position) : Moves s (s.finish p) :=
  ((closeArrows_moves s p).trans (closeStatement_moves _ p)).tail (.emit _ .blockClose p)

theorem ofSource_moves (cs : List Char) : Moves start (ofSource cs) :=
  (foldl_step_moves start _).trans (finish_moves _ _)

theorem anchored_start : start.Anchored := by
  refine ⟨by decide, by simp [start, emit, openStatement, openWith], ?_⟩
  intro f hf
  simp only [start, emit, openStatement, openWith, List.mem_singleton] at hf
  subst hf
  exact ⟨by decide, _, rfl, rfl⟩

theorem stacked_start : Stacked start.frames := .bottom rfl

theorem Anchored.step {s : Layout} (h : s.Anchored) (l : Position × Lexeme) :
    (s.step l).Anchored := (step_moves s l).anchored h

theorem Anchored.closeArrows {s : Layout} (h : s.Anchored) (p : Position) :
    (s.closeArrows p).Anchored := (closeArrows_moves s p).anchored h

theorem Stacked.closeArrows {s : Layout} (h : Stacked s.frames) (p : Position) :
    Stacked (s.closeArrows p).frames := by
  obtain ⟨frames, hd, hinner⟩ := h.innermost_closeArrows p
  rw [hd]
  cases hinner with
  | bottom hf => exact .bottom hf
  | paren hf hr => exact .paren hf hr
  | braces hf hg hr => exact .braces hf hg hr

/-- The order of brackets survives every lexeme. -/
theorem Stacked.taken {s next : Layout} (h : Stacked s.frames) {p : Position} {l : Lexeme}
    (ht : Taken s p l next) : Stacked next.frames := by
  have hclosed := h.closeArrows p
  cases ht with
  | blank | unclosed | ignored | token | joined => exact h
  | arrow => exact .arrow rfl h
  | parenOpen => exact .paren rfl h
  | braceOpen => exact .braces rfl rfl h
  | broken hd hf _ =>
      rw [openStatement, openWith, frames_closeTop p hd]
      rw [hd] at hclosed
      cases hclosed with
      | bottom _ => exact .bottom rfl
      | braces _ hg hr => exact .braces rfl hg hr
      | paren hb _ | arrow hb _ => rw [hf] at hb; cases hb
  | parenClose hd hf =>
      rw [hd] at hclosed
      cases hclosed with
      | paren _ hr => exact hr
      | bottom hb | arrow hb _ | braces hb _ _ => rw [hf] at hb; cases hb
  | braceClose hd hf _ =>
      rw [hd] at hclosed
      cases hclosed with
      | braces _ _ hr => exact hr
      | paren hb _ | arrow hb _ => rw [hf] at hb; cases hb
  | stray => exact hclosed

theorem Stacked.step {s : Layout} (h : Stacked s.frames) (l : Position × Lexeme) :
    Stacked (s.step l).frames := h.taken (step_taken h l.1 l.2)

end Pseudocode.Layout
