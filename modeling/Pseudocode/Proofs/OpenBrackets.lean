import Mathlib.Data.List.TakeWhile
import Pseudocode.Proofs.Frames

/-!
# The open brackets after every lexeme

However the brackets of a text match, every frame of the layout points to a token that opens
it, an inner one behind an outer one, and the frames lie on each other in a fixed order. So
when an implicit block ends without a token in it, the token that is taken back is the one
that opened this block, and the openers of the frames that stay open are all in place.
-/
namespace Pseudocode.Layout

section
variable {s : Layout} {f : Frame} {rest : List Frame}

/-- The end of the innermost block changes nothing up to the openers of the other frames. -/
theorem Anchored.getElem?_closeTop (h : s.Anchored) (hf : s.frames = f :: rest) (p : Position)
    {g : Frame} (hg : g ∈ rest) {i : Nat} (hi : i ≤ g.opener) :
    (s.closeTop p).tokens[i]? = s.tokens[i]? := by
  have hord := h.ordered
  rw [hf] at hord
  have hlt : g.opener < f.opener := List.rel_of_pairwise_cons hord hg
  have hsize := h.lt_size (hf ▸ List.mem_cons_self)
  rw [closeTop_of_frames p hf]
  simp only [closeBlock]
  split
  · rw [Array.getElem?_pop, if_pos (by omega)]
  · rw [Array.getElem?_push, if_neg (by omega)]

/-- The right-hand side of an arrow is opened directly behind the arrow. -/
def BehindArrows (s : Layout) : Prop :=
  ∀ f ∈ s.frames, f.bracket = .arrow →
    ∃ token, s.tokens[f.opener - 1]? = some token ∧ token.kind = .arrow

theorem BehindArrows.emit (h : s.BehindArrows) (hs : s.Anchored) (kind : Token.Kind)
    (p : Position) : (s.emit kind p).BehindArrows := by
  intro f hf ha
  obtain ⟨token, ht, hk⟩ := h f hf ha
  have hlt := hs.lt_size hf
  refine ⟨token, ?_, hk⟩
  rw [Layout.emit, Array.getElem?_push, if_neg (by omega)]
  exact ht

theorem BehindArrows.openWith (h : s.BehindArrows) (hs : s.Anchored) (bracket : Bracket)
    (hb : bracket ≠ .arrow) (p : Position) :
    (s.openWith bracket bracket.opener p).BehindArrows := by
  intro f hf ha
  rcases List.mem_cons.1 hf with rfl | hf
  · exact absurd ha hb
  · exact h.emit hs bracket.opener p f hf ha

theorem BehindArrows.tail (h : s.BehindArrows) (hf : s.frames = f :: rest) :
    ({ s with frames := rest } : Layout).BehindArrows :=
  fun g hg => h g (hf ▸ List.mem_cons_of_mem f hg)

theorem BehindArrows.closeTop (h : s.BehindArrows) (hs : s.Anchored) (hf : s.frames = f :: rest)
    (p : Position) : (s.closeTop p).BehindArrows := by
  intro g hg ha
  rw [frames_closeTop p hf] at hg
  obtain ⟨token, ht, hk⟩ := h.tail hf g hg ha
  refine ⟨token, ?_, hk⟩
  rw [hs.getElem?_closeTop hf p hg (Nat.sub_le _ _)]
  exact ht

theorem BehindArrows.closeArrows (h : s.BehindArrows) (hs : s.Anchored) (p : Position) :
    (s.closeArrows p).BehindArrows :=
  hs.closeArrows_induct p (fun _ _ _ hs hf _ h => h.closeTop hs hf p) h

/-- An arrow opens its right-hand side behind itself. -/
theorem BehindArrows.arrow (h : s.BehindArrows) (hs : s.Anchored) (p : Position) :
    ((s.emit .arrow p).openWith .arrow Bracket.arrow.opener p).BehindArrows := by
  intro f hf ha
  rcases List.mem_cons.1 hf with rfl | hf
  · refine ⟨⟨.arrow, .ofPosition p⟩, ?_, rfl⟩
    show ((s.tokens.push _).push _)[(s.tokens.push _).size - 1]? = some _
    rw [Array.size_push, Nat.add_sub_cancel, Array.getElem?_push, if_neg (by simp),
      Array.getElem?_push_size]
  · exact (h.emit hs .arrow p).emit (hs.emit .arrow p) (.blockOpen false) p f hf ha

/-- Nothing else opens the right-hand side of an arrow. -/
theorem BehindArrows.taken (h : s.BehindArrows) (hs : s.Anchored) {p : Position} {l : Lexeme}
    {next : Layout} (ht : Taken s p l next) : next.BehindArrows := by
  have harrows := h.closeArrows hs p
  have hanchored := hs.closeArrows p
  cases ht with
  | blank | unclosed | ignored | joined => exact h
  | token _ => exact h.emit hs _ p
  | arrow => exact h.arrow hs p
  | parenOpen => exact h.openWith hs .paren (by decide) p
  | braceOpen =>
      exact (h.openWith hs .brace (by decide) p).openWith (hs.openWith .brace p) .statement
        (by decide) p
  | broken hd _ _ =>
      exact (harrows.closeTop hanchored hd p).openWith (hanchored.closeTop hd p) .statement
        (by decide) _
  | parenClose hd _ => exact (harrows.tail hd).emit (hanchored.tail hd) .argumentsClose p
  | braceClose hd _ _ =>
      have hended := frames_closeTop p hd
      exact ((harrows.closeTop hanchored hd p).tail hended).emit
        ((hanchored.closeTop hd p).tail hended) .blockClose p
  | stray _ => exact harrows.emit hanchored _ p

end

/-- The open brackets of a layout are in order. -/
structure Framed (s : Layout) : Prop where
  /-- From the outermost frame in, the openers stand one behind the other. -/
  increasing : s.frames.reverse.Pairwise fun f g => f.opener < g.opener
  inside : ∀ f ∈ s.frames, f.opener < s.tokens.size
  /-- The token at the index of a frame is one that opens such a bracket. -/
  opener : ∀ f ∈ s.frames,
    ∃ token, s.tokens[f.opener]? = some token ∧ token.kind = f.bracket.opener
  afterArrow : ∀ f ∈ s.frames, f.bracket = .arrow → 0 < f.opener ∧
    ∃ token, s.tokens[f.opener - 1]? = some token ∧ token.kind = .arrow
  bottom : ∃ f, s.frames.getLast? = some f ∧ f.bracket = .statement
  /-- A statement that does not lie at the bottom lies directly on a brace. -/
  statement : ∀ inner f g outer, s.frames = inner ++ f :: g :: outer → f.bracket = .statement →
    g.bracket = .brace
  /-- Directly on a brace lies a statement. -/
  brace : ∀ inner f outer, s.frames = inner ++ f :: outer → f.bracket = .brace →
    ∃ front g, inner = front ++ [g] ∧ g.bracket = .statement
  /-- The innermost frame that is no arrow is a statement or a parenthesis. -/
  innermost : ∃ f, s.frames.find? (·.bracket ≠ .arrow) = some f ∧
    (f.bracket = .statement ∨ f.bracket = .paren)

section
variable {frames : List Frame}

theorem Stacked.exists_bottom (h : Stacked frames) :
    ∃ f, frames.getLast? = some f ∧ f.bracket = .statement := by
  induction h with
  | bottom hf => exact ⟨_, rfl, hf⟩
  | paren hf hr ih | arrow hf hr ih =>
      obtain ⟨f, hlast, hf⟩ := ih
      exact ⟨f, by rw [List.getLast?_cons, hlast]; rfl, hf⟩
  | braces hf hg hr ih =>
      obtain ⟨f, hlast, hf⟩ := ih
      exact ⟨f, by rw [List.getLast?_cons, List.getLast?_cons, hlast]; rfl, hf⟩

theorem Stacked.exists_innermost (h : Stacked frames) :
    ∃ f, frames.find? (·.bracket ≠ .arrow) = some f ∧
      (f.bracket = .statement ∨ f.bracket = .paren) := by
  induction h with
  | bottom hf => exact ⟨_, by simp [hf], .inl hf⟩
  | paren hf hr ih => exact ⟨_, by simp [hf], .inr hf⟩
  | arrow hf hr ih =>
      obtain ⟨f, hfind, hf'⟩ := ih
      exact ⟨f, by rw [List.find?_cons_of_neg (by simp [hf])]; exact hfind, hf'⟩
  | braces hf hg hr ih => exact ⟨_, by simp [hf], .inl hf⟩

theorem Stacked.head_bracket {f : Frame} {rest : List Frame} (h : Stacked (f :: rest)) :
    f.bracket ≠ .brace := by
  cases h with
  | bottom hf | paren hf _ | arrow hf _ | braces hf _ _ => simp [hf]

/-- Of two frames that lie on each other, the upper one is a statement exactly if the lower one is
a brace. -/
theorem Stacked.adjacent (h : Stacked frames) {inner outer : List Frame} {f g : Frame}
    (hsplit : frames = inner ++ f :: g :: outer) : f.bracket = .statement ↔ g.bracket = .brace := by
  induction h generalizing inner with
  | bottom hf => simp [List.cons_eq_append_iff] at hsplit
  | paren hf hr ih | arrow hf hr ih =>
      obtain ⟨-, hcons⟩ | ⟨inner', -, hrest⟩ := List.cons_eq_append_iff.1 hsplit
      · cases hcons
        exact iff_of_false (by simp [hf]) hr.head_bracket
      · exact ih hrest
  | braces hf hg hr ih =>
      obtain ⟨-, hcons⟩ | ⟨inner', -, hrest⟩ := List.cons_eq_append_iff.1 hsplit
      · cases hcons
        exact iff_of_true hf hg
      · obtain ⟨-, hcons⟩ | ⟨inner'', -, hbelow⟩ := List.cons_eq_append_iff.1 hrest
        · cases hcons
          exact iff_of_false (by simp [hg]) hr.head_bracket
        · exact ih hbelow

theorem Stacked.statement_above (h : Stacked frames) {inner outer : List Frame} {f : Frame}
    (hsplit : frames = inner ++ f :: outer) (hf : f.bracket = .brace) :
    ∃ front g, inner = front ++ [g] ∧ g.bracket = .statement := by
  obtain rfl | ⟨front, g, rfl⟩ := List.eq_nil_or_concat inner
  · subst hsplit
    exact absurd hf h.head_bracket
  · rw [List.concat_append] at hsplit
    exact ⟨front, g, List.concat_eq_append, (h.adjacent hsplit).2 hf⟩

end

/-- What every step keeps, put together. -/
theorem framed_of_stacked {s : Layout} (hs : s.Anchored) (hst : Stacked s.frames)
    (hbehind : s.BehindArrows) : s.Framed where
  increasing := List.pairwise_reverse.2 hs.ordered
  inside _ hf := hs.lt_size hf
  opener f hf := (hs.pointed f hf).2
  afterArrow f hf ha := ⟨(hs.pointed f hf).1, hbehind f hf ha⟩
  bottom := hst.exists_bottom
  statement _ _ _ _ hsplit hf := (hst.adjacent hsplit).1 hf
  brace _ _ _ hsplit hf := hst.statement_above hsplit hf
  innermost := hst.exists_innermost

/-- Every frame of a list, with the stream in which it ends: the frames before it have ended. -/
def endings (p : Position) : Array Token → List Frame → List (Array Token × Frame)
  | _, [] => []
  | tokens, f :: fs => (tokens, f) :: endings p (closeBlock p tokens f) fs

/-- The implicit blocks that are open innermost: right-hand sides, and then a statement. -/
def unfinished (s : Layout) : List Frame :=
  s.frames.takeWhile (·.bracket = .arrow) ++
    ((s.frames.dropWhile (·.bracket = .arrow)).take 1).filter (·.bracket = .statement)

/-- The implicit blocks that end with a lexeme, in this order. -/
def ended (s : Layout) : Position × Lexeme → List Frame
  | (_, .newline) => if s.insideParen then [] else s.unfinished
  | (_, .parenClose) => s.frames.takeWhile (·.bracket = .arrow)
  | (p, .braceClose) =>
      if (s.closeArrows p).insideBrace then s.unfinished
      else s.frames.takeWhile (·.bracket = .arrow)
  | _ => []

/-- Implicit blocks end innermost first, and then the stream only grows. A block that is empty
when it ends takes back the last token, which is the one that opened it. -/
structure Ends (s : Layout) (p : Position) (frames : List Frame) (next : Layout) : Prop where
  innermost : frames <+: s.frames
  implicit : ∀ f ∈ frames, f.bracket.Implicit
  grows : (frames.foldl (closeBlock p) s.tokens).toList <+: next.tokens.toList
  takesBack : ∀ tokens f, (tokens, f) ∈ endings p s.tokens frames →
    closeBlock p tokens f = tokens.pop →
    ∃ token, tokens = tokens.pop.push token ∧ f.opener + 1 = tokens.size ∧
      s.tokens[f.opener]? = some token ∧ token.kind = f.bracket.opener

section
variable {s : Layout} {p : Position}

theorem closeBlock_eq_pop {tokens : Array Token} {f : Frame}
    (h : closeBlock p tokens f = tokens.pop) : f.opener + 1 = tokens.size := by
  rw [closeBlock] at h
  split at h
  · rename_i hlast
    exact hlast
  · have hsize := congrArg Array.size h
    rw [Array.size_push, Array.size_pop] at hsize
    omega

theorem mem_of_mem_endings {tokens start : Array Token} {f : Frame} {frames : List Frame}
    (h : (tokens, f) ∈ endings p start frames) : f ∈ frames := by
  induction frames generalizing start with
  | nil => cases h
  | cons g frames ih =>
      rcases List.mem_cons.1 h with heq | h
      · cases heq
        exact List.mem_cons_self
      · exact List.mem_cons_of_mem g (ih h)

/-- An empty block ends by taking back the token that opened it. -/
theorem Anchored.opener_of_endings (h : s.Anchored) {frames rest : List Frame}
    (hf : s.frames = frames ++ rest) {tokens : Array Token} {f : Frame}
    (hmem : (tokens, f) ∈ endings p s.tokens frames) (hlast : f.opener + 1 = tokens.size) :
    ∃ token, tokens = tokens.pop.push token ∧ s.tokens[f.opener]? = some token ∧
      token.kind = f.bracket.opener := by
  -- the frames end one by one, and each finds the openers of the frames around it untouched
  induction frames generalizing s with
  | nil => cases hmem
  | cons g frames ih =>
      rw [endings] at hmem
      rcases List.mem_cons.1 hmem with heq | hmem
      · cases heq
        have hg : f ∈ s.frames := hf ▸ List.mem_cons_self
        obtain ⟨token, htoken, hkind⟩ := h.toList_of_last hg hlast
        refine ⟨token, ?_, ?_, hkind⟩
        · rw [← Array.toList_inj, Array.toList_push]
          exact htoken
        · rw [← Array.getElem?_toList, htoken, List.getElem?_append_right] <;>
            simp [← hlast]
      · have hfield : (s.closeTop p).tokens = closeBlock p s.tokens g := by
          rw [closeTop_of_frames p hf]
        rw [← hfield] at hmem
        obtain ⟨token, htoken, hat, hkind⟩ :=
          ih (h.closeTop hf p) (frames_closeTop p hf) hmem
        have hmem : f ∈ frames ++ rest := List.mem_append_left rest (mem_of_mem_endings hmem)
        refine ⟨token, htoken, ?_, hkind⟩
        rwa [h.getElem?_closeTop hf p hmem (Nat.le_refl _)] at hat

theorem ends_of_frames (hs : s.Anchored) (frames rest : List Frame) {next : Layout}
    (hf : s.frames = frames ++ rest) (himplicit : ∀ f ∈ frames, f.bracket.Implicit)
    (hgrows : (frames.foldl (closeBlock p) s.tokens).toList <+: next.tokens.toList) :
    Ends s p frames next where
  innermost := hf ▸ List.prefix_append frames rest
  implicit := himplicit
  grows := hgrows
  takesBack _ f hmem hpop := by
    have hlast := closeBlock_eq_pop hpop
    obtain ⟨token, htoken, hat, hkind⟩ := hs.opener_of_endings hf hmem hlast
    exact ⟨token, htoken, hlast, hat, hkind⟩

theorem implicit_of_mem_arrows {f : Frame} (h : f ∈ s.frames.takeWhile (·.bracket = .arrow)) :
    f.bracket.Implicit := by
  have harrow : f.bracket = .arrow := by simpa using List.mem_takeWhile_imp h
  rw [harrow]
  trivial

/-- Without blocks that end, the stream only grows. -/
theorem ends_nil (hs : s.Anchored) {next : Layout}
    (hgrows : s.tokens.toList <+: next.tokens.toList) : Ends s p [] next :=
  ends_of_frames hs [] s.frames rfl (by simp) hgrows

/-- The right-hand sides end, and no statement with them. -/
theorem ends_arrows (hs : s.Anchored) {next : Layout}
    (hgrows : (s.closeArrows p).tokens.toList <+: next.tokens.toList) :
    Ends s p (s.frames.takeWhile (·.bracket = .arrow)) next :=
  ends_of_frames hs _ _ List.takeWhile_append_dropWhile.symm (fun _ => implicit_of_mem_arrows)
    hgrows

theorem unfinished_of_statement {f : Frame} {rest : List Frame}
    (h : (s.closeArrows p).frames = f :: rest) (hf : f.bracket = .statement) :
    s.unfinished = s.frames.takeWhile (·.bracket = .arrow) ++ [f] := by
  rw [frames_closeArrows] at h
  simp [unfinished, h, hf]

theorem unfinished_of_not_statement
    (h : ∀ f ∈ (s.closeArrows p).frames.head?, f.bracket ≠ .statement) :
    s.unfinished = s.frames.takeWhile (·.bracket = .arrow) := by
  rw [frames_closeArrows] at h
  cases hd : s.frames.dropWhile (·.bracket = .arrow) with
  | nil => simp [unfinished, hd]
  | cons f rest => simpa [unfinished, hd] using h

/-- The right-hand sides end, and then the statement that they are the end of. -/
theorem ends_unfinished (hs : s.Anchored) {next : Layout}
    (hgrows : ((s.closeArrows p).closeStatement p).tokens.toList <+: next.tokens.toList) :
    Ends s p s.unfinished next := by
  obtain ⟨f, rest, hf, hb⟩ | hnot := statement_or_not (s.closeArrows p).frames
  · rw [closeStatement_of_statement p hf hb, closeTop_of_frames p hf] at hgrows
    rw [unfinished_of_statement hf hb]
    refine ends_of_frames hs _ rest ?_ (fun g hg => ?_) ?_
    · rw [List.append_assoc, List.singleton_append, ← hf, frames_closeArrows,
        List.takeWhile_append_dropWhile]
    · rcases List.mem_append.1 hg with hg | hg
      · exact implicit_of_mem_arrows hg
      · rw [List.mem_singleton.1 hg, hb]
        trivial
    · rw [List.foldl_append]
      exact hgrows
  · rw [closeStatement_of_not_statement p hnot] at hgrows
    rw [unfinished_of_not_statement hnot]
    exact ends_arrows hs hgrows

theorem tokens_leave (s : Layout) (bracket : Bracket) : (s.leave bracket).tokens = s.tokens := by
  unfold leave
  split
  · split <;> rfl
  · rfl

theorem toList_emit (s : Layout) (kind : Token.Kind) (p : Position) :
    s.tokens.toList <+: (s.emit kind p).tokens.toList := by
  rw [emit, Array.toList_push]
  exact List.prefix_append _ _

/-- With a lexeme the blocks end that it is said to end, and they take back their openers only. -/
theorem ends_step (hs : s.Anchored) (x : Position × Lexeme) :
    Ends s x.1 (s.ended x) (s.step x) := by
  obtain ⟨p, l⟩ := x
  cases l with
  | newline =>
      show Ends s p (if s.insideParen then [] else s.unfinished) (s.breakLine p)
      unfold breakLine
      split
      · exact ends_nil hs (List.prefix_refl _)
      · exact ends_unfinished hs (toList_emit _ _ _)
  | parenClose =>
      refine ends_arrows hs ?_
      rw [← tokens_leave (s.closeArrows p) .paren]
      exact toList_emit _ _ _
  | braceClose =>
      show Ends s p (if (s.closeArrows p).insideBrace then s.unfinished
        else s.frames.takeWhile (·.bracket = .arrow)) (s.closeBrace p)
      unfold closeBrace
      dsimp only
      split
      · refine ends_unfinished hs ?_
        rw [← tokens_leave ((s.closeArrows p).closeStatement p) .brace]
        exact toList_emit _ _ _
      · refine ends_arrows hs ?_
        rw [← tokens_leave (s.closeArrows p) .brace]
        exact toList_emit _ _ _
  | arrow => exact ends_nil hs ((toList_emit s .arrow p).trans (toList_emit _ (.blockOpen false) p))
  | braceOpen =>
      exact ends_nil hs
        ((toList_emit s (.blockOpen true) p).trans (toList_emit _ (.blockOpen false) p))
  | blank c | ignored c | unclosed content => exact ends_nil hs (List.prefix_refl _)
  | less | parenOpen | operator c | quoted content | word content =>
      exact ends_nil hs (toList_emit _ _ _)

end

def upTo (source : String) (count : Nat) : Layout :=
  ((Lexeme.place .start (Lexeme.all source.toList)).take count).foldl step start

theorem upTo_succ {source : String} {count : Nat} {x : Position × Lexeme}
    (h : (Lexeme.place .start (Lexeme.all source.toList))[count]? = some x) :
    upTo source (count + 1) = (upTo source count).step x := by
  rw [upTo, List.take_add_one, h, Option.toList_some, List.foldl_append]
  rfl

theorem behindArrows_start : start.BehindArrows := by
  intro f hf ha
  simp only [start, emit, openStatement, openWith, List.mem_singleton] at hf
  subst hf
  cases ha

/-- A run over lexemes keeps the frames in order. -/
theorem foldl_step_framed {s : Layout} (hs : s.Anchored) (hst : Stacked s.frames)
    (hbehind : s.BehindArrows) (ls : List (Position × Lexeme)) :
    (ls.foldl step s).Anchored ∧ (ls.foldl step s).Framed := by
  induction ls generalizing s with
  | nil => exact ⟨hs, framed_of_stacked hs hst hbehind⟩
  | cons l ls ih => exact ih (hs.step l) (hst.step l) (hbehind.taken hs (step_taken hst l.1 l.2))

/-- After every lexeme of every text, whether its brackets match or not, the open brackets are in
order. With the next lexeme, and with the end of the text, implicit blocks end, and each of those
that take a token back takes back the token that opened it. -/
theorem open_brackets_in_order (source : String) (count : Nat) :
    (upTo source count).Framed ∧
      (∀ x, (Lexeme.place .start (Lexeme.all source.toList))[count]? = some x →
        Ends (upTo source count) x.1 ((upTo source count).ended x) (upTo source (count + 1))) ∧
      ∀ p, Ends (upTo source count) p (upTo source count).unfinished
        ((upTo source count).finish p) := by
  obtain ⟨hs, hframed⟩ := foldl_step_framed anchored_start stacked_start behindArrows_start
    ((Lexeme.place .start (Lexeme.all source.toList)).take count)
  refine ⟨hframed, fun x hx => ?_, fun p => ?_⟩
  · rw [upTo_succ hx]
    exact ends_step hs x
  · exact ends_unfinished hs (toList_emit _ _ _)

/-- The text ends a right-hand side without tokens by a brace that closes nothing. -/
theorem open_brackets_in_order_stray_brace :
    (upTo "x <- \x7d" 4).ended (⟨1, 6⟩, .braceClose) = [⟨.arrow, 4⟩] ∧
      Ends (upTo "x <- \x7d" 4) ⟨1, 6⟩ [⟨.arrow, 4⟩] (upTo "x <- \x7d" 5) := by
  have hnext : (Lexeme.place .start (Lexeme.all "x <- \x7d".toList))[4]? =
      some (⟨1, 6⟩, .braceClose) := by decide +kernel
  have hended : (upTo "x <- \x7d" 4).ended (⟨1, 6⟩, .braceClose) = [⟨.arrow, 4⟩] := by
    decide +kernel
  have hends := (open_brackets_in_order "x <- \x7d" 4).2.1 _ hnext
  rw [hended] at hends
  exact ⟨hended, hends⟩

end Pseudocode.Layout
