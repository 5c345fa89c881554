import Mathlib.Data.List.Induction
import Mathlib.Order.Defs.PartialOrder
import Pseudocode.Proofs.Printing

/-!
# Scanning loses nothing

The tokens of a text tell where they come from. The text splits into stretches, and each
is a line feed, a blank, an ignored character with its diagnostic, or what one token was
read from. The other tokens open and close blocks that have no braces. All places count
line feeds and characters, and along the stream they never go back.

The layout takes only openers of such blocks back, so the stream keeps the token of
every stretch. What a layout tells of the stretches behind it is kept by each lexeme, and
so by all lexemes of a text.
-/
namespace Pseudocode

namespace Position

/-- The place behind a stretch of text that begins a source. -/
def after (before : List Char) : Position :=
  ⟨1 + before.count '\n', 1 + (before.reverse.takeWhile (· != '\n')).length⟩

theorem advance_start (before : List Char) : start.advance before = after before := by
  induction before using List.reverseRecOn with
  | nil => rfl
  | append_singleton cs c ih =>
      rw [advance_append, ih, advance_cons, advance_nil]
      by_cases hc : c = '\n'
      · simp [next, after, hc, Nat.add_assoc]
      · simp [next, after, hc, Nat.add_comm]

/-- Lines first, then columns. -/
instance : Preorder Position where
  le p q := p.line < q.line ∨ p.line = q.line ∧ p.column ≤ q.column
  le_refl p := .inr ⟨rfl, Nat.le_refl _⟩
  le_trans p q r hpq hqr := by omega

theorem le_def {p q : Position} :
    p ≤ q ↔ p.line < q.line ∨ p.line = q.line ∧ p.column ≤ q.column := Iff.rfl

theorem le_next (p : Position) (c : Char) : p ≤ p.next c := by
  rw [le_def, next]
  split
  · exact .inl (Nat.lt_succ_self _)
  · exact .inr ⟨rfl, Nat.le_succ _⟩

theorem le_advance (p : Position) (cs : List Char) : p ≤ p.advance cs := by
  induction cs generalizing p with
  | nil => exact le_refl p
  | cons c cs ih => exact (le_next p c).trans (ih (p.next c))

end Position

/-- Both stand in the text, and the second does not stand before the first. -/
def Location.Precedes (a b : Location) : Prop :=
  ∃ p q : Position, a = .ofPosition p ∧ b = .ofPosition q ∧ p ≤ q

theorem Location.precedes_ofPosition {p q : Position} (h : p ≤ q) :
    Location.Precedes (.ofPosition p) (.ofPosition q) := ⟨p, q, rfl, rfl, h⟩

theorem Location.Precedes.later {a : Location} {p q : Position}
    (h : a.Precedes (.ofPosition p)) (hle : p ≤ q) : a.Precedes (.ofPosition q) := by
  obtain ⟨r, s, rfl, hs, hrs⟩ := h
  have hps : p = s := by
    obtain ⟨line, column⟩ := p
    obtain ⟨line', column'⟩ := s
    simp only [ofPosition, Location.mk.injEq, Option.some.injEq, Int.natCast_inj] at hs
    rw [hs.1, hs.2]
  subst hps
  exact precedes_ofPosition (hrs.trans hle)

namespace Lexeme

/-- A character that no bracket, operator, quote or word begins with. -/
def Loose (c : Char) : Prop := c ∉ breaks ∧ c ∉ operatorChars ∧ startsWord c = false

/-- The sorts of stretches of a text, by the characters in them. -/
def Sorted : Lexeme → Prop
  | blank c => Loose c ∧ Text.isBlank c = true
  | ignored c => Loose c ∧ Text.isBlank c = false
  | operator c => c ∈ operatorChars
  | quoted content => '"' ∉ content
  | unclosed _ => False
  | word content => IsWord content
  | _ => True

/-- What a token says that is read from a lexeme. -/
def kind? : Lexeme → Option Token.Kind
  | arrow => some .arrow
  | less => some .less
  | parenOpen => some .argumentsOpen
  | parenClose => some .argumentsClose
  | braceOpen => some (.blockOpen true)
  | braceClose => some .blockClose
  | operator c => some (.operation (String.singleton c))
  | quoted content => some (.text (String.ofList content))
  | word content => some (.ofWord content)
  | newline | blank _ | ignored _ | unclosed _ => none

/-- What is recorded about a lexeme that is ignored. -/
def diagnostic? : Position × Lexeme → Option Diagnostic
  | (p, ignored c) => some ⟨c, p⟩
  | _ => none

theorem diagnostic?_of_kind? {l : Lexeme} {kind : Token.Kind} (h : l.kind? = some kind)
    (p : Position) : diagnostic? (p, l) = none := by
  cases l <;> first | rfl | cases h

theorem kind?_ne_blockOpen (l : Lexeme) : l.kind? ≠ some (.blockOpen false) := by
  intro h
  cases l with
  | word content =>
      have hm := congrArg Token.Kind.mark? (Option.some.inj h)
      rw [Token.Kind.mark?_ofWord] at hm
      cases hm
  | _ => cases h

theorem sorted_cutPlain {c : Char} (h : c ∉ breaks) (cs : List Char) :
    (cutPlain c cs).1.Sorted := by
  unfold cutPlain
  split
  · rename_i ho
    exact ho
  · rename_i ho
    split
    · rename_i hw
      exact ⟨hw, fun _ hd => List.mem_takeWhile_imp hd⟩
    · rename_i hw
      have hloose : Loose c := ⟨h, ho, Bool.eq_false_iff.2 hw⟩
      split
      · rename_i hb
        exact ⟨hloose, hb⟩
      · rename_i hb
        exact ⟨hloose, Bool.eq_false_iff.2 hb⟩

/-- Apart from a quote without a partner, what is cut is of one of the sorts. -/
theorem sorted_cut (c : Char) (cs : List Char)
    (hu : ∀ content, (cut c cs).1 ≠ unclosed content) : (cut c cs).1.Sorted := by
  by_cases h : c ∈ breaks
  · have hproper := proper_cut c cs
    have hsign : ∀ d, (cut c cs).1.chars.head? = some d → d ∈ breaks := by
      intro d hd
      obtain ⟨ds, hds⟩ := List.head?_eq_some_iff.1 hd
      have hchars := cut_chars c cs
      rw [hds] at hchars
      obtain ⟨rfl, -⟩ := List.cons.inj hchars
      exact h
    cases hl : (cut c cs).1 with
    | blank d => rw [hl] at hproper hsign; exact absurd (hsign d rfl) hproper
    | ignored d => rw [hl] at hproper hsign; exact absurd (hsign d rfl) hproper
    | unclosed content => exact absurd hl (hu content)
    | operator d => rw [hl] at hproper; exact hproper
    | quoted content => rw [hl] at hproper; exact hproper
    | word content => rw [hl] at hproper; exact hproper
    | _ => trivial
  · rw [cut_eq_cutPlain h]
    exact sorted_cutPlain h cs

theorem sorted_of_mem_all {cs : List Char} {l : Lexeme} (h : l ∈ all cs)
    (hu : ∀ content, l ≠ unclosed content) : l.Sorted := by
  fun_induction all cs with
  | case1 => cases h
  | case2 c cs ih =>
      rcases List.mem_cons.1 h with rfl | h
      · exact sorted_cut c cs hu
      · exact ih h

theorem all_loose {c : Char} (h : Loose c) :
    all [c] = [if Text.isBlank c then blank c else ignored c] := by
  obtain ⟨hb, ho, hw⟩ := h
  rw [all_cons, cut_eq_cutPlain hb, cutPlain, if_neg ho,
    if_neg (Bool.eq_false_iff.1 hw)]
  split <;> simp

theorem all_chars_of_written {l : Lexeme} (h : l.Written) : all l.chars = [l] := by
  have hall : all (l.chars ++ []) = l :: all [] :=
    all_chars_append h (fun _ _ d hd => by cases hd) (fun _ => by simp)
  rwa [List.append_nil, all_nil] at hall

theorem all_chars {l : Lexeme} (h : l.Sorted) : all l.chars = [l] := by
  cases l with
  | blank c => rw [chars, all_loose h.1, if_pos h.2]
  | ignored c => rw [chars, all_loose h.1, if_neg (Bool.eq_false_iff.1 h.2)]
  | unclosed content => exact h.elim
  | _ => exact all_chars_of_written h

/-- The characters of a stretch decide what it is. -/
theorem eq_of_chars_eq {l l' : Lexeme} (h : l.Sorted) (h' : l'.Sorted) (hc : l.chars = l'.chars) :
    l = l' := by
  have hall := all_chars h
  rw [hc, all_chars h'] at hall
  exact (List.cons.inj hall).1.symm

theorem flatMap_chars_place (p : Position) (ls : List Lexeme) :
    (place p ls).flatMap (fun segment => segment.2.chars) = ls.flatMap chars := by
  induction ls generalizing p with
  | nil => rfl
  | cons l ls ih => rw [place, List.flatMap_cons, List.flatMap_cons, ih]

/-- Lexemes are placed behind the text of those before them. -/
theorem position_of_place {p q : Position} {l : Lexeme} {ls : List Lexeme}
    {before rest : List (Position × Lexeme)} (h : place p ls = before ++ (q, l) :: rest) :
    q = p.advance (before.flatMap fun segment => segment.2.chars) := by
  induction ls generalizing p before with
  | nil => simp [place] at h
  | cons first ls ih =>
      cases before with
      | nil =>
          obtain ⟨hfirst, -⟩ := List.cons.inj h
          exact (congrArg Prod.fst hfirst).symm
      | cons segment before =>
          obtain ⟨rfl, htail⟩ := List.cons.inj h
          rw [ih htail, List.flatMap_cons, Position.advance_append]

end Lexeme

/-- A token that begins or ends a block without braces. -/
def Token.Kind.Wraps (kind : Token.Kind) : Prop := kind = .blockOpen false ∨ kind = .blockClose

/-- The tokens, in order, are read from the lexemes, in order: one from each lexeme that has a
token, where it stands, and none from the others. Between them stand tokens that wrap blocks. -/
inductive ReadFrom : List (Position × Lexeme) → List Token → Prop
  | nil : ReadFrom [] []
  | token {p : Position} {l : Lexeme} {kind : Token.Kind} {ls : List (Position × Lexeme)}
      {tokens : List Token} : l.kind? = some kind → ReadFrom ls tokens →
      ReadFrom ((p, l) :: ls) (⟨kind, .ofPosition p⟩ :: tokens)
  | silent {p : Position} {l : Lexeme} {ls : List (Position × Lexeme)} {tokens : List Token} :
      l.kind? = none → ReadFrom ls tokens → ReadFrom ((p, l) :: ls) tokens
  | wrap {t : Token} {ls : List (Position × Lexeme)} {tokens : List Token} :
      t.kind.Wraps → ReadFrom ls tokens → ReadFrom ls (t :: tokens)

namespace ReadFrom

variable {ls more : List (Position × Lexeme)} {tokens others : List Token}

theorem append (h : ReadFrom ls tokens) (h' : ReadFrom more others) :
    ReadFrom (ls ++ more) (tokens ++ others) := by
  induction h with
  | nil => exact h'
  | token hk _ ih => exact .token hk ih
  | silent hk _ ih => exact .silent hk ih
  | wrap hw _ ih => exact .wrap hw ih

/-- An opener without a brace was read from nothing, and can be taken back. -/
theorem of_concat_opener {t : Token} (ht : t.kind = .blockOpen false)
    (h : ReadFrom ls (tokens ++ [t])) : ReadFrom ls tokens := by
  generalize hall : tokens ++ [t] = all at h
  induction h generalizing tokens with
  | nil => simp at hall
  | @token p l kind ls rest hk hrest ih =>
      cases tokens with
      | nil =>
          obtain ⟨rfl, -⟩ := List.cons.inj hall
          exact absurd (hk.trans (congrArg some ht)) (Lexeme.kind?_ne_blockOpen l)
      | cons first tokens =>
          obtain ⟨rfl, htail⟩ := List.cons.inj hall
          exact .token hk (ih htail)
  | silent hk _ ih => exact .silent hk (ih hall)
  | @wrap u ls rest hw hrest ih =>
      cases tokens with
      | nil =>
          obtain ⟨-, rfl⟩ := List.cons.inj hall
          exact hrest
      | cons first tokens =>
          obtain ⟨rfl, htail⟩ := List.cons.inj hall
          exact .wrap hw (ih htail)

/-- Every lexeme with a token has it in the stream. -/
theorem exists_token (h : ReadFrom ls tokens) {p : Position} {l : Lexeme} (hl : (p, l) ∈ ls)
    {kind : Token.Kind} (hk : l.kind? = some kind) : kind ∈ tokens.map Token.kind := by
  induction h with
  | nil => cases hl
  | @token p' l' kind' ls tokens hk' _ ih =>
      rcases List.mem_cons.1 hl with heq | hl
      · cases heq
        rw [hk] at hk'
        cases hk'
        exact List.mem_cons_self
      · exact List.mem_cons_of_mem _ (ih hl)
  | silent hk' _ ih =>
      rcases List.mem_cons.1 hl with heq | hl
      · cases heq
        rw [hk] at hk'
        cases hk'
      · exact ih hl
  | wrap _ _ ih => exact List.mem_cons_of_mem _ (ih hl)

end ReadFrom

namespace Layout

/-- What a layout tells about the lexemes behind it, when the text goes on at `p`. -/
structure Tells (done : List (Position × Lexeme)) (p : Position) (s : Layout) : Prop where
  read : ReadFrom done s.tokens.toList
  ordered : (s.tokens.toList.map Token.location ++ [Location.ofPosition p]).Pairwise
    Location.Precedes
  noted : s.diagnostics.toList = done.filterMap Lexeme.diagnostic?

section
variable {done : List (Position × Lexeme)} {p q : Position} {s : Layout}

theorem Tells.later (h : Tells done p s) (hle : p ≤ q) : Tells done q s where
  read := h.read
  ordered := by
    have hord := List.pairwise_append.1 h.ordered
    refine List.pairwise_append.2 ⟨hord.1, List.pairwise_singleton _ _, fun a ha b hb => ?_⟩
    rw [List.mem_singleton.1 hb]
    exact (hord.2.2 a ha _ List.mem_cons_self).later hle
  noted := h.noted

/-- Only the stream and the diagnostics tell something. -/
theorem Tells.congr (h : Tells done p s) (frames : List Frame) :
    Tells done p { s with frames := frames } := ⟨h.read, h.ordered, h.noted⟩

theorem Tells.ordered_emit (h : Tells done p s) (kind : Token.Kind) :
    ((s.emit kind p).tokens.toList.map Token.location ++ [Location.ofPosition p]).Pairwise
      Location.Precedes := by
  have hord := List.pairwise_append.1 h.ordered
  simp only [emit, Array.toList_push, List.map_append, List.map_cons, List.map_nil]
  refine List.pairwise_append.2 ⟨h.ordered, List.pairwise_singleton _ _, fun a ha b hb => ?_⟩
  rw [List.mem_singleton.1 hb]
  rcases List.mem_append.1 ha with ha | ha
  · exact hord.2.2 a ha _ List.mem_cons_self
  · rw [List.mem_singleton.1 ha]
    exact Location.precedes_ofPosition (le_refl p)

/-- A token that wraps a block adds nothing. -/
theorem Tells.wrap (h : Tells done p s) {kind : Token.Kind} (hk : kind.Wraps) :
    Tells done p (s.emit kind p) where
  read := by
    have hread := h.read.append (.wrap (t := ⟨kind, .ofPosition p⟩) hk .nil)
    simpa [emit] using hread
  ordered := h.ordered_emit kind
  noted := h.noted

/-- A token that is read from a lexeme adds the lexeme. -/
theorem Tells.token (h : Tells done p s) {l : Lexeme} {kind : Token.Kind}
    (hk : l.kind? = some kind) : Tells (done ++ [(p, l)]) p (s.emit kind p) where
  read := by
    have hread := h.read.append (.token (p := p) hk .nil)
    simpa [emit] using hread
  ordered := h.ordered_emit kind
  noted := by
    rw [List.filterMap_append, List.filterMap_cons_none (Lexeme.diagnostic?_of_kind? hk p)]
    simpa [emit] using h.noted

/-- A lexeme of which nothing is kept can be added. -/
theorem Tells.silent (h : Tells done p s) {l : Lexeme} (hk : l.kind? = none)
    (hd : Lexeme.diagnostic? (q, l) = none) : Tells (done ++ [(q, l)]) p s where
  read := by
    have hread := h.read.append (.silent (p := q) hk .nil)
    simpa using hread
  ordered := h.ordered
  noted := by
    rw [List.filterMap_append, List.filterMap_cons_none hd]
    simpa using h.noted

theorem Tells.ignored (h : Tells done p s) (c : Char) :
    Tells (done ++ [(p, .ignored c)]) p
      { s with diagnostics := s.diagnostics.push ⟨c, p⟩ } where
  read := by
    have hread := h.read.append (.silent (p := p) (l := .ignored c) rfl .nil)
    simpa using hread
  ordered := h.ordered
  noted := by simp [h.noted, Lexeme.diagnostic?]

/-- The end of an implicit block adds a closer, or takes an opener back. -/
theorem Tells.closeTop (h : Tells done p s) (hs : s.Anchored) {f : Frame} {rest : List Frame}
    (hf : s.frames = f :: rest) (hi : f.bracket.Implicit) : Tells done p (s.closeTop p) := by
  rw [closeTop_of_frames p hf]
  unfold closeBlock
  split
  · rename_i hlast
    obtain ⟨t, hlist, ht⟩ := hs.toList_of_last (by simp [hf]) hlast
    have hopener : t.kind = .blockOpen false := by
      rw [ht]
      cases hb : f.bracket <;> rw [hb] at hi <;> first | rfl | cases hi
    have hread := h.read
    have hord := h.ordered
    rw [hlist] at hread hord
    refine ⟨hread.of_concat_opener hopener, ?_, h.noted⟩
    rw [List.map_append, List.append_assoc] at hord
    refine hord.sublist (List.Sublist.append_left ?_ _)
    exact List.sublist_cons_self _ _
  · exact (h.wrap (.inr rfl)).congr rest

theorem Tells.closeArrows (h : Tells done p s) (hs : s.Anchored) :
    Tells done p (s.closeArrows p) :=
  hs.closeArrows_induct p (fun _ _ _ hs hf ha h => h.closeTop hs hf (by rw [ha]; trivial)) h

theorem kind?_of_lone {l : Lexeme} {kind : Token.Kind} (h : Lone l kind) :
    l.kind? = some kind := by
  cases h <;> rfl

theorem kind?_of_stray {l : Lexeme} {kind : Token.Kind} (h : Stray s p l kind) :
    l.kind? = some kind := by
  cases h <;> rfl

/-- Every lexeme is told about when it has been taken into the layout. -/
theorem Tells.taken (h : Tells done p s) (hs : s.Anchored) {l : Lexeme} {next : Layout}
    (ht : Taken s p l next) : Tells (done ++ [(p, l)]) (p.advance l.chars) next := by
  have hle := p.le_advance l.chars
  have harrows := h.closeArrows hs
  have hanchored := hs.closeArrows p
  cases ht with
  | blank | unclosed | joined => exact (h.silent rfl rfl).later hle
  | ignored c => exact (h.ignored c).later hle
  | token hl => exact (h.token (kind?_of_lone hl)).later hle
  | arrow => exact (((h.token rfl).wrap (.inl rfl)).congr _).later hle
  | parenOpen => exact ((h.token rfl).congr _).later hle
  | braceOpen => exact ((((h.token rfl).congr _).wrap (.inl rfl)).congr _).later hle
  | broken hd hf _ =>
      have hclosed := harrows.closeTop hanchored hd (by rw [hf]; trivial)
      exact (((hclosed.silent rfl rfl).later hle).wrap (.inl rfl)).congr _
  | parenClose _ _ => exact ((harrows.congr _).token rfl).later hle
  | braceClose hd hf _ =>
      have hclosed := harrows.closeTop hanchored hd (by rw [hf]; trivial)
      exact ((hclosed.congr _).token rfl).later hle
  | stray hl => exact (harrows.token (kind?_of_stray hl)).later hle

theorem Tells.foldl_step (h : Tells done p s) (hs : s.Anchored) (hst : Stacked s.frames)
    (ls : List Lexeme) :
    let last := (Lexeme.place p ls).foldl Layout.step s
    Tells (done ++ Lexeme.place p ls) (p.advance (ls.flatMap Lexeme.chars)) last ∧
      last.Anchored ∧ Stacked last.frames := by
  induction ls generalizing done p s with
  | nil => exact ⟨by simpa [Lexeme.place] using h, hs, hst⟩
  | cons l ls ih =>
      have hrest := ih (h.taken hs (step_taken hst p l)) (hs.step (p, l)) (hst.step (p, l))
      rw [List.append_assoc] at hrest
      simpa [Lexeme.place] using hrest

theorem Tells.finish (h : Tells done p s) (hs : s.Anchored) (hst : Stacked s.frames) :
    Tells done p (s.finish p) := by
  have harrows := h.closeArrows hs
  obtain ⟨f, rest, hd, ⟨hf, hlast⟩ | ⟨-, hlast⟩⟩ := finish_cases hst p
  · rw [hlast]
    exact (harrows.closeTop (hs.closeArrows p) hd (by rw [hf]; trivial)).wrap (.inr rfl)
  · rw [hlast]
    exact harrows.wrap (.inr rfl)

end

theorem tells_start : Tells [] .start start := by
  have hempty : Tells [] .start {} := ⟨.nil, List.pairwise_singleton _ _, rfl⟩
  exact ((hempty.wrap (.inl rfl)).wrap (.inl rfl)).congr _

/-- The layout of a text tells about all its lexemes. -/
theorem tells_ofSource (source : List Char) :
    Tells (Lexeme.place .start (Lexeme.all source)) (.after source) (ofSource source) := by
  obtain ⟨htells, hs, hst⟩ := tells_start.foldl_step anchored_start stacked_start
    (Lexeme.all source)
  rw [Lexeme.flatMap_chars_all] at htells
  rw [← Position.advance_start]
  exact htells.finish hs hst

end Layout

theorem ne_unclosed_of_tokenize {source : String} {layout : Layout}
    (h : tokenize source = .ok layout) {p : Position} {l : Lexeme}
    (hl : (p, l) ∈ Lexeme.place .start (Lexeme.all source.toList)) (content : List Char) :
    l ≠ .unclosed content := by
  rintro rfl
  simp only [tokenize] at h
  split at h
  · cases h
  · rename_i hnone
    have hp := List.findSome?_eq_none_iff.1 hnone _ hl
    cases hp

/-- A text that has tokens splits into stretches. Each is of one sort, which its characters
decide, and stands where the text before it ends. The tokens are read from the stretches in
order, every ignored character has its diagnostic, and no token stands before an earlier one. -/
theorem tokenize_loses_nothing (source : String) (layout : Layout)
    (h : tokenize source = .ok layout) :
    ∃ segments : List (Position × Lexeme),
      segments.flatMap (fun segment => segment.2.chars) = source.toList ∧
      (∀ before p l rest, segments = before ++ (p, l) :: rest →
        p = .after (before.flatMap fun segment => segment.2.chars) ∧
        l.Sorted ∧ ∀ l' : Lexeme, l'.Sorted → l'.chars = l.chars → l' = l) ∧
      ReadFrom segments layout.tokens.toList ∧
      layout.diagnostics.toList = segments.filterMap Lexeme.diagnostic? ∧
      (layout.tokens.toList.map Token.location).Pairwise Location.Precedes := by
  have htells := Layout.tells_ofSource source.toList
  rw [← eq_ofSource_of_tokenize h] at htells
  refine ⟨Lexeme.place .start (Lexeme.all source.toList), ?_, ?_, htells.read, htells.noted,
    (List.pairwise_append.1 htells.ordered).1⟩
  · rw [Lexeme.flatMap_chars_place, Lexeme.flatMap_chars_all]
  · intro before p l rest hsplit
    have hmem : (p, l) ∈ Lexeme.place .start (Lexeme.all source.toList) := by
      rw [hsplit]
      exact List.mem_append_right before List.mem_cons_self
    have hsorted : l.Sorted := Lexeme.sorted_of_mem_all (Lexeme.mem_of_mem_place hmem)
      (ne_unclosed_of_tokenize h hmem)
    refine ⟨?_, hsorted, fun l' hl' hc => Lexeme.eq_of_chars_eq hl' hsorted hc⟩
    rw [Lexeme.position_of_place hsplit, Position.advance_start]

/-- A line feed inside a text counts, and so does one inside parentheses. -/
theorem tokenize_loses_nothing_sample :
    let source := "x <- \"\n\" # \x7bF(\n1)\x7d"
    ∃ layout, tokenize source = .ok layout ∧
      ∃ segments : List (Position × Lexeme),
        segments.flatMap (fun segment => segment.2.chars) = source.toList ∧
        (∀ before p l rest, segments = before ++ (p, l) :: rest →
          p = .after (before.flatMap fun segment => segment.2.chars) ∧
          l.Sorted ∧ ∀ l' : Lexeme, l'.Sorted → l'.chars = l.chars → l' = l) ∧
        ReadFrom segments layout.tokens.toList ∧
        layout.diagnostics.toList = segments.filterMap Lexeme.diagnostic? ∧
        (layout.tokens.toList.map Token.location).Pairwise Location.Precedes := by
  intro source
  have hquotes : QuotesPaired source.toList := by decide +kernel
  have ht := tokenize_of_quotesPaired hquotes
  exact ⟨_, ht, tokenize_loses_nothing source _ ht⟩

end Pseudocode
