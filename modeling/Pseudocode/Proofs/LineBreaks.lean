import Pseudocode.Proofs.Assignments
import Pseudocode.Proofs.Quotes

/-!
# Line breaks that change nothing

Two layouts are alike when their tokens say the same and the same brackets are open in
them. No lexeme looks at places, so alike layouts stay alike whatever follows, in
unbalanced texts too, and a change in a text leaves its tokens as they are, up to places,
when the layouts right behind it are alike.

There are three such changes: a line without tokens is left out, a line break is added at
the end of the text, and a line break inside of parentheses becomes a blank.
-/
namespace Pseudocode

/-- What the tokens of a source say, if it has tokens. -/
def kinds? (source : String) : Option (List Token.Kind) :=
  (tokenize source).toOption.map Layout.kinds

/-- The text is empty, or it ends in a line feed outside of quotes. -/
def EndsLine (cs : List Char) : Prop := cs = [] ∨ ∃ front, cs = front ++ ['\n'] ∧ QuotesPaired front

def Text.Ranges.apart (rs ss : Text.Ranges) : Bool :=
  rs.all fun r => ss.all fun s => r.2 < s.1 || s.2 < r.1

theorem Text.Ranges.not_contains_of_apart {rs ss : Text.Ranges} (h : rs.apart ss = true) {c : Char}
    (hc : rs.contains c = true) : ss.contains c = false := by
  obtain ⟨low, high, hr, hlow, hhigh⟩ := Text.Ranges.contains_iff.1 hc
  by_contra hs
  obtain ⟨low', high', hs, hlow', hhigh'⟩ := Text.Ranges.contains_iff.1 (Bool.not_eq_false _ ▸ hs)
  have hapart := List.all_eq_true.1 (List.all_eq_true.1 h _ hr) _ hs
  simp only [Bool.or_eq_true, decide_eq_true_eq] at hapart
  omega

theorem Lexeme.loose_of_isBlank {c : Char} (h : Text.isBlank c = true) (hc : c ≠ '\n') :
    Loose c := by
  have hsign : ((breaks ++ operatorChars).all fun d => d = '\n' || !Text.isBlank d) = true := by
    decide +kernel
  have hapart : Text.blankRanges.apart Text.alphanumericRanges = true := by decide +kernel
  have hmem : c ∉ breaks ++ operatorChars := by
    intro hm
    simpa [hc, h] using List.all_eq_true.1 hsign c hm
  rw [List.mem_append, not_or] at hmem
  refine ⟨hmem.1, hmem.2, ?_⟩
  have hword : Text.isAlphanumeric c = false := Text.Ranges.not_contains_of_apart hapart h
  have hline : c ≠ '_' := by
    rintro rfl
    exact absurd h (by decide +kernel)
  simp [startsWord, hword, hline]

namespace Layout

/-- The tokens say the same, and the same brackets are open. -/
structure Alike (s t : Layout) : Prop where
  kinds : s.kinds = t.kinds
  frames : s.frames = t.frames

section
variable {s t u : Layout} {before : List Token.Kind} {below : List Frame}

theorem Alike.refl (s : Layout) : Alike s s := ⟨rfl, rfl⟩

theorem Alike.trans (h : Alike s t) (h' : Alike t u) : Alike s u :=
  ⟨h.kinds.trans h'.kinds, h.frames.trans h'.frames⟩

theorem Alike.size_eq (h : Alike s t) : s.tokens.size = t.tokens.size := by
  rw [← length_kinds, h.kinds, length_kinds]

theorem Alike.emit (h : Alike s t) (kind : Token.Kind) (p q : Position) :
    Alike (s.emit kind p) (t.emit kind q) where
  kinds := by rw [kinds_emit, kinds_emit, h.kinds]
  frames := h.frames

theorem Alike.openWith (h : Alike s t) (bracket : Bracket) (kind : Token.Kind) (p q : Position) :
    Alike (s.openWith bracket kind p) (t.openWith bracket kind q) where
  kinds := by rw [kinds_openWith, kinds_openWith, h.kinds]
  frames := by simp only [Layout.openWith, h.size_eq, h.frames]

/-- An implicit block ends with a closer, or its opener is taken back when it is the last token. -/
theorem kinds_closeTop {f : Frame} {rest : List Frame} (p : Position) (hf : s.frames = f :: rest) :
    (s.closeTop p).kinds =
      if f.opener + 1 = s.kinds.length then s.kinds.dropLast else s.kinds ++ [.blockClose] := by
  rw [closeTop_of_frames p hf, closeBlock, length_kinds]
  by_cases hlast : f.opener + 1 = s.tokens.size
  · rw [if_pos hlast, if_pos hlast]
    simp [Layout.kinds]
  · rw [if_neg hlast, if_neg hlast]
    simp [Layout.kinds]

theorem Alike.closeTop (h : Alike s t) (p q : Position) : Alike (s.closeTop p) (t.closeTop q) := by
  cases hf : s.frames with
  | nil =>
      have hg : t.frames = [] := h.frames.symm.trans hf
      simp only [Layout.closeTop, hf, hg]
      exact h
  | cons f rest =>
      have hg : t.frames = f :: rest := h.frames.symm.trans hf
      constructor
      · rw [kinds_closeTop p hf, kinds_closeTop q hg, h.kinds]
      · rw [frames_closeTop p hf, frames_closeTop q hg]

theorem Alike.closeArrows (h : Alike s t) (p q : Position) :
    Alike (s.closeArrows p) (t.closeArrows q) := by
  induction hf : s.frames generalizing s t with
  | nil =>
      have hg : t.frames = [] := h.frames.symm.trans hf
      rw [closeArrows_of_not_arrow p (by simp [hf]), closeArrows_of_not_arrow q (by simp [hg])]
      exact h
  | cons f rest ih =>
      have hg : t.frames = f :: rest := h.frames.symm.trans hf
      by_cases ha : f.bracket = .arrow
      · rw [closeArrows_of_arrow p hf ha, closeArrows_of_arrow q hg ha]
        exact ih (h.closeTop p q) (frames_closeTop p hf)
      · rw [closeArrows_of_not_arrow p (by simpa [hf] using ha),
          closeArrows_of_not_arrow q (by simpa [hg] using ha)]
        exact h

theorem Alike.leave (h : Alike s t) (rest : List Frame) :
    Alike { s with frames := rest } { t with frames := rest } := ⟨h.kinds, rfl⟩

/-- A lexeme does the same to alike layouts, whatever is open in them. -/
theorem Alike.taken (h : Alike s t) {p : Position} {l : Lexeme} {next : Layout}
    (ht : Taken s p l next) (q : Position) : Alike next (t.step (q, l)) := by
  have harrows := h.closeArrows p q
  have hframes := harrows.frames.symm
  cases ht with
  | blank | unclosed => exact h
  | ignored c => exact ⟨h.kinds, h.frames⟩
  | token hl => cases hl <;> exact h.emit _ p q
  | arrow => exact (h.emit .arrow p q).openWith .arrow _ p q
  | parenOpen => exact h.openWith .paren _ p q
  | braceOpen => exact (h.openWith .brace _ p q).openWith .statement _ p q
  | joined hd hf =>
      rw [Layout.step, breakLine_of_paren q (hframes.trans hd) hf]
      exact h
  | broken hd hf _ =>
      rw [Layout.step, breakLine_of_statement q (hframes.trans hd) hf]
      exact (harrows.closeTop p q).openWith .statement _ _ _
  | parenClose hd hf =>
      rw [Layout.step, closeParen_of_paren q (hframes.trans hd) hf]
      exact (harrows.leave _).emit .argumentsClose p q
  | braceClose hd hf hg =>
      rw [Layout.step, closeBrace_of_braces q (hframes.trans hd) hf hg]
      exact ((harrows.closeTop p q).leave _).emit .blockClose p q
  | stray hl =>
      cases hl with
      | paren hd hf _ =>
          rw [Layout.step, closeParen_of_statement q (hframes.trans hd) hf]
          exact harrows.emit .argumentsClose p q
      | bottom hd hf =>
          rw [Layout.step, closeBrace_of_bottom q (hframes.trans hd) hf]
          exact harrows.emit .blockClose p q
      | held hd hf =>
          rw [Layout.step, closeBrace_of_paren q (hframes.trans hd) hf]
          exact harrows.emit .blockClose p q

theorem Alike.breakLine (h : Alike s t) (hst : Stacked s.frames) (p q : Position) :
    Alike (s.breakLine p) (t.breakLine q) :=
  h.taken (step_taken hst p .newline) q

theorem Alike.lay (h : Alike s t) (hst : Stacked s.frames) (ls : List Lexeme) (p q : Position) :
    Alike (s.lay p ls) (t.lay q ls) := by
  induction ls generalizing s t p q with
  | nil => exact h
  | cons l ls ih => exact ih (h.taken (step_taken hst p l) q) (hst.step (p, l)) _ _

theorem Alike.finish (h : Alike s t) (hst : Stacked s.frames) (p q : Position) :
    Alike (s.finish p) (t.finish q) := by
  have harrows := h.closeArrows p q
  obtain ⟨f, rest, hd, ⟨hf, hlast⟩ | ⟨hf, hlast⟩⟩ := finish_cases hst p
  · rw [hlast, finish_of_statement q (harrows.frames.symm.trans hd) hf]
    exact (harrows.closeTop p q).emit .blockClose p q
  · rw [hlast, finish_of_paren q (harrows.frames.symm.trans hd) hf]
    exact harrows.emit .blockClose p q

theorem Fresh.alike (h : Fresh s before below) (h' : Fresh t before below) : Alike s t := by
  obtain ⟨⟨bracket, opener⟩, hf, rfl, hlast⟩ := h.opened
  obtain ⟨⟨bracket', opener'⟩, hg, rfl, hlast'⟩ := h'.opened
  have hkinds : s.kinds = t.kinds := h.kinds.trans h'.kinds.symm
  have hsize : s.tokens.size = t.tokens.size := by rw [← length_kinds, hkinds, length_kinds]
  have hopener : opener = opener' := Nat.succ.inj (hlast.trans (hsize.trans hlast'.symm))
  exact ⟨hkinds, by rw [hf, hg, hopener]⟩

/-- Outside of parentheses a statement is open, and what it leaves does not depend on where it
ends. -/
theorem exists_pends (hs : s.Anchored) (hst : Stacked s.frames) (hp : ¬ s.insideParen = true) :
    ∃ ended below, Pends s ended below := by
  have hframes : ∃ f below, (s.closeArrows .start).frames = f :: below ∧
      f.bracket = .statement := by
    obtain ⟨frames, hd, hinner⟩ := hst.innermost_closeArrows .start
    cases hinner with
    | bottom hf => exact ⟨_, _, hd, hf⟩
    | paren hf _ => exact absurd (insideParen_iff.2 ⟨_, _, hd, hf⟩) hp
    | braces hf _ _ => exact ⟨_, _, hd, hf⟩
  obtain ⟨f, below, hd, hf⟩ := hframes
  refine ⟨((s.closeArrows .start).closeTop .start).kinds, below, hs, fun p => ⟨f, hd, hf⟩, ?_⟩
  intro p
  exact (((Alike.refl s).closeArrows p .start).closeTop p .start).kinds

theorem breakLine_cases (hs : s.Anchored) (hst : Stacked s.frames) (p : Position) :
    s.insideParen = true ∧ s.breakLine p = s ∨
      ∃ ended below, Pends s ended below ∧ Fresh (s.breakLine p) ended below := by
  by_cases hp : s.insideParen = true
  · exact .inl ⟨hp, by rw [Layout.breakLine, if_pos hp]⟩
  · obtain ⟨ended, below, hpends⟩ := exists_pends hs hst hp
    exact .inr ⟨ended, below, hpends, hpends.breakLine p⟩

/-- Nothing stands in the line so far, or line breaks do not count. -/
def LineBegun (s : Layout) : Prop := s.insideParen = true ∨ ∃ before below, Fresh s before below

theorem lineBegun_start : LineBegun start :=
  .inr ⟨[.blockOpen false], [], anchored_start, ⟨⟨.statement, 1⟩, rfl, rfl, rfl⟩, rfl⟩

theorem lineBegun_breakLine (hs : s.Anchored) (hst : Stacked s.frames) (p : Position) :
    LineBegun (s.breakLine p) := by
  obtain ⟨hp, hsame⟩ | ⟨ended, below, -, hfresh⟩ := breakLine_cases hs hst p
  · rw [hsame]
    exact .inl hp
  · exact .inr ⟨ended, below, hfresh⟩

theorem LineBegun.breakLine (h : LineBegun s) (p : Position) : Alike (s.breakLine p) s := by
  rcases h with hp | ⟨before, below, hfresh⟩
  · rw [Layout.breakLine, if_pos hp]
    exact .refl s
  · exact (hfresh.pends.breakLine p).alike hfresh

theorem kinds_finish_breakLine (hs : s.Anchored) (hst : Stacked s.frames) (p q r : Position) :
    ((s.breakLine p).finish q).kinds = (s.finish r).kinds := by
  obtain ⟨-, hsame⟩ | ⟨ended, below, hpends, hfresh⟩ := breakLine_cases hs hst p
  · rw [hsame]
    exact ((Alike.refl s).finish hst q r).kinds
  · rw [hfresh.pends.finish q, hpends.finish r]

end

theorem Alike.kinds_ofSource {cs ds : List Char} (h : Alike (laid cs) (laid ds)) :
    (ofSource cs).kinds = (ofSource ds).kinds := (h.finish (stacked_laid cs) _ _).kinds

section
variable {cs : List Char} (hq : QuotesPaired cs)
include hq

theorem kinds_ofSource_newline : (ofSource (cs ++ ['\n'])).kinds = (ofSource cs).kinds := by
  rw [ofSource_eq, ofSource_eq, laid_line (Lexeme.closed_iff_quotesPaired.2 hq),
    Lexeme.all_nil]
  exact kinds_finish_breakLine (anchored_laid cs) (stacked_laid cs) _ _ _

theorem laid_blank (more : List Char) : laid (cs ++ ' ' :: more) =
    (laid cs).lay ((Position.start.advance cs).advance [' ']) (Lexeme.all more) := by
  have hcut : Lexeme.all (' ' :: more) = .blank ' ' :: Lexeme.all more :=
    Lexeme.all_chars_append (l := .blank ' ') rfl (fun _ h => by cases h) (fun h => by cases h)
  have happend : Lexeme.all (cs ++ ' ' :: more) =
      Lexeme.all cs ++ .blank ' ' :: Lexeme.all more := by
    rw [Lexeme.all_append (Lexeme.apart_cons.2 (by decide)) cs
      (Lexeme.closed_iff_quotesPaired.2 hq), hcut]
  exact laid_append happend

/-- Inside of parentheses a line break is as good as a blank. -/
theorem alike_laid_blank (hp : (laid cs).insideParen = true) (more : List Char) :
    Alike (laid (cs ++ ' ' :: more)) (laid (cs ++ '\n' :: more)) := by
  have hsame : (laid cs).breakLine (Position.start.advance cs) = laid cs := if_pos hp
  rw [laid_blank hq, laid_line (Lexeme.closed_iff_quotesPaired.2 hq), hsame]
  exact (Alike.refl _).lay (stacked_laid cs) _ _ _

end

section
variable {cs : List Char} (h : EndsLine cs)
include h

theorem all_append_of_endsLine (more : List Char) :
    Lexeme.all (cs ++ more) = Lexeme.all cs ++ Lexeme.all more := by
  obtain rfl | ⟨front, rfl, hq⟩ := h
  · rw [List.nil_append, Lexeme.all_nil, List.nil_append]
  · have hline := all_line (Lexeme.closed_iff_quotesPaired.2 hq)
    rw [List.append_assoc, List.singleton_append, hline, hline, Lexeme.all_nil, List.append_assoc]
    rfl

theorem lineBegun_of_endsLine : LineBegun (laid cs) := by
  obtain rfl | ⟨front, rfl, hq⟩ := h
  · rw [laid, Lexeme.all_nil]
    exact lineBegun_start
  · rw [laid_line (Lexeme.closed_iff_quotesPaired.2 hq), Lexeme.all_nil]
    exact lineBegun_breakLine (anchored_laid front) (stacked_laid front) _

/-- A line without tokens leaves no trace. -/
theorem alike_laid_line {w : List Char} (hw : ∀ c ∈ w, Lexeme.Loose c) (more : List Char) :
    Alike (laid (cs ++ (w ++ '\n' :: more))) (laid (cs ++ more)) := by
  have hloose : ∀ l ∈ Lexeme.all w, ∃ c, l = .blank c ∨ l = .ignored c :=
    fun l hl => Lexeme.all_of_loose hw hl
  have hclosed : ∀ l ∈ Lexeme.all w, ∀ content, l ≠ .unclosed content := by
    intro l hl content
    obtain ⟨c, rfl | rfl⟩ := hloose l hl <;> exact Lexeme.noConfusion
  rw [laid_append (all_append_of_endsLine h _), laid_append (all_append_of_endsLine h more),
    all_line hclosed, lay_append_at, lay_cons]
  obtain ⟨htokens, hframes⟩ := lay_of_loose hloose (laid cs) (Position.start.advance cs)
  have hskipped : Alike ((laid cs).lay (Position.start.advance cs) (Lexeme.all w)) (laid cs) :=
    ⟨congrArg (fun tokens : Array Token => tokens.toList.map Token.kind) htokens, hframes⟩
  have hst : Stacked ((laid cs).lay (Position.start.advance cs) (Lexeme.all w)).frames := by
    rw [hframes]
    exact stacked_laid cs
  have hbreak := (hskipped.breakLine hst ((Position.start.advance cs).advance
    ((Lexeme.all w).flatMap Lexeme.chars)) .start).trans
      ((lineBegun_of_endsLine h).breakLine .start)
  exact hbreak.lay (hst.step (_, .newline)) _ _ _

end

end Layout

open Layout

theorem kinds?_of_quotesPaired {source : String} (h : QuotesPaired source.toList) :
    kinds? source = some (ofSource source.toList).kinds := by
  rw [kinds?, tokenize_of_quotesPaired h]
  rfl

theorem kinds?_of_not_quotesPaired {source : String} (h : ¬ QuotesPaired source.toList) :
    kinds? source = none := by
  have hodd : source.toList.count '"' % 2 = 1 := by
    unfold QuotesPaired at h
    omega
  obtain ⟨before, rest, hsource, hrest, hbefore⟩ := exists_last_quote hodd
  rw [kinds?, tokenize_last_quote hsource hbefore hrest]
  rfl

theorem kinds?_congr {a b : String} (hcount : a.toList.count '"' = b.toList.count '"')
    (h : QuotesPaired b.toList → (ofSource a.toList).kinds = (ofSource b.toList).kinds) :
    kinds? a = kinds? b := by
  by_cases hb : QuotesPaired b.toList
  · have ha : QuotesPaired a.toList := by
      unfold QuotesPaired at hb ⊢
      omega
    rw [kinds?_of_quotesPaired ha, kinds?_of_quotesPaired hb, h hb]
  · have ha : ¬ QuotesPaired a.toList := by
      unfold QuotesPaired at hb ⊢
      omega
    rw [kinds?_of_not_quotesPaired ha, kinds?_of_not_quotesPaired hb]

/-- Line breaks and blanks do not matter, in balanced texts and others. At the beginning of a line
one that holds no tokens can be put in, at the end of a text a line break can be added, and where
the innermost bracket that is no arrow is a parenthesis a line break can be replaced by a blank:
the tokens say the same, or there are none before and after. -/
theorem line_breaks_do_not_matter :
    (∀ a w b : String, EndsLine a.toList →
      (∀ c ∈ w.toList, Text.isBlank c = true ∧ c ≠ '\n' ∨ Lexeme.Loose c) →
      kinds? (a ++ w ++ "\n" ++ b) = kinds? (a ++ b)) ∧
    (∀ source : String, kinds? (source ++ "\n") = kinds? source) ∧
    (∀ (x y : String) (arrows : List Frame) (f : Frame) (rest : List Frame),
      QuotesPaired x.toList → (laid x.toList).frames = arrows ++ f :: rest →
      (∀ g ∈ arrows, g.bracket = .arrow) → f.bracket = .paren →
      kinds? (x ++ " " ++ y) = kinds? (x ++ "\n" ++ y)) := by
  refine ⟨fun a w b ha hw => ?_, fun source => ?_, fun x y arrows f rest hx hf harrows hparen => ?_⟩
  · have hloose : ∀ c ∈ w.toList, Lexeme.Loose c := by
      intro c hc
      rcases hw c hc with ⟨hblank, hline⟩ | hloose
      · exact Lexeme.loose_of_isBlank hblank hline
      · exact hloose
    have hquote : w.toList.count '"' = 0 := by
      refine List.count_eq_zero.2 fun hq => ?_
      exact (hloose _ hq).1 (by decide)
    have htext : (a ++ w ++ "\n" ++ b).toList = a.toList ++ (w.toList ++ '\n' :: b.toList) := by
      simp [String.toList_append]
    apply kinds?_congr
    · rw [htext, String.toList_append]
      simp [hquote]
    · intro _
      rw [htext, String.toList_append]
      exact (alike_laid_line ha hloose b.toList).kinds_ofSource
  · have htext : (source ++ "\n").toList = source.toList ++ ['\n'] := by
      simp [String.toList_append]
    apply kinds?_congr
    · rw [htext]
      simp
    · intro hq
      rw [htext, kinds_ofSource_newline hq]
  · have hinside : (laid x.toList).insideParen = true := by
      refine insideParen_iff.2 ⟨f, rest, ?_, hparen⟩
      rw [hf, List.dropWhile_append_of_pos (by simpa using harrows),
        List.dropWhile_cons_of_neg (by simp [hparen])]
    have hblank : (x ++ " " ++ y).toList = x.toList ++ ' ' :: y.toList := by
      simp [String.toList_append]
    apply kinds?_congr
    · rw [hblank, toList_line]
      simp
    · intro _
      rw [hblank, toList_line]
      exact (alike_laid_blank hx hinside y.toList).kinds_ofSource

/-- With a brace too many before and parentheses that stay open, on the right-hand side of an
arrow. -/
theorem line_breaks_do_not_matter_samples :
    (kinds? ("\x7d F(y <-\n" ++ "1 \x7b")).isSome = true ∧
    kinds? ("\x7d F(y <-\n" ++ "\t# " ++ "\n" ++ "1 \x7b") =
      kinds? ("\x7d F(y <-\n" ++ "1 \x7b") ∧
    kinds? ("\x7d F(y <-" ++ "\n") = kinds? "\x7d F(y <-" ∧
    (laid "\x7d F(y <-".toList).frames = [⟨.arrow, 7⟩, ⟨.paren, 4⟩, ⟨.statement, 1⟩] ∧
    kinds? ("\x7d F(y <-" ++ " " ++ "1 \x7b") = kinds? ("\x7d F(y <-" ++ "\n" ++ "1 \x7b") := by
  obtain ⟨hline, hend, hblank⟩ := line_breaks_do_not_matter
  have hframes : (laid "\x7d F(y <-".toList).frames =
      [⟨.arrow, 7⟩, ⟨.paren, 4⟩, ⟨.statement, 1⟩] := by decide +kernel
  have hskipped : ∀ c ∈ "\t# ".toList, Text.isBlank c = true ∧ c ≠ '\n' ∨ Lexeme.Loose c := by
    have htext : "\t# ".toList = ['\t', '#', ' '] := rfl
    rw [htext]
    refine List.forall_mem_cons.2 ⟨.inl (by decide +kernel), List.forall_mem_cons.2
      ⟨.inr ⟨by decide, by decide, by decide +kernel⟩, List.forall_mem_singleton.2
        (.inl (by decide +kernel))⟩⟩
  refine ⟨by decide +kernel, ?_, hend _, hframes, ?_⟩
  · exact hline _ _ _ (.inr ⟨"\x7d F(y <-".toList, rfl, by decide +kernel⟩) hskipped
  · exact hblank _ _ [⟨.arrow, 7⟩] ⟨.paren, 4⟩ [⟨.statement, 1⟩] (by decide +kernel) hframes
      (List.forall_mem_singleton.2 rfl) rfl

end Pseudocode
