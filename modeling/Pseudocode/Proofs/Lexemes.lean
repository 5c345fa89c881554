import Mathlib.Data.List.TakeWhile
import Pseudocode.Lexeme
import Pseudocode.Proofs.Nesting

/-!
# Lexemes and their characters

What the cut of a text produces, and what text it can be undone from. The brackets of
a text and the partners of its quotes are found here by looking at single characters,
and both agree with the cut.
-/
namespace Pseudocode

def Mark.ofChar? (c : Char) : Option Mark :=
  if c = '(' then some (.opens .round)
  else if c = ')' then some (.closes .round)
  else if c = '\x7b' then some (.opens .curly)
  else if c = '\x7d' then some (.closes .curly)
  else none

/-- The brackets of a text that stand outside of quotes, when the text begins inside of quotes or
outside of them. -/
def skeletonFrom : (quoted : Bool) → List Char → List Mark
  | _, [] => []
  | true, c :: cs => skeletonFrom (c != '"') cs
  | false, c :: cs =>
      if c = '"' then skeletonFrom true cs
      else (Mark.ofChar? c).toList ++ skeletonFrom false cs

def skeleton (cs : List Char) : List Mark := skeletonFrom false cs

/-- Every quote has its partner. -/
def QuotesPaired (cs : List Char) : Prop := cs.count '"' % 2 = 0

instance (cs : List Char) : Decidable (QuotesPaired cs) :=
  inferInstanceAs (Decidable (cs.count '"' % 2 = 0))

namespace Lexeme

/-- Characters that start a lexeme of their own sort. -/
def breaks : List Char := ['\n', '<', '(', ')', '\x7b', '\x7d', '"']

/-- Characters that are in no word. -/
def signs : List Char := breaks ++ operatorChars ++ [' ', ',']

theorem startsWord_of_mem_signs : ∀ c ∈ signs, startsWord c = false := by
  have h : (signs.all fun c => !startsWord c) = true := by decide +kernel
  intro c hc
  simpa using List.all_eq_true.1 h c hc

theorem mem_signs_of_mem_breaks {c : Char} (h : c ∈ breaks) : c ∈ signs := by
  simp only [signs, List.mem_append]
  exact .inl (.inl h)

theorem mem_signs_of_mem_operatorChars {c : Char} (h : c ∈ operatorChars) : c ∈ signs := by
  simp only [signs, List.mem_append]
  exact .inl (.inr h)

theorem continuesWord_of_mem_signs {c : Char} (h : c ∈ signs) (numeric : Bool) :
    continuesWord numeric c = false := by
  have hpoint : '.' ∉ signs := by decide
  have hc : c ≠ '.' := fun he => hpoint (he ▸ h)
  simp [continuesWord, startsWord_of_mem_signs c h, hc]

def IsWord : List Char → Prop
  | [] => False
  | c :: cs => startsWord c = true ∧ ∀ d ∈ cs, continuesWord (Text.isDigit c) d = true

instance : DecidablePred IsWord
  | [] => inferInstanceAs (Decidable False)
  | _ :: cs => @instDecidableAnd _ _ inferInstance (List.decidableBAll _ cs)

theorem IsWord.not_mem_signs {w : List Char} (h : IsWord w) {c : Char} (hc : c ∈ w) :
    c ∉ signs := by
  intro hs
  match w, h with
  | d :: ds, ⟨hd, hds⟩ =>
      rcases List.mem_cons.1 hc with rfl | hc
      · rw [startsWord_of_mem_signs c hs] at hd
        cases hd
      · have hcont := hds c hc
        rw [continuesWord_of_mem_signs hs] at hcont
        cases hcont

/-- The lexemes that a cut produces, by the characters in them. -/
def Proper : Lexeme → Prop
  | blank c | ignored c => c ∉ breaks
  | operator c => c ∈ operatorChars
  | quoted content | unclosed content => '"' ∉ content
  | word content => IsWord content
  | _ => True

/-- The cut in front of a character that has no sort of its own. -/
theorem cut_eq_cutPlain {c : Char} (h : c ∉ breaks) (cs : List Char) :
    cut c cs = cutPlain c cs := by
  simp only [breaks, List.mem_cons, List.not_mem_nil, or_false, not_or] at h
  unfold cut
  split <;> simp_all

theorem cut_less {cs : List Char} (h : cs.head? ≠ some '-') : cut '<' cs = (less, cs) := by
  cases cs with
  | nil => rfl
  | cons d ds =>
      have hd : d ≠ '-' := fun he => h (by rw [he]; rfl)
      simp [cut, hd]

theorem proper_cutQuoted (cs : List Char) : (cutQuoted cs).1.Proper := by
  unfold cutQuoted
  split
  · rename_i hd
    intro hq
    have h := List.dropWhile_eq_nil_iff.1 hd _ hq
    simp at h
  · intro hq
    have h := List.mem_takeWhile_imp hq
    simp at h

theorem proper_cutPlain {c : Char} (h : c ∉ breaks) (cs : List Char) :
    (cutPlain c cs).1.Proper := by
  unfold cutPlain
  split
  · rename_i ho
    exact ho
  · split
    · rename_i hw
      exact ⟨hw, fun _ hd => List.mem_takeWhile_imp hd⟩
    · split
      · exact h
      · exact h

theorem proper_cut (c : Char) (cs : List Char) : (cut c cs).1.Proper := by
  by_cases h : c ∈ breaks
  · simp only [breaks, List.mem_cons, List.not_mem_nil, or_false] at h
    rcases h with rfl | rfl | rfl | rfl | rfl | rfl | rfl
    · trivial
    · by_cases hd : cs.head? = some '-'
      · obtain ⟨ds, rfl⟩ := List.head?_eq_some_iff.1 hd
        trivial
      · rw [cut_less hd]
        trivial
    · trivial
    · trivial
    · trivial
    · trivial
    · exact proper_cutQuoted cs
  · rw [cut_eq_cutPlain h]
    exact proper_cutPlain h cs

theorem proper_of_mem_all {cs : List Char} {l : Lexeme} (h : l ∈ all cs) : l.Proper := by
  fun_induction all cs with
  | case1 => cases h
  | case2 c cs ih =>
      rcases List.mem_cons.1 h with rfl | h
      · exact proper_cut c cs
      · exact ih h

def mark? : Lexeme → Option Mark
  | parenOpen => some (.opens .round)
  | parenClose => some (.closes .round)
  | braceOpen => some (.opens .curly)
  | braceClose => some (.closes .curly)
  | _ => none

theorem ofChar?_of_not_mem_breaks {c : Char} (h : c ∉ breaks) : Mark.ofChar? c = none := by
  simp only [breaks, List.mem_cons, List.not_mem_nil, or_false, not_or] at h
  simp [Mark.ofChar?, h]

theorem skeletonFrom_plain {w : List Char} (h : ∀ c ∈ w, c ∉ breaks) (rest : List Char) :
    skeletonFrom false (w ++ rest) = skeletonFrom false rest := by
  induction w with
  | nil => rfl
  | cons c w ih =>
      have hc := h c List.mem_cons_self
      have hq : c ≠ '"' := fun he => hc (he ▸ by decide)
      rw [List.cons_append, skeletonFrom, if_neg hq, ofChar?_of_not_mem_breaks hc,
        ih fun d hd => h d (List.mem_cons_of_mem c hd)]
      rfl

theorem skeletonFrom_quoted {content : List Char} (h : '"' ∉ content) (rest : List Char) :
    skeletonFrom true (content ++ rest) = skeletonFrom true rest := by
  induction content with
  | nil => rfl
  | cons c content ih =>
      have hc : (c != '"') = true := by
        simp only [bne_iff_ne]
        exact fun he => h (he ▸ List.mem_cons_self)
      rw [List.cons_append, skeletonFrom, hc, ih fun hm => h (List.mem_cons_of_mem c hm)]

theorem not_mem_breaks_of_mem_operatorChars : ∀ c ∈ operatorChars, c ∉ breaks := by
  have h : (operatorChars.all fun c => c ∉ breaks) = true := by decide
  intro c hc
  simpa using List.all_eq_true.1 h c hc

/-- A lexeme with both its ends contributes the bracket that it is. -/
theorem skeletonFrom_chars {l : Lexeme} (h : l.Proper) (hu : ∀ content, l ≠ unclosed content)
    (rest : List Char) :
    skeletonFrom false (l.chars ++ rest) = l.mark?.toList ++ skeletonFrom false rest := by
  cases l with
  | newline => rfl
  | arrow => rfl
  | less => rfl
  | parenOpen => rfl
  | parenClose => rfl
  | braceOpen => rfl
  | braceClose => rfl
  | unclosed content => exact absurd rfl (hu content)
  | blank c => exact skeletonFrom_plain (by simpa [chars, Proper] using h) rest
  | ignored c => exact skeletonFrom_plain (by simpa [chars, Proper] using h) rest
  | operator c =>
      exact skeletonFrom_plain (by simpa [chars] using not_mem_breaks_of_mem_operatorChars c h) rest
  | word content =>
      exact skeletonFrom_plain
        (fun c hc hb => IsWord.not_mem_signs h hc (mem_signs_of_mem_breaks hb)) rest
  | quoted content =>
      simp only [chars, List.cons_append, List.append_assoc, skeletonFrom, if_true]
      rw [skeletonFrom_quoted h]
      rfl

/-- Only the end of the text follows a quote without a partner. -/
theorem cut_snd_of_unclosed {c : Char} {cs content : List Char}
    (h : (cut c cs).1 = unclosed content) : (cut c cs).2 = [] := by
  unfold cut at h ⊢
  split <;> simp_all only [reduceCtorEq]
  · unfold cutQuoted at h ⊢
    split <;> simp_all
  · unfold cutPlain at h
    repeat' split at h
    all_goals cases h

/-- The cut keeps the brackets outside of quotes. -/
theorem filterMap_mark?_all (cs : List Char) : (all cs).filterMap mark? = skeleton cs := by
  unfold skeleton
  fun_induction all cs with
  | case1 => rfl
  | case2 c cs ih =>
      have hproper := proper_cut c cs
      have hchars := cut_chars c cs
      by_cases hu : ∃ content, (cut c cs).1 = unclosed content
      · obtain ⟨content, hu⟩ := hu
        rw [hu] at hproper
        rw [cut_snd_of_unclosed hu, hu, List.append_nil] at hchars
        rw [cut_snd_of_unclosed hu, hu, ← hchars, all_nil]
        have hq := skeletonFrom_quoted hproper []
        rw [List.append_nil] at hq
        simp only [chars, skeletonFrom, if_true, hq]
        rfl
      · have hs := skeletonFrom_chars hproper (fun content he => hu ⟨content, he⟩) (cut c cs).2
        rw [hchars] at hs
        rw [List.filterMap_cons, ih, hs]
        cases (cut c cs).1.mark? <;> rfl

def content? : Lexeme → Option (List Char)
  | quoted content => some content
  | _ => none

/-- Only a text between quotes holds quotes, and it holds two. -/
theorem count_quote_chars {l : Lexeme} (h : l.Proper) (hu : ∀ content, l ≠ unclosed content) :
    l.chars.count '"' = 2 * l.content?.toList.length := by
  have hplain : ∀ w : List Char, (∀ c ∈ w, c ∉ breaks) → w.count '"' = 0 := by
    intro w hw
    exact List.count_eq_zero.2 fun hq => hw _ hq (by decide)
  cases l with
  | unclosed content => exact absurd rfl (hu content)
  | quoted content =>
      simp only [chars, List.cons_append, List.count_cons_self, List.count_append]
      rw [List.count_eq_zero.2 h]
      rfl
  | word content =>
      exact hplain content fun c hc hb => IsWord.not_mem_signs h hc (mem_signs_of_mem_breaks hb)
  | operator c => exact hplain _ (by simpa [chars] using not_mem_breaks_of_mem_operatorChars c h)
  | blank c => exact hplain _ (by simpa [chars, Proper] using h)
  | ignored c => exact hplain _ (by simpa [chars, Proper] using h)
  | _ => rfl

theorem count_quote_flatMap_chars {ls : List Lexeme}
    (h : ∀ l ∈ ls, l.Proper ∧ ∀ content, l ≠ unclosed content) :
    (ls.flatMap chars).count '"' = 2 * (ls.filterMap content?).length := by
  induction ls with
  | nil => rfl
  | cons l ls ih =>
      obtain ⟨⟨hproper, hclosed⟩, hls⟩ := List.forall_mem_cons.1 h
      rw [List.flatMap_cons, List.count_append, count_quote_chars hproper hclosed, ih hls,
        List.filterMap_cons]
      cases l.content? with
      | none => simp
      | some content => simp [Nat.mul_add, Nat.add_comm]

/-- In a text whose quotes have partners the cut finds none without one. -/
theorem ne_unclosed_of_quotesPaired {cs : List Char} (h : QuotesPaired cs) {l : Lexeme}
    (hl : l ∈ all cs) (content : List Char) : l ≠ unclosed content := by
  fun_induction all cs with
  | case1 => cases hl
  | case2 c cs ih =>
      have hcount := congrArg (List.count '"') (cut_chars c cs)
      rw [List.count_append] at hcount
      unfold QuotesPaired at h
      by_cases hu : ∃ content, (cut c cs).1 = unclosed content
      · -- The text would end inside this quote, after an odd number of them.
        exfalso
        obtain ⟨content, hu⟩ := hu
        have hproper := proper_cut c cs
        rw [hu] at hproper
        rw [cut_snd_of_unclosed hu, hu] at hcount
        simp only [chars, List.count_cons_self, List.count_nil] at hcount
        rw [List.count_eq_zero.2 hproper] at hcount
        omega
      · have heven := count_quote_chars (proper_cut c cs) fun content he => hu ⟨content, he⟩
        rcases List.mem_cons.1 hl with rfl | hl
        · exact fun he => hu ⟨content, he⟩
        · apply ih _ hl
          unfold QuotesPaired
          omega

end Lexeme

end Pseudocode
