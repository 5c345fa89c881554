import Pseudocode.Proofs.JsonGrammar

/-!
# Reading JSON numerals and texts

Numerals and texts are read off the front of a text, and what follows them is given back. They
are read exactly as the grammar has them. A numeral is read as far as it goes, so it is read back
only before something that cannot be a part of it.
-/
namespace Pseudocode.Json

def readDigits (cs : List Char) : Option (Digits × List Char) :=
  if h : cs.takeWhile Char.isDigit ≠ [] then
    some (⟨cs.takeWhile Char.isDigit, h, fun _ => List.mem_takeWhile_imp⟩,
      cs.dropWhile Char.isDigit)
  else none

def readFraction : List Char → Option (Option Digits × List Char)
  | [] => some (none, [])
  | c :: cs =>
      if c = '.' then (readDigits cs).map fun r => (some r.1, r.2)
      else some (none, c :: cs)

def readSign : List Char → Option Bool × List Char
  | [] => (none, [])
  | c :: cs =>
      if c = '-' then (some true, cs) else if c = '+' then (some false, cs) else (none, c :: cs)

def readExponent : List Char → Option (Option Exponent × List Char)
  | [] => some (none, [])
  | c :: cs =>
      if c = 'e' ∨ c = 'E' then
        (readDigits (readSign cs).2).map fun r => (some ⟨c = 'E', (readSign cs).1, r.1⟩, r.2)
      else some (none, c :: cs)

def readMagnitude (negative : Bool) (cs : List Char) : Option (Numeral × List Char) := do
  let (whole, cs) ← readDigits cs
  let (fraction, cs) ← readFraction cs
  let (exponent, cs) ← readExponent cs
  if h : whole.chars.head? = some '0' → whole.chars = ['0'] then
    some (⟨negative, whole, h, fraction, exponent⟩, cs)
  else none

def readNumeral : List Char → Option (Numeral × List Char)
  | [] => none
  | c :: cs => if c = '-' then readMagnitude true cs else readMagnitude false (c :: cs)

/-- No numeral goes on with the text. -/
def Ended (rest : List Char) : Prop :=
  ∀ c ∈ rest.head?, c.isDigit = false ∧ c ≠ '.' ∧ c ≠ 'e' ∧ c ≠ 'E'

section
variable {rest : List Char}

theorem readDigits_append (ds : Digits) (h : ∀ c ∈ rest.head?, c.isDigit = false) :
    readDigits (ds.chars ++ rest) = some (ds, rest) := by
  have htake : (ds.chars ++ rest).takeWhile Char.isDigit = ds.chars := by
    rw [List.takeWhile_append_of_pos ds.decimal]
    cases rest with
    | nil => simp
    | cons c cs => simp [h c rfl]
  have hdrop : (ds.chars ++ rest).dropWhile Char.isDigit = rest := by
    rw [List.dropWhile_append_of_pos ds.decimal]
    cases rest with
    | nil => rfl
    | cons c cs => simp [h c rfl]
  rw [readDigits, dif_pos (by rw [htake]; exact ds.ne_nil)]
  simp only [htake, hdrop]

theorem eq_of_readDigits {cs : List Char} {ds : Digits} (h : readDigits cs = some (ds, rest)) :
    cs = ds.chars ++ rest := by
  rw [readDigits] at h
  split at h
  · cases h
    exact List.takeWhile_append_dropWhile.symm
  · cases h

theorem Digits.exists_cons (ds : Digits) : ∃ c cs, ds.chars = c :: cs ∧ c.isDigit = true := by
  obtain ⟨c, cs, hcs⟩ := List.exists_cons_of_ne_nil ds.ne_nil
  exact ⟨c, cs, hcs, ds.decimal c (hcs ▸ List.mem_cons_self)⟩

theorem readFraction_append (fraction : Option Digits)
    (h : ∀ c ∈ rest.head?, c.isDigit = false ∧ c ≠ '.') :
    readFraction (fractionChars fraction ++ rest) = some (fraction, rest) := by
  cases fraction with
  | some ds => simp [fractionChars, readFraction, readDigits_append ds fun c hc => (h c hc).1]
  | none =>
      cases rest with
      | nil => rfl
      | cons c cs => simp [fractionChars, readFraction, (h c rfl).2]

theorem eq_of_readFraction {cs : List Char} {fraction : Option Digits}
    (h : readFraction cs = some (fraction, rest)) :
    cs = fractionChars fraction ++ rest := by
  cases cs with
  | nil =>
      cases h
      rfl
  | cons c cs =>
      rw [readFraction] at h
      split at h
      · rename_i hpoint
        obtain ⟨⟨ds, rest'⟩, hds, heq⟩ := Option.map_eq_some_iff.1 h
        cases heq
        rw [eq_of_readDigits hds, hpoint]
        rfl
      · cases h
        rfl

theorem readSign_append (minus : Option Bool) (ds : Digits) :
    readSign (sign minus ++ (ds.chars ++ rest)) = (minus, ds.chars ++ rest) := by
  obtain ⟨c, cs, hcs, hdigit⟩ := ds.exists_cons
  cases minus with
  | some minus => cases minus <;> simp [sign, readSign]
  | none =>
      have hminus : c ≠ '-' := by
        rintro rfl
        exact absurd hdigit (by decide)
      have hplus : c ≠ '+' := by
        rintro rfl
        exact absurd hdigit (by decide)
      simp [sign, hcs, readSign, hminus, hplus]

theorem sign_append_readSign (cs : List Char) : sign (readSign cs).1 ++ (readSign cs).2 = cs := by
  cases cs with
  | nil => rfl
  | cons c cs =>
      rw [readSign]
      split
      · rename_i hminus
        rw [hminus]
        rfl
      · split
        · rename_i hplus
          rw [hplus]
          rfl
        · rfl

theorem readExponent_append (exponent : Option Exponent)
    (h : ∀ c ∈ rest.head?, c.isDigit = false ∧ c ≠ 'e' ∧ c ≠ 'E') :
    readExponent (exponentChars exponent ++ rest) = some (exponent, rest) := by
  cases exponent with
  | some e =>
      obtain ⟨capital, minus, digits⟩ := e
      have hdigits := readDigits_append digits fun c hc => (h c hc).1
      cases capital <;>
        simp [exponentChars, Exponent.chars, Exponent.mark, readExponent, readSign_append, hdigits]
  | none =>
      cases rest with
      | nil => rfl
      | cons c cs => simp [exponentChars, readExponent, (h c rfl).2]

theorem eq_of_readExponent {cs : List Char} {exponent : Option Exponent}
    (h : readExponent cs = some (exponent, rest)) :
    cs = exponentChars exponent ++ rest := by
  cases cs with
  | nil =>
      cases h
      rfl
  | cons c cs =>
      rw [readExponent] at h
      split at h
      · rename_i hmark
        obtain ⟨⟨ds, rest'⟩, hds, heq⟩ := Option.map_eq_some_iff.1 h
        cases heq
        have hsigned : cs = sign (readSign cs).1 ++ (ds.chars ++ rest') := by
          rw [← eq_of_readDigits hds, sign_append_readSign]
        have hc : (if decide (c = 'E') = true then 'E' else 'e') = c := by
          rcases hmark with rfl | rfl <;> rfl
        rw [exponentChars, Exponent.chars, Exponent.mark, hc, List.cons_append, List.append_assoc,
          ← hsigned]
      · cases h
        rfl

theorem head_exponentChars (h : Ended rest) (exponent : Option Exponent) :
    ∀ c ∈ (exponentChars exponent ++ rest).head?, c.isDigit = false ∧ c ≠ '.' := by
  cases exponent with
  | none => exact fun c hc => ⟨(h c hc).1, (h c hc).2.1⟩
  | some e =>
      intro c hc
      obtain rfl : e.mark = c := Option.some.inj hc
      rw [Exponent.mark]
      split <;> decide

theorem head_fractionChars (h : Ended rest) (fraction : Option Digits)
    (exponent : Option Exponent) :
    ∀ c ∈ (fractionChars fraction ++ (exponentChars exponent ++ rest)).head?,
      c.isDigit = false := by
  cases fraction with
  | none => exact fun c hc => (head_exponentChars h exponent c hc).1
  | some ds =>
      intro c hc
      obtain rfl : '.' = c := Option.some.inj hc
      decide

theorem readMagnitude_append (n : Numeral) (h : Ended rest) :
    readMagnitude n.negative (n.unsigned ++ rest) = some (n, rest) := by
  have hwhole := readDigits_append n.whole (head_fractionChars h n.fraction n.exponent)
  have hfraction := readFraction_append n.fraction (head_exponentChars h n.exponent)
  have hexponent := readExponent_append n.exponent fun c hc => ⟨(h c hc).1, (h c hc).2.2⟩
  rw [Numeral.unsigned, List.append_assoc, List.append_assoc]
  simp only [readMagnitude, hwhole, hfraction, hexponent, Option.bind_eq_bind, Option.bind_some,
    dif_pos n.plain]

/-- A numeral is read back from its text. -/
theorem readNumeral_append (n : Numeral) (h : Ended rest) :
    readNumeral (n.chars ++ rest) = some (n, rest) := by
  have hmagnitude := readMagnitude_append n h
  rw [Numeral.chars]
  split
  · rename_i hnegative
    rw [hnegative] at hmagnitude
    rw [List.cons_append, readNumeral, if_pos rfl]
    exact hmagnitude
  · rename_i hnegative
    rw [Bool.not_eq_true] at hnegative
    rw [hnegative] at hmagnitude
    obtain ⟨c, cs, hcs, hdigit⟩ := n.whole.exists_cons
    have hminus : c ≠ '-' := by
      rintro rfl
      exact absurd hdigit (by decide)
    rw [Numeral.unsigned, hcs, List.cons_append, List.cons_append] at hmagnitude ⊢
    rw [readNumeral, if_neg hminus]
    exact hmagnitude

theorem eq_of_readMagnitude {negative : Bool} {cs : List Char} {n : Numeral}
    (h : readMagnitude negative cs = some (n, rest)) :
    n.negative = negative ∧ cs = n.unsigned ++ rest := by
  simp only [readMagnitude, Option.bind_eq_bind, Option.bind_eq_some_iff] at h
  obtain ⟨⟨whole, cs₁⟩, hwhole, ⟨fraction, cs₂⟩, hfraction, ⟨exponent, cs₃⟩, hexponent, h⟩ := h
  split at h
  · cases h
    have hcs₁ : cs₁ = fractionChars fraction ++ cs₂ := eq_of_readFraction hfraction
    have hcs₂ : cs₂ = exponentChars exponent ++ cs₃ := eq_of_readExponent hexponent
    refine ⟨rfl, ?_⟩
    rw [eq_of_readDigits hwhole, hcs₁, hcs₂, Numeral.unsigned, List.append_assoc,
      List.append_assoc]
  · cases h

theorem eq_of_readNumeral {cs : List Char} {n : Numeral}
    (h : readNumeral cs = some (n, rest)) : cs = n.chars ++ rest := by
  cases cs with
  | nil => cases h
  | cons c cs =>
      rw [readNumeral] at h
      split at h
      · rename_i hminus
        obtain ⟨hnegative, rfl⟩ := eq_of_readMagnitude h
        rw [Numeral.chars, if_pos hnegative, hminus]
        rfl
      · obtain ⟨hnegative, heq⟩ := eq_of_readMagnitude h
        rw [Numeral.chars, hnegative]
        exact heq

end

/-- The code points and units of a text behind its opening quote, and what follows the closing
one. -/
def readUnits : List Char → Option (List Nat × List Char)
  | [] => none
  | '"' :: rest => some ([], rest)
  | '\\' :: 'u' :: a :: b :: c :: d :: cs =>
      (unit? a b c d).bind fun unit => (readUnits cs).map fun r => (unit :: r.1, r.2)
  | '\\' :: mark :: cs =>
      (shortEscapes.lookup mark).bind fun c => (readUnits cs).map fun r => (c.toNat :: r.1, r.2)
  | c :: cs =>
      if isPlain c then (readUnits cs).map fun r => (c.toNat :: r.1, r.2) else none

def readText (cs : List Char) : Option (String × List Char) :=
  (readUnits cs).bind fun r => (ofUnits? r.1).map fun content => (String.ofList content, r.2)

section
variable {rest : List Char}

theorem readUnits_append {cs : List Char} {units : List Nat} (h : Letters cs units) :
    readUnits (cs ++ '"' :: rest) = some (units, rest) := by
  induction h with
  | nil => simp [readUnits]
  | @plain c cs units hc _ ih =>
      have hquote : c ≠ '"' := by
        rintro rfl
        exact absurd hc (by decide)
      have hslash : c ≠ '\\' := by
        rintro rfl
        exact absurd hc (by decide)
      rw [List.cons_append, readUnits, if_pos hc, ih]
      · rfl
      · exact hquote
      · exact fun _ _ _ _ _ hc _ => hslash hc
      · exact fun _ _ hc _ => hslash hc
  | @short mark c cs units hmark _ ih =>
      have hu : mark ≠ 'u' := by
        rintro rfl
        cases hmark
      rw [List.cons_append, List.cons_append, readUnits, hmark, ih]
      · rfl
      · exact fun _ _ _ _ _ hm _ => hu hm
  | unicode hunit _ ih => simp [readUnits, hunit, ih]

theorem exists_of_readUnits {cs : List Char} {units : List Nat}
    (h : readUnits cs = some (units, rest)) :
    ∃ body, cs = body ++ '"' :: rest ∧ Letters body units := by
  fun_induction readUnits cs generalizing units with
  | case1 => cases h
  | case2 rest' =>
      cases h
      exact ⟨[], rfl, .nil⟩
  | case3 a b c d cs ih =>
      obtain ⟨unit, hunit, h⟩ := Option.bind_eq_some_iff.1 h
      obtain ⟨⟨units, rest'⟩, hread, heq⟩ := Option.map_eq_some_iff.1 h
      cases heq
      obtain ⟨body, rfl, hbody⟩ := ih hread
      exact ⟨_, rfl, .unicode hunit hbody⟩
  | case4 mark cs hu ih =>
      obtain ⟨c, hc, h⟩ := Option.bind_eq_some_iff.1 h
      obtain ⟨⟨units, rest'⟩, hread, heq⟩ := Option.map_eq_some_iff.1 h
      cases heq
      obtain ⟨body, rfl, hbody⟩ := ih hread
      exact ⟨_, rfl, .short hc hbody⟩
  | case5 c cs hquote hslash hmark hc ih =>
      obtain ⟨⟨units, rest'⟩, hread, heq⟩ := Option.map_eq_some_iff.1 h
      cases heq
      obtain ⟨body, rfl, hbody⟩ := ih hread
      exact ⟨_, rfl, .plain hc hbody⟩
  | case6 => cases h

theorem readText_append {cs : List Char} {content : String} (h : Quoted cs content) :
    ∃ body, cs = '"' :: body ∧ ∀ rest, readText (body ++ rest) = some (content, rest) := by
  obtain ⟨hbody, hunits⟩ := h
  refine ⟨_ ++ ['"'], rfl, fun rest => ?_⟩
  rw [List.append_assoc, List.singleton_append, readText, readUnits_append hbody, Option.bind_some,
    hunits]
  rfl

theorem exists_of_readText {cs : List Char} {content : String}
    (h : readText cs = some (content, rest)) :
    ∃ body, cs = body ++ rest ∧ Quoted ('"' :: body) content := by
  obtain ⟨⟨units, rest'⟩, hread, h⟩ := Option.bind_eq_some_iff.1 h
  obtain ⟨content, hunits, heq⟩ := Option.map_eq_some_iff.1 h
  cases heq
  obtain ⟨body, rfl, hbody⟩ := exists_of_readUnits hread
  exact ⟨body ++ ['"'], by simp, .intro hbody hunits⟩

end

end Pseudocode.Json
