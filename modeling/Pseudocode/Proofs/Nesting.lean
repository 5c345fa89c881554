import Pseudocode.Token

/-!
# Nested brackets

Round and curly brackets, in texts and in token streams alike. `WellNested` says when
a word of brackets is one; `scan` decides it with the stack of the brackets that are
open. The scan may start with brackets open already, which is how a part of a word is
compared with the whole of it.
-/
namespace Pseudocode

inductive Pair where
  | round
  | curly
  deriving DecidableEq, Repr

inductive Mark where
  | opens (pair : Pair)
  | closes (pair : Pair)
  deriving DecidableEq, Repr

/-- Every bracket has its partner, and no two pairs cross. -/
inductive WellNested : List Mark → Prop
  | nil : WellNested []
  | pair (p : Pair) {inner after : List Mark} : WellNested inner → WellNested after →
      WellNested (.opens p :: (inner ++ .closes p :: after))

theorem WellNested.append {front back : List Mark} (hf : WellNested front)
    (hb : WellNested back) : WellNested (front ++ back) := by
  induction hf with
  | nil => exact hb
  | pair p hi _ _ ih =>
      rw [List.cons_append, List.append_assoc, List.cons_append]
      exact .pair p hi ih

namespace Mark

/-- The brackets that are open after one more, the innermost first. -/
def take : List Pair → Mark → Option (List Pair)
  | stack, opens p => some (p :: stack)
  | q :: stack, closes p => if q = p then some stack else none
  | [], closes _ => none

def scan (stack : List Pair) (marks : List Mark) : Option (List Pair) := marks.foldlM take stack

@[simp] theorem scan_nil (stack : List Pair) : scan stack [] = some stack := rfl

theorem scan_cons (stack : List Pair) (m : Mark) (marks : List Mark) :
    scan stack (m :: marks) = (take stack m).bind fun next => scan next marks := by
  rw [scan, List.foldlM_cons]
  rfl

@[simp] theorem scan_opens (stack : List Pair) (p : Pair) (marks : List Mark) :
    scan stack (opens p :: marks) = scan (p :: stack) marks := by
  rw [scan_cons]
  rfl

@[simp] theorem scan_closes (stack : List Pair) (p : Pair) (marks : List Mark) :
    scan (p :: stack) (closes p :: marks) = scan stack marks := by
  rw [scan_cons]
  simp [take]

theorem scan_append (stack : List Pair) (front back : List Mark) :
    scan stack (front ++ back) = (scan stack front).bind fun next => scan next back := by
  rw [scan, List.foldlM_append]
  rfl

/-- One more bracket at the end. -/
theorem scan_snoc {stack reached : List Pair} {marks : List Mark}
    (h : scan stack marks = some reached) (m : Mark) :
    scan stack (marks ++ [m]) = take reached m := by
  rw [scan_append, h, Option.bind_some, scan_cons]
  cases take reached m <;> rfl

/-- A bracket that opens at the end can be taken back. -/
theorem scan_of_snoc_opens {stack reached : List Pair} {p : Pair} {marks : List Mark}
    (h : scan stack (marks ++ [opens p]) = some reached) :
    ∃ before, scan stack marks = some before ∧ reached = p :: before := by
  rw [scan_append] at h
  cases hm : scan stack marks with
  | none => rw [hm] at h; cases h
  | some before =>
      rw [hm] at h
      cases h
      exact ⟨before, rfl, rfl⟩

theorem scan_prefix {stack reached : List Pair} {front marks : List Mark} (hp : front <+: marks)
    (h : scan stack marks = some reached) : ∃ before, scan stack front = some before := by
  obtain ⟨back, rfl⟩ := hp
  rw [scan_append] at h
  cases hf : scan stack front with
  | none => rw [hf] at h; cases h
  | some before => exact ⟨before, rfl⟩

/-- Brackets that were open before are out of reach for a word that closes none of them. -/
theorem scan_above {stack reached : List Pair} (base : List Pair) {marks : List Mark}
    (h : scan stack marks = some reached) :
    scan (stack ++ base) marks = some (reached ++ base) := by
  induction marks generalizing stack with
  | nil => cases h; rfl
  | cons m marks ih =>
      rw [scan_cons] at h
      cases ht : take stack m with
      | none => rw [ht] at h; cases h
      | some next =>
          rw [ht, Option.bind_some] at h
          have habove : take (stack ++ base) m = some (next ++ base) := by
            cases m with
            | opens p => cases ht; rfl
            | closes p =>
                cases stack with
                | nil => cases ht
                | cons q stack =>
                    simp only [take] at ht
                    simp only [List.cons_append, take]
                    split at ht <;> simp_all
          rw [scan_cons, habove, Option.bind_some]
          exact ih h

end Mark

open Mark

theorem WellNested.scan {marks : List Mark} (h : WellNested marks) (stack : List Pair) :
    scan stack marks = some stack := by
  induction h generalizing stack with
  | nil => rfl
  | pair p _ _ hi ha =>
      rw [scan_opens, scan_append, hi, Option.bind_some, scan_closes, ha]

/-- The word closes the open brackets one after the other, and is well nested in between. -/
def Finishes : List Pair → List Mark → Prop
  | [], marks => WellNested marks
  | p :: stack, marks => ∃ inner after, marks = inner ++ closes p :: after ∧ WellNested inner ∧
      Finishes stack after

theorem Finishes.prepend {stack : List Pair} {front marks : List Mark} (hf : WellNested front)
    (h : Finishes stack marks) : Finishes stack (front ++ marks) := by
  cases stack with
  | nil => exact hf.append h
  | cons p stack =>
      obtain ⟨inner, after, rfl, hi, ha⟩ := h
      exact ⟨front ++ inner, after, by rw [List.append_assoc], hf.append hi, ha⟩

theorem finishes_of_scan {stack : List Pair} {marks : List Mark}
    (h : Mark.scan stack marks = some []) : Finishes stack marks := by
  induction marks generalizing stack with
  | nil => cases h; exact .nil
  | cons m marks ih =>
      cases m with
      | opens p =>
          rw [scan_opens] at h
          obtain ⟨inner, after, rfl, hi, ha⟩ := ih h
          have hp : WellNested (opens p :: (inner ++ [closes p])) := .pair p hi .nil
          simpa using ha.prepend hp
      | closes p =>
          cases stack with
          | nil => rw [scan_cons] at h; cases h
          | cons q stack =>
              rw [scan_cons] at h
              simp only [take] at h
              split at h
              · rename_i hq
                subst hq
                exact ⟨[], marks, rfl, .nil, ih h⟩
              · cases h

/-- The scan decides which words are well nested. -/
theorem wellNested_iff_scan {marks : List Mark} : WellNested marks ↔ Mark.scan [] marks = some [] :=
  ⟨fun h => h.scan [], finishes_of_scan⟩

def Token.Kind.mark? : Token.Kind → Option Mark
  | .blockOpen _ => some (.opens .curly)
  | .blockClose => some (.closes .curly)
  | .argumentsOpen => some (.opens .round)
  | .argumentsClose => some (.closes .round)
  | _ => none

def Token.marks (tokens : List Token) : List Mark := tokens.filterMap (·.kind.mark?)

theorem Token.marks_cons (token : Token) (tokens : List Token) :
    Token.marks (token :: tokens) = token.kind.mark?.toList ++ Token.marks tokens := by
  cases hm : token.kind.mark? <;> simp [Token.marks, hm]

@[simp] theorem Token.marks_append (front back : List Token) :
    Token.marks (front ++ back) = Token.marks front ++ Token.marks back := List.filterMap_append

end Pseudocode
