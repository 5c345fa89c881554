import Pseudocode.Evaluation.Operator

/-!
# Operators always answer

An operator that is given values with a kind has a literal as its value, whatever their
number and kinds: a candidate of which they have the shape applies, or the value is a
text about the shapes that would have done.
-/
namespace Pseudocode

/-- The computation ends in a value or in a mismatch, which lets the next candidate be tried. -/
def Matches (e : Except Fault α) : Prop := (∃ a, e = .ok a) ∨ ∃ cause, e = .error (.mismatch cause)

theorem Matches.ok (a : α) : Matches (.ok a) := .inl ⟨a, rfl⟩

theorem Matches.error (cause : Mismatch) : Matches (.error (.mismatch cause) : Except Fault α) :=
  .inr ⟨cause, rfl⟩

theorem Matches.bind {e : Except Fault α} {f : α → Except Fault β} (he : Matches e)
    (hf : ∀ a, Matches (f a)) : Matches (e >>= f) := by
  obtain ⟨a, rfl⟩ | ⟨cause, rfl⟩ := he
  · exact hf a
  · exact .error cause

theorem Matches.mapM {f : α → Except Fault β} {as : List α} (h : ∀ a ∈ as, Matches (f a)) :
    Matches (as.mapM f) := by
  induction as with
  | nil => exact .ok []
  | cons a as ih =>
      obtain ⟨ha, has⟩ := List.forall_mem_cons.1 h
      rw [List.mapM_cons]
      exact ha.bind fun b => (ih has).bind fun bs => .ok (b :: bs)

theorem kind_of_isSome {v : Value} (h : v.kind?.isSome) : ∃ kind, v.kind = .ok kind := by
  obtain ⟨kind, hk⟩ := Option.isSome_iff_exists.1 h
  exact ⟨kind, by simp [Value.kind, hk]⟩

theorem matches_expect (shape : Shape) {v : Value} (h : v.kind?.isSome) :
    Matches (shape.expect v) := by
  obtain ⟨kind, hk⟩ := kind_of_isSome h
  unfold Shape.expect
  split
  · exact .ok _
  · exact .ok _
  · exact .ok _
  · rw [hk]
    exact .error _

theorem matches_expectAll (shape : Shape) (args : List Value)
    (h : ∀ v ∈ args, v.kind?.isSome) : Matches (shape.expectAll args) := by
  induction args with
  | nil => exact .ok _
  | cons v vs ih =>
      obtain ⟨hv, hvs⟩ := List.forall_mem_cons.1 h
      rw [Shape.expectAll]
      exact (matches_expect shape hv).bind fun first => (ih hvs).bind fun rest => .ok _

theorem matches_operands (shape : Shape) (count : Nat) (args : List Value)
    (h : ∀ v ∈ args, v.kind?.isSome) : Matches (shape.operands count args) := by
  unfold Shape.operands
  split
  · rename_i hcount
    subst hcount
    exact matches_expectAll shape args h
  · exact .error _

theorem firstMatch?_ok {arity : Nat} (args : List Value) (h : ∀ v ∈ args, v.kind?.isSome)
    (candidates : List (Candidate arity)) : ∃ found, firstMatch? args candidates = .ok found := by
  induction candidates with
  | nil => exact ⟨none, rfl⟩
  | cons candidate rest ih =>
      rw [firstMatch?]
      obtain ⟨operands, ho⟩ | ⟨cause, ho⟩ := matches_operands candidate.shape arity args h
      · rw [ho]
        exact ⟨_, rfl⟩
      · rw [ho]
        exact ih

theorem eq_apply_of_firstMatch? {arity : Nat} {args : List Value} {v : Value}
    {candidates : List (Candidate arity)} (h : firstMatch? args candidates = .ok (some v)) :
    ∃ candidate ∈ candidates, ∃ operands, v = candidate.apply operands := by
  induction candidates with
  | nil => cases h
  | cons candidate rest ih =>
      rw [firstMatch?] at h
      split at h
      · cases h
        exact ⟨candidate, List.mem_cons_self, _, rfl⟩
      · obtain ⟨other, hmem, operands, rfl⟩ := ih h
        exact ⟨other, List.mem_cons_of_mem candidate hmem, operands, rfl⟩
      · cases h

theorem mapM_kind_ok (args : List Value) (h : ∀ v ∈ args, v.kind?.isSome) :
    ∃ kinds, args.mapM Value.kind = .ok kinds ∧ args.map Value.kind? = kinds.map some := by
  induction args with
  | nil => exact ⟨[], rfl, rfl⟩
  | cons v vs ih =>
      obtain ⟨hv, hvs⟩ := List.forall_mem_cons.1 h
      obtain ⟨kind, hk⟩ := Option.isSome_iff_exists.1 hv
      have hkind : v.kind = .ok kind := by simp [Value.kind, hk]
      obtain ⟨kinds, hks, hmap⟩ := ih hvs
      refine ⟨kind :: kinds, ?_, ?_⟩
      · rw [List.mapM_cons, hkind, hks]
        rfl
      · rw [List.map_cons, hk, hmap, List.map_cons]

def Candidate.YieldsLiteral {arity : Nat} (candidate : Candidate arity) : Prop :=
  ∀ operands, ∃ l, candidate.apply operands = .literal l

namespace Operator

theorem one_literal {α : Type} {f : α → Value} (h : ∀ a, ∃ l, f a = .literal l) :
    (operands : Operands α 1) → ∃ l, operands.one f = .literal l
  | ⟨[a], _⟩ => h a

theorem two_literal {α : Type} {f : α → α → Value} (h : ∀ a b, ∃ l, f a b = .literal l) :
    (operands : Operands α 2) → ∃ l, operands.two f = .literal l
  | ⟨[a, b], _⟩ => h a b

theorem onNumbers_yieldsLiteral (f : Float → Float → Literal) :
    (onNumbers fun a b => .literal (f a b)).YieldsLiteral := two_literal fun _ _ => ⟨_, rfl⟩

theorem onBooleans_yieldsLiteral (f : Bool → Bool → Literal) :
    (onBooleans fun a b => .literal (f a b)).YieldsLiteral := two_literal fun _ _ => ⟨_, rfl⟩

theorem onTexts_yieldsLiteral (f : String → String → Literal) :
    (onTexts fun a b => .literal (f a b)).YieldsLiteral := two_literal fun _ _ => ⟨_, rfl⟩

theorem candidates_yieldLiteral (o : Operator) :
    ∀ candidate ∈ o.candidates, candidate.YieldsLiteral := by
  cases o
  case add =>
    exact List.forall_mem_cons.2 ⟨onNumbers_yieldsLiteral _,
      List.forall_mem_singleton.2 (onTexts_yieldsLiteral _)⟩
  case equal =>
    exact List.forall_mem_cons.2 ⟨onNumbers_yieldsLiteral _, List.forall_mem_cons.2
      ⟨onBooleans_yieldsLiteral _, List.forall_mem_singleton.2 (onTexts_yieldsLiteral _)⟩⟩
  case and | or => exact List.forall_mem_singleton.2 (onBooleans_yieldsLiteral _)
  case not => exact List.forall_mem_singleton.2 (one_literal fun _ => ⟨_, rfl⟩)
  all_goals exact List.forall_mem_singleton.2 (onNumbers_yieldsLiteral _)

theorem literal_of_apply {o : Operator} {args : List Value} {v : Value}
    (h : o.apply args = .ok v) : ∃ l, v = .literal l := by
  unfold apply dispatch at h
  cases hm : firstMatch? args o.candidates with
  | error fault =>
      rw [hm] at h
      cases h
  | ok found =>
      rw [hm] at h
      cases found with
      | some w =>
          cases h
          obtain ⟨candidate, hmem, operands, rfl⟩ := eq_apply_of_firstMatch? hm
          exact o.candidates_yieldLiteral candidate hmem operands
      | none =>
          cases hk : args.mapM Value.kind with
          | error fault =>
              simp only [hk] at h
              cases h
          | ok kinds =>
              simp only [hk] at h
              cases h
              exact ⟨_, rfl⟩

/-- An operator has a value on any number of arguments of any kinds. -/
theorem apply_ok (o : Operator) (args : List Value) (h : ∀ v ∈ args, v.kind?.isSome) :
    ∃ v, o.apply args = .ok v := by
  obtain ⟨found, hfound⟩ := firstMatch?_ok args h o.candidates
  obtain ⟨kinds, hkinds, -⟩ := mapM_kind_ok args h
  unfold apply dispatch
  rw [hfound, hkinds]
  cases found <;> exact ⟨_, rfl⟩

end Operator

end Pseudocode
