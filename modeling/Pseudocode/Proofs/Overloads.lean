import Mathlib.Data.List.Nodup
import Pseudocode.Proofs.Dispatch

/-!
# Which candidate is applied

A candidate takes arguments that are as many as its operands and all of them literals of
the kind of its shape. Operands are the arguments themselves: nothing is converted, so that
a boolean is never a number, nor is an object of the host that is derived from one. Two
candidates that take the same arguments have one shape, as long as there is an argument to
tell it from. When all shapes are different, the order in which candidates are tried does
not matter.
-/
namespace Pseudocode

/-- The kind of a value that is a literal and no object of the host. -/
def Value.exactKind? : Value → Option Kind
  | literal l => some l.kind
  | _ => none

/-- The candidate takes the arguments: they are as many as its operands, and all of its kind. -/
def Candidate.Takes (candidate : Candidate arity) (args : List Value) : Prop :=
  args.length = arity ∧ ∀ v ∈ args, v.exactKind? = some candidate.shape.kind

instance (candidate : Candidate arity) (args : List Value) : Decidable (candidate.Takes args) :=
  inferInstanceAs (Decidable (_ ∧ _))

/-- The answer about arguments of these kinds when there are candidates of these shapes only. -/
def refusal (name : String) (arity : Nat) (kinds : List Kind) (shapes : List Shape) : String :=
  "cannot apply " ++ name ++ " to (" ++ String.intercalate ", " (kinds.map Kind.name) ++
    "); expected " ++ String.intercalate " or " (shapes.map fun shape =>
      "(" ++ String.intercalate ", " (List.replicate arity shape.kind.name) ++ ")")

namespace Shape

theorem kind_injective {shape other : Shape} (h : shape.kind = other.kind) : shape = other := by
  cases shape <;> cases other <;> first | rfl | cases h

theorem exactKind?_value (shape : Shape) (x : shape.Carrier) :
    (shape.value x).exactKind? = some shape.kind := by
  cases shape <;> rfl

theorem exists_value_of_exactKind? {shape : Shape} {v : Value}
    (h : v.exactKind? = some shape.kind) : ∃ x, shape.value x = v := by
  cases v with
  | literal l =>
      cases shape <;> cases l <;> first | exact ⟨_, rfl⟩ | cases h
  | _ => cases h

theorem expect_value (shape : Shape) (x : shape.Carrier) :
    shape.expect (shape.value x) = .ok x := by
  cases shape <;> rfl

theorem value_of_expect {shape : Shape} {v : Value} {x : shape.Carrier}
    (h : shape.expect v = .ok x) : shape.value x = v := by
  unfold expect at h
  split at h
  · cases h
    rfl
  · cases h
    rfl
  · cases h
    rfl
  · cases hk : Value.kind v <;> rw [hk] at h <;> cases h

theorem map_value_of_expectAll {shape : Shape} {args : List Value}
    {operands : Operands shape.Carrier args.length} (h : shape.expectAll args = .ok operands) :
    operands.val.map shape.value = args := by
  induction args with
  | nil =>
      cases h
      rfl
  | cons v vs ih =>
      rw [expectAll] at h
      cases hv : shape.expect v with
      | error fault =>
          rw [hv] at h
          cases h
      | ok x =>
          cases hvs : shape.expectAll vs with
          | error fault =>
              rw [hv, hvs] at h
              cases h
          | ok rest =>
              rw [hv, hvs] at h
              cases h
              rw [List.map_cons, value_of_expect hv, ih hvs]

theorem expectAll_of_map_value {shape : Shape} {args : List Value}
    {operands : Operands shape.Carrier args.length} (h : operands.val.map shape.value = args) :
    shape.expectAll args = .ok operands := by
  induction args with
  | nil =>
      obtain ⟨xs, hlength⟩ := operands
      cases List.map_eq_nil_iff.1 h
      rfl
  | cons v vs ih =>
      obtain ⟨xs, hlength⟩ := operands
      obtain ⟨x, rest, rfl, rfl, hrest⟩ := List.map_eq_cons_iff.1 h
      have hvs : shape.expectAll vs = .ok ⟨rest, Nat.succ.inj hlength⟩ := ih hrest
      rw [expectAll, expect_value, hvs]
      rfl

/-- Arguments are accepted exactly as the operands that they are. -/
theorem operands_eq_ok_iff {shape : Shape} {count : Nat} {args : List Value}
    {operands : Operands shape.Carrier count} :
    shape.operands count args = .ok operands ↔ operands.val.map shape.value = args := by
  constructor
  · intro h
    unfold Shape.operands at h
    split at h
    · rename_i hcount
      subst hcount
      exact map_value_of_expectAll h
    · cases h
  · intro h
    have hcount : args.length = count := by rw [← h, List.length_map, operands.property]
    subst hcount
    rw [Shape.operands, dif_pos rfl]
    exact expectAll_of_map_value h

/-- Arguments of the kind are operands. -/
theorem exists_operands {shape : Shape} {args : List Value}
    (h : ∀ v ∈ args, v.exactKind? = some shape.kind) :
    ∃ xs : List shape.Carrier, xs.map shape.value = args := by
  induction args with
  | nil => exact ⟨[], rfl⟩
  | cons v vs ih =>
      obtain ⟨hv, hvs⟩ := List.forall_mem_cons.1 h
      obtain ⟨x, rfl⟩ := exists_value_of_exactKind? hv
      obtain ⟨xs, rfl⟩ := ih hvs
      exact ⟨x :: xs, rfl⟩

end Shape

section
variable {arity : Nat} {args : List Value} {candidates : List (Candidate arity)}

namespace Candidate

theorem takes_of_operands {c : Candidate arity} {operands : Operands c.shape.Carrier arity}
    (h : c.shape.operands arity args = .ok operands) : c.Takes args := by
  have hargs := Shape.operands_eq_ok_iff.1 h
  constructor
  · rw [← hargs, List.length_map, operands.property]
  · intro v hv
    rw [← hargs] at hv
    obtain ⟨x, -, rfl⟩ := List.mem_map.1 hv
    exact c.shape.exactKind?_value x

theorem Takes.exists_operands {c : Candidate arity} (h : c.Takes args) :
    ∃ operands, c.shape.operands arity args = .ok operands := by
  obtain ⟨xs, hxs⟩ := Shape.exists_operands h.2
  have hlength : xs.length = arity := by
    have hcount := h.1
    rwa [← hxs, List.length_map] at hcount
  exact ⟨⟨xs, hlength⟩, Shape.operands_eq_ok_iff.2 hxs⟩

/-- The first argument tells the shape. -/
theorem Takes.shape_eq (harity : 1 ≤ arity) {c d : Candidate arity} (hc : c.Takes args)
    (hd : d.Takes args) : c.shape = d.shape := by
  cases args with
  | nil =>
      have hzero : 0 = arity := hc.1
      omega
  | cons v vs =>
      have hkind := (hc.2 v List.mem_cons_self).symm.trans (hd.2 v List.mem_cons_self)
      exact Shape.kind_injective (Option.some.inj hkind)

end Candidate

theorem operands_of_not_takes (hargs : ∀ v ∈ args, v.kind?.isSome) {c : Candidate arity}
    (h : ¬ c.Takes args) : ∃ cause, c.shape.operands arity args = .error (.mismatch cause) := by
  obtain ⟨operands, ho⟩ | hmismatch := matches_operands c.shape arity args hargs
  · exact absurd (Candidate.takes_of_operands ho) h
  · exact hmismatch

theorem firstMatch?_of_takes (harity : 1 ≤ arity) (hargs : ∀ v ∈ args, v.kind?.isSome)
    (hdistinct : (candidates.map Candidate.shape).Nodup) {c : Candidate arity}
    (hc : c ∈ candidates) {operands : Operands c.shape.Carrier arity}
    (ho : c.shape.operands arity args = .ok operands) :
    firstMatch? args candidates = .ok (some (c.apply operands)) := by
  induction candidates with
  | nil => cases hc
  | cons d rest ih =>
      rw [List.map_cons, List.nodup_cons] at hdistinct
      rw [firstMatch?]
      rcases List.mem_cons.1 hc with rfl | hc
      · rw [ho]
      · have hd : ¬ d.Takes args := by
          intro hd
          apply hdistinct.1
          rw [hd.shape_eq harity (Candidate.takes_of_operands ho)]
          exact List.mem_map_of_mem hc
        obtain ⟨cause, hcause⟩ := operands_of_not_takes hargs hd
        rw [hcause]
        exact ih hdistinct.2 hc

theorem firstMatch?_of_not_takes (hargs : ∀ v ∈ args, v.kind?.isSome)
    (h : ∀ c ∈ candidates, ¬ c.Takes args) : firstMatch? args candidates = .ok none := by
  induction candidates with
  | nil => rfl
  | cons d rest ih =>
      obtain ⟨hd, hrest⟩ := List.forall_mem_cons.1 h
      obtain ⟨cause, hcause⟩ := operands_of_not_takes hargs hd
      rw [firstMatch?, hcause]
      exact ih hrest

theorem dispatch_of_not_takes (name : String) (hargs : ∀ v ∈ args, v.kind?.isSome)
    (h : ∀ c ∈ candidates, ¬ c.Takes args) :
    ∃ kinds, args.map Value.kind? = kinds.map some ∧ dispatch name candidates args =
      .ok (.text (refusal name arity kinds (candidates.map Candidate.shape))) := by
  obtain ⟨kinds, hkinds, hmap⟩ := mapM_kind_ok args hargs
  refine ⟨kinds, hmap, ?_⟩
  unfold dispatch refusal
  rw [firstMatch?_of_not_takes hargs h, hkinds, List.map_map]
  rfl

end

/-- An operator whose candidates have different shapes answers on all arguments with a kind. At
most one candidate takes them. That one is applied to the arguments themselves, in whatever order
the candidates are tried. When there is none, the answer is a text about the operator, the kinds of
all arguments and the shapes of all candidates. -/
theorem dispatch_applies_only_match (name : String) {arity : Nat} (harity : 1 ≤ arity)
    (candidates : List (Candidate arity)) (hdistinct : (candidates.map Candidate.shape).Nodup)
    (args : List Value) (hargs : ∀ v ∈ args, v.kind?.isSome) :
    (∀ c ∈ candidates,
      ((∃ operands, c.shape.operands arity args = .ok operands) ↔ c.Takes args) ∧
      ((∃ b, .boolean b ∈ args) → c.shape = .number → ¬ c.Takes args) ∧
      ((∃ x, .number x ∈ args) → c.shape = .boolean → ¬ c.Takes args)) ∧
    (∀ c ∈ candidates, ∀ d ∈ candidates, c.Takes args → d.Takes args → c = d) ∧
    (∀ c ∈ candidates, c.Takes args → ∃ operands : Operands c.shape.Carrier arity,
      operands.val.map c.shape.value = args ∧ ∀ others : List (Candidate arity),
        others.Perm candidates → dispatch name others args = .ok (c.apply operands)) ∧
    ((∀ c ∈ candidates, ¬ c.Takes args) → ∃ kinds : List Kind,
      args.map Value.kind? = kinds.map some ∧ dispatch name candidates args =
        .ok (.text (refusal name arity kinds (candidates.map Candidate.shape)))) := by
  refine ⟨fun c _ => ⟨⟨?_, ?_⟩, ?_, ?_⟩, ?_, ?_, ?_⟩
  · rintro ⟨operands, ho⟩
    exact Candidate.takes_of_operands ho
  · exact Candidate.Takes.exists_operands
  · rintro ⟨b, hb⟩ hshape htakes
    have hkind := htakes.2 _ hb
    rw [hshape] at hkind
    cases hkind
  · rintro ⟨x, hx⟩ hshape htakes
    have hkind := htakes.2 _ hx
    rw [hshape] at hkind
    cases hkind
  · intro c hc d hd htakes htakes'
    exact List.inj_on_of_nodup_map hdistinct hc hd (htakes.shape_eq harity htakes')
  · intro c hc htakes
    obtain ⟨operands, ho⟩ := htakes.exists_operands
    refine ⟨operands, Shape.operands_eq_ok_iff.1 ho, fun others hperm => ?_⟩
    have hothers : (others.map Candidate.shape).Nodup :=
      ((hperm.map Candidate.shape).nodup_iff).2 hdistinct
    unfold dispatch
    rw [firstMatch?_of_takes harity hargs hothers (hperm.mem_iff.2 hc) ho]
    rfl
  · exact dispatch_of_not_takes name hargs

/-- Two texts are compared even if the candidates are tried from the last to the first, and a
boolean is not added to a number. -/
theorem dispatch_applies_only_match_samples :
    (∃ operands : Operands String 2, operands.val.map Value.text = [.text "a", .text "b"] ∧
      dispatch "=" Operator.equal.candidates.reverse [.text "a", .text "b"] =
        .ok (Operands.two (fun a b => .boolean (a == b)) operands)) ∧
    dispatch "+" Operator.add.candidates [.number 1, .boolean true] = .ok (.text
      "cannot apply + to (number, boolean); expected (number, number) or (text, text)") := by
  constructor
  · obtain ⟨-, -, happlies, -⟩ := dispatch_applies_only_match "=" (by decide)
      Operator.equal.candidates (by decide) [.text "a", .text "b"] (by decide)
    have htexts : Operator.onTexts (fun a b => .boolean (a == b)) ∈ Operator.equal.candidates :=
      .tail _ (.tail _ (.head _))
    obtain ⟨operands, hoperands, hdispatch⟩ := happlies _ htexts ⟨rfl, by decide⟩
    exact ⟨operands, hoperands, hdispatch _ (List.reverse_perm _)⟩
  · obtain ⟨-, -, -, hrefuses⟩ := dispatch_applies_only_match "+" (by decide)
      Operator.add.candidates (by decide) [.number 1, .boolean true] (by decide)
    obtain ⟨kinds, hkinds, hdispatch⟩ := hrefuses (by decide)
    have hboth : kinds = [.number, .boolean] :=
      List.map_injective_iff.2 (fun _ _ => Option.some.inj) hkinds.symm
    rw [hdispatch, hboth]
    rfl

end Pseudocode
