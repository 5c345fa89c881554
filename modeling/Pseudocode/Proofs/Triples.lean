import Pseudocode.Proofs.Shadowing

/-!
# Conditions before and after

What a computation does is described by three conditions: on the states in which it may
start, on the values and states in which it may end, and on the faults and states in which
it may fail. The second condition of one computation is the first of the next, and the
third is the same for both, so that a fault is accounted for where it is raised and passed
on from there.

Most computations keep a condition on the state, and all that is left to say is which
values they end in; `Keeps` is the form for these.
-/
namespace Pseudocode

namespace Eval

/-- From a state that satisfies the first condition the computation ends in a value and a state
that satisfy the second, or in a fault and a state that satisfy the third. -/
def Triple (P : Machine σ → Prop) (Q : α → Machine σ → Prop) (E : Fault → Machine σ → Prop)
    (c : Eval σ α) : Prop :=
  ∀ m : Machine σ, P m →
    match c m with
    | .ok a last => Q a last
    | .error fault last => E fault last

/-- The computation keeps a condition on the state and ends in such values. -/
abbrev Keeps (I : Machine σ → Prop) (R : α → Prop) (E : Fault → Machine σ → Prop)
    (c : Eval σ α) : Prop :=
  Triple I (fun a last => I last ∧ R a) E c

section
variable {σ α β : Type} {P : Machine σ → Prop} {Q : α → Machine σ → Prop}
  {S : β → Machine σ → Prop} {E : Fault → Machine σ → Prop} {m last : Machine σ}

theorem Triple.ok {c : Eval σ α} (h : Triple P Q E c) (hm : P m) {a : α}
    (hc : c m = .ok a last) : Q a last := by
  have hend := h m hm
  rwa [hc] at hend

theorem Triple.error {c : Eval σ α} (h : Triple P Q E c) (hm : P m) {fault : Fault}
    (hc : c m = .error fault last) : E fault last := by
  have hend := h m hm
  rwa [hc] at hend

theorem Triple.bind {c : Eval σ α} {f : α → Eval σ β} (hc : Triple P Q E c)
    (hf : ∀ a, Triple (Q a) S E (f a)) : Triple P S E (c >>= f) := by
  intro m hm
  cases hcm : c m with
  | error fault last =>
      rw [bind_of_error hcm]
      exact hc.error hm hcm
  | ok a middle =>
      rw [bind_of_ok hcm]
      exact hf a middle (hc.ok hm hcm)

theorem Triple.pure {a : α} (h : ∀ m, P m → Q a m) : Triple P Q E (Pure.pure a : Eval σ α) := h

theorem Triple.throw {fault : Fault} (h : ∀ m, P m → E fault m) :
    Triple P Q E (MonadExcept.throw fault : Eval σ α) := h

theorem triple_ofExcept {e : Except Fault α} (hok : ∀ a, e = .ok a → ∀ m, P m → Q a m)
    (herror : ∀ fault, e = .error fault → ∀ m, P m → E fault m) :
    Triple P Q E (ofExcept e : Eval σ α) := by
  cases e with
  | ok a => exact .pure (hok a rfl)
  | error fault => exact .throw (herror fault rfl)

end

section
variable {σ α β : Type} {I : Machine σ → Prop} {R : α → Prop} {S : β → Prop}
  {E : Fault → Machine σ → Prop}

theorem Keeps.bind {c : Eval σ α} {f : α → Eval σ β} (hc : Keeps I R E c)
    (hf : ∀ a, R a → Keeps I S E (f a)) : Keeps I S E (c >>= f) :=
  Triple.bind hc fun a m hm => hf a hm.2 m hm.1

theorem Keeps.pure {a : α} (h : R a) : Keeps I R E (Pure.pure a : Eval σ α) :=
  Triple.pure fun _ hm => ⟨hm, h⟩

/-- An attempt at what keeps a condition keeps it, if a fault does. -/
theorem Keeps.attempt {c : Eval σ α} (hc : Keeps I R E c)
    (hE : ∀ fault m, E fault m → I m) :
    Keeps I (fun result => ∀ a, result = .ok a → R a) E (attempt c) := by
  intro m hm
  cases hcm : c m with
  | ok a last =>
      obtain ⟨hlast, ha⟩ := hc.ok hm hcm
      rw [attempt_of_ok hcm]
      refine ⟨hlast, fun b hb => ?_⟩
      cases hb
      exact ha
  | error fault last =>
      rw [attempt_of_error hcm]
      refine ⟨hE fault last (hc.error hm hcm), fun b hb => ?_⟩
      cases hb

/-- Trees in a row end in the values that each of them ends in. -/
theorem keeps_sequence {evaluate : Node → Int → Eval σ (Option Value)} {V : Value → Prop}
    (scope : Int) (nodes : List Node)
    (h : ∀ n ∈ nodes, Keeps I (fun v => ∀ w ∈ v, V w) E (evaluate n scope)) :
    Keeps I (fun vs => ∀ w ∈ vs, V w) E (sequence evaluate scope nodes) := by
  induction nodes with
  | nil => exact .pure fun w hw => by cases hw
  | cons n nodes ih =>
      obtain ⟨hn, hnodes⟩ := List.forall_mem_cons.1 h
      refine hn.bind fun v hv => (ih hnodes).bind fun vs hvs => .pure fun w hw => ?_
      rcases List.mem_append.1 hw with hw | hw
      · exact hv w (Option.mem_toList.1 hw)
      · exact hvs w hw

end

end Eval

end Pseudocode
