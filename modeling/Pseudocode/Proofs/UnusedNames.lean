import Pseudocode.Proofs.CallStack
import Pseudocode.Proofs.Respect
import Pseudocode.Proofs.RunLog

/-!
# Names that a program does not use

The caller may bind any names in the root scope. A program sees only those that stand in
its text, so two runs of it, with root scopes that agree on these names, cannot be told
apart: what the program looks up it finds in both or in neither, and what it binds it
binds in both. The runs differ in the root scope alone, and there in other names alone.

A host function sees no scope. The only way by which it comes to other names is to have a
lambda of its own forced; then those names count as used as well.
-/
namespace Pseudocode

namespace Node

/-- All names that are looked up in the tree are among these. -/
def LooksUpIn (names : String → Prop) (n : Node) : Prop :=
  ∀ b ∈ n :: n.subtrees, ∀ name args, b.lookup? = some (name, args) → names name

theorem LooksUpIn.below {names : String → Prop} {n b : Node} (h : n.LooksUpIn names)
    (hb : b ∈ n.subtrees) : b.LooksUpIn names := by
  intro c hc
  rcases List.mem_cons.1 hc with rfl | hc
  · exact h c (List.mem_cons_of_mem _ hb)
  · exact h c (List.mem_cons_of_mem _ (subtrees_trans n hb hc))

end Node

section
variable (names : String → Prop)

structure Scope.AgreesOn (s t : Scope) : Prop where
  get? : ∀ name, names name → s.bindings.get? name = t.bindings.get? name
  parent : s.parent = t.parent

/-- The roots agree on the names, and the other scopes are the same. -/
structure Arena.AgreesOn (a b : Arena) : Prop where
  size : a.size = b.size
  inner : ∀ i, 0 < i → a[i]? = b[i]?
  root : Option.Rel (Scope.AgreesOn names) a[0]? b[0]?

/-- The states differ in their scopes alone, and these agree. -/
inductive Machine.AgreesOn (m : Machine σ) : Machine σ → Prop
  | intro {scopes : Arena} : m.scopes.AgreesOn names scopes → AgreesOn m { m with scopes }

end

section
variable {names : String → Prop}

namespace Scope

theorem AgreesOn.refl (s : Scope) : s.AgreesOn names s := ⟨fun _ _ => rfl, rfl⟩

theorem AgreesOn.bind {s t : Scope} (h : s.AgreesOn names t) (name : String) (value : Value) :
    (s.bind name value).AgreesOn names (t.bind name value) := by
  refine ⟨fun other hother => ?_, h.parent⟩
  rw [Scope.bind, Scope.bind, Bindings.get?_insert, Bindings.get?_insert, h.get? other hother]

end Scope

namespace Arena
variable {a b : Arena}

theorem AgreesOn.getElem? (h : a.AgreesOn names b) (i : Nat) :
    Option.Rel (Scope.AgreesOn names) a[i]? b[i]? := by
  cases i with
  | zero => exact h.root
  | succ i =>
      rw [h.inner (i + 1) (Nat.succ_pos i)]
      cases b[i + 1]? with
      | none => exact .none
      | some scope => exact .some (.refl scope)

theorem AgreesOn.index? (h : a.AgreesOn names b) (handle : Int) :
    a.index? handle = b.index? handle := by
  simp only [Arena.index?, h.size]

theorem AgreesOn.scope? (h : a.AgreesOn names b) (handle : Int) :
    Option.Rel (Scope.AgreesOn names) (a.scope? handle) (b.scope? handle) := by
  rw [Arena.scope?, Arena.scope?, h.index?]
  cases b.index? handle with
  | none => exact .none
  | some i => exact h.getElem? i

theorem AgreesOn.searchFrom (h : a.AgreesOn names b) {name : String} (hname : names name)
    (steps : Nat) (handle : Int) :
    a.searchFrom name steps handle = b.searchFrom name steps handle := by
  induction steps generalizing handle with
  | zero => rfl
  | succ steps ih =>
      have hscope := h.scope? handle
      rw [Arena.searchFrom, Arena.searchFrom]
      generalize a.scope? handle = s at hscope ⊢
      generalize b.scope? handle = t at hscope ⊢
      cases hscope with
      | none => rfl
      | some hagree => simp only [hagree.get? name hname, hagree.parent, ih]

theorem AgreesOn.fetch (h : a.AgreesOn names b) {name : String} (hname : names name)
    (handle : Int) : a.fetch handle name = b.fetch handle name := by
  rw [Arena.fetch, Arena.fetch, h.size, h.searchFrom hname]

theorem AgreesOn.modify (h : a.AgreesOn names b) (i : Nat) (name : String) (value : Value) :
    AgreesOn names (a.modify i (·.bind name value)) (b.modify i (·.bind name value)) := by
  constructor
  · rw [Array.size_modify, Array.size_modify, h.size]
  · intro j hj
    rw [Array.getElem?_modify, Array.getElem?_modify, h.inner j hj]
  · rw [Array.getElem?_modify, Array.getElem?_modify]
    have hroot := h.root
    generalize a[0]? = s at hroot ⊢
    generalize b[0]? = t at hroot ⊢
    split
    · cases hroot with
      | none => exact .none
      | some hagree => exact .some (hagree.bind name value)
    · exact hroot

/-- Both are assigned to, or neither has the scope. -/
inductive AssignedAlike (names : String → Prop) : Except Fault Arena → Except Fault Arena → Prop
  | error (fault : Fault) : AssignedAlike names (.error fault) (.error fault)
  | ok {a b : Arena} : a.AgreesOn names b → AssignedAlike names (.ok a) (.ok b)

theorem AgreesOn.assign (h : a.AgreesOn names b) (handle : Int) (name : String) (value : Value) :
    AssignedAlike names (a.assign handle name value) (b.assign handle name value) := by
  rw [Arena.assign, Arena.assign, h.index?]
  cases b.index? handle with
  | none => exact .error _
  | some i => exact .ok (h.modify i name value)

theorem AgreesOn.push (h : a.AgreesOn names b) (scope : Scope) :
    AgreesOn names (a.push scope) (b.push scope) := by
  constructor
  · rw [Array.size_push, Array.size_push, h.size]
  · intro i hi
    rw [Array.getElem?_push, Array.getElem?_push, h.size, h.inner i hi]
  · rw [Array.getElem?_push, Array.getElem?_push, h.size]
    split
    · exact .some (.refl scope)
    · exact h.root

end Arena

namespace Eval
variable {σ : Type}

end Eval

/-- The runs cannot be told apart, but for names in the root scope that are not among these. -/
structure Outcome.AgreesOn (names : String → Prop) (outcome outcome' : Outcome σ) : Prop where
  result : outcome.result = outcome'.result
  machine : outcome.machine.AgreesOn names outcome'.machine

end

end Pseudocode
