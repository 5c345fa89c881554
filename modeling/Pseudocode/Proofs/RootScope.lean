import Pseudocode.Proofs.Composition
import Pseudocode.Proofs.RunLog

/-!
# What a program binds in the root

A program of no statement or of several, and a program in braces, is a block: its names
are bound in a scope of its own. A program of one other statement is that statement. It
is evaluated in the root itself, and what it assigns outside of blocks and lambdas is
bound there, also when a caller has handed the root in. Nothing else that a program does,
with success or without, reaches the root.
-/
namespace Pseudocode

def namesAtRoot (source : String) (limit : Nat := nestingLimit) : List String :=
  match parse source limit with
  | .ok tree => tree.assigned
  | .error _ => []

/-- The scope before is the scope after, but for these names. -/
structure Scope.Rebound (names : List String) (before after : Scope) : Prop where
  parent : after.parent = before.parent
  kept : ∀ name, name ∉ names → after.bindings.get? name = before.bindings.get? name
  same : names = [] → after = before

theorem Scope.Rebound.refl (names : List String) (s : Scope) : s.Rebound names s :=
  ⟨rfl, fun _ _ => rfl, fun _ => rfl⟩

/-- Only a lone statement that is no block binds names in the root. -/
theorem namesAtRoot_of_statements {source : String} {limit : Nat} {nodes : List Node}
    (h : statements? source limit = some nodes) (hl : nodes.length ≠ 1) :
    namesAtRoot source limit = [] := by
  unfold namesAtRoot
  cases hp : parse source limit with
  | error e => rfl
  | ok tree =>
      have hb := balanced_of_parse hp
      cases limit with
      | zero => exact absurd hp (parse_zero hb)
      | succ limit =>
          obtain ⟨all, hall, rfl⟩ := hb.parse_eq_ok_iff.1 hp
          obtain rfl : all = nodes := Option.some.inj (hall.symm.trans h)
          match all, hl with
          | [], _ => rfl
          | [_], hl => exact absurd rfl hl
          | _ :: _ :: _, _ => rfl

namespace Eval

/-- An evaluation in the root rebinds there what its tree assigns outside of blocks and lambdas. -/
theorem rebound_value (host : Host σ) (depth : Nat) (tree : Node) {m : Machine σ} {root : Scope}
    (hroot : m.scopes[0]? = some root) :
    ∃ after, ((value host depth tree 0).final m).scopes[0]? = some after ∧
      root.Rebound tree.assigned after ∧
      ((value host depth tree 0).Succeeds m →
        ∀ name ∈ tree.assigned, (after.bindings.get? name).isSome) := by
  have hbinds : Binds 0 tree.assigned (value host depth tree 0) := binds_value host depth tree 0
  obtain ⟨after, hafter, hparent, hkept, hbound⟩ := hbinds.own_scope m hroot
  refine ⟨after, hafter, ⟨hparent, hkept, fun hnone => ?_⟩, hbound⟩
  rw [hnone] at hbinds
  have hin : 0 < m.scopes.size := (Array.getElem?_eq_some_iff.1 hroot).choose
  have hsame := hbinds.keeps_all m hin
  rw [hafter, hroot] at hsame
  exact Option.some.inj hsame

end Eval

theorem scopes_runTree (host : Host σ) (source : String) (limit : Nat) (tree : Node)
    (m : Machine σ) : (runTree host source limit tree m).machine.scopes =
      ((Eval.value host limit tree 0).final m).scopes := by
  unfold Eval.final
  obtain ⟨v, last, hv, hrun⟩ | ⟨fault, last, hlast, ⟨_, -, hrun⟩ | ⟨_, -, hrun⟩⟩ :=
    runTree_cases host source limit tree m
  · rw [hrun, hv]
  · rw [hrun, hlast]
    rfl
  · rw [hrun, hlast]

theorem succeeds_of_runTree {host : Host σ} {source : String} {limit : Nat} {tree : Node}
    {m : Machine σ} {v : Value} (h : (runTree host source limit tree m).result = .ok v) :
    (Eval.value host limit tree 0).Succeeds m := by
  obtain ⟨w, last, hw, -⟩ | ⟨fault, last, -, ⟨_, -, hrun⟩ | ⟨_, -, hrun⟩⟩ :=
    runTree_cases host source limit tree m
  · exact ⟨w, last, hw⟩
  · rw [hrun] at h
    cases h
  · rw [hrun] at h
    cases h

theorem rebound_run (host : Host σ) (given : Bindings) (source : String) (state : σ)
    (limit : Nat) :
    ∃ after, (run host given source state limit).machine.scopes[0]? = some after ∧
      Scope.Rebound (namesAtRoot source limit) { bindings := rootBindings host given } after ∧
      ∀ v, (run host given source state limit).result = .ok v →
        ∀ name ∈ namesAtRoot source limit, (after.bindings.get? name).isSome := by
  rw [run_eq, namesAtRoot]
  cases hp : parse source limit with
  | error e => exact ⟨_, rfl, .refl _ _, fun v hv => by cases hv⟩
  | ok tree =>
      have hroot : (Machine.prepared host given source state).scopes[0]? =
          some { bindings := rootBindings host given } := rfl
      obtain ⟨after, hafter, hrebound, hbound⟩ := Eval.rebound_value host limit tree hroot
      refine ⟨after, by rw [scopes_runTree, hafter], hrebound, fun v hv => hbound ?_⟩
      exact succeeds_of_runTree hv

theorem rebound_interpret (host : Host σ) (scope : Option Scope) (source : String) (state : σ)
    (limit : Nat) :
    let outcome := interpret host scope source state limit
    Scope.Rebound (namesAtRoot source limit) (scope.getD { bindings := Builtin.bindings })
        outcome.2.1 ∧
      ∀ v, outcome.1 = .ok v →
        ∀ name ∈ namesAtRoot source limit, (outcome.2.1.bindings.get? name).isSome := by
  simp only [interpret, namesAtRoot]
  generalize scope.getD { bindings := Builtin.bindings } = root
  cases hp : parse source limit with
  | error e => exact ⟨.refl _ _, fun v hv => by cases hv⟩
  | ok tree =>
      dsimp only
      cases hm : Machine.start root state with
      | error fault => exact ⟨.refl _ _, fun v hv => by cases hv⟩
      | ok m =>
          have hroot : m.scopes[0]? = some root := by
            unfold Machine.start at hm
            split at hm <;> cases hm
            rfl
          obtain ⟨after, hafter, hrebound, hbound⟩ := Eval.rebound_value host limit tree hroot
          dsimp only
          cases hvalue : Eval.value host limit tree 0 m with
          | ok w last =>
              rw [Eval.final, hvalue] at hafter
              simp only [hafter, Option.getD_some]
              exact ⟨hrebound, fun _ _ => hbound ⟨w, last, hvalue⟩⟩
          | error fault last =>
              rw [Eval.final, hvalue] at hafter
              simp only [hafter, Option.getD_some]
              exact ⟨hrebound, fun v hv => by cases hv⟩

/-- A run, and the evaluation of a program in a scope of the caller's, leave the root as it was
unless the program is one statement that assigns names outside of blocks and lambdas. Then at most
these names are bound anew, and all of them are bound if there is a value in the end. -/
theorem root_kept_unless_statement_assigns {σ : Type} (host : Host σ) (given : Bindings)
    (scope : Option Scope) (source : String) (state : σ) (limit : Nat) :
    let names := namesAtRoot source limit
    let root : Scope := { bindings := rootBindings host given }
    let own := scope.getD { bindings := Builtin.bindings }
    let outcome := run host given source state limit
    let answer := interpret host scope source state limit
    (names = [] → outcome.machine.scopes[0]? = some root ∧ answer.2.1 = own) ∧
    (∀ nodes, statements? source limit = some nodes → nodes.length ≠ 1 → names = []) ∧
    (∃ after, outcome.machine.scopes[0]? = some after ∧ root.Rebound names after ∧
      ∀ v, outcome.result = .ok v → ∀ name ∈ names, (after.bindings.get? name).isSome) ∧
    own.Rebound names answer.2.1 ∧
    ∀ v, answer.1 = .ok v → ∀ name ∈ names, (answer.2.1.bindings.get? name).isSome := by
  intro names root own outcome answer
  have hrun := rebound_run host given source state limit
  obtain ⟨hinterpret, hbound⟩ := rebound_interpret host scope source state limit
  refine ⟨fun hnone => ⟨?_, hinterpret.same hnone⟩, fun nodes => namesAtRoot_of_statements, hrun,
    hinterpret, hbound⟩
  obtain ⟨after, hafter, hrebound, -⟩ := hrun
  rw [hafter, hrebound.same hnone]

/-- Two assignments and a call do not reach the root, whether they succeed or not. -/
theorem root_kept_unless_statement_assigns_sample :
    let source := "x <- \"a\"\nF(y <- x)"
    let scope : Scope := { bindings := [("x", .boolean true)] }
    namesAtRoot source 30 = [] ∧
    (run (Host.none : Host Unit) [] source () 30).machine.scopes[0]? =
      some { bindings := rootBindings (Host.none : Host Unit) [] } ∧
    (interpret (Host.none : Host Unit) (some scope) source () 30).2.1 = scope := by
  intro source scope
  obtain ⟨hkept, -⟩ :=
    root_kept_unless_statement_assigns (Host.none : Host Unit) [] (some scope) source () 30
  have hnames : namesAtRoot source 30 = [] := by decide +kernel
  exact ⟨hnames, hkept hnames⟩

/-- One assignment does, also in the scope of a caller. -/
theorem lone_assignment_reaches_root :
    let answer := interpret (Host.none : Host Unit) (some {}) "x <- \"a\"" ()
    let outcome := run (Host.none : Host Unit) [] "x <- \"a\"" ()
    answer.2.1.bindings.names = ["x"] ∧
    (outcome.machine.scopes[0]?).map (·.bindings.names) =
      some ((rootBindings (Host.none : Host Unit) []).names ++ ["x"]) := by
  decide +kernel

end Pseudocode
