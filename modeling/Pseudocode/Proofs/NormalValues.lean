import Mathlib.Logic.Relation
import Pseudocode.Proofs.Dispatch
import Pseudocode.Proofs.Triples

/-!
# Evaluation yields normal values

A host may answer with values that the language has no kind for, and the root scope may
hold such values too. They go no further. What a function answers is brought into normal
form before a program sees it, and of what a scope holds a program reads literals only. So
every value that a tree or a call ends in is normal, and so is every value that is bound on
the way, from whatever state the evaluation starts.

What is bound on the way need not be there in the end, when the name is bound again. So
the statement is about the steps by which an arena changes.
-/
namespace Pseudocode

theorem exists_of_bind_eq_ok {α β : Type} {e : Except Fault α} {f : α → Except Fault β} {b : β}
    (h : e >>= f = .ok b) : ∃ a, e = .ok a ∧ f a = .ok b := by
  cases e with
  | error fault => cases h
  | ok a => exact ⟨a, rfl, h⟩

namespace Value

mutual

/-- No integer, no tuple and no absence occurs in the value, at any depth of its lists, which are
plain ones. -/
def isNormal : Value → Bool
  | literal _ | lambda _ | function _ | foreign _ | derived _ _ => true
  | list items => areNormal items
  | integer _ | nothing | tuple _ | derivedList _ _ => false

def areNormal : List Value → Bool
  | [] => true
  | v :: vs => isNormal v && areNormal vs

end

mutual

/-- The value with plain lists for those of derived classes. -/
def plain : Value → Value
  | list items | derivedList items _ => list (plainAll items)
  | v@(literal _) | v@(lambda _) | v@(function _) | v@(foreign _) | v@(derived _ _)
  | v@(integer _) | v@nothing | v@(tuple _) => v

def plainAll : List Value → List Value
  | [] => []
  | v :: vs => plain v :: plainAll vs

end

theorem areNormal_iff {vs : List Value} : areNormal vs ↔ ∀ v ∈ vs, v.isNormal := by
  induction vs with
  | nil => simp [areNormal]
  | cons v vs ih => simp [areNormal, ih]

theorem isNormal_collapse {vs : List Value} (h : ∀ v ∈ vs, v.isNormal) :
    (collapse vs).isNormal := by
  match vs, h with
  | [], _ => rfl
  | [v], h => exact h v List.mem_cons_self
  | _ :: _ :: _, h => exact areNormal_iff.2 h

mutual

theorem isNormal_of_normalize : (v w : Value) → v.normalize = .ok w → w.isNormal
  | nothing, w, h => by
      cases h
      rfl
  | integer n, w, h => by
      rw [normalize] at h
      split at h
      · cases h
        rfl
      · cases h
  | tuple items, w, h | list items, w, h | derivedList items _, w, h => by
      obtain ⟨results, hall, hlist⟩ := exists_of_bind_eq_ok h
      cases hlist
      exact areNormal_of_normalizeAll items results hall
  | literal _, w, h | lambda _, w, h | function _, w, h | foreign _, w, h | derived _ _, w, h => by
      cases h
      rfl

theorem areNormal_of_normalizeAll :
    (vs ws : List Value) → normalizeAll vs = .ok ws → areNormal ws
  | [], ws, h => by
      cases h
      rfl
  | v :: vs, ws, h => by
      obtain ⟨first, hfirst, hrest⟩ := exists_of_bind_eq_ok h
      obtain ⟨rest, hall, hcons⟩ := exists_of_bind_eq_ok hrest
      cases hcons
      rw [areNormal, isNormal_of_normalize v first hfirst, areNormal_of_normalizeAll vs rest hall]
      rfl

end

mutual

theorem normalize_of_isNormal : (v : Value) → v.isNormal → v.normalize = .ok v
  | literal _, _ | lambda _, _ | function _, _ | foreign _, _ | derived _ _, _ => rfl
  | list items, h => by
      rw [normalize, normalizeAll_of_areNormal items h]
      rfl

theorem normalizeAll_of_areNormal : (vs : List Value) → areNormal vs → normalizeAll vs = .ok vs
  | [], _ => rfl
  | v :: vs, h => by
      obtain ⟨hv, hvs⟩ := Bool.and_eq_true_iff.1 h
      rw [normalizeAll, normalize_of_isNormal v hv, normalizeAll_of_areNormal vs hvs]
      rfl

end

/-- The normal form of a normal form is that normal form. -/
theorem normalize_bind_normalize (v : Value) : v.normalize >>= normalize = v.normalize := by
  cases h : v.normalize with
  | error fault => rfl
  | ok w => exact normalize_of_isNormal w (isNormal_of_normalize v w h)

theorem normalize_eq_self_iff {v : Value} : v.normalize = .ok v ↔ v.isNormal :=
  ⟨isNormal_of_normalize v v, normalize_of_isNormal v⟩

mutual

theorem normalize_plain : (v : Value) → v.plain.normalize = v.normalize
  | list items | derivedList items _ => by
      rw [plain, normalize, normalize, normalizeAll_plainAll items]
  | literal _ | lambda _ | function _ | foreign _ | derived _ _ | integer _ | nothing
  | tuple _ => rfl

theorem normalizeAll_plainAll : (vs : List Value) → normalizeAll (plainAll vs) = normalizeAll vs
  | [] => rfl
  | v :: vs => by
      rw [plainAll, normalizeAll, normalizeAll, normalize_plain v, normalizeAll_plainAll vs]

end

theorem normalize_eq_plain_iff {v : Value} : v.normalize = .ok v.plain ↔ v.plain.isNormal := by
  rw [← normalize_plain, normalize_eq_self_iff]

end Value

namespace Arena

/-- A scope is opened, or a name is bound to a normal value. -/
inductive NormalMove : Arena → Arena → Prop
  | opened (scopes : Arena) (parent : Int) :
      NormalMove scopes (scopes.push { parent := some parent })
  | bound (scopes : Arena) (index : Nat) (name : String) {value : Value} : value.isNormal →
      NormalMove scopes (scopes.modify index (·.bind name value))

abbrev NormalMoves : Arena → Arena → Prop := Relation.ReflTransGen NormalMove

/-- What a scope binds a name to is normal, or was bound there before. -/
theorem NormalMove.cases_of_binding {before after : Arena} (h : NormalMove before after) {i : Nat}
    {s : Scope} (hs : after[i]? = some s) {name : String} {v : Value}
    (hv : s.bindings.get? name = some v) :
    v.isNormal ∨ ∃ old, before[i]? = some old ∧ old.bindings.get? name = some v := by
  cases h with
  | opened parent =>
      rw [Array.getElem?_push] at hs
      split at hs
      · cases hs
        cases hv
      · exact .inr ⟨s, hs, hv⟩
  | bound index other hvalue =>
      rw [Array.getElem?_modify] at hs
      split at hs
      · obtain ⟨old, hold, rfl⟩ := Option.map_eq_some_iff.1 hs
        rw [Scope.bind, Bindings.get?_insert] at hv
        split at hv
        · cases hv
          exact .inl hvalue
        · exact .inr ⟨old, hold, hv⟩
      · exact .inr ⟨s, hs, hv⟩

theorem NormalMoves.cases_of_binding {before after : Arena} (h : NormalMoves before after) {i : Nat}
    {s : Scope} (hs : after[i]? = some s) {name : String} {v : Value}
    (hv : s.bindings.get? name = some v) :
    v.isNormal ∨ ∃ old, before[i]? = some old ∧ old.bindings.get? name = some v := by
  induction h generalizing s with
  | refl => exact .inr ⟨s, hs, hv⟩
  | tail _ hmove ih =>
      obtain hnormal | ⟨middle, hmiddle, hbound⟩ := hmove.cases_of_binding hs hv
      · exact .inl hnormal
      · exact ih hmiddle hbound

end Arena

namespace Eval

/-- Since the given arena only normal values were bound, and the computation goes on so, whether it
ends in a value or in a fault. Its values satisfy the predicate. -/
abbrev NormalSince (first : Arena) (R : α → Prop) (c : Eval σ α) : Prop :=
  Keeps (fun m => first.NormalMoves m.scopes) R (fun _ last => first.NormalMoves last.scopes) c

section
variable {σ α : Type} {first : Arena} {R : α → Prop}

/-- A computation that leaves the scopes alone. -/
theorem normalSince_aside {c : Eval σ α} (h : ∀ m, (c.final m).scopes = m.scopes) :
    NormalSince first (fun _ => True) c := by
  intro m hm
  have hkept : first.NormalMoves (c.final m).scopes := by
    rw [h m]
    exact hm
  rw [final] at hkept
  cases hc : c m with
  | ok a last =>
      rw [hc] at hkept
      exact ⟨hkept, trivial⟩
  | error fault last =>
      rw [hc] at hkept
      exact hkept

theorem normalSince_throw (fault : Fault) : NormalSince first R (throw fault : Eval σ α) :=
  Triple.throw fun _ hm => hm

theorem normalSince_ofExcept {e : Except Fault α} (h : ∀ a, e = .ok a → R a) :
    NormalSince first R (ofExcept e : Eval σ α) :=
  triple_ofExcept (fun a ha _ hm => ⟨hm, h a ha⟩) fun _ _ _ hm => hm

theorem normalSince_visit (n : Node) (scope : Int) :
    NormalSince first (fun _ => True) (visit n scope : Eval σ Unit) :=
  normalSince_aside fun _ => rfl

theorem normalSince_openScope (parent : Int) :
    NormalSince first (fun _ => True) (openScope parent : Eval σ Nat) := by
  intro m hm
  by_cases hp : 0 ≤ parent ∧ parent < m.scopes.size
  · rw [openScope_of_valid hp]
    exact ⟨hm.tail (.opened m.scopes parent), trivial⟩
  · rw [openScope_of_invalid hp]
    exact hm

theorem normalSince_fetch (scope : Int) (name : String) :
    NormalSince first (fun _ => True) (fetch scope name : Eval σ Value) :=
  .bind (normalSince_aside fun _ => rfl) fun _ _ => normalSince_ofExcept fun _ _ => trivial

theorem normalSince_assign (scope : Int) (name : String) {v : Value} (hv : v.isNormal) :
    NormalSince first (fun _ => True) (assign scope name v : Eval σ Unit) := by
  intro m hm
  rw [assign_eq, Arena.assign]
  cases m.scopes.index? scope with
  | none => exact hm
  | some index => exact ⟨hm.tail (.bound m.scopes index name hv), trivial⟩

/-- A variable is read only if it holds a literal, whatever the scopes hold. -/
theorem normalSince_readVariable (scope : Int) (name : String) :
    NormalSince first (fun v => v.isNormal) (readVariable scope name : Eval σ Value) := by
  refine (normalSince_fetch scope name).bind fun v _ => ?_
  cases v with
  | literal l | derived l object => exact .pure rfl
  | _ => exact (normalSince_ofExcept fun _ _ => trivial).bind fun _ _ => normalSince_throw _

theorem normalSince_reply {force : Int → Value → Eval σ Value}
    (hforce : ∀ scope v, NormalSince first (fun _ => True) (force scope v)) (reply : Reply σ) :
    NormalSince first (fun _ => True) (reply.run force) := by
  induction reply with
  | answer value state => exact normalSince_aside fun _ => rfl
  | fail fault state => exact normalSince_aside fun _ => rfl
  | force value state resume scope ih =>
      have hattempt := (hforce scope value).attempt fun _ _ hm => hm
      exact .bind (normalSince_aside fun _ => rfl) fun _ _ => hattempt.bind fun result _ =>
        .bind (normalSince_aside fun _ => rfl) fun state _ => ih result state

/-- Whatever the function answers, the call ends in its normal form. -/
theorem normalSince_call {host : Host σ} {force : Int → Value → Eval σ Value}
    (hforce : ∀ scope v, NormalSince first (fun _ => True) (force scope v)) (name : String)
    (callee : Value) (args : List Value) (site : Option Location) :
    NormalSince first (fun v => v.isNormal) (call host force name callee args site) := by
  unfold call
  split
  · rename_i f
    have happly : NormalSince first (fun _ => True) (apply host force ⟨name, args, site⟩ f) := by
      cases f with
      | builtin b => exact normalSince_aside (detached_builtin host.channel b args).scopes_final
      | host name =>
          exact .bind (normalSince_aside fun _ => rfl) fun state _ => normalSince_reply hforce _
    refine .bind (normalSince_aside fun _ => rfl) fun _ _ =>
      .bind (normalSince_aside fun _ => rfl) fun _ _ => happly.bind fun value _ =>
      .bind (normalSince_aside fun _ => rfl) fun _ _ => ?_
    exact normalSince_ofExcept fun w hw => value.isNormal_of_normalize w hw
  · exact (normalSince_ofExcept fun _ _ => trivial).bind fun _ _ => normalSince_throw _

theorem normalSince_forceWith {evaluate : Node → Int → Eval σ (Option Value)}
    (heval : ∀ n scope, NormalSince first (fun v => ∀ w ∈ v, w.isNormal) (evaluate n scope))
    (scope : Int) (v : Value) : NormalSince first (fun _ => True) (forceWith evaluate scope v) := by
  cases v with
  | lambda body =>
      exact (normalSince_openScope scope).bind fun child _ => (heval body child).bind fun _ _ =>
        .pure trivial
  | _ => exact .pure trivial

/-- By the depth that evaluation may go down: a host may force lambdas that are no part of the
tree. -/
theorem normalSince_node (host : Host σ) (depth : Nat) (n : Node) (scope : Int) :
    NormalSince first (fun v => ∀ w ∈ v, w.isNormal) (node host depth n scope) := by
  induction depth generalizing n scope with
  | zero => exact normalSince_throw .tooDeep
  | succ depth ih =>
      have hall (scope : Int) (nodes : List Node) : NormalSince first
          (fun vs => ∀ w ∈ vs, w.isNormal) (sequence (node host depth) scope nodes) :=
        keeps_sequence scope nodes fun n _ => ih n scope
      have hsome {v : Value} (hv : v.isNormal) : ∀ w ∈ some v, w.isNormal := by
        rintro w ⟨⟩
        exact hv
      cases n with
      | assign name value =>
          refine (ih value scope).bind fun v hv =>
            .bind (normalSince_aside fun _ => rfl) fun _ _ => ?_
          have hvalue : (Value.collapse v.toList).isNormal :=
            Value.isNormal_collapse fun w hw => hv w (Option.mem_toList.1 hw)
          exact (normalSince_assign scope name hvalue).bind fun _ _ => .pure fun w hw => by cases hw
      | block children =>
          exact (normalSince_visit _ _).bind fun _ _ => (normalSince_openScope scope).bind
            fun child _ => (hall child children).bind fun vs hvs =>
            .pure (hsome (Value.isNormal_collapse hvs))
      | list children =>
          exact (normalSince_visit _ _).bind fun _ _ => (hall scope children).bind fun vs hvs =>
            .pure (hsome (Value.isNormal_collapse hvs))
      | literal value => exact (normalSince_visit _ _).bind fun _ _ => .pure (hsome rfl)
      | var name location =>
          exact (normalSince_visit _ _).bind fun _ _ => (normalSince_readVariable scope name).bind
            fun v hv => .pure (hsome hv)
      | call name args site =>
          refine (normalSince_visit _ _).bind fun _ _ => (hall scope args).bind fun vs _ =>
            (normalSince_fetch scope name).bind fun callee _ =>
            .bind (normalSince_aside fun _ => rfl) fun _ _ => ?_
          exact (normalSince_call (normalSince_forceWith ih) name callee _ site).bind fun v hv =>
            .pure (hsome hv)
      | lambda body => exact (normalSince_visit _ _).bind fun _ _ => .pure (hsome rfl)

theorem normalSince_value (host : Host σ) (depth : Nat) (n : Node) (scope : Int) :
    NormalSince first (fun v => v.isNormal) (value host depth n scope) :=
  (normalSince_node host depth n scope).bind fun _ hv =>
    .pure (Value.isNormal_collapse fun w hw => hv w (Option.mem_toList.1 hw))

theorem NormalSince.final {c : Eval σ α} (h : NormalSince first R c) {m : Machine σ}
    (hm : first.NormalMoves m.scopes) : first.NormalMoves (c.final m).scopes := by
  rw [Eval.final]
  cases hc : c m with
  | ok a last => exact (h.ok hm hc).1
  | error fault last => exact h.error hm hc

end

end Eval

/-- Whatever the functions of the host answer, and whatever the scopes hold: the values of trees and
of calls are normal, and evaluation changes the scopes by opening new ones and by binding normal
values only, whether it ends in a value or in a fault. So what a scope binds in the end is normal
or was bound there before. A normal form is normal, it is its own normal form, and so is every
value that is normal already, up to lists of derived classes, which become plain ones. -/
theorem evaluation_yields_normal_values {σ : Type} (host : Host σ) (depth : Nat) (m : Machine σ) :
    (∀ n scope v last, Eval.value host depth n scope m = .ok v last → v.isNormal) ∧
    (∀ name callee args site v last,
      Eval.call host (Eval.force host depth) name callee args site m = .ok v last → v.isNormal) ∧
    (∀ n scope, m.scopes.NormalMoves ((Eval.value host depth n scope).final m).scopes) ∧
    (∀ name callee args site, m.scopes.NormalMoves
      ((Eval.call host (Eval.force host depth) name callee args site).final m).scopes) ∧
    (∀ (after : Arena) (i : Nat) (s : Scope) (name : String) (v : Value),
      m.scopes.NormalMoves after → after[i]? = some s → s.bindings.get? name = some v →
        v.isNormal ∨ ∃ old, m.scopes[i]? = some old ∧ old.bindings.get? name = some v) ∧
    (∀ v w : Value, v.normalize = .ok w → w.isNormal) ∧
    (∀ v : Value, v.normalize >>= Value.normalize = v.normalize) ∧
    (∀ v : Value, v.normalize = .ok v ↔ v.isNormal) ∧
    ∀ v : Value, v.normalize = .ok v.plain ↔ v.plain.isNormal := by
  have hstart : m.scopes.NormalMoves m.scopes := .refl
  have hvalue (n : Node) (scope : Int) : Eval.NormalSince m.scopes (fun v => v.isNormal)
      (Eval.value host depth n scope) := Eval.normalSince_value host depth n scope
  have hcall (name : String) (callee : Value) (args : List Value) (site : Option Location) :
      Eval.NormalSince m.scopes (fun v => v.isNormal)
        (Eval.call host (Eval.force host depth) name callee args site) :=
    Eval.normalSince_call (Eval.normalSince_forceWith (Eval.normalSince_node host depth)) name
      callee args site
  refine ⟨?_, ?_, ?_, ?_, ?_, Value.isNormal_of_normalize, Value.normalize_bind_normalize,
    fun _ => Value.normalize_eq_self_iff, fun _ => Value.normalize_eq_plain_iff⟩
  · exact fun n scope v last h => ((hvalue n scope).ok hstart h).2
  · exact fun name callee args site v last h => ((hcall name callee args site).ok hstart h).2
  · exact fun n scope => (hvalue n scope).final hstart
  · exact fun name callee args site => (hcall name callee args site).final hstart
  · exact fun after i s name v h hs hv => h.cases_of_binding hs hv

end Pseudocode
