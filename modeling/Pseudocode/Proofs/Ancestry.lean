import Mathlib.Data.List.Chain
import Mathlib.Logic.Relation
import Pseudocode.Proofs.Shadowing
import Pseudocode.Session

/-!
# Arenas over whole sessions

An arena changes in two ways: a scope is opened behind all the others, inside one that
is there, or a name is bound in a scope. Whatever a session is asked for changes the
arena by such moves only, whether the request succeeds or not and whatever a host
function has forced on the way. So every scope but the root lies inside an earlier one,
the way outwards from a scope is finite, and a name has the value that the first scope on
that way binds it to.
-/
namespace Pseudocode

namespace Arena

inductive Move : Arena → Arena → Prop
  | opened (scopes : Arena) (parent : Nat) : parent < scopes.size →
      Move scopes (scopes.push { parent := some (parent : Int) })
  | bound (scopes : Arena) (index : Nat) (name : String) (value : Value) :
      Move scopes (scopes.modify index (·.bind name value))

abbrev Moves : Arena → Arena → Prop := Relation.ReflTransGen Move

/-- The first scope has no parent, and every other scope lies inside an earlier one. -/
structure Rooted (scopes : Arena) : Prop where
  root : ∃ scope, scopes[0]? = some scope ∧ scope.parent = none
  inside : ∀ i scope, 0 < i → scopes[i]? = some scope →
    ∃ parent : Nat, parent < i ∧ scope.parent = some (parent : Int)

/-- Scopes stay at their index and inside their parent; at most, names are bound in them. -/
def Grows (before after : Arena) : Prop :=
  ∀ (i : Nat) (scope : Scope), before[i]? = some scope →
    ∃ entries, after[i]? = some (scope.bindAll entries)

theorem Grows.refl (scopes : Arena) : Grows scopes scopes :=
  fun _ scope h => ⟨[], by rw [h, scope.bindAll_nil]⟩

theorem Grows.trans {before between after : Arena} (h : Grows before between)
    (k : Grows between after) : Grows before after := by
  intro i scope hi
  obtain ⟨entries, he⟩ := h i scope hi
  obtain ⟨more, hm⟩ := k i _ he
  exact ⟨entries ++ more, by rw [hm, scope.bindAll_append]⟩

theorem Grows.size_le {before after : Arena} (h : Grows before after) :
    before.size ≤ after.size := by
  apply Nat.le_of_not_lt
  intro hlt
  obtain ⟨entries, he⟩ := h after.size _ (Array.getElem?_eq_getElem hlt)
  simp at he

theorem Rooted.size_pos {scopes : Arena} (h : scopes.Rooted) : 0 < scopes.size := by
  obtain ⟨scope, hs, -⟩ := h.root
  exact (Array.getElem?_eq_some_iff.1 hs).choose

theorem Move.grows {before after : Arena} (h : Move before after) : Grows before after := by
  intro i scope hi
  cases h with
  | opened parent hp =>
      have hlt := (Array.getElem?_eq_some_iff.1 hi).choose
      refine ⟨[], ?_⟩
      rw [Array.getElem?_push, if_neg (by omega), hi, scope.bindAll_nil]
  | bound index name value =>
      rw [Array.getElem?_modify, hi]
      by_cases hix : index = i
      · exact ⟨[(name, value)], by simp [hix, Scope.bind, Scope.bindAll, Bindings.insertAll]⟩
      · exact ⟨[], by simp [hix]⟩

theorem Move.rooted {before after : Arena} (h : Move before after) (hr : before.Rooted) :
    after.Rooted := by
  obtain ⟨first, hfirst, hnone⟩ := hr.root
  obtain ⟨entries, he⟩ := h.grows 0 first hfirst
  refine ⟨⟨_, he, hnone⟩, ?_⟩
  intro i scope hpos hi
  cases h with
  | opened parent hp =>
      rw [Array.getElem?_push] at hi
      split at hi
      · cases hi
        exact ⟨parent, by omega, rfl⟩
      · exact hr.inside i scope hpos hi
  | bound index name value =>
      rw [Array.getElem?_modify] at hi
      split at hi
      · obtain ⟨old, hold, rfl⟩ := Option.map_eq_some_iff.1 hi
        exact hr.inside i old hpos hold
      · exact hr.inside i scope hpos hi

theorem Moves.grows {before after : Arena} (h : Moves before after) : Grows before after := by
  induction h with
  | refl => exact .refl before
  | tail _ hm ih => exact ih.trans hm.grows

theorem Moves.rooted {before after : Arena} (h : Moves before after) (hr : before.Rooted) :
    after.Rooted := by
  induction h with
  | refl => exact hr
  | tail _ hm ih => exact hm.rooted ih

/-- The handles of a scope and of the scopes around it, from the inside. -/
def outwards (scopes : Arena) (handle : Nat) : List Nat :=
  match (scopes[handle]?).bind Scope.parent with
  | none => [handle]
  | some parent =>
      if parent.toNat < handle then handle :: outwards scopes parent.toNat else [handle]
termination_by handle

theorem outwards_of_parent {scopes : Arena} {handle parent : Nat}
    (h : (scopes[handle]?).bind Scope.parent = some (parent : Int)) (hlt : parent < handle) :
    scopes.outwards handle = handle :: scopes.outwards parent := by
  rw [outwards, h]
  simp [hlt]

theorem Rooted.parent {scopes : Arena} (h : scopes.Rooted) {i : Nat} (hpos : 0 < i)
    (hi : i < scopes.size) :
    ∃ parent : Nat, parent < i ∧ (scopes[i]?).bind Scope.parent = some (parent : Int) := by
  have hget := Array.getElem?_eq_getElem hi
  obtain ⟨parent, hlt, hp⟩ := h.inside i _ hpos hget
  exact ⟨parent, hlt, by rw [hget]; exact hp⟩

theorem Rooted.outwards_zero {scopes : Arena} (h : scopes.Rooted) : scopes.outwards 0 = [0] := by
  obtain ⟨first, hfirst, hnone⟩ := h.root
  rw [outwards, hfirst, Option.bind_some, hnone]

theorem mem_outwards_le {scopes : Arena} {handle : Nat} :
    ∀ i ∈ scopes.outwards handle, i ≤ handle := by
  induction handle using Nat.strongRecOn with
  | ind handle ih =>
      intro i hi
      rw [outwards] at hi
      split at hi
      · simp at hi
        omega
      · split at hi
        · rename_i hlt
          rcases List.mem_cons.1 hi with rfl | hi
          · exact Nat.le_refl _
          · exact Nat.le_of_lt (Nat.lt_of_le_of_lt (ih _ hlt i hi) hlt)
        · simp at hi
          omega

theorem outwards_cons (scopes : Arena) (handle : Nat) :
    ∃ rest, scopes.outwards handle = handle :: rest ∧ ∀ i ∈ rest, i < handle := by
  rw [outwards]
  split
  · exact ⟨[], rfl, by simp⟩
  · split
    · rename_i hlt
      exact ⟨_, rfl, fun i hi => Nat.lt_of_le_of_lt (mem_outwards_le i hi) hlt⟩
    · exact ⟨[], rfl, by simp⟩

/-- The way outwards depends on the parents on it alone. -/
theorem outwards_congr {scopes others : Arena} {handle : Nat}
    (h : ∀ i ≤ handle, (others[i]?).bind Scope.parent = (scopes[i]?).bind Scope.parent) :
    others.outwards handle = scopes.outwards handle := by
  induction handle using Nat.strongRecOn with
  | ind handle ih =>
      rw [outwards, outwards, h handle (Nat.le_refl _)]
      split
      · rfl
      · split
        · rename_i hlt
          rw [ih _ hlt fun i hi => h i (by omega)]
        · rfl

/-- In a rooted arena the way outwards goes from child to parent and ends at the root. -/
theorem Rooted.outwards_spec {scopes : Arena} (h : scopes.Rooted) {handle : Nat}
    (hlt : handle < scopes.size) :
    (scopes.outwards handle).head? = some handle ∧
      (scopes.outwards handle).getLast? = some 0 ∧
      (scopes.outwards handle).IsChain fun inner outer : Nat =>
        (scopes[inner]?).bind Scope.parent = some (outer : Int) := by
  induction handle using Nat.strongRecOn with
  | ind handle ih =>
      by_cases hpos : 0 < handle
      · obtain ⟨parent, hp, hparent⟩ := h.parent hpos hlt
        obtain ⟨hhead, hlast, hchain⟩ := ih parent hp (by omega)
        rw [outwards_of_parent hparent hp]
        obtain ⟨rest, hrest⟩ := List.head?_eq_some_iff.1 hhead
        rw [hrest] at hlast hchain ⊢
        refine ⟨rfl, ?_, ?_⟩
        · rw [List.getLast?_cons_cons]
          exact hlast
        · exact List.isChain_cons_cons.2 ⟨hparent, hchain⟩
      · obtain rfl : handle = 0 := by omega
        rw [h.outwards_zero]
        exact ⟨rfl, rfl, List.isChain_singleton 0⟩

/-- The value that a scope itself binds a name to. -/
def binding? (scopes : Arena) (name : String) (handle : Nat) : Option Value :=
  (scopes[handle]?).bind (·.bindings.get? name)

/-- A search that may take one step more than its handle counts finds what the first scope on the
way outwards binds. -/
theorem Rooted.searchFrom_eq {scopes : Arena} (h : scopes.Rooted) (name : String)
    {steps handle : Nat} (hlt : handle < scopes.size) (hs : handle < steps) :
    scopes.searchFrom name steps handle =
      ((scopes.outwards handle).findSome? (scopes.binding? name)).elim
        (.error (.unknownName name)) .ok := by
  induction steps generalizing handle with
  | zero => omega
  | succ steps ih =>
      have hget := Array.getElem?_eq_getElem hlt
      have hscope : scopes.scope? handle = some scopes[handle] := by
        rw [scope?, Eval.index?_natCast, if_pos hlt]
        exact hget
      have hbinding : scopes.binding? name handle = scopes[handle].bindings.get? name := by
        rw [binding?, hget]
        rfl
      simp only [searchFrom, hscope]
      by_cases hpos : 0 < handle
      · obtain ⟨parent, hp, hparent⟩ := h.parent hpos hlt
        have hin : scopes[handle].parent = some (parent : Int) := by
          rw [hget] at hparent
          exact hparent
        rw [outwards_of_parent hparent hp, List.findSome?_cons, hbinding, hin]
        cases scopes[handle].bindings.get? name with
        | some value => rfl
        | none => exact ih (by omega) (by omega)
      · obtain rfl : handle = 0 := by omega
        obtain ⟨first, hfirst, hnone⟩ := h.root
        have hroot : scopes[0].parent = none := by
          rw [hget, Option.some.injEq] at hfirst
          rw [hfirst, hnone]
        rw [h.outwards_zero, List.findSome?_cons, hbinding, hroot]
        cases scopes[0].bindings.get? name with
        | some value => rfl
        | none => rfl

theorem Rooted.fetch_eq {scopes : Arena} (h : scopes.Rooted) (name : String) {handle : Nat}
    (hlt : handle < scopes.size) :
    scopes.fetch handle name = ((scopes.outwards handle).findSome? (scopes.binding? name)).elim
      (.error (.unknownName name)) .ok :=
  h.searchFrom_eq name hlt (by omega)

end Arena

namespace Eval

/-- From every state the computation changes the arena by moves, in a value or in a fault. -/
def Moving (c : Eval σ α) : Prop := ∀ m : Machine σ, Arena.Moves m.scopes (c.final m).scopes

section
variable {σ α β : Type}

theorem Moving.of_scopes {c : Eval σ α} (h : ∀ m, (c.final m).scopes = m.scopes) : Moving c := by
  intro m
  rw [h m]

theorem Moving.throw (fault : Fault) : Moving (MonadExcept.throw fault : Eval σ α) :=
  .of_scopes fun _ => rfl

theorem Moving.bind {c : Eval σ α} {f : α → Eval σ β} (hc : Moving c) (hf : ∀ a, Moving (f a)) :
    Moving (c >>= f) := by
  intro m
  have hfirst := hc m
  cases hcm : c m with
  | error fault last =>
      rw [final, bind_of_error hcm]
      rwa [final, hcm] at hfirst
  | ok a middle =>
      rw [final, bind_of_ok hcm]
      rw [final, hcm] at hfirst
      exact hfirst.trans (hf a middle)

theorem Moving.attempt {c : Eval σ α} (hc : Moving c) : Moving (attempt c) := by
  intro m
  rw [final_attempt]
  exact hc m

theorem moving_ofExcept (e : Except Fault α) : Moving (ofExcept e : Eval σ α) := by
  cases e with
  | error fault => exact .throw fault
  | ok a => exact .of_scopes fun _ => rfl

theorem moving_visit (n : Node) (scope : Int) : Moving (visit n scope : Eval σ Unit) :=
  .of_scopes fun _ => rfl

theorem moving_fetch (scope : Int) (name : String) : Moving (fetch scope name : Eval σ Value) :=
  .bind (.of_scopes fun _ => rfl) fun _ => moving_ofExcept _

theorem moving_openScope (parent : Int) : Moving (openScope parent : Eval σ Nat) := by
  intro m
  by_cases h : 0 ≤ parent ∧ parent < m.scopes.size
  · rw [final, openScope_of_valid h]
    obtain ⟨parent, rfl⟩ := Int.eq_ofNat_of_zero_le h.1
    exact .single (.opened m.scopes parent (by omega))
  · rw [final, openScope_of_invalid h]

theorem moving_assign (scope : Int) (name : String) (value : Value) :
    Moving (assign scope name value : Eval σ Unit) := by
  intro m
  rw [final, assign_eq, Arena.assign]
  cases m.scopes.index? scope with
  | none => exact .refl
  | some index => exact .single (.bound m.scopes index name value)

theorem moving_reply {force : Int → Value → Eval σ Value}
    (hforce : ∀ scope v, Moving (force scope v)) (reply : Reply σ) : Moving (reply.run force) := by
  induction reply with
  | answer value state => exact .of_scopes fun _ => rfl
  | fail fault state => exact .of_scopes fun _ => rfl
  | force value state resume scope ih =>
      exact .bind (.of_scopes fun _ => rfl) fun _ => .bind (hforce scope value).attempt
        fun result => .bind (.of_scopes fun _ => rfl) fun state => ih result state

theorem moving_call {host : Host σ} {force : Int → Value → Eval σ Value}
    (hforce : ∀ scope v, Moving (force scope v)) (name : String) (callee : Value)
    (args : List Value) (site : Option Location) :
    Moving (call host force name callee args site) := by
  unfold call
  split
  · rename_i f
    have happly : Moving (apply host force ⟨name, args, site⟩ f) := by
      cases f with
      | builtin b => exact .of_scopes (detached_builtin host.channel b args).scopes_final
      | host name => exact .bind (.of_scopes fun _ => rfl) fun state => moving_reply hforce _
    exact .bind (.of_scopes fun _ => rfl) fun _ => .bind (.of_scopes fun _ => rfl) fun _ =>
      .bind happly fun value => .bind (.of_scopes fun _ => rfl) fun _ => moving_ofExcept _
  · exact .bind (moving_ofExcept _) fun _ => .throw _

theorem moving_readVariable (scope : Int) (name : String) :
    Moving (readVariable scope name : Eval σ Value) := by
  refine .bind (moving_fetch scope name) fun value => ?_
  split
  · exact .of_scopes fun _ => rfl
  · exact .bind (moving_ofExcept _) fun _ => .throw _

section
variable {evaluate : Node → Int → Eval σ (Option Value)}
  (heval : ∀ (n : Node) (scope : Int), Moving (evaluate n scope))

include heval

theorem moving_sequence (scope : Int) (nodes : List Node) :
    Moving (sequence evaluate scope nodes) := by
  induction nodes with
  | nil => exact .of_scopes fun _ => rfl
  | cons n nodes ih =>
      exact .bind (heval n scope) fun _ => .bind ih fun _ => .of_scopes fun _ => rfl

theorem moving_forceWith (scope : Int) (v : Value) : Moving (forceWith evaluate scope v) := by
  cases v with
  | lambda body =>
      exact .bind (moving_openScope scope) fun child => .bind (heval body child) fun _ =>
        .of_scopes fun _ => rfl
  | _ => exact .of_scopes fun _ => rfl

end

theorem moving_node (host : Host σ) (depth : Nat) (n : Node) (scope : Int) :
    Moving (node host depth n scope) := by
  induction depth generalizing n scope with
  | zero => exact .throw .tooDeep
  | succ depth ih =>
      cases n with
      | assign name value =>
          exact .bind (ih value scope) fun _ => .bind (.of_scopes fun _ => rfl) fun _ =>
            .bind (moving_assign scope name _) fun _ => .of_scopes fun _ => rfl
      | block children =>
          exact .bind (moving_visit _ _) fun _ => .bind (moving_openScope scope) fun child =>
            .bind (moving_sequence ih child children) fun _ => .of_scopes fun _ => rfl
      | list children =>
          exact .bind (moving_visit _ _) fun _ =>
            .bind (moving_sequence ih scope children) fun _ => .of_scopes fun _ => rfl
      | literal value => exact .of_scopes fun _ => rfl
      | var name site =>
          exact .bind (moving_visit _ _) fun _ => .bind (moving_readVariable scope name) fun _ =>
            .of_scopes fun _ => rfl
      | call name args site =>
          exact .bind (moving_visit _ _) fun _ => .bind (moving_sequence ih scope args) fun _ =>
            .bind (moving_fetch scope name) fun callee => .bind (.of_scopes fun _ => rfl) fun _ =>
            .bind (moving_call (moving_forceWith ih) name callee _ site) fun _ =>
            .of_scopes fun _ => rfl
      | lambda body => exact .of_scopes fun _ => rfl

theorem moving_value (host : Host σ) (depth : Nat) (n : Node) (scope : Int) :
    Moving (value host depth n scope) :=
  .bind (moving_node host depth n scope) fun _ => .of_scopes fun _ => rfl

theorem moving_force (host : Host σ) (depth : Nat) (scope : Int) (v : Value) :
    Moving (force host depth scope v) :=
  moving_forceWith (moving_node host depth) scope v

end

end Eval

namespace Session

theorem moving_perform {σ : Type} (host : Host σ) (limit : Nat) (request : Request) :
    Eval.Moving (perform host limit request) := by
  have hvalue : ∀ v : Value, Eval.Moving (pure (.value v) : Eval σ Response) :=
    fun _ => .of_scopes fun _ => rfl
  cases request with
  | openScope parent =>
      exact .bind (Eval.moving_openScope parent) fun _ => .of_scopes fun _ => rfl
  | assign scope name value =>
      exact .bind (Eval.moving_assign scope name value) fun _ => .of_scopes fun _ => rfl
  | fetch scope name => exact .bind (Eval.moving_fetch scope name) hvalue
  | evaluate tree scope => exact .bind (Eval.moving_value host limit tree scope) hvalue
  | force value scope => exact .bind (Eval.moving_force host limit scope value) hvalue
  | call name callee args =>
      exact .bind (Eval.moving_call (Eval.moving_force host limit) name callee args none) hvalue

end Session

namespace Machine

section
variable {σ : Type} (host : Host σ) (limit : Nat)

theorem afterRequests_cons (m : Machine σ) (request : Session.Request)
    (requests : List Session.Request) :
    m.afterRequests host limit (request :: requests) =
      ((Session.perform host limit request).final m).afterRequests host limit requests := by
  rw [afterRequests, List.foldl_cons, Eval.final]
  cases Session.perform host limit request m with
  | ok response last => rfl
  | error fault last => rfl

theorem afterRequests_append (m : Machine σ) (requests more : List Session.Request) :
    m.afterRequests host limit (requests ++ more) =
      (m.afterRequests host limit requests).afterRequests host limit more := by
  rw [afterRequests, List.foldl_append]
  rfl

theorem moves_afterRequests (m : Machine σ) (requests : List Session.Request) :
    Arena.Moves m.scopes (m.afterRequests host limit requests).scopes := by
  induction requests generalizing m with
  | nil => exact .refl
  | cons request requests ih =>
      rw [afterRequests_cons]
      exact (Session.moving_perform host limit request m).trans (ih _)

end

theorem rooted_start {σ : Type} {root : Scope} {state : σ} {m : Machine σ}
    (h : start root state = .ok m) : m.scopes.Rooted := by
  unfold start at h
  split at h
  · rename_i hnone
    cases h
    refine ⟨⟨root, rfl, hnone⟩, ?_⟩
    intro i scope hpos hi
    rw [Array.getElem?_eq_none (by simp; omega)] at hi
    cases hi
  · cases h

end Machine

/-- Whatever a session is asked for, with or without success: the root has no parent and every
other scope lies inside an earlier one; what comes later leaves each scope at its index and in its
parent. So the way outwards from a scope is a finite path to the root, and a name has the value that
the first scope on the path binds it to, or is unknown if none does. A search is through after as
many steps as its handle counts, and one. -/
theorem session_arena {σ : Type} (host : Host σ) (limit : Nat) (root : Scope) (state : σ)
    (m : Machine σ) (h : Machine.start root state = .ok m) (requests more : List Session.Request) :
    let scopes := (m.afterRequests host limit requests).scopes
    let later := (m.afterRequests host limit (requests ++ more)).scopes
    (∃ first, scopes[0]? = some first ∧ first.parent = none) ∧
    (∀ (i : Nat) (scope : Scope), 0 < i → scopes[i]? = some scope →
      ∃ parent : Nat, parent < i ∧ scope.parent = some (parent : Int)) ∧
    (∀ (i : Nat) (scope : Scope), scopes[i]? = some scope →
      ∃ entries, later[i]? = some (scope.bindAll entries)) ∧
    ∀ s : Int, 0 ≤ s → s < scopes.size → ∃ path : List Nat,
      path.head? = some s.toNat ∧ path.getLast? = some 0 ∧
      (path.IsChain fun inner outer : Nat =>
        (scopes[inner]?).bind Scope.parent = some (outer : Int)) ∧
      ∀ name : String,
        (∀ v, scopes.fetch s name = .ok v ↔ path.findSome? (scopes.binding? name) = some v) ∧
        (scopes.fetch s name = .error (.unknownName name) ↔
          ∀ i ∈ path, scopes.binding? name i = none) ∧
        ∀ steps : Nat, s < steps → scopes.searchFrom name steps s = scopes.fetch s name := by
  intro scopes later
  have hr : scopes.Rooted := (m.moves_afterRequests host limit requests).rooted
    (Machine.rooted_start h)
  have hgrows : scopes.Grows later := by
    simp only [later, Machine.afterRequests_append]
    exact (Machine.moves_afterRequests host limit _ more).grows
  refine ⟨hr.root, hr.inside, hgrows, ?_⟩
  intro s hs hlt
  obtain ⟨handle, rfl⟩ := Int.eq_ofNat_of_zero_le hs
  have hin : handle < scopes.size := by omega
  obtain ⟨hhead, hlast, hchain⟩ := hr.outwards_spec hin
  refine ⟨scopes.outwards handle, hhead, hlast, hchain, fun name => ?_⟩
  rw [hr.fetch_eq name hin]
  refine ⟨?_, ?_, fun steps hsteps => hr.searchFrom_eq name hin (by omega)⟩
  · intro v
    cases (scopes.outwards handle).findSome? (scopes.binding? name) <;> simp
  · rw [← List.findSome?_eq_none_iff]
    cases (scopes.outwards handle).findSome? (scopes.binding? name) <;> simp

/-- Two nested scopes, one refused, and a name bound in two of them. A function of the host has a
lambda forced, which binds the name in a fourth scope and fails; the host goes on. -/
theorem session_arena_sample :
    let root : Scope :=
      { bindings := [("x", .boolean true), ("try", .function (.host "try"))] }
    let shadowing : Node := .list [.assign "x" (.literal (.boolean false)), .var "nope" none]
    ∃ m : Machine Unit, Machine.start root () = .ok m ∧
    let scopes := (m.afterRequests Host.trying 9 [.openScope 0, .openScope 7,
      .assign 1 "x" (.boolean false),
      .evaluate (.block [.call "try" [.lambda shadowing] none]) 1]).scopes
    scopes.size = 4 ∧ ∃ path : List Nat, path.head? = some 2 ∧ path.getLast? = some 0 ∧
      (path.IsChain fun inner outer : Nat =>
        (scopes[inner]?).bind Scope.parent = some (outer : Int)) ∧
      (scopes.fetch 2 "x" = .ok (.boolean false) ↔
        path.findSome? (scopes.binding? "x") = some (.boolean false)) ∧
      (scopes.fetch 2 "y" = .error (.unknownName "y") ↔
        ∀ i ∈ path, scopes.binding? "y" i = none) := by
  intro root shadowing
  refine ⟨_, rfl, ?_⟩
  intro scopes
  have hsize : scopes.size = 4 := by decide +kernel
  obtain ⟨-, -, -, hpaths⟩ := session_arena Host.trying 9 root () _ rfl [.openScope 0,
    .openScope 7, .assign 1 "x" (.boolean false),
    .evaluate (.block [.call "try" [.lambda shadowing] none]) 1] []
  obtain ⟨path, hhead, hlast, hchain, hfetch⟩ := hpaths 2 (by decide) (by
    show 2 < ((scopes.size : Nat) : Int)
    rw [hsize]
    decide)
  refine ⟨hsize, ?_⟩
  exact ⟨path, hhead, hlast, hchain, (hfetch "x").1 _, (hfetch "y").2.1⟩

end Pseudocode
