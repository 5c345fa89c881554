import Pseudocode.Proofs.Ancestry

/-!
# Evaluation with an environment

An arena keeps every scope that was ever opened and links each to its parent. An
evaluation uses less: the bindings of the scope it stands in and of the scopes around it.
The evaluator below is given these as a list and nothing else. A block puts empty
bindings in front of the list and drops them when it ends, in a value or in a fault; a
lambda that a host function has forced starts from the root's bindings and empty ones in
front.

Seen from a scope, evaluation in the arena is evaluation with the environment of that
scope. So a scope that a block or a forced lambda has opened is never looked at after
that has ended.
-/
namespace Pseudocode

/-- The state of an evaluation that knows scopes by their bindings only. -/
structure Surroundings (σ : Type) where
  /-- The bindings of a scope and of the scopes around it, from the inside. -/
  environment : List Bindings
  effects : Array Effect
  calls : List Activation
  focus : Option Location
  host : σ

abbrev Scoped (σ : Type) := EStateM Fault (Surroundings σ)

def Machine.surroundings (m : Machine σ) (environment : List Bindings) : Surroundings σ where
  environment := environment
  effects := m.effects
  calls := m.calls
  focus := m.focus
  host := m.host

namespace Scoped

def ofExcept : Except Fault α → Scoped σ α
  | .ok a => pure a
  | .error fault => throw fault

def lookAt (location : Option Location) : Scoped σ Unit :=
  modify fun s => { s with focus := location }

def fetch (name : String) : Scoped σ Value := do
  match (← get).environment.findSome? (·.get? name) with
  | some value => return value
  | none => throw (.unknownName name)

def assign (name : String) (value : Value) : Scoped σ Unit :=
  modify fun s => { s with environment := s.environment.modifyHead (·.insert name value) }

/-- Runs a computation in an environment of its own. What it leaves of the environment becomes the
environment again, after a value and after a fault. -/
def within (entered : List Bindings) (left : List Bindings → List Bindings) (c : Scoped σ α) :
    Scoped σ α := fun s =>
  match c { s with environment := entered } with
  | .ok a last => .ok a { last with environment := left last.environment }
  | .error fault last => .error fault { last with environment := left last.environment }

/-- Runs a computation with empty bindings in front, and drops these. -/
def inBlock (c : Scoped σ α) : Scoped σ α := fun s =>
  within ([] :: s.environment) List.tail c s

/-- Runs a computation with empty bindings in front of the root's, and goes back. -/
def atRoot (c : Scoped σ α) : Scoped σ α := fun s =>
  within ([] :: s.environment.getLast?.toList) (fun _ => s.environment) c s

/-- Builtin functions look at no scope: they are run on a machine that has none. -/
def builtin (c : Eval σ α) : Scoped σ α := fun s =>
  match c { scopes := #[], effects := s.effects, calls := s.calls, focus := s.focus,
            host := s.host } with
  | .ok a m => .ok a (m.surroundings s.environment)
  | .error fault m => .error fault (m.surroundings s.environment)

def attempt (c : Scoped σ α) : Scoped σ (Except Fault α) := fun s =>
  match c s with
  | .ok a last => .ok (.ok a) last
  | .error fault last => .ok (.error fault) last

def reply (force : Value → Scoped σ Value) : Reply σ → Scoped σ Value
  | .answer value state => do
      modify fun s => { s with host := state }
      return value
  | .fail fault state => do
      modify fun s => { s with host := state }
      throw fault
  | .force value state resume _ => do
      modify fun s => { s with host := state }
      let result ← attempt (force value)
      reply force (resume result (← get).host)

def apply (host : Host σ) (force : Value → Scoped σ Value) (args : List Value) :
    Function → Scoped σ Value
  | .builtin b => builtin (b.apply host.channel args)
  | .host name => do reply force (host.call name args (← get).host)

def call (host : Host σ) (force : Value → Scoped σ Value) (name : String) (callee : Value)
    (args : List Value) (site : Option Location) : Scoped σ Value :=
  match callee with
  | .function f => do
      modify fun s => { s with calls := ⟨name, args, site⟩ :: s.calls }
      let value ← apply host force args f
      modify fun s => { s with calls := s.calls.tail }
      ofExcept value.normalize
  | v => do throw (.notCallable name (← ofExcept v.kind))

def readVariable (name : String) : Scoped σ Value := do
  let value ← fetch name
  if value.isLiteral then return value
  else throw (.unreadable name (← ofExcept value.kind))

def sequence (evaluate : Node → Scoped σ (Option Value)) : List Node → Scoped σ (List Value)
  | [] => return []
  | node :: nodes => do
      let value ← evaluate node
      let values ← sequence evaluate nodes
      return value.toList ++ values

def forceWith (evaluate : Node → Scoped σ (Option Value)) : Value → Scoped σ Value
  | .lambda body => atRoot do return Value.collapse (← evaluate body).toList
  | v => return v

def node (host : Host σ) : (depth : Nat) → Node → Scoped σ (Option Value)
  | 0, _ => throw .tooDeep
  | depth + 1, n =>
      match n with
      | .assign name value => do
          assign name (Value.collapse (← node host depth value).toList)
          return none
      | .block children => do
          lookAt n.location
          return some (.collapse (← inBlock (sequence (node host depth) children)))
      | .list children => do
          lookAt n.location
          return some (.collapse (← sequence (node host depth) children))
      | .literal value => do
          lookAt n.location
          return some (.literal value)
      | .var name _ => do
          lookAt n.location
          return some (← readVariable name)
      | .call name args site => do
          lookAt n.location
          let args := (Value.collapse (← sequence (node host depth) args)).arguments
          let callee ← fetch name
          lookAt site
          return some (← call host (forceWith (node host depth)) name callee args site)
      | .lambda body => do
          lookAt n.location
          return some (.lambda body)

def value (host : Host σ) (depth : Nat) (n : Node) : Scoped σ Value := do
  return Value.collapse (← node host depth n).toList

end Scoped

/-- All that a host function has forced is forced below the root. -/
def Reply.ForcesAtRoot : Reply σ → Prop
  | answer _ _ => True
  | fail _ _ => True
  | .force _ _ resume scope => scope = 0 ∧ ∀ result state, (resume result state).ForcesAtRoot

def Host.ForcesAtRoot (host : Host σ) : Prop :=
  ∀ name args state, (host.call name args state).ForcesAtRoot

theorem Host.forcesAtRoot_trying : Host.trying.ForcesAtRoot := by
  intro name args state
  simp only [trying]
  split
  · refine ⟨rfl, fun result _ => ?_⟩
    cases result <;> trivial
  · trivial

namespace Arena

/-- The bindings of a scope and of the scopes around it, from the inside. -/
def environment (scopes : Arena) (handle : Nat) : List Bindings :=
  (scopes.outwards handle).filterMap fun i => (scopes[i]?).map Scope.bindings

theorem environment_congr {scopes others : Arena} {handle : Nat}
    (h : ∀ i ≤ handle, others[i]? = scopes[i]?) :
    others.environment handle = scopes.environment handle := by
  have hway : others.outwards handle = scopes.outwards handle :=
    outwards_congr fun i hi => by rw [h i hi]
  unfold environment
  rw [hway]
  apply List.filterMap_congr
  intro i hi
  rw [h i (mem_outwards_le i hi)]

theorem environment_of_parent {scopes : Arena} {handle parent : Nat} {scope : Scope}
    (h : scopes[handle]? = some scope) (hp : scope.parent = some (parent : Int))
    (hlt : parent < handle) :
    scopes.environment handle = scope.bindings :: scopes.environment parent := by
  have hway : scopes.outwards handle = handle :: scopes.outwards parent :=
    outwards_of_parent (by rw [h]; exact hp) hlt
  simp [environment, hway, h]

theorem Rooted.fetch_eq_environment {scopes : Arena} (h : scopes.Rooted) (name : String)
    {handle : Nat} (hlt : handle < scopes.size) :
    scopes.fetch handle name = ((scopes.environment handle).findSome? (·.get? name)).elim
      (.error (.unknownName name)) .ok := by
  have hbinding : scopes.binding? name =
      fun i => ((scopes[i]?).map Scope.bindings).bind (·.get? name) := by
    funext i
    rw [binding?, Option.bind_map]
    rfl
  rw [h.fetch_eq name hlt, environment, hbinding, ← List.head?_filterMap, ← List.head?_filterMap,
    List.filterMap_filterMap]

theorem Rooted.environment_zero {scopes : Arena} (h : scopes.Rooted) :
    ∃ root, scopes[0]? = some root ∧ scopes.environment 0 = [root.bindings] := by
  obtain ⟨root, hroot, -⟩ := h.root
  exact ⟨root, hroot, by simp [environment, h.outwards_zero, hroot]⟩

theorem Rooted.getLast?_environment {scopes : Arena} (h : scopes.Rooted) {handle : Nat}
    (hlt : handle < scopes.size) :
    (scopes.environment handle).getLast?.toList = scopes.environment 0 := by
  obtain ⟨-, hlast, -⟩ := h.outwards_spec hlt
  obtain ⟨front, hfront⟩ := List.getLast?_eq_some_iff.1 hlast
  obtain ⟨root, hroot, hzero⟩ := h.environment_zero
  rw [hzero, environment, hfront, List.filterMap_append]
  simp [hroot]

theorem environment_bind {scopes : Arena} {handle : Nat} (hlt : handle < scopes.size)
    (name : String) (value : Value) :
    Arena.environment (scopes.modify handle (·.bind name value)) handle =
      (scopes.environment handle).modifyHead (·.insert name value) := by
  have hway : Arena.outwards (scopes.modify handle (·.bind name value)) handle =
      scopes.outwards handle := by
    apply outwards_congr
    intro i _
    rw [Array.getElem?_modify]
    split
    · rw [Option.bind_map]
      rfl
    · rfl
  obtain ⟨rest, hrest, hinner⟩ := scopes.outwards_cons handle
  have hsame : ∀ i ∈ rest, ((scopes.modify handle (·.bind name value))[i]?).map Scope.bindings =
      (scopes[i]?).map Scope.bindings := by
    intro i hi
    have hne : handle ≠ i := Nat.ne_of_gt (hinner i hi)
    rw [Array.getElem?_modify, if_neg hne]
  unfold environment
  rw [hway, hrest, List.filterMap_cons, List.filterMap_cons, List.filterMap_congr hsame,
    Array.getElem?_modify, if_pos rfl, Array.getElem?_eq_getElem hlt]
  rfl

theorem environment_push {scopes : Arena} {parent : Nat} (hlt : parent < scopes.size) :
    Arena.environment (scopes.push { parent := some (parent : Int) }) scopes.size =
      [] :: scopes.environment parent := by
  rw [environment_of_parent Array.getElem?_push_size rfl hlt]
  congr 1
  apply environment_congr
  intro i hi
  rw [Array.getElem?_push, if_neg (by omega)]

end Arena

/-- What a scope lets an evaluation see of a state. -/
def Machine.seenFrom (m : Machine σ) (scope : Nat) : Surroundings σ :=
  m.surroundings (m.scopes.environment scope)

namespace Eval

/-- An outcome with its state as a scope lets it be seen. -/
def seenFrom (scope : Nat) :
    EStateM.Result Fault (Machine σ) α → EStateM.Result Fault (Surroundings σ) α
  | .ok a last => .ok a (last.seenFrom scope)
  | .error fault last => .error fault (last.seenFrom scope)

/-- Seen from a scope, one computation does on an arena what the other does on the environment. -/
structure Simulates (scope : Nat) (c : Eval σ α) (d : Scoped σ α) : Prop where
  moving : Moving c
  seen : ∀ m : Machine σ, m.scopes.Rooted → scope < m.scopes.size →
    seenFrom scope (c m) = d (m.seenFrom scope)

section
variable {σ α β : Type} {scope : Nat}

/-- The scope is still there after a computation, and its arena is rooted. -/
theorem Moving.scope_final {c : Eval σ α} (hc : Moving c) {m : Machine σ} (hr : m.scopes.Rooted)
    (hs : scope < m.scopes.size) :
    (c.final m).scopes.Rooted ∧ scope < (c.final m).scopes.size :=
  ⟨(hc m).rooted hr, Nat.lt_of_lt_of_le hs (hc m).grows.size_le⟩

theorem Simulates.bind {c : Eval σ α} {d : Scoped σ α} {f : α → Eval σ β} {g : α → Scoped σ β}
    (hc : Simulates scope c d) (hf : ∀ a, Simulates scope (f a) (g a)) :
    Simulates scope (c >>= f) (d >>= g) where
  moving := hc.moving.bind fun a => (hf a).moving
  seen m hr hs := by
    have hfirst := hc.seen m hr hs
    have hlast := hc.moving.scope_final hr hs
    show _ = EStateM.bind d g _
    cases hcm : c m with
    | error fault last =>
        rw [hcm, seenFrom] at hfirst
        rw [bind_of_error hcm, EStateM.bind, ← hfirst, seenFrom]
    | ok a middle =>
        rw [hcm, seenFrom] at hfirst
        rw [final, hcm] at hlast
        rw [bind_of_ok hcm, EStateM.bind, ← hfirst]
        exact (hf a).seen middle hlast.1 hlast.2

theorem Simulates.attempt {c : Eval σ α} {d : Scoped σ α} (h : Simulates scope c d) :
    Simulates scope (attempt c) (Scoped.attempt d) where
  moving := h.moving.attempt
  seen m hr hs := by
    have hseen := h.seen m hr hs
    rw [Scoped.attempt, ← hseen]
    cases hcm : c m with
    | error fault last => rw [attempt_of_error hcm, seenFrom, seenFrom]
    | ok a last => rw [attempt_of_ok hcm, seenFrom, seenFrom]

/-- What leaves the scopes alone does the same on both sides if it does so state by state. -/
theorem Simulates.of_scopes {c : Eval σ α} {d : Scoped σ α}
    (hc : ∀ m, (c.final m).scopes = m.scopes)
    (h : ∀ (m : Machine σ), seenFrom scope (c m) = d (m.seenFrom scope)) :
    Simulates scope c d := ⟨.of_scopes hc, fun m _ _ => h m⟩

theorem simulates_pure (a : α) : Simulates scope (pure a : Eval σ α) (pure a) :=
  .of_scopes (fun _ => rfl) fun _ => rfl

theorem simulates_throw (fault : Fault) :
    Simulates scope (throw fault : Eval σ α) (throw fault) :=
  .of_scopes (fun _ => rfl) fun _ => rfl

theorem simulates_ofExcept (e : Except Fault α) :
    Simulates scope (ofExcept e : Eval σ α) (Scoped.ofExcept e) := by
  cases e with
  | error fault => exact simulates_throw fault
  | ok a => exact simulates_pure a

theorem simulates_visit (n : Node) (here : Int) :
    Simulates scope (visit n here : Eval σ Unit) (Scoped.lookAt n.location) :=
  .of_scopes (fun _ => rfl) fun _ => rfl

/-- The trace is not seen. -/
theorem Simulates.afterNote {c : Eval σ α} {d : Scoped σ α} {event : TraceEvent}
    (h : Simulates scope c d) : Simulates scope (note event >>= fun _ => c) d where
  moving := .bind (.of_scopes fun _ => rfl) fun _ => h.moving
  seen m hr hs := h.seen { m with trace := m.trace.push event } hr hs

theorem simulates_fetch (name : String) :
    Simulates scope (fetch scope name : Eval σ Value) (Scoped.fetch name) where
  moving := moving_fetch scope name
  seen m hr hs := by
    have henv : Scoped.fetch name (m.seenFrom scope) =
        (match (m.scopes.environment scope).findSome? (·.get? name) with
          | some value => pure value
          | none => throw (.unknownName name) : Scoped σ Value) (m.seenFrom scope) := rfl
    rw [fetch_eq, henv, hr.fetch_eq_environment name hs]
    cases (m.scopes.environment scope).findSome? (·.get? name) with
    | none => rfl
    | some value => rfl

theorem simulates_readVariable (name : String) :
    Simulates scope (readVariable scope name : Eval σ Value) (Scoped.readVariable name) := by
  refine (simulates_fetch name).bind fun value => ?_
  split
  · exact simulates_pure value
  · exact (simulates_ofExcept _).bind fun _ => simulates_throw _

theorem simulates_assign (name : String) (value : Value) :
    Simulates scope (assign scope name value : Eval σ Unit) (Scoped.assign name value) where
  moving := moving_assign scope name value
  seen m hr hs := by
    rw [assign_of_valid hs, seenFrom, Machine.seenFrom, Arena.environment_bind hs]
    rfl

def opened (m : Machine σ) (parent : Nat) : Machine σ :=
  { m with
    scopes := m.scopes.push { parent := some (parent : Int) }
    trace := m.trace.push (.openScope m.scopes.size parent) }

theorem openScope_bind {parent : Nat} {m : Machine σ} (hp : parent < m.scopes.size)
    (f : Nat → Eval σ α) : (openScope parent >>= f) m = f m.scopes.size (opened m parent) :=
  bind_of_ok (openScope_of_valid (by omega))

/-- A computation in a new scope is one in an environment of its own, provided that `left` makes of
that environment what its scope sees in the end. -/
theorem Simulates.seen_opened {f : Nat → Eval σ α} {d : Scoped σ α} {parent : Nat}
    (hf : ∀ child, Simulates child (f child) d) {m : Machine σ} (hr : m.scopes.Rooted)
    (hp : parent < m.scopes.size) {left : List Bindings → List Bindings}
    (hleft : left (((openScope parent >>= f).final m).scopes.environment m.scopes.size) =
      ((openScope parent >>= f).final m).scopes.environment scope) :
    seenFrom scope ((openScope parent >>= f) m) =
      Scoped.within ([] :: m.scopes.environment parent) left d (m.seenFrom scope) := by
  have hsize : m.scopes.size < (opened m parent).scopes.size := by simp [opened]
  have hinner : seenFrom m.scopes.size (f m.scopes.size (opened m parent)) =
      d (m.surroundings ([] :: m.scopes.environment parent)) := by
    rw [(hf m.scopes.size).seen _ ((Arena.Move.opened m.scopes parent hp).rooted hr) hsize,
      Machine.seenFrom, opened, Arena.environment_push hp]
    rfl
  rw [final, openScope_bind hp] at hleft
  rw [openScope_bind hp]
  have henter : ({ m.seenFrom scope with environment := [] :: m.scopes.environment parent } :
      Surroundings σ) = m.surroundings ([] :: m.scopes.environment parent) := rfl
  rw [Scoped.within, henter, ← hinner]
  cases hfm : f m.scopes.size (opened m parent) with
  | ok a last =>
      rw [hfm] at hleft
      simp only [seenFrom, Machine.seenFrom, Machine.surroundings, hleft]
  | error fault last =>
      rw [hfm] at hleft
      simp only [seenFrom, Machine.seenFrom, Machine.surroundings, hleft]

theorem Simulates.inBlock {f : Nat → Eval σ α} {d : Scoped σ α}
    (hf : ∀ child, Simulates child (f child) d) :
    Simulates scope (openScope scope >>= f) (Scoped.inBlock d) where
  moving := (moving_openScope scope).bind fun child => (hf child).moving
  seen m hr hs := by
    refine Simulates.seen_opened hf hr hs ?_
    -- The new scope stays inside its parent, so its own bindings are in front to the end.
    have hgrows := ((hf m.scopes.size).moving (opened m scope)).grows
    obtain ⟨entries, hchild⟩ := hgrows m.scopes.size _ Array.getElem?_push_size
    have hfinal : (openScope scope >>= f).final m = (f m.scopes.size).final (opened m scope) := by
      rw [final, openScope_bind hs, final]
    rw [hfinal, Arena.environment_of_parent hchild rfl hs, List.tail_cons]

theorem Simulates.atRoot {f : Nat → Eval σ α} {d : Scoped σ α}
    (hf : ∀ child, Simulates child (f child) d)
    (hkeep : Binds scope [] (openScope 0 >>= f)) :
    Simulates scope (openScope 0 >>= f) (Scoped.atRoot d) where
  moving := (moving_openScope 0).bind fun child => (hf child).moving
  seen m hr hs := by
    have hkept : ((openScope 0 >>= f).final m).scopes.environment scope =
        m.scopes.environment scope :=
      Arena.environment_congr fun i hi => hkeep.keeps_all m (by omega)
    show _ = Scoped.within ([] :: (m.scopes.environment scope).getLast?.toList)
      (fun _ => m.scopes.environment scope) d (m.seenFrom scope)
    rw [hr.getLast?_environment hs]
    exact Simulates.seen_opened hf hr hr.size_pos hkept.symm

theorem simulates_builtin (channel : Option (Channel σ)) (b : Builtin) (args : List Value) :
    Simulates scope (b.apply channel args) (Scoped.builtin (b.apply channel args)) := by
  have hdetached := detached_builtin channel b args
  refine .of_scopes hdetached.scopes_final fun m => ?_
  show _ = Scoped.builtin (b.apply channel args) (m.surroundings (m.scopes.environment scope))
  rw [Scoped.builtin]
  simp only [Machine.surroundings, hdetached m #[] #[]]
  have hkept := hdetached.scopes_final m
  rw [final] at hkept
  cases hm : b.apply channel args m <;> rw [hm] at hkept <;>
    simp only [seenFrom, Machine.seenFrom, Machine.surroundings, hkept]

theorem Simulates.withHost {f : σ → Eval σ α} {g : σ → Scoped σ α}
    (h : ∀ state, Simulates scope (f state) (g state)) :
    Simulates scope (hostState >>= f) (do g (← get).host) where
  moving := .bind (.of_scopes fun _ => rfl) fun state => (h state).moving
  seen m hr hs := (h m.host).seen m hr hs

theorem simulates_reply {force : Int → Value → Eval σ Value} {force' : Value → Scoped σ Value}
    (hforce : ∀ v, Simulates scope (force 0 v) (force' v)) (reply : Reply σ)
    (hroot : reply.ForcesAtRoot) :
    Simulates scope (reply.run force) (Scoped.reply force' reply) := by
  induction reply with
  | answer value state => exact .of_scopes (fun _ => rfl) fun _ => rfl
  | fail fault state => exact .of_scopes (fun _ => rfl) fun _ => rfl
  | force value state resume below ih =>
      obtain ⟨rfl, hresume⟩ := hroot
      exact Simulates.bind (.of_scopes (fun _ => rfl) fun _ => rfl) fun _ =>
        (hforce value).attempt.bind fun result => .withHost fun state =>
          ih result state (hresume result state)

theorem simulates_call {host : Host σ} (hroot : host.ForcesAtRoot)
    {force : Int → Value → Eval σ Value} {force' : Value → Scoped σ Value}
    (hforce : ∀ v, Simulates scope (force 0 v) (force' v)) (name : String) (callee : Value)
    (args : List Value) (site : Option Location) :
    Simulates scope (call host force name callee args site)
      (Scoped.call host force' name callee args site) := by
  cases callee with
  | function f =>
      have happly : Simulates scope (apply host force ⟨name, args, site⟩ f)
          (Scoped.apply host force' args f) := by
        cases f with
        | builtin b => exact simulates_builtin host.channel b args
        | host name =>
            exact .withHost fun state => simulates_reply hforce _ (hroot name args state)
      exact .afterNote (.bind (.of_scopes (fun _ => rfl) fun _ => rfl) fun _ =>
        happly.bind fun value => .bind (.of_scopes (fun _ => rfl) fun _ => rfl) fun _ =>
          simulates_ofExcept _)
  | _ => exact (simulates_ofExcept _).bind fun _ => simulates_throw _

theorem simulates_sequence {evaluate : Node → Int → Eval σ (Option Value)}
    {evaluate' : Node → Scoped σ (Option Value)}
    (heval : ∀ n, Simulates scope (evaluate n scope) (evaluate' n)) (nodes : List Node) :
    Simulates scope (sequence evaluate scope nodes) (Scoped.sequence evaluate' nodes) := by
  induction nodes with
  | nil => exact simulates_pure []
  | cons n nodes ih =>
      exact (heval n).bind fun value => ih.bind fun values => simulates_pure _

section
variable {host : Host σ} {depth : Nat}
  (ih : ∀ (n : Node) (scope : Nat),
    Simulates scope (node host depth n scope) (Scoped.node host depth n))

include ih

theorem simulates_forceWith (v : Value) :
    Simulates scope (forceWith (node host depth) 0 v)
      (Scoped.forceWith (Scoped.node host depth) v) := by
  cases v with
  | lambda body =>
      have hkeep : Binds scope [] (forceWith (node host depth) 0 (.lambda body)) :=
        binds_forceWith (binds_node host depth) 0 (.lambda body)
      exact .atRoot (fun child => (ih body child).bind fun value => simulates_pure _) hkeep
  | _ => exact simulates_pure _

end

theorem simulates_node {host : Host σ} (hroot : host.ForcesAtRoot) (depth : Nat) (n : Node)
    (scope : Nat) : Simulates scope (node host depth n scope) (Scoped.node host depth n) := by
  induction depth generalizing n scope with
  | zero => exact simulates_throw .tooDeep
  | succ depth ih =>
      have hsequence (scope : Nat) (nodes : List Node) :
          Simulates scope (sequence (node host depth) scope nodes)
            (Scoped.sequence (Scoped.node host depth) nodes) :=
        simulates_sequence (fun n => ih n scope) nodes
      cases n with
      | assign name value =>
          exact (ih value scope).bind fun v => .afterNote <|
            (simulates_assign name _).bind fun _ => simulates_pure none
      | block children =>
          refine (simulates_visit _ scope).bind fun _ => ?_
          rw [← bind_assoc]
          exact (Simulates.inBlock fun child => hsequence child children).bind fun values =>
            simulates_pure _
      | list children =>
          exact (simulates_visit _ scope).bind fun _ =>
            (hsequence scope children).bind fun values => simulates_pure _
      | literal value => exact (simulates_visit _ scope).bind fun _ => simulates_pure _
      | var name site =>
          exact (simulates_visit _ scope).bind fun _ => (simulates_readVariable name).bind fun _ =>
            simulates_pure _
      | call name args site =>
          refine (simulates_visit _ scope).bind fun _ =>
            (hsequence scope args).bind fun values => ?_
          refine (simulates_fetch name).bind fun callee => ?_
          refine Simulates.bind (.of_scopes (fun _ => rfl) fun _ => rfl) fun _ => ?_
          exact (simulates_call hroot (simulates_forceWith ih) name callee _ site).bind fun _ =>
            simulates_pure _
      | lambda body => exact (simulates_visit _ scope).bind fun _ => simulates_pure _

theorem simulates_value {host : Host σ} (hroot : host.ForcesAtRoot) (depth : Nat) (n : Node)
    (scope : Nat) : Simulates scope (value host depth n scope) (Scoped.value host depth n) :=
  (simulates_node hroot depth n scope).bind fun _ => simulates_pure _

end

end Eval

namespace Arena

/-- The scopes from an index on bind something else. -/
def rebind (scopes : Arena) (start : Nat) (bindings : Nat → Bindings) : Arena :=
  scopes.mapIdx fun i scope => if i < start then scope else { scope with bindings := bindings i }

theorem getElem?_rebind (scopes : Arena) (start : Nat) (bindings : Nat → Bindings) (i : Nat) :
    (scopes.rebind start bindings)[i]? = (scopes[i]?).map fun scope =>
      if i < start then scope else { scope with bindings := bindings i } := by
  rw [rebind, Array.getElem?_mapIdx]

theorem parent_rebind (start : Nat) (bindings : Nat → Bindings) (i : Nat) (scope : Scope) :
    (if i < start then scope else { scope with bindings := bindings i }).parent =
      scope.parent := by
  split <;> rfl

theorem Rooted.rebind {scopes : Arena} (h : scopes.Rooted) (start : Nat)
    (bindings : Nat → Bindings) : (scopes.rebind start bindings).Rooted := by
  constructor
  · obtain ⟨first, hfirst, hnone⟩ := h.root
    refine ⟨_, by rw [getElem?_rebind, hfirst, Option.map_some], ?_⟩
    rw [parent_rebind, hnone]
  · intro i scope hpos hi
    rw [getElem?_rebind] at hi
    obtain ⟨old, hold, rfl⟩ := Option.map_eq_some_iff.1 hi
    rw [parent_rebind]
    exact h.inside i old hpos hold

theorem environment_rebind {scopes : Arena} {start handle : Nat} (h : handle < start)
    (bindings : Nat → Bindings) :
    (scopes.rebind start bindings).environment handle = scopes.environment handle := by
  apply environment_congr
  intro i hi
  rw [getElem?_rebind]
  simp [Nat.lt_of_le_of_lt hi h]

end Arena

/-- A state that a session with the host can come to. -/
def Machine.Reachable (host : Host σ) (m : Machine σ) : Prop :=
  ∃ (root : Scope) (state : σ) (first : Machine σ) (limit : Nat) (requests : List Session.Request),
    Machine.start root state = .ok first ∧ m = first.afterRequests host limit requests

theorem Machine.Reachable.rooted {host : Host σ} {m : Machine σ} (h : m.Reachable host) :
    m.scopes.Rooted := by
  obtain ⟨root, state, first, limit, requests, hstart, rfl⟩ := h
  exact (first.moves_afterRequests host limit requests).rooted (rooted_start hstart)

/-- Seen from its scope, an evaluation in the arena has the value or the fault, the effects, the
calls and the dealings with the host, and leaves the bindings, of the evaluation with the
environment of that scope; and so it is when a value is forced below the root. Once a block or the
forcing of a value has ended, it makes no difference to any evaluation what the scopes bind that it
had opened. -/
theorem arena_refines_environment {σ : Type} (host : Host σ) (hroot : host.ForcesAtRoot)
    (m : Machine σ) (hm : m.Reachable host) (depth : Nat) (s : Int) (hs : 0 ≤ s)
    (hlt : s < m.scopes.size) :
    (∀ n : Node, Eval.seenFrom s.toNat (Eval.value host depth n s m) =
      Scoped.value host depth n (m.seenFrom s.toNat)) ∧
    (∀ v : Value, Eval.seenFrom s.toNat (Eval.force host depth 0 v m) =
      Scoped.forceWith (Scoped.node host depth) v (m.seenFrom s.toNat)) ∧
    ∀ ended : Machine σ,
      (∃ (parent : Int) (children : List Node),
        ended = (Eval.value host depth (.block children) parent).final m) ∨
      (∃ (parent : Int) (v : Value), ended = (Eval.force host depth parent v).final m) →
      ∀ (bindings : Nat → Bindings) (depth' : Nat) (n : Node),
        Eval.seenFrom s.toNat (Eval.value host depth' n s
          { ended with scopes := ended.scopes.rebind m.scopes.size bindings }) =
        Eval.seenFrom s.toNat (Eval.value host depth' n s ended) := by
  obtain ⟨scope, rfl⟩ := Int.eq_ofNat_of_zero_le hs
  have hin : scope < m.scopes.size := by omega
  have hr := hm.rooted
  refine ⟨fun n => (Eval.simulates_value hroot depth n scope).seen m hr hin,
    fun v => (Eval.simulates_forceWith (Eval.simulates_node hroot depth) v).seen m hr hin, ?_⟩
  intro ended hended bindings depth' n
  have hmoves : Arena.Moves m.scopes ended.scopes := by
    rcases hended with ⟨parent, children, rfl⟩ | ⟨parent, v, rfl⟩
    · exact Eval.moving_value host depth (.block children) parent m
    · exact Eval.moving_force host depth parent v m
  have hr' := hmoves.rooted hr
  have hin' : scope < ended.scopes.size := Nat.lt_of_lt_of_le hin hmoves.grows.size_le
  have hsize : (ended.scopes.rebind m.scopes.size bindings).size = ended.scopes.size :=
    Array.size_mapIdx
  have hsimulates := Eval.simulates_value hroot depth' n scope
  have hother := hsimulates.seen { ended with scopes := ended.scopes.rebind m.scopes.size bindings }
    (hr'.rebind m.scopes.size bindings) (by rw [hsize]; exact hin')
  rw [Machine.seenFrom, Arena.environment_rebind hin] at hother
  exact hother.trans (hsimulates.seen ended hr' hin').symm

/-- A name that two scopes bind, read in the inner one and by a lambda that is forced there, and a
lambda whose forcing fails and is given up. -/
theorem arena_refines_environment_sample :
    let root : Scope :=
      { bindings := [("x", .boolean true), ("try", .function (.host "try"))] }
    let first : Machine Unit := { scopes := #[root], host := () }
    let m := first.afterRequests Host.trying 9 [.openScope 0, .assign 1 "x" (.boolean false)]
    let n : Node := .list [.var "x" none, .call "try" [.lambda (.var "x" none)] none,
      .call "try" [.lambda (.var "nope" none)] none]
    Host.trying.ForcesAtRoot ∧ m.Reachable Host.trying ∧ ∃ last : Machine Unit,
      Eval.value Host.trying 9 n 1 m = .ok (.list [.boolean false, .boolean true, .list []]) last ∧
      Scoped.value Host.trying 9 n (m.seenFrom 1) =
        .ok (.list [.boolean false, .boolean true, .list []]) (last.seenFrom 1) := by
  intro root first m n
  have hm : m.Reachable Host.trying :=
    ⟨root, (), first, 9, [.openScope 0, .assign 1 "x" (.boolean false)], rfl, rfl⟩
  obtain ⟨hvalue, -⟩ := arena_refines_environment Host.trying Host.forcesAtRoot_trying m hm 9 1
    (by decide) (by decide)
  obtain ⟨last, hlast⟩ : ∃ last : Machine Unit, Eval.value Host.trying 9 n 1 m =
      .ok (.list [.boolean false, .boolean true, .list []]) last := ⟨_, rfl⟩
  have hseen := hvalue n
  rw [hlast] at hseen
  exact ⟨Host.forcesAtRoot_trying, hm, last, hlast, hseen.symm⟩

end Pseudocode
