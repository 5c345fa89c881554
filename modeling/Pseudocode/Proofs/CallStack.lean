import Pseudocode.Proofs.Descent
import Pseudocode.Proofs.HardErrors

/-!
# The calls that go on

A call begins when its arguments have their values and ends when its function has
answered. A fault ends no call, so a state may hold calls of evaluations that failed long
ago. Evaluation works on top of them: whether it ends in a value or in a fault, the calls
that it found are still there, below any others. If it ends in a value there are no others,
unless a function of the host has gone on after a fault in what it had forced. Then the
calls that the fault left behind stay, and it is one of these that ends when the function
answers.

A builtin function evaluates nothing. So where no function of the host is bound, at most
one call goes on at any time above those that were there before, and a fault leaves a call
behind if and only if it was raised in a builtin function.

All this is about the states that an evaluation passes through, which its end does not
tell. Hence evaluation is carried out in a second manner, with a record of the calls after
each step, of the faults that the host was told of, and of the call that a fault was raised
in.
-/
namespace Pseudocode

/-- A fault, and the call of a builtin function that it was raised in, if it was in one. -/
structure Raised where
  fault : Fault
  inside : Option Activation

/-- A state of a run, the calls that went on in it and before it, and the faults that functions of
the host were told of, the latest first. -/
structure Watch (σ : Type) where
  machine : Machine σ
  seen : List (List Activation) := []
  caught : List Fault := []

abbrev Watched (σ : Type) := EStateM Raised (Watch σ)

namespace Watched

/-- Takes one step, which belongs to a builtin function if a call is given. -/
def step (c : Eval σ α) (inside : Option Activation := none) : Watched σ α := fun w =>
  match c w.machine with
  | .ok a m => .ok a { w with machine := m, seen := m.calls :: w.seen }
  | .error fault m => .error ⟨fault, inside⟩ { w with machine := m, seen := m.calls :: w.seen }

def attempt (c : Watched σ α) : Watched σ (Except Fault α) := fun w =>
  match c w with
  | .ok a last => .ok (.ok a) last
  | .error raised last =>
      .ok (.error raised.fault) { last with caught := raised.fault :: last.caught }

instance : Manner σ (Watched σ) where
  step c := step c
  inside a c := step c (some a)
  attempt := attempt

def node (host : Host σ) : (depth : Nat) → Node → Int → Watched σ (Option Value)
  | 0 => fun _ _ => step (throw .tooDeep)
  | depth + 1 => Eval.level host (node host depth)

def value (host : Host σ) (depth : Nat) (n : Node) (scope : Int) : Watched σ Value := do
  return Value.collapse (← node host depth n scope).toList

def unwatched : EStateM.Result Raised (Watch σ) α → EStateM.Result Fault (Machine σ) α
  | .ok a w => .ok a w.machine
  | .error raised w => .error raised.fault w.machine

def last : EStateM.Result Raised (Watch σ) α → Watch σ
  | .ok _ w => w
  | .error _ w => w

/-- The first computation is the second one, watched. -/
def Watches (w : Watched σ α) (c : Eval σ α) : Prop :=
  ∀ start : Watch σ, unwatched (w start) = c start.machine

section
variable {σ α β : Type}

theorem bind_of_ok {w : Watched σ α} {g : α → Watched σ β} {start middle : Watch σ} {a : α}
    (h : w start = .ok a middle) : (w >>= g) start = g a middle := by
  show EStateM.bind w g start = _
  rw [EStateM.bind, h]

theorem bind_of_error {w : Watched σ α} {g : α → Watched σ β} {start last : Watch σ}
    {raised : Raised} (h : w start = .error raised last) :
    (w >>= g) start = .error raised last := by
  show EStateM.bind w g start = _
  rw [EStateM.bind, h]

theorem watches_step (c : Eval σ α) (inside : Option Activation) : Watches (step c inside) c := by
  intro start
  rw [step]
  cases c start.machine <;> rfl

theorem watches_pure (a : α) : Watches (pure a : Watched σ α) (pure a) := fun _ => rfl

theorem Watches.bind {w : Watched σ α} {c : Eval σ α} {g : α → Watched σ β} {f : α → Eval σ β}
    (hw : Watches w c) (hg : ∀ a, Watches (g a) (f a)) : Watches (w >>= g) (c >>= f) := by
  intro start
  have hfirst := hw start
  cases hm : w start with
  | error raised last =>
      rw [hm] at hfirst
      rw [bind_of_error hm, Eval.bind_of_error hfirst.symm]
      rfl
  | ok a middle =>
      rw [hm] at hfirst
      rw [bind_of_ok hm, Eval.bind_of_ok hfirst.symm]
      exact hg a middle

theorem Watches.attempt {w : Watched σ α} {c : Eval σ α} (hw : Watches w c) :
    Watches (Watched.attempt w) (Eval.attempt c) := by
  intro start
  have hsame := hw start
  rw [Eval.attempt, ← hsame, Watched.attempt]
  cases w start <;> rfl

theorem watches_reply {force : Int → Value → Watched σ Value}
    {force' : Int → Value → Eval σ Value}
    (hforce : ∀ scope v, Watches (force scope v) (force' scope v)) (reply : Reply σ) :
    Watches (reply.run force) (reply.run force') := by
  induction reply with
  | answer value state => exact (watches_step _ _).bind fun _ => watches_pure value
  | fail fault state => exact (watches_step _ _).bind fun _ => watches_step _ _
  | force value state resume scope ih =>
      exact (watches_step _ _).bind fun _ => (hforce scope value).attempt.bind fun result =>
        (watches_step _ _).bind fun state => ih result state

theorem watches_call {host : Host σ} {force : Int → Value → Watched σ Value}
    {force' : Int → Value → Eval σ Value}
    (hforce : ∀ scope v, Watches (force scope v) (force' scope v)) (name : String)
    (callee : Value) (args : List Value) (site : Option Location) :
    Watches (Eval.call host force name callee args site)
      (Eval.call host force' name callee args site) := by
  cases callee with
  | function f =>
      have happly : Watches (Eval.apply host force ⟨name, args, site⟩ f)
          (Eval.apply host force' ⟨name, args, site⟩ f) := by
        cases f with
        | builtin b => exact watches_step _ _
        | host name => exact (watches_step _ _).bind fun state => watches_reply hforce _
      exact (watches_step _ _).bind fun _ => (watches_step _ _).bind fun _ =>
        happly.bind fun value => (watches_step _ _).bind fun _ => watches_step _ _
  | _ =>
      unfold Eval.call
      exact watches_step _ _

variable {evaluate : Node → Int → Watched σ (Option Value)}
  {evaluate' : Node → Int → Eval σ (Option Value)}
  (heval : ∀ n scope, Watches (evaluate n scope) (evaluate' n scope))

include heval in
theorem watches_sequence (scope : Int) (nodes : List Node) :
    Watches (Eval.sequence evaluate scope nodes) (Eval.sequence evaluate' scope nodes) := by
  induction nodes with
  | nil => exact watches_pure []
  | cons n nodes ih => exact (heval n scope).bind fun _ => ih.bind fun _ => watches_pure _

include heval in
theorem watches_forceWith (scope : Int) (v : Value) :
    Watches (Eval.forceWith evaluate scope v) (Eval.forceWith evaluate' scope v) := by
  cases v with
  | lambda body =>
      exact (watches_step _ _).bind fun child => (heval body child).bind fun _ => watches_pure _
  | _ => exact watches_pure _

include heval in
theorem watches_level (host : Host σ) (n : Node) (scope : Int) :
    Watches (Eval.level host evaluate n scope) (Eval.level host evaluate' n scope) := by
  cases n with
  | assign name value =>
      exact (heval value scope).bind fun v => (watches_step _ _).bind fun _ =>
        (watches_step _ _).bind fun _ => watches_pure none
  | block children =>
      exact (watches_step _ _).bind fun _ => (watches_step _ _).bind fun child =>
        (watches_sequence heval child children).bind fun _ => watches_pure _
  | list children =>
      exact (watches_step _ _).bind fun _ => (watches_sequence heval scope children).bind fun _ =>
        watches_pure _
  | literal value => exact (watches_step _ _).bind fun _ => watches_pure _
  | var name location =>
      exact (watches_step _ _).bind fun _ => (watches_step _ _).bind fun _ => watches_pure _
  | call name args site =>
      exact (watches_step _ _).bind fun _ => (watches_sequence heval scope args).bind fun _ =>
        (watches_step _ _).bind fun callee => (watches_step _ _).bind fun _ =>
        (watches_call (watches_forceWith heval) name callee _ site).bind fun _ => watches_pure _
  | lambda body => exact (watches_step _ _).bind fun _ => watches_pure _

theorem watches_node (host : Host σ) (depth : Nat) (n : Node) (scope : Int) :
    Watches (node host depth n scope) (Eval.node host depth n scope) := by
  induction depth generalizing n scope with
  | zero => exact watches_step (throw .tooDeep) none
  | succ depth ih => exact watches_level ih host n scope

theorem watches_value (host : Host σ) (depth : Nat) (n : Node) (scope : Int) :
    Watches (value host depth n scope) (Eval.value host depth n scope) :=
  (watches_node host depth n scope).bind fun _ => watches_pure _

end

end Watched

/-- The calls that went on, and the faults recorded, are still there, below any others. -/
structure Watch.Below (w after : Watch σ) : Prop where
  calls : w.machine.calls <:+ after.machine.calls
  caught : w.caught <:+ after.caught

theorem Watch.Below.refl (w : Watch σ) : w.Below w := ⟨List.suffix_refl _, List.suffix_refl _⟩

theorem Watch.Below.trans {w middle after : Watch σ} (h : w.Below middle)
    (h' : middle.Below after) : w.Below after :=
  ⟨h.calls.trans h'.calls, h.caught.trans h'.caught⟩

namespace Eval

/-- A builtin function answers with a literal. Whether it answers or fails, it only reports effects
and goes to the host. -/
theorem builtin_ends (channel : Option (Channel σ)) (b : Builtin) (args : List Value)
    (m : Machine σ) :
    (∃ l effects state,
      b.apply channel args m = .ok (.literal l) { m with effects, host := state }) ∨
    ∃ fault effects state,
      b.apply channel args m = .error fault { m with effects, host := state } := by
  cases b with
  | operator o =>
      rw [Builtin.apply]
      cases ho : o.apply args with
      | error fault => exact .inr ⟨fault, m.effects, m.host, rfl⟩
      | ok v =>
          obtain ⟨l, rfl⟩ := Operator.literal_of_apply ho
          exact .inl ⟨l, m.effects, m.host, rfl⟩
  | display =>
      rw [Builtin.apply, Builtin.applyDisplay_eq]
      cases args.mapM Value.displayText with
      | error fault => exact .inr ⟨fault, m.effects, m.host, rfl⟩
      | ok texts =>
          dsimp only
          obtain ⟨done, state⟩ := Channel.displayOn channel (" ".intercalate texts) m.host
          cases done with
          | error fault => exact .inr ⟨fault, _, state, rfl⟩
          | ok _ => exact .inl ⟨_, _, state, rfl⟩
  | input =>
      rw [Builtin.apply, Builtin.applyInput_eq]
      cases Builtin.prompt args with
      | error fault => exact .inr ⟨fault, m.effects, m.host, rfl⟩
      | ok prompt =>
          cases channel with
          | none => exact .inr ⟨_, m.effects, m.host, rfl⟩
          | some channel =>
              dsimp only
              obtain ⟨answer, state⟩ := channel.input prompt m.host
              cases answer with
              | error fault => exact .inr ⟨fault, m.effects, state, rfl⟩
              | ok answer => exact .inl ⟨_, m.effects, state, rfl⟩

end Eval

namespace Watched

/-- The computation leaves the calls that it found, and the faults that it found recorded, below
any others. If it ends in a value and the host has been told of no fault, it leaves no other
calls. -/
def KeepsCalls (c : Watched σ α) : Prop :=
  ∀ w : Watch σ, w.Below (last (c w)) ∧
    ∀ a after, c w = .ok a after → after.caught = w.caught →
      after.machine.calls = w.machine.calls

section
variable {σ α β : Type}

theorem KeepsCalls.pure (a : α) : KeepsCalls (Pure.pure a : Watched σ α) := by
  intro w
  refine ⟨.refl w, fun b after hb _ => ?_⟩
  cases hb
  rfl

theorem KeepsCalls.step {c : Eval σ α} (h : ∀ m, (c.final m).calls = m.calls)
    (inside : Option Activation) : KeepsCalls (step c inside) := by
  intro w
  have hcalls := h w.machine
  rw [Eval.final] at hcalls
  unfold Watched.step
  cases hc : c w.machine with
  | ok a m =>
      rw [hc] at hcalls
      refine ⟨⟨hcalls ▸ List.suffix_refl _, List.suffix_refl _⟩, fun b after hb _ => ?_⟩
      cases hb
      exact hcalls
  | error fault m =>
      rw [hc] at hcalls
      refine ⟨⟨hcalls ▸ List.suffix_refl _, List.suffix_refl _⟩, fun b after hb _ => ?_⟩
      cases hb

theorem KeepsCalls.bind {c : Watched σ α} {f : α → Watched σ β} (hc : KeepsCalls c)
    (hf : ∀ a, KeepsCalls (f a)) : KeepsCalls (c >>= f) := by
  intro w
  obtain ⟨hbelow, hsame⟩ := hc w
  cases hw : c w with
  | error raised middle =>
      rw [hw] at hbelow
      rw [bind_of_error hw]
      refine ⟨hbelow, fun b after hb _ => ?_⟩
      cases hb
  | ok a middle =>
      rw [hw] at hbelow
      obtain ⟨hbelow', hsame'⟩ := hf a middle
      rw [bind_of_ok hw]
      refine ⟨hbelow.trans hbelow', fun b after hb hcaught => ?_⟩
      -- Nothing was caught on either part of the way.
      rw [hb] at hbelow'
      have hmiddle : middle.caught = w.caught :=
        (hbelow.caught.eq_of_length_le (hcaught ▸ hbelow'.caught.length_le)).symm
      rw [hsame' b after hb (hcaught.trans hmiddle.symm), hsame a middle hw hmiddle]

theorem KeepsCalls.attempt {c : Watched σ α} (hc : KeepsCalls c) :
    KeepsCalls (Watched.attempt c) := by
  intro w
  obtain ⟨hbelow, hsame⟩ := hc w
  unfold Watched.attempt
  cases hw : c w with
  | ok a middle =>
      rw [hw] at hbelow
      refine ⟨hbelow, fun b after hb hcaught => ?_⟩
      cases hb
      exact hsame a middle hw hcaught
  | error raised middle =>
      rw [hw] at hbelow
      refine ⟨⟨hbelow.calls, hbelow.caught.trans (List.suffix_cons _ _)⟩,
        fun b after hb hcaught => ?_⟩
      cases hb
      have hlength : w.caught.length ≤ middle.caught.length := hbelow.caught.length_le
      have hmore := congrArg List.length hcaught
      rw [List.length_cons] at hmore
      omega

/-- A call begun and ended around a computation. If that fails, the call stays. -/
theorem KeepsCalls.during {c : Watched σ α} {f : α → Watched σ β} (hc : KeepsCalls c)
    (hf : ∀ a, KeepsCalls (f a)) (a : Activation) : KeepsCalls (do
      Watched.step (Eval.enter a)
      let value ← c
      Watched.step Eval.leave
      f value) := by
  intro w
  let begun : Watch σ :=
    { w with
      machine := { w.machine with calls := a :: w.machine.calls }
      seen := (a :: w.machine.calls) :: w.seen }
  have henter : Watched.step (Eval.enter a) none w = .ok () begun := rfl
  obtain ⟨hbelow, hsame⟩ := hc begun
  rw [bind_of_ok henter]
  cases hw : c begun with
  | error raised middle =>
      rw [hw] at hbelow
      rw [bind_of_error hw]
      refine ⟨⟨(List.suffix_cons a _).trans hbelow.calls, hbelow.caught⟩, fun b after hb _ => ?_⟩
      cases hb
  | ok value middle =>
      rw [hw] at hbelow
      let ended : Watch σ :=
        { middle with
          machine := { middle.machine with calls := middle.machine.calls.tail }
          seen := middle.machine.calls.tail :: middle.seen }
      have hleave : Watched.step Eval.leave none middle = .ok () ended := rfl
      rw [bind_of_ok hw, bind_of_ok hleave]
      -- Which call ends depends on what lies above, but there is one above those from before.
      have hended : w.Below ended := by
        refine ⟨?_, hbelow.caught⟩
        obtain ⟨more, hmore⟩ := hbelow.calls
        show w.machine.calls <:+ middle.machine.calls.tail
        rw [← show more ++ a :: w.machine.calls = middle.machine.calls from hmore]
        cases more with
        | nil => exact List.suffix_refl _
        | cons b more => exact (List.suffix_cons a _).trans (List.suffix_append _ _)
      have hends : Watched.KeepsCalls (f value) := hf value
      obtain ⟨hbelow', hsame'⟩ := hends ended
      refine ⟨hended.trans hbelow', fun b after hb hcaught => ?_⟩
      rw [hb] at hbelow'
      have hmiddle : middle.caught = w.caught :=
        (hended.caught.eq_of_length_le (hcaught ▸ hbelow'.caught.length_le)).symm
      rw [hsame' b after hb (hcaught.trans hmiddle.symm)]
      show middle.machine.calls.tail = w.machine.calls
      rw [hsame value middle hw hmiddle, List.tail_cons]

theorem calls_ofExcept (e : Except Fault α) (m : Machine σ) :
    ((Eval.ofExcept e).final m).calls = m.calls := by
  cases e <;> rfl

theorem keepsCalls_openScope (parent : Int) :
    KeepsCalls (Watched.step (Eval.openScope parent) : Watched σ Nat) := by
  refine .step (fun m => ?_) none
  by_cases hp : 0 ≤ parent ∧ parent < m.scopes.size
  · rw [Eval.final, Eval.openScope_of_valid hp]
  · rw [Eval.final, Eval.openScope_of_invalid hp]

theorem keepsCalls_assign (scope : Int) (name : String) (v : Value) :
    KeepsCalls (Watched.step (Eval.assign scope name v) : Watched σ Unit) := by
  refine .step (fun m => ?_) none
  rw [Eval.final, Eval.assign_eq]
  cases m.scopes.assign scope name v <;> rfl

theorem calls_fetch (scope : Int) (name : String) (m : Machine σ) :
    ((Eval.fetch scope name).final m).calls = m.calls := by
  rw [Eval.final, Eval.fetch_eq]
  exact calls_ofExcept _ m

theorem calls_readVariable (scope : Int) (name : String) (m : Machine σ) :
    ((Eval.readVariable scope name).final m).calls = m.calls := by
  rw [Eval.final, Eval.readVariable_eq]
  exact calls_ofExcept _ m

theorem keepsCalls_builtin (channel : Option (Channel σ)) (b : Builtin) (args : List Value)
    (inside : Option Activation) : KeepsCalls (Watched.step (b.apply channel args) inside) := by
  refine .step (fun m => ?_) inside
  obtain ⟨l, effects, state, h⟩ | ⟨fault, effects, state, h⟩ :=
    Eval.builtin_ends channel b args m <;> rw [Eval.final, h]

theorem keepsCalls_reply {force : Int → Value → Watched σ Value}
    (hforce : ∀ scope v, KeepsCalls (force scope v)) (reply : Reply σ) :
    KeepsCalls (reply.run force) := by
  induction reply with
  | answer value state => exact .bind (.step (fun _ => rfl) none) fun _ => .pure value
  | fail fault state =>
      exact .bind (.step (fun _ => rfl) none) fun _ => .step (fun _ => rfl) none
  | force value state resume scope ih =>
      exact .bind (.step (fun _ => rfl) none) fun _ => (hforce scope value).attempt.bind
        fun result => .bind (.step (fun _ => rfl) none) fun state => ih result state

theorem keepsCalls_call {host : Host σ} {force : Int → Value → Watched σ Value}
    (hforce : ∀ scope v, KeepsCalls (force scope v)) (name : String) (callee : Value)
    (args : List Value) (site : Option Location) :
    KeepsCalls (Eval.call host force name callee args site) := by
  cases callee with
  | function f =>
      have happly : KeepsCalls (Eval.apply host force ⟨name, args, site⟩ f) := by
        cases f with
        | builtin b => exact keepsCalls_builtin host.channel b args _
        | host name =>
            exact .bind (.step (fun _ => rfl) none) fun state => keepsCalls_reply hforce _
      exact .bind (.step (fun _ => rfl) none) fun _ =>
        happly.during (fun value => .step (calls_ofExcept value.normalize) none) ⟨name, args, site⟩
  | _ =>
      unfold Eval.call
      exact .step (fun _ => rfl) none

variable {evaluate : Node → Int → Watched σ (Option Value)}
  (heval : ∀ n scope, KeepsCalls (evaluate n scope))

include heval in
theorem keepsCalls_sequence (scope : Int) (nodes : List Node) :
    KeepsCalls (Eval.sequence evaluate scope nodes) := by
  induction nodes with
  | nil => exact .pure []
  | cons n nodes ih => exact (heval n scope).bind fun _ => ih.bind fun _ => .pure _

include heval in
theorem keepsCalls_forceWith (scope : Int) (v : Value) :
    KeepsCalls (Eval.forceWith evaluate scope v) := by
  cases v with
  | lambda body =>
      exact (keepsCalls_openScope scope).bind fun child => (heval body child).bind fun _ => .pure _
  | _ => exact .pure _

include heval in
theorem keepsCalls_level (host : Host σ) (n : Node) (scope : Int) :
    KeepsCalls (Eval.level host evaluate n scope) := by
  cases n with
  | assign name value =>
      exact (heval value scope).bind fun v => .bind (.step (fun _ => rfl) none) fun _ =>
        (keepsCalls_assign scope name _).bind fun _ => .pure none
  | block children =>
      exact .bind (.step (fun _ => rfl) none) fun _ => (keepsCalls_openScope scope).bind
        fun child => (keepsCalls_sequence heval child children).bind fun _ => .pure _
  | list children =>
      exact .bind (.step (fun _ => rfl) none) fun _ =>
        (keepsCalls_sequence heval scope children).bind fun _ => .pure _
  | literal value => exact .bind (.step (fun _ => rfl) none) fun _ => .pure _
  | var name location =>
      exact .bind (.step (fun _ => rfl) none) fun _ =>
        .bind (.step (calls_readVariable scope name) none) fun _ => .pure _
  | call name args site =>
      exact .bind (.step (fun _ => rfl) none) fun _ =>
        (keepsCalls_sequence heval scope args).bind fun values =>
        .bind (.step (calls_fetch scope name) none) fun callee =>
        .bind (.step (fun _ => rfl) none) fun _ =>
        (keepsCalls_call (keepsCalls_forceWith heval) name callee _ site).bind fun _ => .pure _
  | lambda body => exact .bind (.step (fun _ => rfl) none) fun _ => .pure _

theorem keepsCalls_value (host : Host σ) (depth : Nat) (n : Node) (scope : Int) :
    KeepsCalls (value host depth n scope) := by
  have hnode : KeepsCalls (node host depth n scope) := by
    induction depth generalizing n scope with
    | zero => exact .step (c := throw .tooDeep) (fun _ => rfl) none
    | succ depth ih => exact keepsCalls_level ih host n scope
  exact hnode.bind fun _ => .pure _

end

end Watched

/-- No scope binds a function of the host. -/
def Machine.OnlyBuiltins (m : Machine σ) : Prop :=
  ∀ s ∈ m.scopes, ∀ name f, s.bindings.get? name ≠ some (.function (.host f))

theorem Machine.onlyBuiltins_of_plain {m : Machine σ} (h : ∀ s ∈ m.scopes, s.Plain) :
    m.OnlyBuiltins := by
  intro s hs name f hf
  obtain hdata | ⟨b, hb, -⟩ := h s hs name _ hf
  · cases hdata
  · cases hb

theorem Arena.mem_of_scope? {scopes : Arena} {handle : Int} {s : Scope}
    (h : scopes.scope? handle = some s) : s ∈ scopes := by
  obtain ⟨i, -, hi⟩ := Option.bind_eq_some_iff.1 h
  exact Array.mem_of_getElem? hi

/-- What a look-up finds is bound in some scope. -/
theorem Arena.bound_of_searchFrom {scopes : Arena} {name : String} {steps : Nat} {handle : Int}
    {v : Value} (h : scopes.searchFrom name steps handle = .ok v) :
    ∃ s ∈ scopes, s.bindings.get? name = some v := by
  induction steps generalizing handle with
  | zero => cases h
  | succ steps ih =>
      rw [searchFrom] at h
      split at h
      · cases h
      · rename_i s hs
        split at h
        · rename_i found hfound
          cases h
          exact ⟨s, mem_of_scope? hs, hfound⟩
        · exact ih h
        · cases h

/-- The value is no function of the host. -/
def Value.NotHosts (v : Value) : Prop := ∀ f, v ≠ .function (.host f)

theorem Value.notHosts_collapse {vs : List Value} (h : ∀ v ∈ vs, v.NotHosts) :
    (collapse vs).NotHosts := by
  match vs with
  | [] => exact nofun
  | [v] => exact h v List.mem_cons_self
  | _ :: _ :: _ => exact nofun

theorem Machine.OnlyBuiltins.opened {m : Machine σ} (h : m.OnlyBuiltins) (parent : Int)
    {last : Machine σ} (hlast : last.scopes = m.scopes.push { parent := some parent }) :
    last.OnlyBuiltins := by
  intro s hs name f
  rw [hlast, Array.mem_push] at hs
  rcases hs with hs | rfl
  · exact h s hs name f
  · intro hf
    cases hf

theorem Machine.OnlyBuiltins.bound {m : Machine σ} (h : m.OnlyBuiltins) {index : Nat}
    {name : String} {v : Value} (hv : v.NotHosts) {last : Machine σ}
    (hlast : last.scopes = m.scopes.modify index (·.bind name v)) : last.OnlyBuiltins := by
  intro s hs other f hf
  obtain ⟨i, hi⟩ := Array.mem_iff_getElem?.1 hs
  rw [hlast, Array.getElem?_modify] at hi
  split at hi
  · obtain ⟨old, hold, rfl⟩ := Option.map_eq_some_iff.1 hi
    rw [Scope.bind, Bindings.get?_insert] at hf
    split at hf
    · exact absurd (Option.some.inj hf) (hv f)
    · exact h old (Array.mem_of_getElem? hold) other f hf
  · exact h s (Array.mem_of_getElem? hi) other f hf

/-- The call is one of the trees. Its arguments were evaluated, and a builtin function that was
called with their values raised the fault. -/
def Eval.FailedCall (host : Host σ) (trees : List Node) (a : Activation) (fault : Fault)
    (last : Machine σ) : Prop :=
  ∃ args depth scope before values after, .call a.name args a.site ∈ trees ∧
    sequence (node host depth) scope args before = .ok values after ∧
    a.args = (Value.collapse values).arguments ∧
    ∃ (b : Builtin) (begun : Machine σ), b.apply host.channel a.args begun = .error fault last

theorem Eval.FailedCall.mono {host : Host σ} {trees more : List Node} {a : Activation}
    {fault : Fault} {last : Machine σ} (h : FailedCall host trees a fault last)
    (hmore : ∀ n ∈ trees, n ∈ more) : FailedCall host more a fault last := by
  obtain ⟨args, depth, scope, before, values, after, htree, hrest⟩ := h
  exact ⟨args, depth, scope, before, values, after, hmore _ htree, hrest⟩

namespace Watched

/-- These calls, or one more. -/
def AtMostOneMore (calls stack : List Activation) : Prop :=
  ∃ added : Option Activation, stack = added.toList ++ calls

theorem atMostOneMore_refl (calls : List Activation) : AtMostOneMore calls calls := ⟨none, rfl⟩

/-- A record that was there before a call, or is made around it or during it. -/
theorem recorded_of_call {a : Activation} {calls stack : List Activation}
    {record : List (List Activation)}
    (h : stack ∈ record ∨ stack = calls ∨ stack = a :: calls) :
    stack ∈ record ∨ AtMostOneMore calls stack := by
  obtain h | rfl | rfl := h
  · exact .inl h
  · exact .inr (atMostOneMore_refl _)
  · exact .inr ⟨some a, rfl⟩

/-- Where only builtin functions are bound, the computation has at most one call at a time go on
above those that it found. It ends with those, or in a fault with the call that this was raised
in, if any, on top of them. The predicates are about the value, and about that call. -/
def Shallow (P : α → Prop) (Q : Activation → Fault → Machine σ → Prop) (c : Watched σ α) : Prop :=
  ∀ w : Watch σ, w.machine.OnlyBuiltins →
    (∀ stack ∈ (last (c w)).seen, stack ∈ w.seen ∨ AtMostOneMore w.machine.calls stack) ∧
    match c w with
    | .ok a after => after.machine.OnlyBuiltins ∧ after.machine.calls = w.machine.calls ∧ P a
    | .error raised after => after.machine.calls = raised.inside.toList ++ w.machine.calls ∧
        ∀ a ∈ raised.inside, Q a raised.fault after.machine

section
variable {σ α β : Type} {P : α → Prop} {R : β → Prop} {Q : Activation → Fault → Machine σ → Prop}

theorem Shallow.mono {Q' : Activation → Fault → Machine σ → Prop} {c : Watched σ α}
    (h : Shallow P Q c) (hQ : ∀ a fault last, Q a fault last → Q' a fault last) :
    Shallow P Q' c := by
  intro w hw
  obtain ⟨hseen, hend⟩ := h w hw
  refine ⟨hseen, ?_⟩
  cases hc : c w with
  | ok a after =>
      rw [hc] at hend
      exact hend
  | error raised after =>
      rw [hc] at hend
      exact ⟨hend.1, fun a ha => hQ a _ _ (hend.2 a ha)⟩

theorem Shallow.pure {a : α} (h : P a) : Shallow P Q (Pure.pure a : Watched σ α) :=
  fun _ hw => ⟨fun _ hstack => .inl hstack, hw, rfl, h⟩

theorem Shallow.bind {c : Watched σ α} {f : α → Watched σ β} (hc : Shallow P Q c)
    (hf : ∀ a, P a → Shallow R Q (f a)) : Shallow R Q (c >>= f) := by
  intro w hw
  obtain ⟨hseen, hend⟩ := hc w hw
  cases hcw : c w with
  | error raised after =>
      rw [hcw] at hseen hend
      rw [bind_of_error hcw]
      exact ⟨hseen, hend⟩
  | ok a middle =>
      rw [hcw] at hseen hend
      obtain ⟨hmiddle, hcalls, ha⟩ := hend
      obtain ⟨hseen', hend'⟩ := hf a ha middle hmiddle
      rw [bind_of_ok hcw, ← hcalls]
      refine ⟨fun stack hstack => (hseen' stack hstack).elim (fun hstack => ?_) .inr, hend'⟩
      rw [hcalls]
      exact hseen stack hstack

/-- A step outside of builtin functions that begins and ends no call. -/
theorem Shallow.step {c : Eval σ α}
    (h : ∀ m, m.OnlyBuiltins →
      match c m with
      | .ok a last => last.OnlyBuiltins ∧ last.calls = m.calls ∧ P a
      | .error _ last => last.calls = m.calls) : Shallow P Q (step c) := by
  intro w hw
  have hend := h w.machine hw
  unfold Watched.step
  cases hc : c w.machine with
  | ok a m =>
      rw [hc] at hend
      refine ⟨fun stack hstack => ?_, hend⟩
      rcases List.mem_cons.1 hstack with rfl | hstack
      · exact .inr (hend.2.1 ▸ atMostOneMore_refl _)
      · exact .inl hstack
  | error fault m =>
      rw [hc] at hend
      refine ⟨fun stack hstack => ?_, hend, fun a ha => by cases ha⟩
      rcases List.mem_cons.1 hstack with rfl | hstack
      · exact .inr (hend ▸ atMostOneMore_refl _)
      · exact .inl hstack

theorem shallow_note (event : TraceEvent) :
    Shallow (fun _ => True) Q (Watched.step (Eval.note event)) :=
  .step fun _ hm => ⟨hm, rfl, trivial⟩

theorem shallow_visit (n : Node) (scope : Int) :
    Shallow (fun _ => True) Q (Watched.step (Eval.visit n scope)) :=
  .step fun _ hm => ⟨hm, rfl, trivial⟩

theorem shallow_openScope (parent : Int) :
    Shallow (fun _ => True) Q (Watched.step (Eval.openScope parent)) := by
  refine .step fun m hm => ?_
  by_cases hp : 0 ≤ parent ∧ parent < m.scopes.size
  · rw [Eval.openScope_of_valid hp]
    exact ⟨hm.opened parent rfl, rfl, trivial⟩
  · rw [Eval.openScope_of_invalid hp]

theorem shallow_assign (scope : Int) (name : String) {v : Value} (hv : v.NotHosts) :
    Shallow (fun _ => True) Q (Watched.step (Eval.assign scope name v)) := by
  refine .step fun m hm => ?_
  rw [Eval.assign_eq, Arena.assign]
  cases m.scopes.index? scope with
  | none => rfl
  | some index => exact ⟨hm.bound hv rfl, rfl, trivial⟩

theorem shallow_fetch (scope : Int) (name : String) :
    Shallow Value.NotHosts Q (Watched.step (Eval.fetch scope name)) := by
  refine .step fun m hm => ?_
  rw [Eval.fetch_eq]
  cases hv : m.scopes.fetch scope name with
  | error fault => rfl
  | ok v =>
      refine ⟨hm, rfl, ?_⟩
      rintro f rfl
      obtain ⟨s, hs, hbound⟩ := Arena.bound_of_searchFrom hv
      exact hm s hs name f hbound

theorem shallow_readVariable (scope : Int) (name : String) :
    Shallow Value.NotHosts Q (Watched.step (Eval.readVariable scope name)) := by
  refine .step fun m hm => ?_
  rw [Eval.readVariable_eq]
  cases m.scopes.fetch scope name with
  | error fault => rfl
  | ok v =>
      cases v with
      | literal _ | derived _ _ => exact ⟨hm, rfl, nofun⟩
      | _ => rfl

def begun (w : Watch σ) (a : Activation) : Machine σ :=
  { w.machine with
    trace := w.machine.trace.push (.call a.name (a.args.map Value.typeName))
    calls := a :: w.machine.calls }

/-- The steps of a call of a builtin function. -/
theorem call_builtin (host : Host σ) (force : Int → Value → Watched σ Value) (b : Builtin)
    (a : Activation) (w : Watch σ) :
    Eval.call host force a.name (.function (.builtin b)) a.args a.site w =
      match b.apply host.channel a.args (begun w a) with
      | .ok v m => Watched.step (Eval.ofExcept v.normalize) none
          { w with
            machine := { m with calls := m.calls.tail }
            seen := m.calls.tail :: m.calls :: (a :: w.machine.calls) :: w.machine.calls :: w.seen }
      | .error fault m => .error ⟨fault, some a⟩
          { w with
            machine := m
            seen := m.calls :: (a :: w.machine.calls) :: w.machine.calls :: w.seen } := by
  show EStateM.bind (Watched.step (b.apply host.channel a.args) (some a)) _
    { w with machine := begun w a, seen := _ } = _
  rw [EStateM.bind, Watched.step]
  cases b.apply host.channel a.args (begun w a) <;> rfl

theorem shallow_call (host : Host σ) (force : Int → Value → Watched σ Value) {callee : Value}
    (hcallee : callee.NotHosts) (a : Activation) :
    Shallow Value.NotHosts
      (fun failed fault last => failed = a ∧
        ∃ (b : Builtin) (begun : Machine σ), b.apply host.channel a.args begun = .error fault last)
      (Eval.call host force a.name callee a.args a.site) := by
  cases callee with
  | function f =>
      cases f with
      | host f => exact absurd rfl (hcallee f)
      | builtin b =>
          intro w hw
          obtain ⟨l, effects, state, hb⟩ | ⟨fault, effects, state, hb⟩ :=
            Eval.builtin_ends host.channel b a.args (begun w a)
          · rw [call_builtin, hb]
            refine ⟨fun stack hstack => ?_, hw, rfl, nofun⟩
            have hstack : stack ∈ w.machine.calls :: w.machine.calls :: (a :: w.machine.calls) ::
              (a :: w.machine.calls) :: w.machine.calls :: w.seen := hstack
            exact recorded_of_call (a := a) (by simp only [List.mem_cons] at hstack; tauto)
          · rw [call_builtin, hb]
            refine ⟨fun stack hstack => ?_, rfl, fun failed hfailed => ?_⟩
            · have hstack : stack ∈ (a :: w.machine.calls) :: (a :: w.machine.calls) ::
                w.machine.calls :: w.seen := hstack
              exact recorded_of_call (a := a) (by simp only [List.mem_cons] at hstack; tauto)
            · cases hfailed
              exact ⟨rfl, b, _, hb⟩
  | _ =>
      unfold Eval.call
      exact .step fun _ _ => rfl

/-- The value is one that the computation has when it is not watched. -/
theorem Shallow.reached {w : Watched σ α} {c : Eval σ α} (h : Shallow P Q w) (hw : Watches w c) :
    Shallow (fun a => P a ∧ ∃ before after, c before = .ok a after) Q w := by
  intro start hstart
  obtain ⟨hseen, hend⟩ := h start hstart
  refine ⟨hseen, ?_⟩
  have hsame := hw start
  cases hws : w start with
  | ok a after =>
      rw [hws] at hend hsame
      exact ⟨hend.1, hend.2.1, hend.2.2, start.machine, after.machine, hsame.symm⟩
  | error raised after =>
      rw [hws] at hend
      exact hend

end

section
variable {σ : Type} {host : Host σ} {depth : Nat}

theorem shallow_sequence (scope : Int) (nodes : List Node)
    (h : ∀ n ∈ nodes, Shallow (fun v => ∀ w ∈ v.toList, w.NotHosts)
      (Eval.FailedCall host (n :: n.subtrees)) (node host depth n scope)) :
    Shallow (fun vs => ∀ w ∈ vs, w.NotHosts) (Eval.FailedCall host (Node.subtreesAll nodes))
      (Eval.sequence (node host depth) scope nodes) := by
  induction nodes with
  | nil => exact .pure nofun
  | cons n nodes ih =>
      obtain ⟨hn, hnodes⟩ := List.forall_mem_cons.1 h
      rw [Node.subtreesAll]
      refine (hn.mono fun _ _ _ hf => hf.mono fun _ => List.mem_append_left _).bind fun v hv => ?_
      refine ((ih hnodes).mono fun _ _ _ hf => hf.mono fun _ => List.mem_append_right _).bind
        fun vs hvs => ?_
      exact .pure (List.forall_mem_append.2 ⟨hv, hvs⟩)

theorem shallow_node (n : Node) (scope : Int) :
    Shallow (fun v => ∀ w ∈ v.toList, w.NotHosts) (Eval.FailedCall host (n :: n.subtrees))
      (node host depth n scope) := by
  induction depth generalizing n scope with
  | zero => exact Shallow.step (c := throw .tooDeep) fun _ _ => rfl
  | succ depth ih =>
      have hall : ∀ (parent : Node) (nodes : List Node), parent.subtrees = Node.subtreesAll nodes →
          ∀ scope : Int, Shallow (fun vs => ∀ w ∈ vs, w.NotHosts)
            (Eval.FailedCall host (parent :: parent.subtrees))
            (Eval.sequence (node host depth) scope nodes) := by
        intro parent nodes hbelow scope
        refine (shallow_sequence scope nodes fun n _ => ih n scope).mono fun _ _ _ hf => ?_
        rw [hbelow]
        exact hf.mono fun _ => List.mem_cons_of_mem _
      cases n with
      | assign name value =>
          refine ((ih value scope).mono fun _ _ _ hf => hf.mono fun _ =>
            List.mem_cons_of_mem _).bind fun v hv => (shallow_note _).bind fun _ _ => ?_
          exact (shallow_assign scope name (Value.notHosts_collapse hv)).bind fun _ _ => .pure nofun
      | block children =>
          exact (shallow_visit _ _).bind fun _ _ => (shallow_openScope _).bind fun child _ =>
            (hall _ children rfl child).bind fun vs hvs =>
            .pure (List.forall_mem_singleton.2 (Value.notHosts_collapse hvs))
      | list children =>
          exact (shallow_visit _ _).bind fun _ _ => (hall _ children rfl scope).bind fun vs hvs =>
            .pure (List.forall_mem_singleton.2 (Value.notHosts_collapse hvs))
      | literal value =>
          exact (shallow_visit _ _).bind fun _ _ => .pure (List.forall_mem_singleton.2 nofun)
      | var name location =>
          exact (shallow_visit _ _).bind fun _ _ => (shallow_readVariable scope name).bind
            fun v hv => .pure (List.forall_mem_singleton.2 hv)
      | call name args site =>
          have hargs := (hall (.call name args site) args rfl scope).reached
            (watches_sequence (watches_node host depth) scope args)
          refine (shallow_visit _ _).bind fun _ _ => hargs.bind fun vs hvs =>
            (shallow_fetch scope name).bind fun callee hcallee =>
            Shallow.bind (P := fun _ => True) (.step fun _ hm => ⟨hm, rfl, trivial⟩) fun _ _ => ?_
          obtain ⟨-, before, after, hvalues⟩ := hvs
          have hcall := shallow_call host (Eval.forceWith (node host depth)) hcallee
            ⟨name, (Value.collapse vs).arguments, site⟩
          refine (hcall.mono ?_).bind fun v hv => .pure (List.forall_mem_singleton.2 hv)
          rintro a fault last ⟨rfl, hraised⟩
          exact ⟨args, depth, scope, before, vs, after, List.mem_cons_self, hvalues, rfl, hraised⟩
      | lambda body =>
          exact (shallow_visit _ _).bind fun _ _ => .pure (List.forall_mem_singleton.2 nofun)

theorem shallow_value (n : Node) (scope : Int) :
    Shallow Value.NotHosts (Eval.FailedCall host (n :: n.subtrees))
      (value host depth n scope) :=
  (shallow_node n scope).bind fun _ hv => .pure (Value.notHosts_collapse hv)

end

end Watched

/-- Watching an evaluation changes nothing. Whether it ends in a value or in a fault, the calls that
it found are below any others. If it ends in a value, and no function of the host was told of a
fault on the way, they are all there is. Where no function of the host is bound, at most one call at
a time goes on above those that were there, and a value leaves none. A fault then leaves behind the
call of the builtin function that it was raised in, with its name, the values of its arguments and
its place, and no call if it was raised elsewhere. -/
theorem evaluation_keeps_calls {σ : Type} (host : Host σ) (depth : Nat) (n : Node) (scope : Int)
    (m : Machine σ) :
    let watched := Watched.value host depth n scope { machine := m }
    Watched.unwatched watched = Eval.value host depth n scope m ∧
    m.calls <:+ (Watched.last watched).machine.calls ∧
    (∀ v last, watched = .ok v last → last.caught = [] → last.machine.calls = m.calls) ∧
    (m.OnlyBuiltins →
      (∀ stack ∈ (Watched.last watched).seen, stack = m.calls ∨ ∃ a, stack = a :: m.calls) ∧
      (∀ v last, watched = .ok v last → last.machine.calls = m.calls) ∧
      ∀ fault inside last, watched = .error ⟨fault, inside⟩ last →
        last.machine.calls = inside.toList ++ m.calls ∧
        ∀ a ∈ inside, Eval.FailedCall host (n :: n.subtrees) a fault last.machine) := by
  intro watched
  obtain ⟨hbelow, hsame⟩ := Watched.keepsCalls_value host depth n scope { machine := m }
  refine ⟨Watched.watches_value host depth n scope _, hbelow.calls, hsame, fun hm => ?_⟩
  obtain ⟨hseen, hend⟩ := Watched.shallow_value n scope { machine := m } hm
  refine ⟨fun stack hstack => ?_, fun v last hv => ?_, fun fault inside last hraised => ?_⟩
  · obtain hnone | ⟨added, rfl⟩ := hseen stack hstack
    · cases hnone
    · cases added with
      | none => exact .inl rfl
      | some a => exact .inr ⟨a, rfl⟩
  · rw [show Watched.value host depth n scope { machine := m } = _ from hv] at hend
    exact hend.2.1
  · rw [show Watched.value host depth n scope { machine := m } = _ from hraised] at hend
    exact hend

/-- A call that returns and one that fails, both among the arguments of a third, in a state that
holds a call from before. -/
theorem evaluation_keeps_calls_sample :
    let stale : Activation := ⟨"F", [], none⟩
    let m : Machine Unit :=
      { scopes := #[{ bindings := Builtin.bindings }], calls := [stale], host := () }
    let returns : Node := .call "DISPLAY" [.literal (.text "a")] none
    let fails : Node := .call "DISPLAY" [returns, .lambda returns] (some ⟨some 1, some 9⟩)
    let n : Node := .call "NOT" [fails] none
    m.OnlyBuiltins ∧
    ∃ fault a last,
      Watched.value Host.none 9 n 0 { machine := m } = .error ⟨fault, some a⟩ last ∧
      (a.name = "DISPLAY" ∧ a.args.map Value.typeName = ["str", "Deferred"] ∧
        a.site = some ⟨some 1, some 9⟩) ∧
      last.machine.calls = [a, stale] ∧
      Eval.FailedCall Host.none (n :: n.subtrees) a fault last.machine ∧
      ∀ stack ∈ last.seen, stack = [stale] ∨ ∃ b, stack = [b, stale] := by
  intro stale m returns fails n
  have hm : m.OnlyBuiltins := by
    refine Machine.onlyBuiltins_of_plain fun s hs => ?_
    obtain rfl : s = { bindings := Builtin.bindings } := by simpa [m] using hs
    exact Scope.plain_builtins
  have hcall : (match Watched.value Host.none 9 n 0 { machine := m } with
      | .ok _ _ => false
      | .error ⟨_, none⟩ _ => false
      | .error ⟨_, some a⟩ _ => decide (a.name = "DISPLAY" ∧
          a.args.map Value.typeName = ["str", "Deferred"] ∧
          a.site = some ⟨some 1, some 9⟩)) = true := by decide +kernel
  obtain ⟨-, -, -, hbuiltins⟩ := evaluation_keeps_calls Host.none 9 n 0 m
  obtain ⟨hseen, -, hend⟩ := hbuiltins hm
  split at hcall
  · cases hcall
  · cases hcall
  · rename_i fault a last hraised
    obtain ⟨hcalls, hfailed⟩ := hend fault (some a) last hraised
    rw [hraised] at hseen
    exact ⟨hm, fault, a, last, hraised, of_decide_eq_true hcall, hcalls, hfailed a rfl, hseen⟩

/-- A function of the host has a lambda forced that fails in a call, and goes on. The evaluation
ends in a value, and a call is left that was not there before. -/
theorem caught_fault_leaves_call :
    let root : Scope := { bindings := ("try", .function (.host "try")) :: Builtin.bindings }
    let m : Machine Unit := { scopes := #[root], host := () }
    let fails : Node := .call "DISPLAY" [.lambda (.literal (.boolean true))] none
    ∃ v last, Eval.value Host.trying 9 (.call "try" [.lambda fails] none) 0 m = .ok v last ∧
      last.calls.map Activation.name = ["try"] ∧ last.calls ≠ m.calls := by
  intro root m fails
  have hend : (match Eval.value Host.trying 9 (.call "try" [.lambda fails] none) 0 m with
      | .ok _ last => decide (last.calls.map Activation.name = ["try"])
      | .error _ _ => false) = true := by decide +kernel
  split at hend
  · rename_i v last hlast
    have hnames := of_decide_eq_true hend
    refine ⟨v, last, hlast, hnames, fun hsame => ?_⟩
    rw [hsame] at hnames
    cases hnames
  · cases hend

end Pseudocode
