import Pseudocode.Proofs.Acceptance
import Pseudocode.Proofs.Ancestry
import Pseudocode.Proofs.Dispatch
import Pseudocode.Proofs.RunLog

/-!
# The errors that end a run

An operator that does not know what to do with its arguments answers with a text, and the
run goes on. All other failures end the run. With a host that offers no functions these
are of few kinds: errors in the source text, unknown names, calls of what is no function,
variables that hold no literal, values without a displayed text, and input that is
refused.

This rests on what programs can get hold of. Every value they compute is data: a literal,
a lambda, or a list of data. Scopes bind data and, at the root, the builtin functions,
each under its own name; a function is found when it is called and in no other way, so
none is ever passed, bound or answered.
-/
namespace Pseudocode

/-- The kinds of error that a run may end in, its nesting apart. -/
def hardErrors : List String :=
  ["LexError", "ParseError", "UnknownIdentifier", "NotCallable", "UnsupportedVariableKind",
    "CoercionError", "EvalError"]

def Failure.kind : Failure → String
  | source e => e.kind
  | fault f => f.kind

theorem Fault.hasWords_of_kind {fault : Fault} (h : fault.kind ∈ hardErrors) : fault.hasWords := by
  have hnot : "InternalError" ∉ hardErrors := by decide
  cases fault <;> first | rfl | exact absurd h hnot

/-- Displaying a text or asking for input may end in the fault. -/
def Channel.Raises (channel : Channel σ) (fault : Fault) : Prop :=
  (∃ text state, (channel.display text state).1 = .error fault) ∨
    ∃ prompt state, (channel.input prompt state).1 = .error fault

/-- What is asked of the host's channel is done, or refused in the host's own words. -/
def Host.OnlyDeclines (host : Host σ) : Prop :=
  ∀ channel ∈ host.channel,
    (∀ text state fault, (channel.display text state).1 = .error fault →
      fault.kind = "EvalError") ∧
    ∀ prompt state fault, (channel.input prompt state).1 = .error fault → fault.kind = "EvalError"

namespace Value

mutual

/-- A literal, a lambda, or a list of such. -/
def isData : Value → Bool
  | literal _ | lambda _ => true
  | list items => areData items
  | _ => false

def areData : List Value → Bool
  | [] => true
  | v :: vs => isData v && areData vs

end

theorem areData_iff {vs : List Value} : areData vs ↔ ∀ v ∈ vs, v.isData := by
  induction vs with
  | nil => simp [areData]
  | cons v vs ih => simp [areData, ih]

theorem areData_append {vs ws : List Value} (hv : areData vs) (hw : areData ws) :
    areData (vs ++ ws) := by
  rw [areData_iff] at hv hw ⊢
  exact fun v h => (List.mem_append.1 h).elim (hv v) (hw v)

theorem areData_singleton {v : Value} : areData [v] ↔ v.isData := by
  simp [areData]

theorem isData_collapse {vs : List Value} (h : areData vs) : (collapse vs).isData := by
  match vs, h with
  | [], _ => rfl
  | [v], h => exact areData_singleton.1 h
  | _ :: _ :: _, h => exact h

theorem areData_arguments {v : Value} (h : v.isData) : areData v.arguments := by
  cases v with
  | list items => exact h
  | derivedList items object => cases h
  | _ => exact areData_singleton.2 h

theorem isSome_kind?_of_isData {v : Value} (h : v.isData) : v.kind?.isSome := by
  cases v <;> first | rfl | cases h

mutual

theorem exists_print (indent level : Int) :
    (v : Value) → v.isData → ∃ text, v.print indent level = .ok text
  | literal _, _ | lambda _, _ => ⟨_, rfl⟩
  | list items, h => by
      obtain ⟨texts, htexts⟩ := exists_printAll indent level items h
      rw [print, htexts]
      exact ⟨_, rfl⟩

theorem exists_printAll (indent level : Int) :
    (vs : List Value) → areData vs → ∃ texts, printAll indent level vs = .ok texts
  | [], _ => ⟨_, rfl⟩
  | v :: vs, h => by
      obtain ⟨hv, hvs⟩ := Bool.and_eq_true_iff.1 h
      obtain ⟨text, htext⟩ := exists_print indent level v hv
      obtain ⟨texts, htexts⟩ := exists_printAll indent level vs hvs
      rw [printAll, htext, htexts]
      exact ⟨_, rfl⟩

end

theorem exists_report {v : Value} (h : v.isData)
    (functionText : Function → Except Fault String) :
    ∃ text, v.report functionText = .ok text := by
  obtain ⟨text, htext⟩ := exists_print 2 0 v h
  rw [report, htext]
  exact ⟨text, rfl⟩

mutual

theorem matches_ensureDisplayable : (v : Value) → v.isData → Matches v.ensureDisplayable
  | literal _, _ => .ok _
  | lambda _, _ => .error _
  | list items, h => matches_ensureAllDisplayable items h

theorem matches_ensureAllDisplayable :
    (vs : List Value) → areData vs → Matches (ensureAllDisplayable vs)
  | [], _ => .ok _
  | v :: vs, h => by
      obtain ⟨hv, hvs⟩ := Bool.and_eq_true_iff.1 h
      exact (matches_ensureDisplayable v hv).bind fun _ => matches_ensureAllDisplayable vs hvs

end

theorem matches_displayText {v : Value} (h : v.isData) : Matches v.displayText := by
  refine (matches_ensureDisplayable v h).bind fun _ => ?_
  split
  · exact .ok _
  · exact .ok _
  · obtain ⟨text, htext⟩ := exists_print 2 0 v h
    rw [htext]
    exact .ok text

end Value

theorem Matches.kind_of_error {e : Except Fault α} (h : Matches e) {fault : Fault}
    (he : e = .error fault) : fault.kind = "CoercionError" := by
  obtain ⟨a, rfl⟩ | ⟨cause, rfl⟩ := h
  · cases he
  · cases he
    rfl

theorem Host.OnlyDeclines.kind_of_raises {host : Host σ} (h : host.OnlyDeclines)
    {channel : Channel σ} (hc : channel ∈ host.channel) {fault : Fault}
    (hr : channel.Raises fault) : fault.kind = "EvalError" := by
  obtain ⟨text, state, hdone⟩ | ⟨prompt, state, hinput⟩ := hr
  · exact (h channel hc).1 text state fault hdone
  · exact (h channel hc).2 prompt state fault hinput

namespace Builtin

theorem name_display_ne (o : Operator) : display.name ≠ o.name := by
  cases o <;> decide

theorem name_input_ne (o : Operator) : input.name ≠ o.name := by
  cases o <;> decide

/-- What a builtin function raises of its own, and what comes from the host's channel. -/
def Cause (host : Host σ) (fault : Fault) : Prop :=
  fault.kind = "CoercionError" ∨ fault.kind = "EvalError" ∨
    ∃ channel ∈ host.channel, channel.Raises fault

theorem Cause.kind_mem_hardErrors {host : Host σ} (hhost : host.OnlyDeclines) {fault : Fault}
    (h : Cause host fault) : fault.kind ∈ hardErrors := by
  obtain hkind | hkind | ⟨channel, hchannel, hraises⟩ := h
  · simp [hkind, hardErrors]
  · simp [hkind, hardErrors]
  · simp [hhost.kind_of_raises hchannel hraises, hardErrors]

theorem cause_of_prompt {host : Host σ} {args : List Value} (h : Value.areData args)
    {fault : Fault} (he : prompt args = .error fault) : Cause host fault := by
  match args, h with
  | [], _ => cases he
  | [v], h =>
      have hv : v.isData := Value.areData_singleton.1 h
      exact .inl ((Value.matches_displayText hv).kind_of_error he)
  | _ :: _ :: _, _ =>
      cases he
      exact .inr (.inl rfl)

theorem cause_of_displayOn {host : Host σ} {text : String} {state : σ} {fault : Fault}
    (he : (Channel.displayOn host.channel text state).1 = .error fault) : Cause host fault := by
  cases hchannel : host.channel with
  | none =>
      rw [hchannel] at he
      cases he
  | some channel =>
      rw [hchannel] at he
      exact .inr (.inr ⟨channel, hchannel, .inl ⟨text, state, he⟩⟩)

/-- What a builtin function makes of data: a literal, or a fault, which no operator ends in.
The scopes and the calls stay as they were. -/
theorem apply_ends (host : Host σ) (b : Builtin) {args : List Value} (h : Value.areData args)
    (m : Machine σ) :
    (∃ l last, b.apply host.channel args m = .ok (.literal l) last ∧
      last.scopes = m.scopes ∧ last.calls = m.calls) ∨
    ∃ fault last, b.apply host.channel args m = .error fault last ∧ Cause host fault ∧
      last.calls = m.calls ∧ ∀ o : Operator, b.name ≠ o.name := by
  have hdata := Value.areData_iff.1 h
  cases b with
  | operator o =>
      obtain ⟨v, hv⟩ := o.apply_ok args fun v hv => Value.isSome_kind?_of_isData (hdata v hv)
      obtain ⟨l, rfl⟩ := Operator.literal_of_apply hv
      refine .inl ⟨l, m, ?_, rfl, rfl⟩
      rw [apply, hv]
      rfl
  | display =>
      have htexts : Matches (args.mapM Value.displayText) :=
        .mapM fun v hv => Value.matches_displayText (hdata v hv)
      rw [apply, applyDisplay_eq]
      cases he : args.mapM Value.displayText with
      | error fault =>
          exact .inr ⟨fault, m, rfl, .inl (htexts.kind_of_error he), rfl, name_display_ne⟩
      | ok texts =>
          dsimp only
          rcases hdone : Channel.displayOn host.channel (" ".intercalate texts) m.host with
            ⟨done, state⟩
          cases done with
          | ok _ => exact .inl ⟨_, _, rfl, rfl, rfl⟩
          | error fault =>
              have hcause := cause_of_displayOn (congrArg Prod.fst hdone)
              exact .inr ⟨fault, _, rfl, hcause, rfl, name_display_ne⟩
  | input =>
      rw [apply, applyInput_eq]
      cases he : prompt args with
      | error fault => exact .inr ⟨fault, m, rfl, cause_of_prompt h he, rfl, name_input_ne⟩
      | ok prompt =>
          cases hchannel : host.channel with
          | none => exact .inr ⟨_, m, rfl, .inr (.inl rfl), rfl, name_input_ne⟩
          | some channel =>
              dsimp only
              rcases hinput : channel.input prompt m.host with ⟨answer, state⟩
              cases answer with
              | ok answer => exact .inl ⟨_, _, rfl, rfl, rfl⟩
              | error fault =>
                  have hraises : channel.Raises fault :=
                    .inr ⟨prompt, m.host, congrArg Prod.fst hinput⟩
                  exact .inr ⟨fault, _, rfl, .inr (.inr ⟨channel, hchannel, hraises⟩), rfl,
                    name_input_ne⟩

end Builtin

/-- What a name is ever bound to: data, or the builtin function of that name. -/
def Value.Fits (name : String) (v : Value) : Prop :=
  v.isData ∨ ∃ b : Builtin, v = .function (.builtin b) ∧ name = b.name

theorem Value.Fits.isSome_kind? {name : String} {v : Value} (h : v.Fits name) :
    v.kind?.isSome := by
  obtain h | ⟨b, rfl, -⟩ := h
  · exact Value.isSome_kind?_of_isData h
  · rfl

def Scope.Plain (s : Scope) : Prop :=
  ∀ name v, s.bindings.get? name = some v → v.Fits name

theorem Scope.Plain.bind {s : Scope} (h : s.Plain) (name : String) {v : Value} (hv : v.isData) :
    (s.bind name v).Plain := by
  intro other w hw
  rw [Scope.bind, Bindings.get?_insert] at hw
  split at hw
  · cases hw
    exact .inl hv
  · exact h other w hw

theorem Builtin.fits_of_mem_bindings :
    ∀ entry ∈ Builtin.bindings, Value.Fits entry.1 entry.2 := by
  intro entry h
  rw [bindings, List.mem_append, List.mem_map] at h
  obtain ⟨b, -, rfl⟩ | h := h
  · exact .inr ⟨b, rfl, rfl⟩
  · simp only [List.mem_cons, List.not_mem_nil, or_false] at h
    obtain rfl | rfl := h <;> exact .inl rfl

theorem rootBindings_of_no_functions {host : Host σ} (h : host.functions = []) :
    rootBindings host [] = Builtin.bindings := by
  rw [rootBindings, h]
  rfl

theorem Scope.plain_builtins : Scope.Plain { bindings := Builtin.bindings } := by
  intro name v h
  have hlookup : Builtin.bindings.lookup name = some v := h
  obtain ⟨front, back, hsplit, -⟩ := List.lookup_eq_some_iff.1 hlookup
  exact Builtin.fits_of_mem_bindings (name, v) (by rw [hsplit]; simp)

/-- No call goes on, and the scopes hold what they should. -/
structure Machine.Sound (m : Machine σ) : Prop where
  rooted : m.scopes.Rooted
  plain : ∀ (i : Nat) (scope : Scope), m.scopes[i]? = some scope → scope.Plain
  idle : m.calls = []

theorem Machine.sound_start (effects : Array Effect) (state : σ) :
    Machine.Sound { scopes := #[{ bindings := Builtin.bindings }], effects, host := state } where
  rooted := by
    have hstart : Machine.start { bindings := Builtin.bindings } state =
        .ok { scopes := #[{ bindings := Builtin.bindings }], host := state } := rfl
    have hrooted := rooted_start hstart
    exact hrooted
  plain i scope hi := by
    cases i with
    | zero =>
        cases hi
        exact Scope.plain_builtins
    | succ i => cases hi
  idle := rfl

theorem Machine.Sound.of_kept {m last : Machine σ} (h : m.Sound) (hscopes : last.scopes = m.scopes)
    (hcalls : last.calls = m.calls) : last.Sound where
  rooted := hscopes ▸ h.rooted
  plain := hscopes ▸ h.plain
  idle := hcalls.trans h.idle

theorem Machine.Sound.opened {m last : Machine σ} (h : m.Sound) {parent : Nat}
    (hp : parent < m.scopes.size)
    (hscopes : last.scopes = m.scopes.push { parent := some (parent : Int) })
    (hcalls : last.calls = m.calls) : last.Sound where
  rooted := hscopes ▸ (Arena.Move.opened m.scopes parent hp).rooted h.rooted
  plain i scope hi := by
    rw [hscopes, Array.getElem?_push] at hi
    split at hi
    · cases hi
      intro name v hv
      cases hv
    · exact h.plain i scope hi
  idle := hcalls.trans h.idle

theorem Machine.Sound.bound {m last : Machine σ} (h : m.Sound) {index : Nat} {name : String}
    {v : Value} (hv : v.isData) (hscopes : last.scopes = m.scopes.modify index (·.bind name v))
    (hcalls : last.calls = m.calls) : last.Sound where
  rooted := hscopes ▸ (Arena.Move.bound m.scopes index name v).rooted h.rooted
  plain i scope hi := by
    rw [hscopes, Array.getElem?_modify] at hi
    split at hi
    · obtain ⟨old, hold, rfl⟩ := Option.map_eq_some_iff.1 hi
      exact (h.plain i old hold).bind name hv
    · exact h.plain i scope hi
  idle := hcalls.trans h.idle

/-- In a sound state a name is unknown, or has a value that fits it. -/
theorem Machine.Sound.fetch_cases {m : Machine σ} (h : m.Sound) {scope : Nat}
    (hs : scope < m.scopes.size) (name : String) :
    m.scopes.fetch scope name = .error (.unknownName name) ∨
      ∃ v, m.scopes.fetch scope name = .ok v ∧ v.Fits name := by
  rw [h.rooted.fetch_eq name hs]
  cases hfound : (m.scopes.outwards scope).findSome? (m.scopes.binding? name) with
  | none => exact .inl rfl
  | some v =>
      obtain ⟨i, -, hi⟩ := List.exists_of_findSome?_eq_some hfound
      obtain ⟨holder, hholder, hv⟩ := Option.bind_eq_some_iff.1 hi
      exact .inr ⟨v, rfl, h.plain i holder hholder name v hv⟩

/-- A call with data, and not of an operator. -/
def Activation.Proper (a : Activation) : Prop :=
  (∀ o : Operator, a.name ≠ o.name) ∧ Value.areData a.args

namespace Eval

/-- Started in a sound state with at least so many scopes, the computation ends in such a state and
a value that satisfies the predicate, or in a hard error, while only proper calls go on. It may
nest too deeply only when the depth is too short. -/
def Safe (size : Nat) (short : Prop) (P : α → Prop) (c : Eval σ α) : Prop :=
  ∀ m : Machine σ, m.Sound → size ≤ m.scopes.size →
    match c m with
    | .ok a last => last.Sound ∧ m.scopes.size ≤ last.scopes.size ∧ P a
    | .error fault last => (fault.kind ∈ hardErrors ∨ fault = .tooDeep ∧ short) ∧
        ∀ a ∈ last.calls, a.Proper

section
variable {σ α β : Type} {size : Nat} {short : Prop} {P : α → Prop} {Q : β → Prop}

theorem Safe.mono {short' : Prop} {c : Eval σ α} (h : Safe size short P c)
    (hshort : short → short') : Safe size short' P c := by
  intro m hm hsize
  have hc := h m hm hsize
  cases hcm : c m with
  | ok a last =>
      rw [hcm] at hc
      exact hc
  | error fault last =>
      rw [hcm] at hc
      exact ⟨hc.1.imp_right (And.imp_right hshort), hc.2⟩

theorem Safe.pure {a : α} (h : P a) : Safe size short P (pure a : Eval σ α) :=
  fun _ hm _ => ⟨hm, Nat.le_refl _, h⟩

theorem Safe.throw {fault : Fault} (h : fault.kind ∈ hardErrors ∨ fault = .tooDeep ∧ short) :
    Safe size short P (MonadExcept.throw fault : Eval σ α) := by
  intro m hm _
  refine ⟨h, ?_⟩
  rw [hm.idle]
  simp

theorem Safe.bind {c : Eval σ α} {f : α → Eval σ β} (hc : Safe size short P c)
    (hf : ∀ a, P a → Safe size short Q (f a)) : Safe size short Q (c >>= f) := by
  intro m hm hsize
  have hfirst := hc m hm hsize
  cases hcm : c m with
  | error fault last =>
      rw [hcm] at hfirst
      rw [bind_of_error hcm]
      exact hfirst
  | ok a middle =>
      rw [hcm] at hfirst
      obtain ⟨hmiddle, hgrows, ha⟩ := hfirst
      rw [bind_of_ok hcm]
      have hnext := hf a ha middle hmiddle (Nat.le_trans hsize hgrows)
      cases hlast : f a middle with
      | error fault last =>
          rw [hlast] at hnext
          exact hnext
      | ok b last =>
          rw [hlast] at hnext
          exact ⟨hnext.1, Nat.le_trans hgrows hnext.2.1, hnext.2.2⟩

/-- A computation that only notes something. -/
theorem Safe.of_kept {c : Eval σ Unit}
    (h : ∀ m, ∃ last, c m = .ok () last ∧ last.scopes = m.scopes ∧ last.calls = m.calls) :
    Safe size short (fun _ => True) c := by
  intro m hm _
  obtain ⟨last, hc, hscopes, hcalls⟩ := h m
  rw [hc]
  exact ⟨hm.of_kept hscopes hcalls, by rw [hscopes], trivial⟩

theorem safe_visit (n : Node) (scope : Int) :
    Safe size short (fun _ => True) (visit n scope : Eval σ Unit) :=
  .of_kept fun _ => ⟨_, rfl, rfl, rfl⟩

theorem Safe.inNew {parent : Nat} (hp : parent < size) {f : Nat → Eval σ α}
    (hf : ∀ child, Safe (child + 1) short P (f child)) :
    Safe size short P (openScope parent >>= f) := by
  intro m hm hsize
  have hlt : parent < m.scopes.size := by omega
  rw [bind_of_ok (openScope_of_valid (by omega))]
  have hopened := hf m.scopes.size { m with
    scopes := m.scopes.push { parent := some (parent : Int) }
    trace := m.trace.push (.openScope m.scopes.size parent) } (hm.opened hlt rfl rfl) (by simp)
  split at hopened
  · refine ⟨hopened.1, ?_, hopened.2.2⟩
    have hgrows := hopened.2.1
    rw [Array.size_push] at hgrows
    omega
  · exact hopened

theorem safe_assign {scope : Nat} (hs : scope < size) (name : String) {v : Value}
    (hv : v.isData) : Safe size short (fun _ => True) (assign scope name v : Eval σ Unit) := by
  intro m hm hsize
  rw [assign_of_valid (by omega)]
  refine ⟨hm.bound hv rfl rfl, ?_, trivial⟩
  rw [Array.size_modify]

theorem safe_fetch {scope : Nat} (hs : scope < size) (name : String) :
    Safe size short (Value.Fits name) (fetch scope name : Eval σ Value) := by
  intro m hm hsize
  rw [fetch_eq]
  obtain hnone | ⟨v, hv, hfits⟩ := hm.fetch_cases (show scope < m.scopes.size by omega) name
  · have hkind : (Fault.unknownName name).kind ∈ hardErrors := by simp [Fault.kind, hardErrors]
    rw [hnone]
    exact Safe.throw (P := Value.Fits name) (.inl hkind) m hm hsize
  · rw [hv]
    exact ⟨hm, Nat.le_refl _, hfits⟩

theorem safe_readVariable {scope : Nat} (hs : scope < size) (name : String) :
    Safe size short (fun v => v.isData) (readVariable scope name : Eval σ Value) := by
  refine .bind (safe_fetch hs name) fun v hv => ?_
  split
  · rename_i hliteral
    refine .pure ?_
    cases v with
    | literal l => rfl
    | derived l object =>
        obtain h | ⟨b, h, -⟩ := hv <;> cases h
    | _ => cases hliteral
  · obtain ⟨kind, hk⟩ := kind_of_isSome hv.isSome_kind?
    rw [hk]
    exact .throw (.inl (by simp [Fault.kind, hardErrors]))

theorem call_builtin (host : Host σ) (force : Int → Value → Eval σ Value) (name : String)
    (b : Builtin) (args : List Value) (site : Option Location) (m : Machine σ) :
    call host force name (.function (.builtin b)) args site m =
      match b.apply host.channel args { m with
        trace := m.trace.push (.call name (args.map Value.typeName))
        calls := ⟨name, args, site⟩ :: m.calls } with
      | .ok v last => ofExcept v.normalize { last with calls := last.calls.tail }
      | .error fault last => .error fault last := by
  show EStateM.bind (b.apply host.channel args) (fun v => do leave; ofExcept v.normalize) _ = _
  rw [EStateM.bind]
  cases b.apply host.channel args { m with
    trace := m.trace.push (.call name (args.map Value.typeName))
    calls := ⟨name, args, site⟩ :: m.calls } <;> rfl

theorem safe_call {host : Host σ} (hhost : host.OnlyDeclines)
    (force : Int → Value → Eval σ Value) {name : String} {callee : Value} (hc : callee.Fits name)
    {args : List Value} (hargs : Value.areData args) (site : Option Location) :
    Safe size short (fun v => v.isData) (call host force name callee args site) := by
  obtain hdata | ⟨b, rfl, rfl⟩ := hc
  · obtain ⟨kind, hk⟩ := kind_of_isSome (Value.isSome_kind?_of_isData hdata)
    have hcall : call host force name callee args site =
        (do throw (.notCallable name (← ofExcept callee.kind)) : Eval σ Value) := by
      cases callee <;> first | rfl | cases hdata
    rw [hcall, hk]
    exact .throw (.inl (by simp [Fault.kind, hardErrors]))
  · intro m hm hsize
    rw [call_builtin]
    obtain ⟨l, last, hl, hscopes, hcalls⟩ | ⟨fault, last, hf, hcause, hcalls, hname⟩ :=
      b.apply_ends host hargs { m with
        trace := m.trace.push (.call b.name (args.map Value.typeName))
        calls := ⟨b.name, args, site⟩ :: m.calls }
    · have hleft : last.calls.tail = m.calls := by rw [hcalls, List.tail_cons]
      rw [hl]
      refine ⟨hm.of_kept hscopes hleft, ?_, rfl⟩
      show m.scopes.size ≤ last.scopes.size
      rw [hscopes]
    · rw [hf]
      refine ⟨.inl (hcause.kind_mem_hardErrors hhost), ?_⟩
      rw [hcalls, hm.idle]
      exact List.forall_mem_singleton.2 ⟨hname, hargs⟩

end

section
variable {σ : Type} {host : Host σ}

theorem safe_sequence {depth scope : Nat} (nodes : List Node)
    (h : ∀ n ∈ nodes, Safe (scope + 1) (depth < n.height) (fun v => Value.areData v.toList)
      (node host depth n scope)) :
    Safe (scope + 1) (depth < Node.heightAll nodes) (fun vs => Value.areData vs)
      (sequence (node host depth) scope nodes) := by
  induction nodes with
  | nil => exact .pure rfl
  | cons n nodes ih =>
      obtain ⟨hn, hnodes⟩ := List.forall_mem_cons.1 h
      refine .bind (hn.mono ?_) fun v hv =>
        .bind ((ih hnodes).mono ?_) fun vs hvs =>
          .pure (Value.areData_append hv hvs)
      · exact fun hlt => Nat.lt_of_lt_of_le hlt (Nat.le_max_left _ _)
      · exact fun hlt => Nat.lt_of_lt_of_le hlt (Nat.le_max_right _ _)

/-- Without functions of the host, what an evaluation forces is nothing, so the height of the tree
bounds its nesting. -/
theorem safe_node (hhost : host.OnlyDeclines) (depth : Nat) (n : Node) (scope : Nat) :
    Safe (scope + 1) (depth < n.height) (fun v => Value.areData v.toList)
      (node host depth n scope) := by
  induction depth generalizing n scope with
  | zero => exact .throw (.inr ⟨rfl, n.height_pos⟩)
  | succ depth ih =>
      have hall : ∀ (scope : Nat) (nodes : List Node),
          Safe (scope + 1) (depth + 1 < Node.heightAll nodes + 1) (fun vs => Value.areData vs)
            (sequence (node host depth) scope nodes) := fun scope nodes =>
        (safe_sequence nodes fun n _ => ih n scope).mono Nat.succ_lt_succ
      cases n with
      | assign name value =>
          exact .bind ((ih value scope).mono Nat.succ_lt_succ) fun v hv =>
            .bind (.of_kept fun _ => ⟨_, rfl, rfl, rfl⟩) fun _ _ =>
            .bind (safe_assign (Nat.lt_succ_self scope) name (Value.isData_collapse hv)) fun _ _ =>
            .pure rfl
      | block children =>
          exact .bind (safe_visit _ _) fun _ _ => .inNew (Nat.lt_succ_self scope) fun child =>
            .bind (hall child children) fun vs hvs =>
            .pure (Value.areData_singleton.2 (Value.isData_collapse hvs))
      | list children =>
          exact .bind (safe_visit _ _) fun _ _ => .bind (hall scope children) fun vs hvs =>
            .pure (Value.areData_singleton.2 (Value.isData_collapse hvs))
      | literal value => exact .bind (safe_visit _ _) fun _ _ => .pure rfl
      | var name location =>
          exact .bind (safe_visit _ _) fun _ _ =>
            .bind (safe_readVariable (Nat.lt_succ_self scope) name) fun v hv =>
            .pure (Value.areData_singleton.2 hv)
      | call name args site =>
          exact .bind (safe_visit _ _) fun _ _ => .bind (hall scope args) fun vs hvs =>
            .bind (safe_fetch (Nat.lt_succ_self scope) name) fun callee hcallee =>
            .bind (.of_kept fun _ => ⟨_, rfl, rfl, rfl⟩) fun _ _ =>
            .bind (safe_call hhost _ hcallee
              (Value.areData_arguments (Value.isData_collapse hvs)) site) fun v hv =>
            .pure (Value.areData_singleton.2 hv)
      | lambda body => exact .bind (safe_visit _ _) fun _ _ => .pure rfl

theorem safe_value (hhost : host.OnlyDeclines) (depth : Nat) (n : Node) :
    Safe 1 (depth < n.height) (fun v => v.isData) (value host depth n 0) :=
  .bind (safe_node hhost depth n 0) fun _ hv => .pure (Value.isData_collapse hv)

end

end Eval

theorem tokenize_error_kind {source : String} {e : SourceError} (h : tokenize source = .error e) :
    e.kind = "LexError" := by
  simp only [tokenize] at h
  split at h
  · cases h
    rfl
  · cases h

theorem Node.heightAll_append (ns more : List Node) :
    heightAll (ns ++ more) = max (heightAll ns) (heightAll more) := by
  induction ns with
  | nil => simp [heightAll]
  | cons n ns ih => rw [List.cons_append, heightAll, heightAll, ih, Nat.max_assoc]

namespace Parser

def Phrase.height : Phrase → Nat
  | operand node => node.height
  | sequence nodes => Node.heightAll nodes

theorem Derives.height_le {tokens rest : List Token} {phrase : Phrase}
    (h : Derives tokens phrase rest) : phrase.height ≤ tokens.length := by
  induction h <;>
    simp_all only [Phrase.height, Node.height, Node.heightAll, Node.heightAll_append,
      List.length_cons, List.length_append, List.length_nil] <;> omega

theorem height_le_of_parseTokens {limit : Nat} {tokens : List Token} {tree : Node}
    (h : parseTokens limit tokens = .ok tree) : tree.height ≤ tokens.length :=
  (run_eq_complete_iff.1 (run_of_parseTokens h)).height_le

end Parser

theorem Eval.call_operator (host : Host σ) (force : Int → Value → Eval σ Value) (name : String)
    (o : Operator) (args : List Value) (h : ∀ v ∈ args, v.kind?.isSome) (site : Option Location)
    (m : Machine σ) : ∃ l : Literal,
      call host force name (.function (.builtin (.operator o))) args site m = .ok (.literal l)
        { m with trace := m.trace.push (.call name (args.map Value.typeName)) } := by
  obtain ⟨v, hv⟩ := o.apply_ok args h
  obtain ⟨l, rfl⟩ := Operator.literal_of_apply hv
  refine ⟨l, ?_⟩
  rw [call_builtin, Builtin.apply, hv]
  rfl

theorem Report.cause_ofSourceError (source : String) (e : SourceError) :
    (ofSourceError source e).cause = .source e := by
  unfold ofSourceError
  split <;> rfl

/-- The run ended in data, or with a report on a hard error while only proper calls went on. It
nests too deeply only when the limit is too short. -/
structure Outcome.Proper (short : Prop) (outcome : Outcome σ) : Prop where
  data : ∀ v, outcome.result = .ok v → v.isData
  hard : ∀ stop, outcome.result = .error stop → ∃ report, stop = .report report ∧
    (report.cause.kind ∈ hardErrors ∨ report.cause.kind = "RecursionError" ∧ short)
  calls : ∀ a ∈ outcome.machine.calls, a.Proper

theorem Outcome.Proper.mono {short short' : Prop} {outcome : Outcome σ} (h : outcome.Proper short)
    (hshort : short → short') : outcome.Proper short' where
  data := h.data
  hard stop hstop := by
    obtain ⟨report, hreport, hkind⟩ := h.hard stop hstop
    exact ⟨report, hreport, hkind.imp_right (And.imp_right hshort)⟩
  calls := h.calls

theorem Outcome.proper_failed {short : Prop} {m : Machine σ} {report : Report}
    (hkind : report.cause.kind ∈ hardErrors ∨ report.cause.kind = "RecursionError" ∧ short)
    (hcalls : ∀ a ∈ m.calls, a.Proper) : (Outcome.failed m report).Proper short where
  data v hv := by cases hv
  hard stop hstop := by
    cases hstop
    exact ⟨report, rfl, hkind⟩
  calls := hcalls

theorem proper_runTree {host : Host σ} (hhost : host.OnlyDeclines) (source : String) (limit : Nat)
    (tree : Node) {m : Machine σ} (hm : m.Sound) :
    (runTree host source limit tree m).Proper (limit < tree.height) := by
  have hsafe := Eval.safe_value hhost limit tree m hm hm.rooted.size_pos
  obtain ⟨v, last, hv, hrun⟩ | ⟨fault, last, hlast, hrun⟩ := runTree_cases host source limit tree m
  · rw [hv] at hsafe
    obtain ⟨hlast, -, hdata⟩ := hsafe
    rw [hrun]
    refine ⟨fun w hw => ?_, fun stop hstop => ?_, ?_⟩
    · cases hw
      exact hdata
    · cases hstop
    · rw [hlast.idle]
      exact List.forall_mem_nil _
  · rw [hlast] at hsafe
    obtain ⟨hkind, hcalls⟩ := hsafe
    obtain ⟨report, hreport, hrun⟩ | ⟨escaped, hescaped, -⟩ := hrun
    · rw [hrun]
      refine Outcome.proper_failed ?_ hcalls
      rw [(Report.of_ofFault hreport).1]
      refine hkind.imp_right ?_
      rintro ⟨rfl, hshort⟩
      exact ⟨rfl, hshort⟩
    · have hwords : fault.hasWords := by
        obtain hhard | ⟨rfl, -⟩ := hkind
        · exact Fault.hasWords_of_kind hhard
        · rfl
      refine absurd hescaped (Report.not_replaced hwords fun a ha v hv => ?_)
      exact Value.exists_report (Value.areData_iff.1 (hcalls a ha).2 v hv) _

theorem proper_run {host : Host σ} (hfunctions : host.functions = []) (hhost : host.OnlyDeclines)
    (source : String) (state : σ) (limit : Nat) : (run host [] source state limit).Proper
      (∃ layout, tokenize source = .ok layout ∧ limit < layout.tokens.size) := by
  rw [run, rootBindings_of_no_functions hfunctions]
  cases hlayout : tokenize source with
  | error e =>
      refine Outcome.proper_failed (.inl ?_) (by simp)
      rw [Report.cause_ofSourceError, Failure.kind, tokenize_error_kind hlayout]
      simp [hardErrors]
  | ok layout =>
      dsimp only
      cases htree : parseTokens limit layout.tokens.toList with
      | error e =>
          refine Outcome.proper_failed ?_ (by simp)
          rw [Report.cause_ofSourceError, Failure.kind]
          obtain hkind | ⟨rfl, hlt⟩ := Parser.parseTokens_error_kind htree
          · rw [hkind]
            exact .inl (by simp [hardErrors])
          · exact .inr ⟨rfl, layout, rfl, hlt⟩
      | ok tree =>
          have hstart := Machine.sound_start (layout.diagnostics.map Diagnostic.effect) state
          exact (proper_runTree hhost source limit tree hstart).mono fun hlt =>
            ⟨layout, rfl, Nat.lt_of_lt_of_le hlt (Parser.height_le_of_parseTokens htree)⟩

/-- With a host that offers no functions, and a channel that at most refuses, a run ends in data or
in a hard error, unless its source has more tokens than it may nest. No operator is among the calls
in which it ends: whatever the number and kinds of its arguments, the call of an operator has a
literal as its value. -/
theorem run_ends_in_data_or_hard_error {σ : Type} (host : Host σ) (hfunctions : host.functions = [])
    (hinput : host.OnlyDeclines) (source : String) (state : σ) (limit : Nat) :
    (∀ v, (run host [] source state limit).result = .ok v → v.isData) ∧
    (∀ stop, (run host [] source state limit).result = .error stop →
      ∃ report, stop = .report report ∧
        (report.cause.kind ∈ hardErrors ∨ report.cause.kind = "RecursionError" ∧
          ∃ layout, tokenize source = .ok layout ∧ limit < layout.tokens.size)) ∧
    (∀ a ∈ (run host [] source state limit).machine.calls, ∀ o : Operator, a.name ≠ o.name) ∧
    ∀ (o : Operator) (args : List Value), (∀ v ∈ args, v.kind?.isSome) →
      ∀ (force : Int → Value → Eval σ Value) name site (m : Machine σ), ∃ l : Literal,
        Eval.call host force name (.function (.builtin (.operator o))) args site m =
          .ok (.literal l)
            { m with trace := m.trace.push (.call name (args.map Value.typeName)) } := by
  have hproper := proper_run hfunctions hinput source state limit
  exact ⟨hproper.data, hproper.hard, fun a ha => (hproper.calls a ha).1,
    fun o args h force name site m => Eval.call_operator host force name o args h site m⟩

theorem Host.onlyDeclines_silent : (Host.silent : Host σ).OnlyDeclines := by
  intro channel hchannel
  cases hchannel
  refine ⟨fun text state fault hfault => ?_, fun prompt state fault hfault => ?_⟩
  · cases hfault
  · cases hfault
    rfl

/-- An operator that is given a text where it takes booleans, and input that is refused. -/
theorem run_ends_in_data_or_hard_error_sample :
    let host : Host Unit := Host.silent
    let source := "INPUT(NOT(\"a\"))"
    let args : List Value := [.text "a", .list [.lambda (.block [])]]
    host.functions = [] ∧ host.OnlyDeclines ∧
    (∃ report, (run host [] source () 99).result = .error (.report report) ∧
      (report.cause.kind ∈ hardErrors ∨ report.cause.kind = "RecursionError" ∧
        ∃ layout, tokenize source = .ok layout ∧ 99 < layout.tokens.size)) ∧
    (run host [] source () 99).machine.calls.map Activation.name = ["INPUT"] ∧
    ∀ m : Machine Unit, ∃ (l : Literal) (last : Machine Unit),
      Eval.call host (Eval.force host 9) "NOT" (.function (.builtin (.operator .not))) args none m =
        .ok (.literal l) last := by
  intro host source args
  obtain ⟨-, hhard, -, hoperator⟩ := run_ends_in_data_or_hard_error host rfl
    Host.onlyDeclines_silent source () 99
  have hfails : (run host [] source () 99).result.isOk = false := by decide +kernel
  refine ⟨rfl, Host.onlyDeclines_silent, ?_, by decide +kernel, fun m => ?_⟩
  · cases hresult : (run host [] source () 99).result with
    | error stop =>
        obtain ⟨report, rfl, hkind⟩ := hhard stop hresult
        exact ⟨report, rfl, hkind⟩
    | ok v =>
        rw [hresult] at hfails
        cases hfails
  · obtain ⟨l, hl⟩ := hoperator .not args (by simp [args, Value.kind?]) (Eval.force host 9) "NOT"
      none m
    exact ⟨l, _, hl⟩

end Pseudocode
