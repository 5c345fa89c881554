import Pseudocode.Proofs.Reports
import Pseudocode.Proofs.Scanning
import Pseudocode.Proofs.Shadowing
import Pseudocode.Run

/-!
# The log of a run

A run reports the ignored characters, then the texts that it displays, and at the end a
fault, if there is one and it can be reported. A host receives the displayed texts and no
others.

What a host receives is made visible by a host that writes a log. It does in all else
what the host does that it is made from, and so a run cannot tell the two apart. The two
runs are followed side by side, one lemma for each thing that an evaluation does.
-/
namespace Pseudocode

/-- The same channel, with a log of the texts displayed. -/
def Channel.logged (channel : Channel σ) : Channel (σ × List String) where
  display text state :=
    let result := channel.display text state.1
    (result.1, (result.2, state.2 ++ [text]))
  input prompt state :=
    let answer := channel.input prompt state.1
    (answer.1, (answer.2, state.2))

def Reply.logged (log : List String) : Reply σ → Reply (σ × List String)
  | answer value state => .answer value (state, log)
  | fail fault state => .fail fault (state, log)
  | force value state resume scope =>
      .force value (state, log) (fun result state => (resume result state.1).logged state.2) scope

def Host.logged (host : Host σ) : Host (σ × List String) where
  channel := host.channel.map Channel.logged
  functions := host.functions
  call name args state := (host.call name args state.1).logged state.2
  functionText := host.functionText

/-- What a host receives of displayed texts. -/
def Host.received (host : Host σ) (shown : List String) : List String :=
  if host.channel.isSome then shown else []

@[simp] theorem Host.received_nil (host : Host σ) : host.received [] = [] := ite_self _

theorem Host.received_append (host : Host σ) (shown more : List String) :
    host.received (shown ++ more) = host.received shown ++ host.received more := by
  unfold received
  split <;> rfl

theorem Host.displayOn_logged (host : Host σ) (text : String) (state : σ) (log : List String) :
    Channel.displayOn host.logged.channel text (state, log) =
      let result := Channel.displayOn host.channel text state
      (result.1, (result.2, log ++ host.received [text])) := by
  cases hc : host.channel <;>
    simp [Host.logged, Host.received, hc, Channel.displayOn, Channel.logged]

def Machine.logged (m : Machine σ) (log : List String) : Machine (σ × List String) where
  scopes := m.scopes
  effects := m.effects
  calls := m.calls
  focus := m.focus
  trace := m.trace
  host := (m.host, log)

namespace Eval

def logged (log : List String) :
    EStateM.Result Fault (Machine σ) α → EStateM.Result Fault (Machine (σ × List String)) α
  | .ok a m => .ok a (m.logged log)
  | .error fault m => .error fault (m.logged log)

/-- From every state the first computation reports displayed texts and nothing else. The second
one ends alike, with what the host received behind the log. -/
def Logs (host : Host σ) (log : List String) (c : Eval σ α) (d : Eval (σ × List String) α) :
    Prop :=
  ∀ m : Machine σ, ∃ shown : List String,
    (c.final m).effects.toList = m.effects.toList ++ shown.map (Effect.mk .stdout) ∧
      d (m.logged log) = logged (log ++ host.received shown) (c m)

section
variable {σ α β : Type} {host : Host σ} {log : List String}

/-- Nothing is displayed. -/
theorem Logs.quiet {c : Eval σ α} {d : Eval (σ × List String) α}
    (h : ∀ m, (c.final m).effects = m.effects ∧ d (m.logged log) = logged log (c m)) :
    Logs host log c d := by
  intro m
  obtain ⟨heffects, hlogged⟩ := h m
  refine ⟨[], by simp [heffects], ?_⟩
  rw [Host.received_nil, List.append_nil]
  exact hlogged

theorem Logs.bind {c : Eval σ α} {d : Eval (σ × List String) α} {f : α → Eval σ β}
    {g : α → Eval (σ × List String) β} (hc : Logs host log c d)
    (hf : ∀ a log, Logs host log (f a) (g a)) : Logs host log (c >>= f) (d >>= g) := by
  intro m
  obtain ⟨shown, heffects, hlogged⟩ := hc m
  cases hm : c m with
  | error fault last =>
      rw [hm] at hlogged
      rw [final, hm] at heffects
      refine ⟨shown, ?_, ?_⟩
      · rw [final, bind_of_error hm]
        exact heffects
      · rw [bind_of_error hm, bind_of_error hlogged]
        rfl
  | ok a middle =>
      rw [hm] at hlogged
      rw [final, hm] at heffects
      obtain ⟨more, heffects', hlogged'⟩ := hf a (log ++ host.received shown) middle
      refine ⟨shown ++ more, ?_, ?_⟩
      · rw [final, bind_of_ok hm, ← final, heffects', heffects, List.append_assoc, List.map_append]
      · rw [bind_of_ok hm, bind_of_ok hlogged, hlogged', Host.received_append, List.append_assoc]

theorem Logs.attempt {c : Eval σ α} {d : Eval (σ × List String) α} (h : Logs host log c d) :
    Logs host log (attempt c) (attempt d) := by
  intro m
  obtain ⟨shown, heffects, hlogged⟩ := h m
  refine ⟨shown, by rw [final_attempt, heffects], ?_⟩
  cases hm : c m with
  | ok a last =>
      rw [hm] at hlogged
      rw [attempt_of_ok hm, attempt_of_ok hlogged]
      rfl
  | error fault last =>
      rw [hm] at hlogged
      rw [attempt_of_error hm, attempt_of_error hlogged]
      rfl

theorem logs_pure (a : α) : Logs host log (pure a) (pure a) := .quiet fun _ => ⟨rfl, rfl⟩

theorem logs_throw (fault : Fault) : Logs host log (throw fault : Eval σ α) (throw fault) :=
  .quiet fun _ => ⟨rfl, rfl⟩

theorem logs_ofExcept (e : Except Fault α) : Logs host log (ofExcept e) (ofExcept e) := by
  cases e with
  | ok a => exact logs_pure a
  | error fault => exact logs_throw fault

theorem logs_visit (n : Node) (scope : Int) : Logs host log (visit n scope) (visit n scope) :=
  .quiet fun _ => ⟨rfl, rfl⟩

theorem logs_openScope (parent : Int) : Logs host log (openScope parent) (openScope parent) := by
  refine .quiet fun m => ?_
  by_cases hp : 0 ≤ parent ∧ parent < m.scopes.size
  · have hlogged := openScope_of_valid (m := m.logged log) hp
    rw [final, openScope_of_valid hp, hlogged]
    exact ⟨rfl, rfl⟩
  · have hlogged := openScope_of_invalid (m := m.logged log) hp
    rw [final, openScope_of_invalid hp, hlogged]
    exact ⟨rfl, rfl⟩

theorem logs_fetch (scope : Int) (name : String) :
    Logs host log (fetch scope name) (fetch scope name) :=
  fun m => logs_ofExcept (m.scopes.fetch scope name) m

theorem logs_assign (scope : Int) (name : String) (value : Value) :
    Logs host log (assign scope name value) (assign scope name value) := by
  refine .quiet fun m => ?_
  rw [final, assign_eq, assign_eq, Machine.logged]
  cases m.scopes.assign scope name value <;> exact ⟨rfl, rfl⟩

theorem logs_readVariable (scope : Int) (name : String) :
    Logs host log (readVariable scope name) (readVariable scope name) := by
  refine (logs_fetch scope name).bind fun value _ => ?_
  split
  · exact logs_pure value
  · exact (logs_ofExcept _).bind fun _ _ => logs_throw _

/-- A display is reported, and received if there is a channel. -/
theorem logs_display (args : List Value) :
    Logs host log (Builtin.applyDisplay host.channel args)
      (Builtin.applyDisplay host.logged.channel args) := by
  intro m
  rw [final, Builtin.applyDisplay_eq, Builtin.applyDisplay_eq]
  cases args.mapM Value.displayText with
  | error fault => exact ⟨[], by simp, by simp [logged]⟩
  | ok texts =>
      refine ⟨[String.intercalate " " texts], ?_⟩
      simp only [Machine.logged, Host.displayOn_logged]
      generalize Channel.displayOn host.channel (String.intercalate " " texts) m.host = result
      obtain ⟨_ | _, state⟩ := result <;> exact ⟨Array.toList_push, rfl⟩

theorem logs_input (args : List Value) :
    Logs host log (Builtin.applyInput host.channel args)
      (Builtin.applyInput host.logged.channel args) := by
  refine .quiet fun m => ?_
  rw [final, Builtin.applyInput_eq, Builtin.applyInput_eq]
  cases Builtin.prompt args with
  | error fault => exact ⟨rfl, rfl⟩
  | ok prompt =>
      cases hc : host.channel with
      | none => simp [Host.logged, hc, logged]
      | some channel =>
          cases hi : channel.input prompt m.host with
          | mk answer state =>
              cases answer <;> simp [Host.logged, hc, hi, logged, Machine.logged, Channel.logged]

theorem logs_builtin (b : Builtin) (args : List Value) :
    Logs host log (b.apply host.channel args) (b.apply host.logged.channel args) := by
  cases b with
  | operator o => exact logs_ofExcept _
  | display => exact logs_display args
  | input => exact logs_input args

/-- Two ways of forcing values that go side by side. -/
def ForceLogs (host : Host σ) (force : Int → Value → Eval σ Value)
    (force' : Int → Value → Eval (σ × List String) Value) : Prop :=
  ∀ scope v log, Logs host log (force scope v) (force' scope v)

section
variable {force : Int → Value → Eval σ Value} {force' : Int → Value → Eval (σ × List String) Value}
  (hforce : ForceLogs host force force')

include hforce

/-- What a host function does to the state leaves the log as it stands when it is its turn. -/
theorem logs_reply (reply : Reply σ) :
    Logs host log (reply.run force) ((reply.logged log).run force') := by
  induction reply generalizing log with
  | answer value state => exact .quiet fun _ => ⟨rfl, rfl⟩
  | fail fault state => exact .quiet fun _ => ⟨rfl, rfl⟩
  | force value state resume scope ih =>
      have hstate : Logs host log (setHost state) (setHost (state, log)) :=
        .quiet fun _ => ⟨rfl, rfl⟩
      exact hstate.bind fun _ log => (hforce scope value log).attempt.bind fun result log m =>
        ih result m.host m

theorem logs_call (name : String) (callee : Value) (args : List Value) (site : Option Location) :
    Logs host log (call host force name callee args site)
      (call host.logged force' name callee args site) := by
  cases callee with
  | function f =>
      have happly (log : List String) :
          Logs host log (apply host force ⟨name, args, site⟩ f)
            (apply host.logged force' ⟨name, args, site⟩ f) := by
        cases f with
        | builtin b => exact logs_builtin b args
        | host name => exact fun m => logs_reply hforce (host.call name args m.host) m
      have hbegin : Logs host log (note (.call name (args.map Value.typeName)))
          (note (.call name (args.map Value.typeName))) := .quiet fun _ => ⟨rfl, rfl⟩
      have henter (log : List String) : Logs host log (enter ⟨name, args, site⟩)
          (enter ⟨name, args, site⟩) := .quiet fun _ => ⟨rfl, rfl⟩
      have hleave (log : List String) : Logs host log leave leave := .quiet fun _ => ⟨rfl, rfl⟩
      exact hbegin.bind fun _ log => (henter log).bind fun _ log => (happly log).bind fun _ log =>
        (hleave log).bind fun _ _ => logs_ofExcept _
  | _ => exact (logs_ofExcept _).bind fun _ _ => logs_throw _

end

theorem logs_sequence {evaluate : Node → Int → Eval σ (Option Value)}
    {evaluate' : Node → Int → Eval (σ × List String) (Option Value)}
    (heval : ∀ n scope log, Logs host log (evaluate n scope) (evaluate' n scope)) (scope : Int)
    (nodes : List Node) :
    Logs host log (sequence evaluate scope nodes) (sequence evaluate' scope nodes) := by
  induction nodes generalizing log with
  | nil => exact logs_pure []
  | cons n nodes ih =>
      exact (heval n scope log).bind fun _ _ => ih.bind fun _ _ => logs_pure _

theorem forceLogs_forceWith {evaluate : Node → Int → Eval σ (Option Value)}
    {evaluate' : Node → Int → Eval (σ × List String) (Option Value)}
    (heval : ∀ n scope log, Logs host log (evaluate n scope) (evaluate' n scope)) :
    ForceLogs host (forceWith evaluate) (forceWith evaluate') := by
  intro scope v log
  cases v with
  | lambda body =>
      exact (logs_openScope scope).bind fun child _ => (heval body child _).bind fun _ _ =>
        logs_pure _
  | _ => exact logs_pure _

/-- The run with a log goes side by side with the run. -/
theorem logs_node (depth : Nat) (n : Node) (scope : Int) :
    Logs host log (node host depth n scope) (node host.logged depth n scope) := by
  induction depth generalizing n scope log with
  | zero => exact logs_throw .tooDeep
  | succ depth ih =>
      have hsequence (log : List String) (scope : Int) (nodes : List Node) :
          Logs host log (sequence (node host depth) scope nodes)
            (sequence (node host.logged depth) scope nodes) :=
        logs_sequence (fun n scope log => ih n scope) scope nodes
      cases n with
      | assign name value =>
          exact (ih value scope).bind fun v _ => .bind (.quiet fun _ => ⟨rfl, rfl⟩) fun _ _ =>
            (logs_assign scope name _).bind fun _ _ => logs_pure none
      | block children =>
          exact (logs_visit _ scope).bind fun _ _ => (logs_openScope scope).bind fun child log =>
            (hsequence log child children).bind fun _ _ => logs_pure _
      | list children =>
          exact (logs_visit _ scope).bind fun _ log =>
            (hsequence log scope children).bind fun _ _ => logs_pure _
      | literal value => exact (logs_visit _ scope).bind fun _ _ => logs_pure _
      | var name site =>
          exact (logs_visit _ scope).bind fun _ _ => (logs_readVariable scope name).bind fun _ _ =>
            logs_pure _
      | call name args site =>
          refine (logs_visit _ scope).bind fun _ log =>
            (hsequence log scope args).bind fun values _ => ?_
          refine (logs_fetch scope name).bind fun callee _ => ?_
          refine Logs.bind (.quiet fun _ => ⟨rfl, rfl⟩) fun _ _ => ?_
          have hforce := forceLogs_forceWith fun n scope log => ih n scope
          exact (logs_call hforce name callee _ site).bind fun _ _ => logs_pure _
      | lambda body => exact (logs_visit _ scope).bind fun _ _ => logs_pure _

theorem logs_value (depth : Nat) (n : Node) (scope : Int) :
    Logs host log (value host depth n scope) (value host.logged depth n scope) :=
  (logs_node depth n scope).bind fun _ _ => logs_pure _

end

end Eval

def skipped (source : String) : List Diagnostic :=
  (Lexeme.place .start (Lexeme.all source.toList)).filterMap Lexeme.diagnostic?

/-- What is reported about the ignored characters of a text that has tokens. -/
def skippedEffects (source : String) : List Effect :=
  match tokenize source with
  | .ok _ => (skipped source).map Diagnostic.effect
  | .error _ => []

theorem map_effect_diagnostics {source : String} {layout : Layout}
    (h : tokenize source = .ok layout) :
    layout.diagnostics.map Diagnostic.effect = (skippedEffects source).toArray := by
  have htells := Layout.tells_ofSource source.toList
  rw [← eq_ofSource_of_tokenize h] at htells
  apply Array.toList_inj.1
  rw [Array.toList_map, htells.noted, skippedEffects, h, skipped]

/-- The state in which a run has its tokens. -/
def Machine.prepared (host : Host σ) (given : Bindings) (source : String) (state : σ) :
    Machine σ where
  scopes := #[{ bindings := rootBindings host given }]
  effects := (skippedEffects source).toArray
  host := state

/-- A run evaluates the tree of its text after reporting ignored characters, and fails when there
is no tree. -/
theorem run_eq (host : Host σ) (given : Bindings) (source : String) (state : σ) (limit : Nat) :
    run host given source state limit =
      match parse source limit with
      | .ok tree => runTree host source limit tree (.prepared host given source state)
      | .error e => .failed (.prepared host given source state) (.ofSourceError source e) := by
  cases ht : tokenize source with
  | error e =>
      have hparse : parse source limit = .error e := by
        rw [parse, ht]
        rfl
      simp only [run, ht, hparse, Machine.prepared, skippedEffects]
  | ok layout =>
      rw [parse_of_tokenize ht]
      simp only [run, ht, map_effect_diagnostics ht]
      cases parseTokens limit layout.tokens.toList <;> rfl

/-- The evaluation of a tree has a value, or ends in a fault with a report on it, or in one that
cannot be reported. -/
theorem runTree_cases (host : Host σ) (source : String) (limit : Nat) (tree : Node)
    (m : Machine σ) :
    (∃ v last, Eval.value host limit tree 0 m = .ok v last ∧
      runTree host source limit tree m = ⟨.ok v, last⟩) ∨
    ∃ fault last, Eval.value host limit tree 0 m = .error fault last ∧
      ((∃ report, Report.ofFault host.functionText source last fault = .ok report ∧
        runTree host source limit tree m = .failed last report) ∨
      ∃ escaped, Report.Replaced host.functionText last.calls fault escaped ∧
        runTree host source limit tree m = ⟨.error (.escape escaped), last⟩) := by
  unfold runTree
  cases Eval.value host limit tree 0 m with
  | ok v last => exact .inl ⟨v, last, rfl, rfl⟩
  | error fault last =>
      refine .inr ⟨fault, last, rfl, ?_⟩
      cases hmade : Report.ofFault host.functionText source last fault with
      | ok report => exact .inl ⟨report, rfl, by simp only [hmade]⟩
      | error escaped =>
          exact .inr ⟨escaped, Report.ofFault_eq_error_iff.1 hmade, by simp only [hmade]⟩

/-- A run has a report when its text has no tree, or when the evaluation of the tree ends in a
fault that can be reported. -/
theorem run_report_cases {host : Host σ} {given : Bindings} {source : String} {state : σ}
    {limit : Nat} {report : Report}
    (h : (run host given source state limit).result = .error (.report report)) :
    (∃ e, parse source limit = .error e ∧ report = .ofSourceError source e) ∨
    ∃ tree fault last, parse source limit = .ok tree ∧
      Eval.value host limit tree 0 (.prepared host given source state) = .error fault last ∧
      Report.ofFault host.functionText source last fault = .ok report ∧
      run host given source state limit = .failed last report := by
  rw [run_eq] at h ⊢
  cases hparse : parse source limit with
  | error e =>
      rw [hparse] at h
      cases h
      exact .inl ⟨e, rfl, rfl⟩
  | ok tree =>
      rw [hparse] at h
      dsimp only at h ⊢
      obtain ⟨v, last, -, hrun⟩ | ⟨fault, last, hlast, ⟨made, hmade, hrun⟩ | ⟨_, -, hrun⟩⟩ :=
        runTree_cases host source limit tree (.prepared host given source state)
      all_goals
        rw [hrun] at h
        cases h
      exact .inr ⟨tree, fault, last, rfl, hlast, hmade, hrun⟩

theorem tells_of_run {host : Host σ} {given : Bindings} {source : String} {state : σ} {limit : Nat}
    {report : Report} (h : (run host given source state limit).result = .error (.report report)) :
    report.Tells := by
  obtain ⟨e, -, rfl⟩ | ⟨tree, fault, last, -, -, hreport, -⟩ := run_report_cases h
  · exact Report.tells_ofSourceError source e
  · exact Report.tells_ofFault hreport

/-- A fault comes out of a run when the evaluation of its tree ends in a fault that cannot be
reported. -/
theorem run_escape_iff {host : Host σ} {given : Bindings} {source : String} {state : σ}
    {limit : Nat} {escaped : Fault} :
    (run host given source state limit).result = .error (.escape escaped) ↔
      ∃ tree fault last, parse source limit = .ok tree ∧
        Eval.value host limit tree 0 (.prepared host given source state) = .error fault last ∧
        Report.Replaced host.functionText last.calls fault escaped := by
  rw [run_eq]
  constructor
  · intro h
    cases hparse : parse source limit with
    | error e =>
        rw [hparse] at h
        cases h
    | ok tree =>
        rw [hparse] at h
        dsimp only at h
        obtain ⟨v, last, -, hrun⟩ | ⟨fault, last, hlast, ⟨_, -, hrun⟩ | ⟨_, hreplaced, hrun⟩⟩ :=
          runTree_cases host source limit tree (.prepared host given source state)
        all_goals
          rw [hrun] at h
          cases h
        exact ⟨tree, fault, last, rfl, hlast, hreplaced⟩
  · rintro ⟨tree, fault, last, hparse, hlast, hreplaced⟩
    have hmade : Report.ofFault host.functionText source last fault = .error escaped :=
      Report.ofFault_eq_error_iff.2 hreplaced
    simp only [hparse, runTree, hlast, hmade]

namespace Outcome

def report? (outcome : Outcome σ) : Option Report :=
  match outcome.result with
  | .error (.report report) => some report
  | _ => none

def escape? (outcome : Outcome σ) : Option Fault :=
  match outcome.result with
  | .error (.escape fault) => some fault
  | _ => none

theorem report?_eq_some_iff {outcome : Outcome σ} {report : Report} :
    outcome.report? = some report ↔ outcome.result = .error (.report report) := by
  unfold report?
  split <;> simp_all

/-- What is reported about the end of a run. -/
def complaint (outcome : Outcome σ) : List Effect :=
  (outcome.report?.map fun report => ⟨.stderr, report.message⟩).toList

def logged (outcome : Outcome σ) (log : List String) : Outcome (σ × List String) :=
  ⟨outcome.result, outcome.machine.logged log⟩

theorem effects_failed (m : Machine σ) (report : Report) :
    (failed m report).machine.effects.toList = m.effects.toList ++ (failed m report).complaint := by
  simp [failed, complaint, report?]

end Outcome

theorem runTree_log (host : Host σ) (source : String) (limit : Nat) (tree : Node) (m : Machine σ) :
    ∃ shown : List String,
      (runTree host source limit tree m).machine.effects.toList =
        m.effects.toList ++ shown.map (Effect.mk .stdout) ++
          (runTree host source limit tree m).complaint ∧
      runTree host.logged source limit tree (m.logged []) =
        (runTree host source limit tree m).logged (host.received shown) := by
  obtain ⟨shown, heffects, hlogged⟩ := (Eval.logs_value limit tree 0 : Eval.Logs host [] _ _) m
  refine ⟨shown, ?_⟩
  rw [Eval.final] at heffects
  unfold runTree
  rw [hlogged]
  cases hm : Eval.value host limit tree 0 m with
  | ok value last =>
      rw [hm] at heffects
      exact ⟨by simpa [Outcome.complaint, Outcome.report?] using heffects, rfl⟩
  | error fault last =>
      rw [hm] at heffects
      have hreport : Report.ofFault host.logged.functionText source
          (last.logged ([] ++ host.received shown)) fault =
            Report.ofFault host.functionText source last fault := rfl
      simp only [Eval.logged, hreport]
      cases Report.ofFault host.functionText source last fault with
      | ok report =>
          refine ⟨?_, rfl⟩
          rw [Outcome.effects_failed]
          rw [heffects]
      | error escaped => exact ⟨by simpa [Outcome.complaint, Outcome.report?] using heffects, rfl⟩

/-- A run reports the ignored characters, if the text has tokens, then what it displays, nothing
if the text has no tree, and at last its fault, if it has a report on one. Whatever the host does,
the texts that it receives are those displayed. A run has a value or a report unless the
evaluation ends in a fault that cannot be reported; then a fault comes out of it. -/
theorem run_reports (host : Host σ) (given : Bindings) (source : String) (state : σ)
    (limit : Nat) :
    (∃ shown : List String,
      (run host given source state limit).machine.effects.toList =
        skippedEffects source ++ shown.map (Effect.mk .stdout) ++
          (run host given source state limit).complaint ∧
      (shown = [] ∨ ∃ tree, parse source limit = .ok tree) ∧
      run host.logged given source (state, []) limit =
        (run host given source state limit).logged (host.received shown)) ∧
    ∀ escaped, (run host given source state limit).result = .error (.escape escaped) ↔
      ∃ tree fault last, parse source limit = .ok tree ∧
        Eval.value host limit tree 0 (.prepared host given source state) = .error fault last ∧
        Report.Replaced host.functionText last.calls fault escaped := by
  refine ⟨?_, fun _ => run_escape_iff⟩
  rw [run_eq, run_eq]
  cases hp : parse source limit with
  | error e =>
      refine ⟨[], ?_, .inl rfl, ?_⟩
      · rw [Outcome.effects_failed]
        simp [Machine.prepared]
      · rw [Host.received_nil]
        rfl
  | ok tree =>
      obtain ⟨shown, hshown, hlogged⟩ :=
        runTree_log host source limit tree (.prepared host given source state)
      exact ⟨shown, hshown, .inr ⟨tree, rfl⟩, hlogged⟩

/-- A host that answers with an object that has no text, breaks down without words, or calls the
run off. -/
def Host.awkward : Host Unit where
  channel := Option.none
  functions := ["odd", "mute", "quit"]
  call name _ state :=
    match name with
    | "odd" => .answer (.foreign ⟨"Odd", .error (.crashed "no text")⟩) state
    | "mute" => .fail (.wordless (.crashed "no words")) state
    | _ => .fail (.interrupt "SystemExit") state

/-- Nothing is reported about a run that fails with an argument without a text, without words, or
because it is called off. -/
theorem faults_come_out_of_runs :
    let outcome (source : String) : Outcome Unit := run Host.awkward [] source ()
    (outcome "DISPLAY(odd())").escape? = some (.crashed "no text") ∧
    (outcome "mute()").escape? = some (.crashed "no words") ∧
    (outcome "quit()").escape? = some (.interrupt "SystemExit") ∧
    (outcome "DISPLAY(odd())").machine.effects = #[] := by
  decide +kernel

end Pseudocode
