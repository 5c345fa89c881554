import Pseudocode.Proofs.Bodies
import Pseudocode.Proofs.Descent
import Pseudocode.Proofs.RunLog

/-!
# Runs side by side

Two runs may differ in the bodies of the lambdas that they hold and in the places that
they look at. As long as the bodies themselves are evaluated alike, and the hosts do alike
with what they are given, the two runs go on side by side: they end both or fail both, for
the same reason, and what they leave differs in those bodies alone.

The change of bodies is a function, and two trees are alike when it makes them equal. With
the identity the runs are of one tree, under two hosts.
-/
namespace Pseudocode

namespace Node

/-- Two trees of the same sort, with trees below them that the function makes equal. -/
inductive Matched (f : Node → Node) : Node → Node → Prop
  | block {as bs : List Node} : as.map f = bs.map f → Matched f (block as) (block bs)
  | list {as bs : List Node} : as.map f = bs.map f → Matched f (list as) (list bs)
  | literal (l : Literal) : Matched f (literal l) (literal l)
  | var (name : String) (p q : Option Location) : Matched f (var name p) (var name q)
  | assign (name : String) {a b : Node} : f a = f b → Matched f (assign name a) (assign name b)
  | call (name : String) {as bs : List Node} (p q : Option Location) :
      as.map f = bs.map f → Matched f (call name as p) (call name bs q)
  | lambda {a b : Node} : f a = f b → Matched f (lambda a) (lambda b)

/-- Trees that the function makes equal are matched, and so are those below them. -/
def KeepsSorts (f : Node → Node) : Prop := ∀ a b, f a = f b → Matched f a b

theorem keepsSorts_id : KeepsSorts id := by
  rintro a b rfl
  cases a with
  | block children => exact .block rfl
  | list children => exact .list rfl
  | literal l => exact .literal l
  | var name p => exact .var name p p
  | assign name value => exact .assign name rfl
  | call name args p => exact .call name p p rfl
  | lambda body => exact .lambda rfl

end Node

def Machine.shown (m : Machine σ) : List String :=
  (m.effects.toList.filter (·.topic = .stdout)).map Effect.message

theorem Machine.shown_push (m : Machine σ) (effect : Effect) :
    { m with effects := m.effects.push effect }.shown =
      m.shown ++ ([effect].filter (·.topic = .stdout)).map Effect.message := by
  rw [shown, shown, Array.toList_push, List.filter_append, List.map_append]

section
variable {σ τ : Type} (f : Node → Node) (S : σ → τ → Prop)

/-- Two states of runs that differ in the bodies of lambdas, in what is of no consequence, and in
the states of the hosts, which are related. -/
structure Machine.Alike (m : Machine σ) (m' : Machine τ) : Prop where
  scopes : m.scopes.map (Scope.mapBodies f) = m'.scopes.map (Scope.mapBodies f)
  shown : m.shown = m'.shown
  calls : m.calls.map (fun a => a.args.map (Value.mapBodies f)) =
    m'.calls.map fun a => a.args.map (Value.mapBodies f)
  host : S m.host m'.host

/-- From related states the hosts do the same, and leave related states. -/
def DoAlike (act : σ → α × σ) (act' : τ → α × τ) : Prop :=
  ∀ s t, S s t → (act s).1 = (act' t).1 ∧ S (act s).2 (act' t).2

/-- The channels show and supply the same. -/
structure Channel.Alike (channel : Channel σ) (channel' : Channel τ) : Prop where
  display : ∀ text, DoAlike S (channel.display text) (channel'.display text)
  input : ∀ prompt, DoAlike S (channel.input prompt) (channel'.input prompt)

/-- The replies have values forced alike, and end alike if what they are given is alike. -/
inductive Reply.Alike : Reply σ → Reply τ → Prop
  | answer {v w : Value} {s : σ} {t : τ} : v.mapBodies f = w.mapBodies f → S s t →
      Alike (.answer v s) (.answer w t)
  | fail (fault : Fault) {s : σ} {t : τ} : S s t → Alike (.fail fault s) (.fail fault t)
  | force {v w : Value} {s : σ} {t : τ} {resume : Except Fault Value → σ → Reply σ}
      {resume' : Except Fault Value → τ → Reply τ} (scope : Int) :
      v.mapBodies f = w.mapBodies f → S s t →
      (∀ a b s t, a.map (Value.mapBodies f) = b.map (Value.mapBodies f) → S s t →
        Alike (resume a s) (resume' b t)) →
      Alike (.force v s resume scope) (.force w t resume' scope)

/-- From related states, and with arguments that differ in the bodies of lambdas, the hosts do
alike. -/
structure Host.Alike (host : Host σ) (host' : Host τ) : Prop where
  functions : host.functions = host'.functions
  channel : Option.Rel (Channel.Alike S) host.channel host'.channel
  call : ∀ name args args' s t, args.map (Value.mapBodies f) = args'.map (Value.mapBodies f) →
    S s t → Reply.Alike f S (host.call name args s) (host'.call name args' t)
  functionText : host.functionText = host'.functionText

namespace Eval

/-- Both computations have ended with related results, or in the same fault. -/
inductive EndAlike (R : α → β → Prop) :
    EStateM.Result Fault (Machine σ) α → EStateM.Result Fault (Machine τ) β → Prop
  | ok {a : α} {b : β} {m : Machine σ} {m' : Machine τ} : R a b → m.Alike f S m' →
      EndAlike R (.ok a m) (.ok b m')
  | error (fault : Fault) {m : Machine σ} {m' : Machine τ} : m.Alike f S m' →
      EndAlike R (.error fault m) (.error fault m')

/-- From states that are alike, both computations end alike. -/
def Parallel (R : α → β → Prop) (c : Eval σ α) (d : Eval τ β) : Prop :=
  ∀ m m', m.Alike f S m' → EndAlike f S R (c m) (d m')

end Eval

end

section
variable {σ τ : Type} {f : Node → Node} {S : σ → τ → Prop} {m : Machine σ} {m' : Machine τ}

theorem Reply.alike_forceThen {v w : Value} {s : σ} {t : τ} {next : Value → σ → Reply σ}
    {next' : Value → τ → Reply τ} {scope : Int} (hvalue : v.mapBodies f = w.mapBodies f)
    (hstate : S s t) (hnext : ∀ a b s t, a.mapBodies f = b.mapBodies f → S s t →
      (next a s).Alike f S (next' b t)) :
    (forceThen v s next scope).Alike f S (forceThen w t next' scope) := by
  refine .force scope hvalue hstate fun a b s t hab hs => ?_
  cases a with
  | error fault =>
      cases b with
      | error fault' =>
          cases hab
          exact .fail fault hs
      | ok b => cases hab
  | ok a =>
      cases b with
      | error fault => cases hab
      | ok b => exact hnext a b s t (Except.ok.inj hab) hs

theorem Machine.Alike.size (h : m.Alike f S m') : m.scopes.size = m'.scopes.size := by
  have hsize := congrArg Array.size h.scopes
  rwa [Array.size_map, Array.size_map] at hsize

theorem Machine.Alike.withScopes (h : m.Alike f S m') {scopes scopes' : Arena}
    (hscopes : scopes.map (Scope.mapBodies f) = scopes'.map (Scope.mapBodies f)) :
    Machine.Alike f S { m with scopes } { m' with scopes := scopes' } :=
  ⟨hscopes, h.shown, h.calls, h.host⟩

theorem Machine.Alike.withHost (h : m.Alike f S m') {s : σ} {t : τ} (hs : S s t) :
    Machine.Alike f S { m with host := s } { m' with host := t } :=
  ⟨h.scopes, h.shown, h.calls, hs⟩

end

namespace Eval

section
variable {σ τ α β γ δ : Type} {f : Node → Node} {S : σ → τ → Prop} {R : α → β → Prop}
  {Q : γ → δ → Prop}

theorem parallel_pure {a : α} {b : β} (h : R a b) :
    Parallel f S R (pure a : Eval σ α) (pure b : Eval τ β) :=
  fun _ _ hm => .ok h hm

theorem parallel_throw (fault : Fault) :
    Parallel f S R (throw fault : Eval σ α) (throw fault : Eval τ β) :=
  fun _ _ hm => .error fault hm

theorem Parallel.bind {c : Eval σ α} {d : Eval τ β} {g : α → Eval σ γ} {h : β → Eval τ δ}
    (hc : Parallel f S R c d) (hg : ∀ a b, R a b → Parallel f S Q (g a) (h b)) :
    Parallel f S Q (c >>= g) (d >>= h) := by
  intro m m' hm
  have hend := hc m m' hm
  generalize hresult : c m = result at hend
  generalize hresult' : d m' = result' at hend
  cases hend with
  | ok hR halike =>
      rw [bind_of_ok hresult, bind_of_ok hresult']
      exact hg _ _ hR _ _ halike
  | error fault halike =>
      rw [bind_of_error hresult, bind_of_error hresult']
      exact .error fault halike

/-- What the computations are attempted for is alike too, a fault being the same. -/
theorem Parallel.attempt {g : α → γ} {h : β → γ} {c : Eval σ α} {d : Eval τ β}
    (hc : Parallel f S (fun a b => g a = h b) c d) :
    Parallel f S (fun a b => a.map g = b.map h) (attempt c) (attempt d) := by
  intro m m' hm
  have hend := hc m m' hm
  generalize hresult : c m = result at hend
  generalize hresult' : d m' = result' at hend
  cases hend with
  | ok hab halike =>
      rw [attempt_of_ok hresult, attempt_of_ok hresult']
      exact .ok (congrArg Except.ok hab) halike
  | error fault halike =>
      rw [attempt_of_error hresult, attempt_of_error hresult']
      exact .ok rfl halike

theorem Parallel.mono {R' : α → β → Prop} {c : Eval σ α} {d : Eval τ β} (h : Parallel f S R c d)
    (hR : ∀ a b, R a b → R' a b) : Parallel f S R' c d := by
  intro m m' hm
  have hend := h m m' hm
  generalize c m = result at hend ⊢
  generalize d m' = result' at hend ⊢
  cases hend with
  | ok ha halike => exact .ok (hR _ _ ha) halike
  | error fault halike => exact .error fault halike

/-- Both computations read the state. -/
theorem Parallel.reading {g : Machine σ → Eval σ γ} {h : Machine τ → Eval τ δ}
    (hg : ∀ m m', m.Alike f S m' → Parallel f S Q (g m) (h m')) :
    Parallel f S Q (get >>= g) (get >>= h) :=
  fun m m' hm => hg m m' hm m m' hm

theorem parallel_modify {g : Machine σ → Machine σ} {h : Machine τ → Machine τ}
    (hg : ∀ m m', m.Alike f S m' → (g m).Alike f S (h m')) :
    Parallel f S (fun _ _ => True) (modify g) (modify h) :=
  fun m m' hm => .ok trivial (hg m m' hm)

theorem parallel_ofExcept {g : α → γ} {h : β → γ} {e : Except Fault α} {e' : Except Fault β}
    (heq : g <$> e = h <$> e') :
    Parallel f S (fun a b => g a = h b) (ofExcept e : Eval σ α) (ofExcept e' : Eval τ β) := by
  cases e with
  | error fault =>
      cases e' with
      | error fault' =>
          cases heq
          exact parallel_throw fault
      | ok b => cases heq
  | ok a =>
      cases e' with
      | error fault => cases heq
      | ok b => exact parallel_pure (Except.ok.inj heq)

theorem parallel_note (event event' : TraceEvent) :
    Parallel f S (fun _ _ => True) (note event) (note event') :=
  parallel_modify fun _ _ hm => ⟨hm.scopes, hm.shown, hm.calls, hm.host⟩

theorem parallel_lookAt (p q : Option Location) :
    Parallel f S (fun _ _ => True) (lookAt p) (lookAt q) :=
  parallel_modify fun _ _ hm => ⟨hm.scopes, hm.shown, hm.calls, hm.host⟩

theorem parallel_visit (a b : Node) (scope : Int) :
    Parallel f S (fun _ _ => True) (visit a scope) (visit b scope) :=
  (parallel_lookAt _ _).bind fun _ _ _ => parallel_note _ _

theorem parallel_enter {a a' : Activation}
    (hargs : a.args.map (Value.mapBodies f) = a'.args.map (Value.mapBodies f)) :
    Parallel f S (fun _ _ => True) (enter a) (enter a') :=
  parallel_modify fun _ _ hm =>
    ⟨hm.scopes, hm.shown, congrArg₂ List.cons hargs hm.calls, hm.host⟩

theorem parallel_leave : Parallel f S (fun _ _ => True) leave leave := by
  refine parallel_modify fun m m' hm => ⟨hm.scopes, hm.shown, ?_, hm.host⟩
  rw [List.map_tail, List.map_tail, hm.calls]

theorem parallel_emit (topic : Topic) (message : String) :
    Parallel f S (fun _ _ => True) (emit topic message) (emit topic message) := by
  refine parallel_modify fun m m' hm => ⟨hm.scopes, ?_, hm.calls, hm.host⟩
  rw [Machine.shown_push, Machine.shown_push, hm.shown]

theorem parallel_hostState : Parallel f S S hostState hostState :=
  fun _ _ hm => .ok hm.host hm

theorem parallel_set {m : Machine σ} {m' : Machine τ} (h : m.Alike f S m') :
    Parallel f S (fun _ _ => True) (set m) (set m') :=
  fun _ _ _ => .ok trivial h

theorem parallel_openScope (parent : Int) :
    Parallel f S Eq (openScope parent : Eval σ Nat) (openScope parent : Eval τ Nat) := by
  refine .reading fun m m' hm => ?_
  have hopened : Array.map (Scope.mapBodies f) <$> m.scopes.openScope parent =
      Array.map (Scope.mapBodies f) <$> m'.scopes.openScope parent := by
    rw [← Arena.openScope_mapBodies, ← Arena.openScope_mapBodies, hm.scopes]
  refine (parallel_ofExcept hopened).bind fun scopes scopes' hscopes => ?_
  refine (parallel_set (hm.withScopes hscopes)).bind fun _ _ _ => ?_
  exact (parallel_note _ _).bind fun _ _ _ => parallel_pure hm.size

theorem parallel_fetch (scope : Int) (name : String) :
    Parallel f S (fun v w => v.mapBodies f = w.mapBodies f) (fetch scope name : Eval σ Value)
      (fetch scope name : Eval τ Value) := by
  refine .reading fun m m' hm => parallel_ofExcept ?_
  rw [← Arena.fetch_mapBodies, ← Arena.fetch_mapBodies, hm.scopes]

theorem parallel_assign (scope : Int) (name : String) {v w : Value}
    (h : v.mapBodies f = w.mapBodies f) :
    Parallel f S (fun _ _ => True) (assign scope name v : Eval σ Unit)
      (assign scope name w : Eval τ Unit) := by
  refine .reading fun m m' hm => ?_
  have hassigned : Array.map (Scope.mapBodies f) <$> m.scopes.assign scope name v =
      Array.map (Scope.mapBodies f) <$> m'.scopes.assign scope name w := by
    rw [← Arena.assign_mapBodies, ← Arena.assign_mapBodies, hm.scopes, h]
  exact (parallel_ofExcept hassigned).bind fun scopes scopes' hscopes =>
    parallel_set (hm.withScopes hscopes)

/-- Values that are alike are of the same kind. -/
theorem kind_eq_of_alike {v w : Value} (h : v.mapBodies f = w.mapBodies f) : v.kind = w.kind := by
  rw [← v.kind_mapBodies f, h, w.kind_mapBodies]

theorem parallel_kind {v w : Value} (h : v.mapBodies f = w.mapBodies f) :
    Parallel f S Eq (ofExcept v.kind : Eval σ Kind) (ofExcept w.kind : Eval τ Kind) :=
  parallel_ofExcept (g := id) (h := id) (by rw [kind_eq_of_alike h])

theorem parallel_readVariable (scope : Int) (name : String) :
    Parallel f S (fun v w => v.mapBodies f = w.mapBodies f)
      (readVariable scope name : Eval σ Value) (readVariable scope name : Eval τ Value) := by
  refine (parallel_fetch scope name).bind fun v w h => ?_
  have hliteral : v.isLiteral = w.isLiteral := by
    rw [← v.isLiteral_mapBodies f, h, w.isLiteral_mapBodies]
  rw [hliteral]
  split
  · exact parallel_pure h
  · refine (parallel_kind h).bind fun kind kind' hkind => ?_
    rw [hkind]
    exact parallel_throw _

end

section
variable {σ τ : Type} {f : Node → Node} {S : σ → τ → Prop} {host : Host σ} {host' : Host τ}

theorem parallel_ofHost {act : σ → Except Fault α × σ} {act' : τ → Except Fault α × τ}
    (h : DoAlike S act act') : Parallel f S Eq (ofHost act) (ofHost act') := by
  refine parallel_hostState.bind fun s t hs => ?_
  obtain ⟨hresult, hstate⟩ := h s t hs
  refine (parallel_modify fun m m' hm => hm.withHost hstate).bind fun _ _ _ => ?_
  exact parallel_ofExcept (g := id) (h := id) (congrArg _ hresult)

theorem parallel_display {channel : Option (Channel σ)} {channel' : Option (Channel τ)}
    (hchannel : Option.Rel (Channel.Alike S) channel channel') (args : List Value) :
    Parallel f S Eq (Builtin.applyDisplay channel args) (Builtin.applyDisplay channel' args) := by
  refine (parallel_ofExcept (g := id) (h := id) rfl).bind fun texts texts' htexts => ?_
  obtain rfl : texts = texts' := htexts
  refine (parallel_emit _ _).bind fun _ _ _ => ?_
  refine (parallel_ofHost ?_).bind fun _ _ _ => parallel_pure rfl
  cases hchannel with
  | none => exact fun s t hs => ⟨rfl, hs⟩
  | some h => exact h.display _

theorem parallel_input {channel : Option (Channel σ)} {channel' : Option (Channel τ)}
    (hchannel : Option.Rel (Channel.Alike S) channel channel') (args : List Value) :
    Parallel f S Eq (Builtin.applyInput channel args) (Builtin.applyInput channel' args) := by
  refine (parallel_ofExcept (g := id) (h := id) rfl).bind fun prompt prompt' hprompt => ?_
  obtain rfl : prompt = prompt' := hprompt
  cases hchannel with
  | none => exact parallel_throw _
  | some h =>
      refine (parallel_ofHost (h.input prompt)).bind fun answer answer' hanswer => ?_
      exact parallel_pure (congrArg (Value.text ∘ Answer.content) hanswer)

theorem parallel_builtin (hhost : host.Alike f S host') (b : Builtin) {args args' : List Value}
    (hargs : args.map (Value.mapBodies f) = args'.map (Value.mapBodies f)) :
    Parallel f S Eq (b.apply host.channel args) (b.apply host'.channel args') := by
  rw [← b.apply_mapBodies f host.channel args, hargs, b.apply_mapBodies]
  cases b with
  | operator o => exact parallel_ofExcept (g := id) (h := id) rfl
  | display => exact parallel_display hhost.channel args'
  | input => exact parallel_input hhost.channel args'

/-- Two ways of forcing values that go side by side. -/
def ForceParallel (f : Node → Node) (S : σ → τ → Prop) (force : Int → Value → Eval σ Value)
    (force' : Int → Value → Eval τ Value) : Prop :=
  ∀ scope v w, v.mapBodies f = w.mapBodies f →
    Parallel f S (fun a b => a.mapBodies f = b.mapBodies f) (force scope v) (force' scope w)

section
variable {force : Int → Value → Eval σ Value} {force' : Int → Value → Eval τ Value}

theorem parallel_reply (hforce : ForceParallel f S force force') {reply : Reply σ}
    {reply' : Reply τ} (h : reply.Alike f S reply') :
    Parallel f S (fun a b => a.mapBodies f = b.mapBodies f) (reply.run force)
      (reply'.run force') := by
  induction h with
  | answer hvalue hstate =>
      exact (parallel_modify fun m m' hm => hm.withHost hstate).bind fun _ _ _ =>
        parallel_pure hvalue
  | fail fault hstate =>
      exact (parallel_modify fun m m' hm => hm.withHost hstate).bind fun _ _ _ =>
        parallel_throw fault
  | force scope hvalue hstate _ ih =>
      refine (parallel_modify fun m m' hm => hm.withHost hstate).bind fun _ _ _ => ?_
      refine (hforce scope _ _ hvalue).attempt.bind fun a b hab => ?_
      exact parallel_hostState.bind fun s t hstate => ih a b s t hab hstate

theorem parallel_apply (hhost : host.Alike f S host') (hforce : ForceParallel f S force force')
    {a a' : Activation} (hargs : a.args.map (Value.mapBodies f) = a'.args.map (Value.mapBodies f))
    (g : Function) :
    Parallel f S (fun a b => a.mapBodies f = b.mapBodies f) (apply host force a g)
      (apply host' force' a' g) := by
  cases g with
  | builtin b => exact (parallel_builtin hhost b hargs).mono fun v w h => by rw [h]
  | host name =>
      exact parallel_hostState.bind fun s t hstate =>
        parallel_reply hforce (hhost.call name a.args a'.args s t hargs hstate)

theorem call_of_not_function {callee : Value} (h : ∀ g, callee ≠ .function g) (name : String)
    (args : List Value) (site : Option Location) :
    call host force name callee args site =
      ofExcept callee.kind >>= fun kind => throw (.notCallable name kind) := by
  cases callee with
  | function g => exact absurd rfl (h g)
  | _ => rfl

theorem parallel_call (hhost : host.Alike f S host') (hforce : ForceParallel f S force force')
    (name : String) {callee callee' : Value} (hcallee : callee.mapBodies f = callee'.mapBodies f)
    {args args' : List Value}
    (hargs : args.map (Value.mapBodies f) = args'.map (Value.mapBodies f))
    (site site' : Option Location) :
    Parallel f S (fun a b => a.mapBodies f = b.mapBodies f)
      (call host force name callee args site) (call host' force' name callee' args' site') := by
  by_cases hfunction : ∃ g, callee = .function g
  · obtain ⟨g, rfl⟩ := hfunction
    obtain rfl := (Value.mapBodies_eq_function_iff f).1 hcallee.symm
    refine (parallel_note _ _).bind fun _ _ _ => (parallel_enter hargs).bind fun _ _ _ => ?_
    refine (parallel_apply hhost hforce hargs g).bind fun v w h => ?_
    refine parallel_leave.bind fun _ _ _ => parallel_ofExcept ?_
    rw [← v.normalize_mapBodies, h, w.normalize_mapBodies]
  · have hnot : ∀ g, callee ≠ .function g := fun g h => hfunction ⟨g, h⟩
    have hnot' : ∀ g, callee' ≠ .function g := by
      rintro g rfl
      exact hnot g ((Value.mapBodies_eq_function_iff f).1 hcallee)
    rw [call_of_not_function hnot, call_of_not_function hnot']
    refine (parallel_kind hcallee).bind fun kind kind' hkind => ?_
    rw [hkind]
    exact parallel_throw _

end

/-- Two evaluators of trees that go side by side. -/
def EvaluateParallel (f : Node → Node) (S : σ → τ → Prop)
    (evaluate : Node → Int → Eval σ (Option Value))
    (evaluate' : Node → Int → Eval τ (Option Value)) : Prop :=
  ∀ a b scope, f a = f b →
    Parallel f S (fun v w => v.map (Value.mapBodies f) = w.map (Value.mapBodies f))
      (evaluate a scope) (evaluate' b scope)

section
variable {evaluate : Node → Int → Eval σ (Option Value)}
  {evaluate' : Node → Int → Eval τ (Option Value)}

theorem parallel_sequence (h : EvaluateParallel f S evaluate evaluate') (scope : Int)
    {as bs : List Node} (hnodes : as.map f = bs.map f) :
    Parallel f S (fun vs ws => vs.map (Value.mapBodies f) = ws.map (Value.mapBodies f))
      (sequence evaluate scope as) (sequence evaluate' scope bs) := by
  induction as generalizing bs with
  | nil =>
      obtain rfl := List.map_eq_nil_iff.1 hnodes.symm
      exact parallel_pure rfl
  | cons a as ih =>
      obtain ⟨b, bs, rfl, hb, hbs⟩ := List.map_eq_cons_iff.1 hnodes.symm
      refine (h a b scope hb.symm).bind fun v w hvw => ?_
      refine (ih hbs.symm).bind fun vs ws hall => parallel_pure ?_
      rw [List.map_append, List.map_append, hall, ← Option.toList_map, ← Option.toList_map, hvw]

theorem alike_collapse {v w : Option Value}
    (h : v.map (Value.mapBodies f) = w.map (Value.mapBodies f)) :
    (Value.collapse v.toList).mapBodies f = (Value.collapse w.toList).mapBodies f := by
  rw [Value.mapBodies_collapse, Value.mapBodies_collapse, ← Option.toList_map,
    ← Option.toList_map, h]

theorem forceWith_of_not_lambda {v : Value} (h : ∀ body, v ≠ .lambda body) (scope : Int) :
    forceWith evaluate scope v = pure v := by
  cases v with
  | lambda body => exact absurd rfl (h body)
  | _ => rfl

theorem parallel_forceWith (h : EvaluateParallel f S evaluate evaluate') :
    ForceParallel f S (forceWith evaluate) (forceWith evaluate') := by
  intro scope v w hvw
  by_cases hlambda : ∃ body, v = .lambda body
  · obtain ⟨body, rfl⟩ := hlambda
    obtain ⟨body', rfl, hbody⟩ := (Value.mapBodies_eq_lambda_iff f).1 hvw.symm
    refine (parallel_openScope scope).bind fun child child' hchild => ?_
    rw [hchild]
    exact (h body body' child' hbody.symm).bind fun v w hvw => parallel_pure (alike_collapse hvw)
  · have hnot : ∀ body, v ≠ .lambda body := fun body h => hlambda ⟨body, h⟩
    have hnot' : ∀ body, w ≠ .lambda body := by
      rintro body rfl
      obtain ⟨body', hv, -⟩ := (Value.mapBodies_eq_lambda_iff f).1 hvw
      exact hnot body' hv
    rw [forceWith_of_not_lambda hnot, forceWith_of_not_lambda hnot']
    exact parallel_pure hvw

/-- One activation. -/
theorem parallel_level (hhost : host.Alike f S host') (hf : Node.KeepsSorts f)
    (h : EvaluateParallel f S evaluate evaluate') :
    EvaluateParallel f S (level host evaluate) (level host' evaluate') := by
  intro a b scope hab
  cases hf a b hab with
  | block hchildren =>
      refine (parallel_visit _ _ scope).bind fun _ _ _ => ?_
      refine (parallel_openScope scope).bind fun child child' hchild => ?_
      rw [hchild]
      refine (parallel_sequence h child' hchildren).bind fun vs ws hall => parallel_pure ?_
      simp only [Option.map_some, Value.mapBodies_collapse, hall]
  | list hchildren =>
      refine (parallel_visit _ _ scope).bind fun _ _ _ => ?_
      refine (parallel_sequence h scope hchildren).bind fun vs ws hall => parallel_pure ?_
      simp only [Option.map_some, Value.mapBodies_collapse, hall]
  | literal l => exact (parallel_visit _ _ scope).bind fun _ _ _ => parallel_pure rfl
  | var name p q =>
      refine (parallel_visit _ _ scope).bind fun _ _ _ => ?_
      exact (parallel_readVariable scope name).bind fun v w hvw =>
        parallel_pure (congrArg some hvw)
  | @assign name a b hvalue =>
      refine (h a b scope hvalue).bind fun v w hvw => ?_
      refine (parallel_note _ _).bind fun _ _ _ => ?_
      exact (parallel_assign scope name (alike_collapse hvw)).bind fun _ _ _ => parallel_pure rfl
  | call name p q hargs =>
      refine (parallel_visit _ _ scope).bind fun _ _ _ => ?_
      refine (parallel_sequence h scope hargs).bind fun vs ws hall => ?_
      refine (parallel_fetch scope name).bind fun callee callee' hcallee => ?_
      refine (parallel_lookAt _ _).bind fun _ _ _ => ?_
      have harguments : (Value.collapse vs).arguments.map (Value.mapBodies f) =
          (Value.collapse ws).arguments.map (Value.mapBodies f) := by
        rw [Value.map_arguments, Value.map_arguments, Value.mapBodies_collapse,
          Value.mapBodies_collapse, hall]
      exact (parallel_call hhost (parallel_forceWith h) name hcallee harguments p q).bind
        fun v w hvw => parallel_pure (congrArg some hvw)
  | lambda hbody =>
      exact (parallel_visit _ _ scope).bind fun _ _ _ =>
        parallel_pure (congrArg (some ∘ Value.lambda) hbody)

end

/-- Trees that are alike are evaluated side by side, however deep it goes. -/
theorem parallel_node (hhost : host.Alike f S host') (hf : Node.KeepsSorts f) (depth : Nat) :
    EvaluateParallel f S (node host depth) (node host' depth) := by
  induction depth with
  | zero => exact fun a b scope _ => parallel_throw .tooDeep
  | succ depth ih =>
      intro a b scope hab
      rw [node, node]
      exact parallel_level hhost hf ih a b scope hab

theorem parallel_value (hhost : host.Alike f S host') (hf : Node.KeepsSorts f) (depth : Nat)
    {a b : Node} (hab : f a = f b) (scope : Int) :
    Parallel f S (fun v w => v.mapBodies f = w.mapBodies f) (value host depth a scope)
      (value host' depth b scope) :=
  (parallel_node hhost hf depth a b scope hab).bind fun _ _ h => parallel_pure (alike_collapse h)

end

end Eval

/-- Why a run has no value: it failed, or a fault has come out of it. -/
def Stop.cause : Stop → Failure ⊕ Fault
  | report told => .inl told.cause
  | escape fault => .inr fault

namespace Outcome

/-- How a run ended: its value, with other bodies in it, or why there is none. -/
def answer (f : Node → Node) (outcome : Outcome σ) : Except (Failure ⊕ Fault) Value :=
  (outcome.result.mapError Stop.cause).map (Value.mapBodies f)

structure Alike (f : Node → Node) (S : σ → τ → Prop) (outcome : Outcome σ)
    (outcome' : Outcome τ) : Prop where
  answer : outcome.answer f = outcome'.answer f
  machine : outcome.machine.Alike f S outcome'.machine

/-- Two runs that fail, for the same reason. -/
theorem alike_failed {f : Node → Node} {S : σ → τ → Prop} {m : Machine σ} {m' : Machine τ}
    (hm : m.Alike f S m') {report report' : Report} (hcause : report.cause = report'.cause) :
    Alike f S (failed m report) (failed m' report') := by
  refine ⟨congrArg (Except.error ∘ Sum.inl) hcause, hm.scopes, ?_, hm.calls, hm.host⟩
  have hshown := (m.shown_push ⟨.stderr, report.message⟩).trans (List.append_nil _)
  have hshown' := (m'.shown_push ⟨.stderr, report'.message⟩).trans (List.append_nil _)
  exact hshown.trans (hm.shown.trans hshown'.symm)

end Outcome

section
variable {σ τ : Type} {f : Node → Node} {S : σ → τ → Prop} {host : Host σ} {host' : Host τ}

theorem alike_runTree (hhost : host.Alike f S host') (hf : Node.KeepsSorts f)
    (source source' : String) (limit : Nat) {a b : Node} (hab : f a = f b) {m : Machine σ}
    {m' : Machine τ} (hm : m.Alike f S m') :
    (runTree host source limit a m).Alike f S (runTree host' source' limit b m') := by
  have hend := Eval.parallel_value hhost hf limit hab 0 m m' hm
  unfold runTree
  generalize Eval.value host limit a 0 m = result at hend ⊢
  generalize Eval.value host' limit b 0 m' = result' at hend ⊢
  cases hend with
  | ok hvalue halike => exact ⟨congrArg Except.ok hvalue, halike⟩
  | @error fault last last' halike =>
      have hreport :=
        Report.failAlike_ofFault host.functionText source source' halike.calls fault
      rw [← hhost.functionText]
      dsimp only
      generalize hmade : Report.ofFault host.functionText source last fault = made at hreport
      generalize hmade' : Report.ofFault host.functionText source' last' fault = made' at hreport
      cases hreport with
      | ok report report' =>
          have hcause := (Report.of_ofFault hmade).1
          exact Outcome.alike_failed halike (hcause.trans (Report.of_ofFault hmade').1.symm)
      | error escaped => exact ⟨rfl, halike⟩

/-- Nothing has been displayed before a run evaluates its tree. -/
theorem shown_prepared (host : Host σ) (given : Bindings) (source : String) (state : σ) :
    (Machine.prepared host given source state).shown = [] := by
  have hnone : (skippedEffects source).filter (·.topic = .stdout) = [] := by
    unfold skippedEffects
    split
    · rw [List.filter_eq_nil_iff]
      intro effect heffect
      obtain ⟨d, -, rfl⟩ := List.mem_map.1 heffect
      simp [Diagnostic.effect]
    · rfl
  simp [Machine.shown, Machine.prepared, hnone]

theorem alike_prepared (hhost : host.Alike f S host') (given : Bindings) (source source' : String)
    {s : σ} {t : τ} (hs : S s t) :
    (Machine.prepared host given source s).Alike f S (.prepared host' given source' t) := by
  refine ⟨?_, ?_, rfl, hs⟩
  · simp only [Machine.prepared, rootBindings, hhost.functions]
  · rw [shown_prepared, shown_prepared]

/-- Texts with trees that are alike have runs that are alike. -/
theorem alike_run (hhost : host.Alike f S host') (hf : Node.KeepsSorts f) (given : Bindings)
    {source source' : String} {limit : Nat} {a b : Node} (ha : parse source limit = .ok a)
    (hb : parse source' limit = .ok b) (hab : f a = f b) {s : σ} {t : τ} (hs : S s t) :
    (run host given source s limit).Alike f S (run host' given source' t limit) := by
  rw [run_eq, run_eq, ha, hb]
  exact alike_runTree hhost hf source source' limit hab (alike_prepared hhost given _ _ hs)

end

end Pseudocode
