import Pseudocode.Evaluation.Basic

/-!
# Which scopes an evaluation changes

An evaluation binds names in its own scope only, and only the names that its tree
assigns outside of blocks and lambdas. Every other scope that was there before stays as
it was, whether the evaluation ends in a value or in a fault: what it did until then is
of the same sort.

Computations are described by the names that they bind in a scope. Descriptions are put
together along the computation, and a scope opened on the way hides all that is bound
in it.
-/
namespace Pseudocode

def Scope.bindAll (s : Scope) (entries : List (String × Value)) : Scope :=
  { s with bindings := s.bindings.insertAll entries }

@[simp] theorem Scope.bindAll_nil (s : Scope) : s.bindAll [] = s := rfl

theorem Scope.bindAll_append (s : Scope) (entries more : List (String × Value)) :
    s.bindAll (entries ++ more) = (s.bindAll entries).bindAll more := by
  simp [bindAll, Bindings.insertAll]

namespace Bindings

/-- A name keeps its value unless it is among those bound. -/
theorem get?_insertAll_of_not_mem {name : String} (entries : List (String × Value)) (b : Bindings)
    (h : ∀ e ∈ entries, e.1 ≠ name) : (b.insertAll entries).get? name = b.get? name := by
  induction entries generalizing b with
  | nil => rfl
  | cons e entries ih =>
      obtain ⟨he, hrest⟩ := List.forall_mem_cons.1 h
      rw [insertAll, List.foldl_cons, ← insertAll, ih _ hrest, get?_insert, if_neg (Ne.symm he)]

theorem isSome_insertAll {name : String} (entries : List (String × Value)) (b : Bindings)
    (h : (b.get? name).isSome ∨ name ∈ entries.map Prod.fst) :
    ((b.insertAll entries).get? name).isSome := by
  induction entries generalizing b with
  | nil => simpa [insertAll] using h
  | cons e entries ih =>
      rw [insertAll, List.foldl_cons, ← insertAll]
      apply ih
      rw [get?_insert]
      by_cases hn : name = e.1
      · exact .inl (by simp [hn])
      · rw [if_neg hn]
        simpa [hn] using h

end Bindings

namespace Node

mutual

/-- The names that a tree assigns outside of its blocks and lambdas. -/
def assigned : Node → List String
  | block _ | lambda _ | literal _ | var _ _ => []
  | list children | call _ children _ => assignedAll children
  | assign name value => assigned value ++ [name]

def assignedAll : List Node → List String
  | [] => []
  | n :: ns => assigned n ++ assignedAll ns

end

end Node

/-- A host that has its argument forced, and answers nothing if this ends in a fault. -/
def Host.trying : Host Unit where
  channel := Option.none
  functions := ["try"]
  call
    | "try", [v], state => .force v state fun
        | .ok result, state => .answer result state
        | .error _, state => .answer .nothing state
    | _, _, state => .fail .invalidArguments state

namespace Eval

/-- The state in which a computation ends, in a value or in a fault. -/
def final (c : Eval σ α) (m : Machine σ) : Machine σ :=
  match c m with
  | .ok _ last => last
  | .error _ last => last

def Succeeds (c : Eval σ α) (m : Machine σ) : Prop := ∃ a last, c m = .ok a last

/-- From every state the computation changes a scope by binding some of the names, leaves all
other scopes and may open new ones. If it ends in a value it has bound all of the names. -/
def Binds (scope : Nat) (names : List String) (c : Eval σ α) : Prop :=
  ∀ m : Machine σ, ∃ entries : List (String × Value), (∀ e ∈ entries, e.1 ∈ names) ∧
    (m.scopes.toList.modify scope (·.bindAll entries)) <+: (c.final m).scopes.toList ∧
    (c.Succeeds m → ∀ name ∈ names, name ∈ entries.map Prod.fst)

section
variable {σ α β : Type} {scope : Nat} {names more : List String}

theorem modify_bindAll_nil (scopes : List Scope) (scope : Nat) :
    scopes.modify scope (·.bindAll []) = scopes := List.modify_id scope scopes

theorem modify_bindAll_append (scopes : List Scope) (scope : Nat)
    (entries rest : List (String × Value)) :
    (scopes.modify scope (·.bindAll entries)).modify scope (·.bindAll rest) =
      scopes.modify scope (·.bindAll (entries ++ rest)) := by
  rw [List.modify_modify_eq]
  congr 1
  funext s
  exact (s.bindAll_append entries rest).symm

theorem isPrefix_of_kept {m last : Machine σ} (scope : Nat) (h : last.scopes = m.scopes) :
    m.scopes.toList.modify scope (·.bindAll []) <+: last.scopes.toList :=
  ⟨[], by rw [List.append_nil, modify_bindAll_nil, h]⟩

theorem isPrefix_modify {scopes longer : List Scope} (h : scopes <+: longer) (scope : Nat)
    (f : Scope → Scope) : scopes.modify scope f <+: longer.modify scope f := by
  induction scopes generalizing longer scope with
  | nil => simp
  | cons first scopes ih =>
      obtain ⟨rest, rfl⟩ := h
      cases scope with
      | zero => simp
      | succ scope =>
          rw [List.cons_append, List.modify_succ_cons, List.modify_succ_cons, List.cons_prefix_cons]
          exact ⟨rfl, ih (List.prefix_append _ _) scope⟩

/-- What leaves the scopes alone binds nothing. -/
theorem Binds.of_scopes {c : Eval σ α} (h : ∀ m, (c.final m).scopes = m.scopes) :
    Binds scope [] c := by
  intro m
  exact ⟨[], by simp, isPrefix_of_kept scope (h m), by simp⟩

/-- A fault binds nothing, and need not. -/
theorem Binds.throw (fault : Fault) : Binds scope names (MonadExcept.throw fault : Eval σ α) := by
  intro m
  refine ⟨[], by simp, isPrefix_of_kept scope rfl, ?_⟩
  rintro ⟨a, last, h⟩
  cases h

theorem bind_of_ok {c : Eval σ α} {f : α → Eval σ β} {m middle : Machine σ} {a : α}
    (h : c m = .ok a middle) : (c >>= f) m = f a middle := by
  show EStateM.bind c f m = _
  rw [EStateM.bind, h]

theorem bind_of_error {c : Eval σ α} {f : α → Eval σ β} {m last : Machine σ} {fault : Fault}
    (h : c m = .error fault last) : (c >>= f) m = .error fault last := by
  show EStateM.bind c f m = _
  rw [EStateM.bind, h]

theorem attempt_of_ok {c : Eval σ α} {m last : Machine σ} {a : α} (h : c m = .ok a last) :
    attempt c m = .ok (.ok a) last := by
  rw [attempt, h]

theorem attempt_of_error {c : Eval σ α} {m last : Machine σ} {fault : Fault}
    (h : c m = .error fault last) : attempt c m = .ok (.error fault) last := by
  rw [attempt, h]

theorem final_attempt (c : Eval σ α) (m : Machine σ) : (attempt c).final m = c.final m := by
  rw [final, attempt, final]
  cases c m <;> rfl

theorem Binds.attempt {c : Eval σ α} (hc : Binds scope [] c) : Binds scope [] (attempt c) := by
  intro m
  obtain ⟨entries, hin, hpre, -⟩ := hc m
  rw [final_attempt]
  exact ⟨entries, hin, hpre, fun _ name hname => by cases hname⟩

theorem Binds.bind {c : Eval σ α} {f : α → Eval σ β} (hc : Binds scope names c)
    (hf : ∀ a, Binds scope more (f a)) : Binds scope (names ++ more) (c >>= f) := by
  intro m
  obtain ⟨entries, hin, hpre, hall⟩ := hc m
  cases hcm : c m with
  | error fault last =>
      have hfault : (c >>= f) m = .error fault last := bind_of_error hcm
      refine ⟨entries, fun e he => List.mem_append_left _ (hin e he), ?_, ?_⟩
      · simpa only [final, hcm, hfault] using hpre
      · rintro ⟨b, last', h⟩
        rw [hfault] at h
        cases h
  | ok a middle =>
      have hnext : (c >>= f) m = f a middle := bind_of_ok hcm
      obtain ⟨rest, hin', hpre', hall'⟩ := hf a middle
      have hmiddle : m.scopes.toList.modify scope (·.bindAll entries) <+:
          middle.scopes.toList := by simpa only [final, hcm] using hpre
      refine ⟨entries ++ rest, ?_, ?_, ?_⟩
      · intro e he
        rcases List.mem_append.1 he with he | he
        · exact List.mem_append_left _ (hin e he)
        · exact List.mem_append_right _ (hin' e he)
      · have hboth := (isPrefix_modify hmiddle scope (·.bindAll rest)).trans hpre'
        rw [modify_bindAll_append] at hboth
        simpa only [final, hnext] using hboth
      · rintro ⟨b, last, h⟩ name hname
        rw [hnext] at h
        rw [List.map_append, List.mem_append]
        rcases List.mem_append.1 hname with hname | hname
        · exact .inl (hall ⟨a, middle, hcm⟩ name hname)
        · exact .inr (hall' ⟨b, last, h⟩ name hname)

theorem Binds.andThen {c : Eval σ α} {f : α → Eval σ β} (hc : Binds scope names c)
    (hf : ∀ a, Binds scope [] (f a)) : Binds scope names (c >>= f) := by
  have h : Binds scope (names ++ []) (c >>= f) := hc.bind hf
  rwa [List.append_nil] at h

theorem openScope_of_valid {parent : Int} {m : Machine σ}
    (h : 0 ≤ parent ∧ parent < m.scopes.size) :
    openScope parent m = .ok m.scopes.size { m with
      scopes := m.scopes.push { parent := some parent }
      trace := m.trace.push (.openScope m.scopes.size parent) } := by
  have hs : m.scopes.openScope parent = .ok (m.scopes.push { parent := some parent }) := if_pos h
  show EStateM.bind (ofExcept (m.scopes.openScope parent)) _ m = _
  rw [hs]
  rfl

theorem openScope_of_invalid {parent : Int} {m : Machine σ}
    (h : ¬ (0 ≤ parent ∧ parent < m.scopes.size)) :
    openScope parent m = .error (.noParent parent) m := by
  have hs : m.scopes.openScope parent = .error (.noParent parent) := if_neg h
  show EStateM.bind (ofExcept (m.scopes.openScope parent)) _ m = _
  rw [hs]
  rfl

/-- A scope that is opened for a computation hides what is bound in it. -/
theorem Binds.inNew {parent : Int} {f : Nat → Eval σ α}
    (hf : ∀ child, ∃ names, Binds child names (f child)) :
    Binds scope [] (openScope parent >>= f) := by
  intro m
  refine ⟨[], by simp, ?_, by simp⟩
  by_cases hp : 0 ≤ parent ∧ parent < m.scopes.size
  · obtain ⟨names, hnames⟩ := hf m.scopes.size
    obtain ⟨entries, -, hpre, -⟩ := hnames { m with
      scopes := m.scopes.push { parent := some parent }
      trace := m.trace.push (.openScope m.scopes.size parent) }
    rw [final, ← bind_of_ok (f := f) (openScope_of_valid hp)] at hpre
    rw [modify_bindAll_nil]
    refine List.IsPrefix.trans ?_ hpre
    -- Only the scope behind all the others is changed.
    have hkeep := isPrefix_modify (List.prefix_append m.scopes.toList [{ parent := some parent }])
      m.scopes.size (·.bindAll entries)
    rwa [List.modify_eq_self (by simp), ← Array.toList_push] at hkeep
  · have hkept : ((openScope parent >>= f).final m).scopes = m.scopes := by
      rw [final, bind_of_error (openScope_of_invalid hp)]
    exact isPrefix_of_kept scope hkept

theorem binds_ofExcept (e : Except Fault α) : Binds scope [] (ofExcept e : Eval σ α) := by
  cases e with
  | error fault => exact .throw fault
  | ok a => exact .of_scopes fun _ => rfl

theorem binds_note (event : TraceEvent) : Binds scope [] (note event : Eval σ Unit) :=
  .of_scopes fun _ => rfl

theorem binds_lookAt (location : Option Location) :
    Binds scope [] (lookAt location : Eval σ Unit) :=
  .of_scopes fun _ => rfl

theorem binds_visit (n : Node) (here : Int) : Binds scope [] (visit n here : Eval σ Unit) :=
  (binds_lookAt n.location).bind fun _ => binds_note _

theorem binds_fetch (here : Int) (name : String) :
    Binds scope [] (fetch here name : Eval σ Value) :=
  Binds.bind (.of_scopes fun _ => rfl) fun _ => binds_ofExcept _

theorem index?_natCast (scopes : Arena) (scope : Nat) :
    scopes.index? scope = if scope < scopes.size then some scope else none := by
  have hpos : ¬ (scope : Int) < 0 := by omega
  simp [Arena.index?, hpos]

theorem fetch_eq (here : Int) (name : String) (m : Machine σ) :
    fetch here name m = ofExcept (m.scopes.fetch here name) m := rfl

theorem readVariable_eq (here : Int) (name : String) (m : Machine σ) :
    readVariable here name m = ofExcept (m.scopes.fetch here name >>= fun value =>
      if value.isLiteral then .ok value
      else value.kind >>= fun kind => .error (.unreadable name kind)) m := by
  show EStateM.bind (ofExcept (m.scopes.fetch here name)) _ m = _
  cases m.scopes.fetch here name with
  | error fault => rfl
  | ok value =>
      show (if value.isLiteral then pure value
        else ofExcept value.kind >>= fun kind => throw (.unreadable name kind)) m =
          ofExcept (if value.isLiteral then _ else _) m
      split
      · rfl
      · cases value.kind <;> rfl

theorem assign_eq (here : Int) (name : String) (value : Value) (m : Machine σ) :
    assign here name value m =
      match m.scopes.assign here name value with
      | .ok scopes => .ok () { m with scopes }
      | .error fault => .error fault m := by
  show EStateM.bind (ofExcept (m.scopes.assign here name value)) _ m = _
  cases m.scopes.assign here name value <;> rfl

theorem assign_of_valid {m : Machine σ} (h : scope < m.scopes.size) (name : String)
    (value : Value) : assign (scope : Int) name value m = .ok () { m with
      scopes := m.scopes.modify scope (·.bind name value) } := by
  rw [assign_eq, Arena.assign, index?_natCast, if_pos h]

/-- An assignment binds its name in its scope, or fails for want of the scope. -/
theorem binds_assign (name : String) (value : Value) :
    Binds scope [name] (assign scope name value : Eval σ Unit) := by
  intro m
  by_cases hs : scope < m.scopes.size
  · refine ⟨[(name, value)], by simp, ?_, by simp⟩
    rw [final, assign_of_valid hs, Array.toList_modify]
    exact List.prefix_refl _
  · have hindex : m.scopes.index? scope = none := by rw [index?_natCast, if_neg hs]
    have hassign : assign (scope : Int) name value m = .error .noScope m := by
      rw [assign_eq, Arena.assign, hindex]
    have hkept : (final (assign (scope : Int) name value) m).scopes = m.scopes := by
      rw [final, hassign]
    refine ⟨[], by simp, isPrefix_of_kept scope hkept, ?_⟩
    rintro ⟨u, last, h⟩
    rw [hassign] at h
    cases h

theorem binds_reply {force : Int → Value → Eval σ Value}
    (hforce : ∀ parent v, Binds scope [] (force parent v)) (reply : Reply σ) :
    Binds scope [] (reply.run force) := by
  induction reply with
  | answer value state => exact .bind (.of_scopes fun _ => rfl) fun _ => .of_scopes fun _ => rfl
  | fail fault state => exact .bind (.of_scopes fun _ => rfl) fun _ => .throw fault
  | force value state resume parent ih =>
      exact .bind (.of_scopes fun _ => rfl) fun _ => .bind (hforce parent value).attempt
        fun result => .bind (.of_scopes fun _ => rfl) fun state => ih result state

/-- The computation neither reads nor changes the scopes and the trace. -/
def Detached (c : Eval σ α) : Prop :=
  ∀ (m : Machine σ) (scopes : Arena) (trace : Array TraceEvent),
    c { m with scopes, trace } =
      match c m with
      | .ok a last => .ok a { last with scopes, trace }
      | .error fault last => .error fault { last with scopes, trace }

theorem Detached.scopes_final {c : Eval σ α} (h : Detached c) (m : Machine σ) :
    (c.final m).scopes = m.scopes := by
  have hm := h m m.scopes m.trace
  rw [final]
  cases hc : c m <;> rw [hc] at hm <;> injection hm with _ hlast <;> rw [hlast]

theorem detached_builtin (channel : Option (Channel σ)) (b : Builtin) (args : List Value) :
    Detached (b.apply channel args) := by
  intro m scopes trace
  cases b with
  | operator o =>
      simp only [Builtin.apply]
      cases o.apply args <;> rfl
  | display =>
      simp only [Builtin.apply, Builtin.applyDisplay_eq]
      cases args.mapM Value.displayText with
      | error fault => rfl
      | ok texts =>
          dsimp only
          obtain ⟨result, state⟩ :=
            Channel.displayOn channel (String.intercalate " " texts) m.host
          cases result <;> rfl
  | input =>
      simp only [Builtin.apply, Builtin.applyInput_eq]
      cases Builtin.prompt args with
      | error fault => rfl
      | ok prompt =>
          cases channel with
          | none => rfl
          | some channel =>
              dsimp only
              obtain ⟨answer, state⟩ := channel.input prompt m.host
              cases answer <;> rfl

/-- A call binds nothing, whatever is called, if forcing a value does not. -/
theorem binds_call {host : Host σ} {force : Int → Value → Eval σ Value}
    (hforce : ∀ parent v, Binds scope [] (force parent v)) (name : String) (callee : Value)
    (args : List Value) (site : Option Location) :
    Binds scope [] (call host force name callee args site) := by
  unfold call
  split
  · rename_i f
    have happly : Binds scope [] (apply host force ⟨name, args, site⟩ f) := by
      cases f with
      | builtin b => exact .of_scopes (detached_builtin host.channel b args).scopes_final
      | host name => exact .bind (.of_scopes fun _ => rfl) fun state => binds_reply hforce _
    exact .bind (binds_note _) fun _ => .bind (.of_scopes fun _ => rfl) fun _ =>
      .bind happly fun value => .bind (.of_scopes fun _ => rfl) fun _ => binds_ofExcept _
  · exact .bind (binds_ofExcept _) fun _ => .throw _

section
variable {evaluate : Node → Int → Eval σ (Option Value)}
  (heval : ∀ (n : Node) (scope : Nat), Binds scope n.assigned (evaluate n scope))

include heval

theorem binds_sequence (nodes : List Node) :
    Binds scope (Node.assignedAll nodes) (sequence evaluate scope nodes) := by
  induction nodes with
  | nil => exact .of_scopes fun _ => rfl
  | cons n nodes ih =>
      exact (heval n scope).bind fun value => ih.andThen fun values => .of_scopes fun _ => rfl

theorem binds_forceWith (parent : Int) (v : Value) :
    Binds scope [] (forceWith evaluate parent v) := by
  cases v with
  | lambda body =>
      exact .inNew fun child => ⟨_, (heval body child).andThen fun _ => .of_scopes fun _ => rfl⟩
  | _ => exact .of_scopes fun _ => rfl

end

theorem binds_readVariable (here : Int) (name : String) :
    Binds scope [] (readVariable here name : Eval σ Value) := by
  refine (binds_fetch here name).bind fun value => ?_
  split
  · exact .of_scopes fun _ => rfl
  · exact (binds_ofExcept _).bind fun kind => .throw _

/-- A node binds in its scope the names that it assigns outside of blocks and lambdas. -/
theorem binds_node (host : Host σ) (depth : Nat) (n : Node) (scope : Nat) :
    Binds scope n.assigned (node host depth n scope) := by
  -- Not on the tree: a call may force a lambda that is no part of it.
  induction depth generalizing n scope with
  | zero => exact .throw .tooDeep
  | succ depth ih =>
      cases n with
      | assign name value =>
          rw [Node.assigned]
          exact (ih value scope).bind fun v => (binds_note _).bind fun _ =>
            (binds_assign name _).andThen fun _ => .of_scopes fun _ => rfl
      | block children =>
          refine (binds_visit _ _).bind fun _ => .inNew fun child =>
            ⟨Node.assignedAll children, ?_⟩
          exact (binds_sequence ih children).andThen fun _ => .of_scopes fun _ => rfl
      | list children =>
          refine (binds_visit _ _).bind fun _ => ?_
          exact (binds_sequence ih children).andThen fun _ => .of_scopes fun _ => rfl
      | literal value => exact (binds_visit _ _).bind fun _ => .of_scopes fun _ => rfl
      | var name site =>
          exact (binds_visit _ _).bind fun _ => (binds_readVariable _ name).bind fun _ =>
            .of_scopes fun _ => rfl
      | call name args site =>
          refine (binds_visit _ _).bind fun _ => (binds_sequence ih args).andThen fun values => ?_
          refine (binds_fetch _ name).bind fun callee => (binds_lookAt site).bind fun _ => ?_
          exact (binds_call (binds_forceWith ih) name callee _ site).bind fun _ =>
            .of_scopes fun _ => rfl
      | lambda body => exact (binds_visit _ _).bind fun _ => .of_scopes fun _ => rfl

theorem Binds.scopes_final {c : Eval σ α} (h : Binds scope names c) (m : Machine σ) :
    ∃ entries : List (String × Value), (∀ e ∈ entries, e.1 ∈ names) ∧
      (∀ i < m.scopes.size, (c.final m).scopes[i]? =
        (m.scopes[i]?).map fun s => if scope = i then s.bindAll entries else s) ∧
      (c.Succeeds m → ∀ name ∈ names, name ∈ entries.map Prod.fst) := by
  obtain ⟨entries, hin, hpre, hall⟩ := h m
  refine ⟨entries, hin, fun i hi => ?_, hall⟩
  have hlen : i < (m.scopes.toList.modify scope (·.bindAll entries)).length := by simpa using hi
  rw [← Array.getElem?_toList, List.prefix_iff_getElem?.1 hpre i hlen, ← List.getElem?_eq_getElem,
    List.getElem?_modify, Array.getElem?_toList]
  rfl

theorem Binds.keeps_others {c : Eval σ α} (h : Binds scope names c) (m : Machine σ) {i : Nat}
    (hi : i < m.scopes.size) (hne : i ≠ scope) : (c.final m).scopes[i]? = m.scopes[i]? := by
  obtain ⟨entries, -, hscopes, -⟩ := h.scopes_final m
  rw [hscopes i hi]
  simp [Ne.symm hne]

theorem Binds.keeps_all {c : Eval σ α} (h : Binds scope [] c) (m : Machine σ) {i : Nat}
    (hi : i < m.scopes.size) : (c.final m).scopes[i]? = m.scopes[i]? := by
  obtain ⟨entries, hin, hscopes, -⟩ := h.scopes_final m
  have hnone : entries = [] := List.eq_nil_iff_forall_not_mem.2 fun e he => by simpa using hin e he
  rw [hscopes i hi, hnone]
  simp

theorem Binds.own_scope {c : Eval σ α} (h : Binds scope names c) (m : Machine σ) {own : Scope}
    (hown : m.scopes[scope]? = some own) :
    ∃ own' : Scope, (c.final m).scopes[scope]? = some own' ∧ own'.parent = own.parent ∧
      (∀ name : String, name ∉ names → own'.bindings.get? name = own.bindings.get? name) ∧
      (c.Succeeds m → ∀ name ∈ names, (own'.bindings.get? name).isSome) := by
  obtain ⟨entries, hin, hscopes, hall⟩ := h.scopes_final m
  obtain ⟨hs, -⟩ := Array.getElem?_eq_some_iff.1 hown
  refine ⟨own.bindAll entries, ?_, rfl, ?_, ?_⟩
  · rw [hscopes scope hs, hown]
    simp
  · intro name hname
    exact Bindings.get?_insertAll_of_not_mem entries _ fun e he heq => hname (heq ▸ hin e he)
  · intro hsucc name hname
    exact Bindings.isSome_insertAll entries _ (.inr (hall hsucc name hname))

theorem binds_value (host : Host σ) (depth : Nat) (n : Node) (scope : Nat) :
    Binds scope n.assigned (value host depth n scope) :=
  (binds_node host depth n scope).andThen fun _ => .of_scopes fun _ => rfl

theorem binds_force (host : Host σ) (depth : Nat) (parent : Int) (v : Value) :
    Binds scope [] (force host depth parent v) :=
  binds_forceWith (binds_node host depth) parent v

end

/-- Evaluation in a scope leaves all other scopes as they were, and in the scope itself the parent
and every name that the tree does not assign outside of blocks and lambdas; if it ends in a value
then each of those names is bound. So a block changes no scope that was there, and neither does
forcing a value. All of this holds also of what is left after a fault. -/
theorem shadowing_frame {σ : Type} (host : Host σ) (depth : Nat) (m : Machine σ) :
    (∀ (n : Node) (s : Int), 0 ≤ s → s < m.scopes.size →
      (∀ i : Nat, i < m.scopes.size → (i : Int) ≠ s →
        ((value host depth n s).final m).scopes[i]? = m.scopes[i]?) ∧
      ∃ own own' : Scope, m.scopes[s.toNat]? = some own ∧
        ((value host depth n s).final m).scopes[s.toNat]? = some own' ∧
        own'.parent = own.parent ∧
        (∀ name : String, name ∉ n.assigned →
          own'.bindings.get? name = own.bindings.get? name) ∧
        ((value host depth n s).Succeeds m →
          ∀ name ∈ n.assigned, (own'.bindings.get? name).isSome)) ∧
    (∀ (children : List Node) (s : Int), 0 ≤ s → s < m.scopes.size → ∀ i : Nat, i < m.scopes.size →
      ((value host depth (.block children) s).final m).scopes[i]? = m.scopes[i]?) ∧
    (∀ (v : Value) (s : Int) (i : Nat), i < m.scopes.size →
      ((force host depth s v).final m).scopes[i]? = m.scopes[i]?) := by
  refine ⟨?_, ?_, ?_⟩
  · intro n s hs hlt
    obtain ⟨scope, rfl⟩ := Int.eq_ofNat_of_zero_le hs
    have hbinds : Binds scope n.assigned (value host depth n scope) :=
      binds_value host depth n scope
    have hin : scope < m.scopes.size := by omega
    refine ⟨fun i hi hne => hbinds.keeps_others m hi (by omega), ?_⟩
    have hown : m.scopes[scope]? = some m.scopes[scope] := Array.getElem?_eq_getElem hin
    obtain ⟨own', hafter, hparent, hkept, hbound⟩ := hbinds.own_scope m hown
    exact ⟨m.scopes[scope], own', hown, hafter, hparent, hkept, hbound⟩
  · intro children s hs hlt i hi
    obtain ⟨scope, rfl⟩ := Int.eq_ofNat_of_zero_le hs
    have hbinds : Binds scope [] (value host depth (.block children) scope) :=
      binds_value host depth (.block children) scope
    exact hbinds.keeps_all m hi
  · intro v s i hi
    have hbinds : Binds 0 [] (force host depth s v) := binds_force host depth s v
    exact hbinds.keeps_all m hi

/-- An assignment in a scope, and one to a name of the root inside a lambda that a function of the
host has forced. That fails after the assignment, and the host goes on. -/
theorem shadowing_frame_sample :
    let root : Scope :=
      { bindings := [("x", .literal (.boolean true)), ("try", .function (.host "try"))] }
    let m : Machine Unit := { scopes := #[root, { parent := some 0 }], host := () }
    let shadowing : Node := .list [.assign "x" (.literal (.boolean false)), .var "nope" none]
    let n : Node := .list [.assign "y" (.literal (.boolean true)),
      .call "try" [.lambda shadowing] none]
    ((value Host.trying 9 n 1).final m).scopes[0]? = some root ∧
      ∃ own : Scope, ((value Host.trying 9 n 1).final m).scopes[1]? = some own ∧
        own.parent = some 0 ∧ own.bindings.get? "x" = none ∧ (own.bindings.get? "y").isSome := by
  intro root m shadowing n
  obtain ⟨hothers, own, own', hown, hafter, hparent, hkept, hbound⟩ :=
    (shadowing_frame Host.trying 9 m).1 n 1 (by decide) (by decide)
  have hbefore : m.scopes[(1 : Int).toNat]? = some { parent := some 0 } := rfl
  obtain rfl : { parent := some 0 } = own := Option.some.inj (hbefore.symm.trans hown)
  refine ⟨hothers 0 (by decide) (by decide), own', hafter, hparent, hkept "x" (by decide), ?_⟩
  exact hbound ⟨_, _, rfl⟩ "y" (by decide)

end Eval

end Pseudocode
