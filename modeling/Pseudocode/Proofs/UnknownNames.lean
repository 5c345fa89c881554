import Pseudocode.Proofs.CallStack
import Pseudocode.Proofs.Places
import Pseudocode.Proofs.RunLog

/-!
# Where unknown names are reported

A report points at what was looked at last. A variable is looked up as soon as it has been
looked at, and so is a function that is called without arguments: if the name is unknown,
the report points at it. But a call with arguments has these evaluated first, and the run
looks back at the call only when its function has been found. If it is not found, the
report points to wherever the arguments have left the run.

Unknown names come of look-ups alone. Neither the builtin functions nor the functions of
the host, as is asked of them here, claim that a name is unknown.
-/
namespace Pseudocode

/-- The result is not that a name is unknown. -/
def Nameless (e : Except Fault α) : Prop := ∀ name, e ≠ .error (.unknownName name)

section
variable {α β : Type}

theorem Nameless.ok (a : α) : Nameless (.ok a) := fun _ h => by cases h

theorem Nameless.error {fault : Fault} (h : ∀ name, fault ≠ .unknownName name) :
    Nameless (.error fault : Except Fault α) :=
  fun name he => h name (Except.error.inj he)

theorem Nameless.bind {e : Except Fault α} {f : α → Except Fault β} (he : Nameless e)
    (hf : ∀ a, Nameless (f a)) : Nameless (e >>= f) := by
  cases e with
  | error fault => exact .error fun name h => he name (congrArg _ h)
  | ok a => exact hf a

theorem Nameless.mapM {f : α → Except Fault β} (h : ∀ a, Nameless (f a)) (as : List α) :
    Nameless (as.mapM f) := by
  induction as with
  | nil => exact .ok []
  | cons a as ih =>
      rw [List.mapM_cons]
      exact (h a).bind fun b => ih.bind fun bs => .ok (b :: bs)

theorem nameless_kind (v : Value) : Nameless v.kind := by
  unfold Value.kind
  split
  · exact .ok _
  · exact .error fun _ h => by cases h

theorem nameless_expect (shape : Shape) (v : Value) : Nameless (shape.expect v) := by
  unfold Shape.expect
  split
  · exact .ok _
  · exact .ok _
  · exact .ok _
  · exact (nameless_kind _).bind fun _ => .error fun _ h => by cases h

theorem nameless_expectAll (shape : Shape) (args : List Value) :
    Nameless (shape.expectAll args) := by
  induction args with
  | nil => exact .ok _
  | cons v vs ih => exact (nameless_expect shape v).bind fun _ => ih.bind fun _ => .ok _

theorem nameless_operands (shape : Shape) (count : Nat) (args : List Value) :
    Nameless (shape.operands count args) := by
  unfold Shape.operands
  split
  · rename_i h
    subst h
    exact nameless_expectAll shape args
  · exact .error fun _ h => by cases h

theorem nameless_firstMatch? {arity : Nat} (args : List Value)
    (candidates : List (Candidate arity)) : Nameless (firstMatch? args candidates) := by
  induction candidates with
  | nil => exact .ok none
  | cons candidate rest ih =>
      rw [firstMatch?]
      split
      · exact .ok _
      · exact ih
      · rename_i fault _ hfault
        exact .error fun name h => nameless_operands _ _ _ name (hfault.trans (congrArg _ h))

theorem nameless_apply (o : Operator) (args : List Value) : Nameless (o.apply args) := by
  refine (nameless_firstMatch? args o.candidates).bind fun found => ?_
  cases found with
  | some v => exact .ok v
  | none => exact (Nameless.mapM nameless_kind args).bind fun _ => .ok _

mutual

theorem nameless_print (indent level : Int) : (v : Value) → Nameless (v.print indent level)
  | .literal _ | .lambda _ | .function _ => .ok _
  | .list items => (nameless_printAll indent level items).bind fun _ => .ok _
  | .integer _ | .nothing | .tuple _ | .foreign _ | .derived _ _ | .derivedList _ _ =>
      .error fun _ h => by cases h

theorem nameless_printAll (indent level : Int) :
    (vs : List Value) → Nameless (Value.printAll indent level vs)
  | [] => .ok _
  | v :: vs => (nameless_print indent level v).bind fun _ =>
      (nameless_printAll indent level vs).bind fun _ => .ok _

end

mutual

theorem nameless_ensureDisplayable : (v : Value) → Nameless v.ensureDisplayable
  | .literal _ | .derived _ _ => .ok _
  | .list items | .derivedList items _ => nameless_ensureAllDisplayable items
  | .lambda _ | .function _ | .integer _ | .nothing | .tuple _ | .foreign _ =>
      (nameless_kind _).bind fun _ => .error fun _ h => by cases h

theorem nameless_ensureAllDisplayable : (vs : List Value) → Nameless (Value.ensureAllDisplayable vs)
  | [] => .ok _
  | v :: vs => (nameless_ensureDisplayable v).bind fun _ => nameless_ensureAllDisplayable vs

end

theorem nameless_displayText (v : Value) : Nameless v.displayText := by
  refine (nameless_ensureDisplayable v).bind fun _ => ?_
  split
  · exact .ok _
  · exact .ok _
  · exact nameless_print 2 0 v

theorem nameless_prompt (args : List Value) : Nameless (Builtin.prompt args) := by
  match args with
  | [] => exact .ok _
  | [v] => exact nameless_displayText v
  | _ :: _ :: _ => exact .error fun _ h => by cases h

mutual

theorem nameless_normalize : (v : Value) → Nameless v.normalize
  | .nothing => .ok _
  | .integer n => by
      rw [Value.normalize]
      split
      · exact .ok _
      · exact .error fun _ h => by cases h
  | .tuple items | .list items | .derivedList items _ =>
      (nameless_normalizeAll items).bind fun _ => .ok _
  | .literal _ | .lambda _ | .function _ | .foreign _ | .derived _ _ => .ok _

theorem nameless_normalizeAll : (vs : List Value) → Nameless (Value.normalizeAll vs)
  | [] => .ok _
  | v :: vs => (nameless_normalize v).bind fun _ => (nameless_normalizeAll vs).bind fun _ => .ok _

end

end

/-- The reply never fails with an unknown name of its own. A fault in what it has forced may be
passed on at once. -/
def Reply.NeverNames : Reply σ → Prop
  | answer _ _ => True
  | fail fault _ => ∀ name, fault ≠ .unknownName name
  | .force _ _ resume _ => (∀ v state, (resume (.ok v) state).NeverNames) ∧
      ∀ fault state, (∃ state', resume (.error fault) state = .fail fault state') ∨
        (resume (.error fault) state).NeverNames

theorem Reply.neverNames_forceThen {v : Value} {state : σ} {next : Value → σ → Reply σ}
    {scope : Int} (h : ∀ v state, (next v state).NeverNames) :
    (forceThen v state next scope).NeverNames :=
  ⟨h, fun _ state => .inl ⟨state, rfl⟩⟩

/-- The host never claims that a name is unknown. -/
structure Host.NeverNames (host : Host σ) : Prop where
  call : ∀ name args state, (host.call name args state).NeverNames
  display : ∀ channel ∈ host.channel, ∀ text state, Nameless (channel.display text state).1
  input : ∀ channel ∈ host.channel, ∀ prompt state, Nameless (channel.input prompt state).1

/-- It is the name looked up that is unknown. -/
theorem Arena.name_of_fetch {scopes : Arena} {handle : Int} {name unknown : String}
    (h : scopes.fetch handle name = .error (.unknownName unknown)) : unknown = name := by
  rw [fetch] at h
  generalize scopes.size + 1 = steps at h
  induction steps generalizing handle with
  | zero =>
      cases h
      rfl
  | succ steps ih =>
      rw [searchFrom] at h
      split at h
      · cases h
      · split at h
        · cases h
        · exact ih h
        · cases h
          rfl

namespace Eval

/-- One of the trees looks the name up. It was looked at, what it has evaluated before was
evaluated, in the state after that the name is unknown, and nothing has been looked at since. -/
def FailedLookUp (host : Host σ) (trees : List Node) (name : String) (last : Machine σ) : Prop :=
  ∃ n args depth scope before values found, n ∈ trees ∧ n.lookup? = some (name, args) ∧
    before.focus = n.location ∧
    sequence (node host depth) scope args before = .ok values found ∧
    found.scopes.fetch scope name = .error (.unknownName name) ∧ last.focus = found.focus

/-- If from this state the computation finds a name unknown, a look-up in one of the trees has
failed. -/
def Blames (host : Host σ) (trees : List Node) (c : Eval σ α) (m : Machine σ) : Prop :=
  ∀ name last, c m = .error (.unknownName name) last → FailedLookUp host trees name last

section
variable {σ α β : Type} {host : Host σ} {trees more : List Node} {m : Machine σ}

theorem Blames.mono {c : Eval σ α} (h : Blames host trees c m) (hmore : trees ⊆ more) :
    Blames host more c m := by
  intro name last hc
  obtain ⟨n, args, depth, scope, before, values, found, hn, hrest⟩ := h name last hc
  exact ⟨n, args, depth, scope, before, values, found, hmore hn, hrest⟩

theorem Blames.succeeds {c : Eval σ α} (h : c.Succeeds m) : Blames host trees c m := by
  intro name last hc
  obtain ⟨a, middle, ha⟩ := h
  rw [ha] at hc
  cases hc

theorem Blames.bind {c : Eval σ α} {f : α → Eval σ β} (hc : Blames host trees c m)
    (hf : ∀ a middle, c m = .ok a middle → Blames host trees (f a) middle) :
    Blames host trees (c >>= f) m := by
  intro name last hlast
  cases hm : c m with
  | error fault middle =>
      rw [bind_of_error hm] at hlast
      cases hlast
      exact hc name last hm
  | ok a middle =>
      rw [bind_of_ok hm] at hlast
      exact hf a middle hm name last hlast

/-- After a computation that ends in a value. -/
theorem Blames.next {c : Eval σ α} {f : α → Eval σ β} {a : α} {middle : Machine σ}
    (hc : c m = .ok a middle) (hf : Blames host trees (f a) middle) :
    Blames host trees (c >>= f) m := by
  intro name last hlast
  rw [bind_of_ok hc] at hlast
  exact hf name last hlast

theorem blames_throw {fault : Fault} (h : ∀ name, fault ≠ .unknownName name) :
    Blames host trees (throw fault : Eval σ α) m := by
  intro name last hlast
  cases hlast
  exact absurd rfl (h name)

theorem blames_ofExcept {e : Except Fault α} (h : Nameless e) :
    Blames host trees (ofExcept e : Eval σ α) m := by
  cases e with
  | ok a => exact .succeeds ⟨a, m, rfl⟩
  | error fault => exact blames_throw fun name hname => h name (congrArg _ hname)

theorem blames_ofHost {act : σ → Except Fault α × σ} (h : ∀ state, Nameless (act state).1) :
    Blames host trees (ofHost act) m :=
  .bind (.succeeds ⟨_, _, rfl⟩) fun state _ _ => .bind (.succeeds ⟨_, _, rfl⟩) fun _ _ _ =>
    blames_ofExcept (h state)

theorem blames_openScope (parent : Int) : Blames host trees (openScope parent) m := by
  by_cases hp : 0 ≤ parent ∧ parent < m.scopes.size
  · exact .succeeds ⟨_, _, openScope_of_valid hp⟩
  · intro name last hlast
    rw [openScope_of_invalid hp] at hlast
    cases hlast

theorem blames_assign (scope : Int) (name : String) (v : Value) :
    Blames host trees (assign scope name v) m := by
  intro unknown last hlast
  rw [assign_eq, Arena.assign] at hlast
  cases hindex : m.scopes.index? scope <;> rw [hindex] at hlast <;> cases hlast

/-- A look-up in the state after the arguments. -/
theorem blames_fetch {n : Node} {name : String} {args : List Node} {depth : Nat} {scope : Int}
    {before : Machine σ} {values : List Value} (hn : n ∈ trees)
    (hname : n.lookup? = some (name, args)) (hfocus : before.focus = n.location)
    (hargs : sequence (node host depth) scope args before = .ok values m) :
    Blames host trees (fetch scope name) m := by
  intro unknown last hlast
  rw [fetch_eq] at hlast
  cases hfound : m.scopes.fetch scope name with
  | ok v =>
      rw [hfound] at hlast
      cases hlast
  | error fault =>
      rw [hfound] at hlast
      cases hlast
      obtain rfl : unknown = name := Arena.name_of_fetch hfound
      exact ⟨n, args, depth, scope, before, values, m, hn, hname, hfocus, hargs, hfound, rfl⟩

theorem blames_builtin (hhost : host.NeverNames) (b : Builtin) (args : List Value) :
    Blames host trees (b.apply host.channel args) m := by
  cases b with
  | operator o => exact blames_ofExcept (nameless_apply o args)
  | display =>
      refine .bind (blames_ofExcept (.mapM nameless_displayText args)) fun texts middle _ => ?_
      refine .bind (.succeeds ⟨_, _, rfl⟩) fun _ _ _ => .bind (blames_ofHost fun state => ?_)
        fun _ _ _ => .succeeds ⟨_, _, rfl⟩
      cases hchannel : host.channel with
      | none => exact .ok _
      | some channel => exact hhost.display channel hchannel _ state
  | input =>
      refine .bind (blames_ofExcept (nameless_prompt args)) fun prompt middle _ => ?_
      cases hchannel : host.channel with
      | none => exact blames_throw fun _ h => by cases h
      | some channel =>
          exact .bind (blames_ofHost fun state => hhost.input channel hchannel prompt state)
            fun _ _ _ => .succeeds ⟨_, _, rfl⟩

section
variable {among : Node → Prop} {force : Int → Value → Eval σ Value}
  (hforce : ∀ scope v, v.Within among → ∀ m, Blames host trees (force scope v) m)
  (hwithin : ForceAlike among force force)

include hforce hwithin

theorem blames_reply (reply : Reply σ) (hreply : reply.Within among) (hnever : reply.NeverNames) :
    Blames host trees (reply.run force) m := by
  induction reply generalizing m with
  | answer value state => exact .succeeds ⟨_, _, rfl⟩
  | fail fault state => exact .bind (.succeeds ⟨_, _, rfl⟩) fun _ _ _ => blames_throw hnever
  | force value state resume scope ih =>
      obtain ⟨hvalue, hresume⟩ := hreply
      refine .bind (.succeeds ⟨_, _, rfl⟩) fun _ begun _ => ?_
      have hkept (result : Except Fault Value) (middle : Machine σ)
          (hresult : attempt (force scope value) begun = .ok result middle) :
          ∀ v, result = .ok v → v.Within among :=
        (hwithin scope value hvalue).attempt.2 begun result middle hresult
      cases hforced : force scope value begun with
      | ok v middle =>
          have hattempt := attempt_of_ok hforced
          refine .next hattempt (.next (f := fun state => (resume (.ok v) state).run force)
            (a := middle.host) rfl ?_)
          exact ih _ _ (hresume _ _ (hkept _ _ hattempt)) (hnever.1 v middle.host)
      | error fault middle =>
          have hattempt := attempt_of_error hforced
          refine .next hattempt (.next (f := fun state => (resume (.error fault) state).run force)
            (a := middle.host) rfl ?_)
          obtain ⟨state', hpassed⟩ | hown := hnever.2 fault middle.host
          · -- The fault is that of the forced value; the host has changed nothing but its state.
            rw [hpassed]
            intro name last hlast
            cases hlast
            exact hforce scope value hvalue begun name middle hforced
          · exact ih _ _ (hresume _ _ (hkept _ _ hattempt)) hown

theorem blames_call (hadds : host.AddsNoLambda) (hnever : host.NeverNames) (name : String)
    (callee : Value) {args : List Value} (hargs : ∀ b ∈ Value.bodiesAll args, among b)
    (site : Option Location) : Blames host trees (call host force name callee args site) m := by
  unfold call
  split
  · rename_i f
    refine .bind (.succeeds ⟨_, _, rfl⟩) fun _ _ _ => .bind (.succeeds ⟨_, _, rfl⟩) fun _ begun _ =>
      .bind ?_ fun value _ _ => .bind (.succeeds ⟨_, _, rfl⟩) fun _ _ _ =>
      blames_ofExcept (nameless_normalize value)
    cases f with
    | builtin b => exact blames_builtin hnever b args
    | host name =>
        refine .bind (.succeeds ⟨_, _, rfl⟩) fun state _ _ => ?_
        exact blames_reply hforce hwithin _ (hadds among name args state hargs)
          (hnever.call name args state)
  · exact .bind (blames_ofExcept (nameless_kind _)) fun kind _ _ =>
      blames_throw fun _ h => by cases h

end

theorem blames_sequence {depth : Nat} {scope : Int} (nodes : List Node)
    (h : ∀ n ∈ nodes, ∀ m, Blames host (n :: n.subtrees) (node host depth n scope) m) :
    Blames host (Node.subtreesAll nodes) (sequence (node host depth) scope nodes) m := by
  induction nodes generalizing m with
  | nil => exact .succeeds ⟨_, _, rfl⟩
  | cons n nodes ih =>
      obtain ⟨hn, hnodes⟩ := List.forall_mem_cons.1 h
      rw [Node.subtreesAll]
      refine .bind ((hn m).mono (List.subset_append_left _ _)) fun _ middle _ => ?_
      exact .bind ((ih hnodes).mono (List.subset_append_right _ _)) fun _ _ _ =>
        .succeeds ⟨_, _, rfl⟩

theorem blames_forceWith {among : Node → Prop} {depth : Nat}
    (h : ∀ n, among n → ∀ scope m, Blames host trees (node host depth n scope) m) (scope : Int)
    {v : Value} (hv : v.Within among) (m : Machine σ) :
    Blames host trees (forceWith (node host depth) scope v) m := by
  cases v with
  | lambda body =>
      have hbody : among body := hv body List.mem_cons_self
      exact .bind (blames_openScope scope) fun child middle _ =>
        .bind (h body hbody child middle) fun _ _ _ => .succeeds ⟨_, _, rfl⟩
  | _ => exact .succeeds ⟨_, _, rfl⟩

end

section
variable {σ : Type} {host : Host σ} (hadds : host.AddsNoLambda) (hnever : host.NeverNames)

include hadds hnever

/-- A name that an evaluation finds unknown was looked up by its tree or by one below. -/
theorem blames_node (depth : Nat) (n : Node) (scope : Int) (m : Machine σ) :
    Blames host (n :: n.subtrees) (node host depth n scope) m := by
  induction depth generalizing n scope m with
  | zero => exact blames_throw fun _ h => by cases h
  | succ depth ih =>
      have hall : ∀ (parent : Node) (nodes : List Node), parent.subtrees = Node.subtreesAll nodes →
          ∀ (scope : Int) m, Blames host (parent :: parent.subtrees)
            (sequence (node host depth) scope nodes) m := by
        intro parent nodes hbelow scope m
        rw [hbelow]
        exact (blames_sequence nodes fun n _ => ih n scope).mono (List.subset_cons_self _ _)
      cases n with
      | assign name value =>
          refine .bind ((ih value scope m).mono (List.subset_cons_self _ _)) fun v _ _ => ?_
          exact .bind (.succeeds ⟨_, _, rfl⟩) fun _ _ _ => .bind (blames_assign scope name _)
            fun _ _ _ => .succeeds ⟨_, _, rfl⟩
      | block children =>
          exact .bind (.succeeds ⟨_, _, rfl⟩) fun _ _ _ => .bind (blames_openScope scope)
            fun child middle _ => .bind (hall _ children rfl child middle)
            fun _ _ _ => .succeeds ⟨_, _, rfl⟩
      | list children =>
          exact .bind (.succeeds ⟨_, _, rfl⟩) fun _ middle _ =>
            .bind (hall _ children rfl scope middle) fun _ _ _ => .succeeds ⟨_, _, rfl⟩
      | literal value => exact .succeeds ⟨_, _, rfl⟩
      | var name location =>
          refine .bind (.succeeds ⟨_, _, rfl⟩) fun _ looked hlooked => .bind (.bind ?_
            fun value _ _ => ?_) fun _ _ _ => .succeeds ⟨_, _, rfl⟩
          · cases hlooked
            have hargs (here : Machine σ) :
                sequence (node host depth) scope [] here = .ok [] here := rfl
            exact blames_fetch List.mem_cons_self rfl rfl (hargs _)
          · split
            · exact .succeeds ⟨_, _, rfl⟩
            · exact .bind (blames_ofExcept (nameless_kind _)) fun _ _ _ =>
                blames_throw fun _ h => by cases h
      | call name args site =>
          have hforce : ForceAlike (· ∈ Node.subtreesAll args) (forceWith (node host depth))
              (forceWith (node host depth)) :=
            forceAlike_forceWith (fun n _ => alikeAt_node hadds depth n)
              fun n b hn hb => Node.subtreesAll_trans args hn hb
          refine .bind (.succeeds ⟨_, _, rfl⟩) fun _ looked hlooked =>
            .bind (hall _ args rfl scope looked) fun values middle hvalues => .bind ?_
            fun callee _ _ => .bind (.succeeds ⟨_, _, rfl⟩) fun _ _ _ => .bind ?_
            fun _ _ _ => .succeeds ⟨_, _, rfl⟩
          · cases hlooked
            exact blames_fetch List.mem_cons_self rfl rfl hvalues
          · refine blames_call (fun scope v hv => blames_forceWith ?_ scope hv) hforce hadds hnever
              name callee ?_ site
            · intro body hbody scope m
              refine (ih body scope m).mono (List.cons_subset.2 ⟨List.mem_cons_of_mem _ hbody, ?_⟩)
              exact fun b hb => List.mem_cons_of_mem _ (Node.subtreesAll_trans args hbody hb)
            · rw [Value.bodiesAll_arguments, Value.bodies_collapse]
              exact (agree_sequence scope args fun n _ => alikeAt_node hadds depth n).2 looked
                values middle hvalues
      | lambda body => exact .succeeds ⟨_, _, rfl⟩

theorem blames_value (depth : Nat) (n : Node) (scope : Int) (m : Machine σ) :
    Blames host (n :: n.subtrees) (value host depth n scope) m :=
  .bind (blames_node hadds hnever depth n scope m) fun _ _ _ => .succeeds ⟨_, _, rfl⟩

end

end Eval

namespace Node

mutual

/-- What a run looked at last when it has evaluated the tree and no lambda on the way. -/
def lastLook : Node → Option Location
  | block children | list children => lastLookAll none children
  | literal _ | lambda _ => none
  | var _ location | call _ _ location => location
  | assign _ value => lastLook value

def lastLookAll (before : Option Location) : List Node → Option Location
  | [] => before
  | n :: ns => lastLookAll (lastLook n) ns

end

end Node

/-- No function of the host has a value forced. -/
def Host.NeverForces (host : Host σ) : Prop :=
  ∀ name args state v state' resume scope, host.call name args state ≠ .force v state' resume scope

namespace Eval

/-- If from this state the computation ends in a value, it has looked at this place last. -/
def EndsAt (place : Option Location) (c : Eval σ α) (m : Machine σ) : Prop :=
  ∀ a last, c m = .ok a last → last.focus = place

section
variable {σ α β : Type} {host : Host σ} {place : Option Location} {m : Machine σ}

theorem EndsAt.pure {a : α} (h : m.focus = place) : EndsAt place (Pure.pure a : Eval σ α) m := by
  intro b last hb
  cases hb
  exact h

theorem EndsAt.bind {c : Eval σ α} {f : α → Eval σ β}
    (hf : ∀ a middle, c m = .ok a middle → EndsAt place (f a) middle) :
    EndsAt place (c >>= f) m := by
  intro b last hlast
  cases hm : c m with
  | error fault middle =>
      rw [bind_of_error hm] at hlast
      cases hlast
  | ok a middle =>
      rw [bind_of_ok hm] at hlast
      exact hf a middle hm b last hlast

theorem endsAt_ofExcept (e : Except Fault α) : EndsAt m.focus (ofExcept e) m := by
  intro a last ha
  cases e with
  | ok b =>
      cases ha
      rfl
  | error fault => cases ha

theorem endsAt_readVariable (scope : Int) (name : String) :
    EndsAt m.focus (readVariable scope name) m := by
  refine .bind fun value found hfound => ?_
  have hfocus : found.focus = m.focus :=
    endsAt_ofExcept (m.scopes.fetch scope name) value found hfound
  split
  · exact .pure hfocus
  · refine .bind fun kind _ _ v last hv => ?_
    cases hv

theorem endsAt_openScope (parent : Int) : EndsAt m.focus (openScope parent) m := by
  intro child last hchild
  by_cases hp : 0 ≤ parent ∧ parent < m.scopes.size
  · rw [openScope_of_valid hp] at hchild
    cases hchild
    rfl
  · rw [openScope_of_invalid hp] at hchild
    cases hchild

theorem endsAt_assign (scope : Int) (name : String) (v : Value) :
    EndsAt m.focus (assign scope name v) m := by
  intro u last hlast
  rw [assign_eq] at hlast
  split at hlast
  · cases hlast
    rfl
  · cases hlast

theorem endsAt_apply (hhost : host.NeverForces) (force : Int → Value → Eval σ Value)
    (a : Activation) (f : Function) : EndsAt m.focus (apply host force a f) m := by
  intro v last hlast
  cases f with
  | builtin b =>
      obtain ⟨l, effects, state, hb⟩ | ⟨fault, effects, state, hb⟩ :=
        builtin_ends host.channel b a.args m
      · cases hb.symm.trans hlast
        rfl
      · cases hb.symm.trans hlast
  | host name =>
      have happly : apply host force a (.host name) m =
        (host.call name a.args m.host).run force m := rfl
      rw [happly] at hlast
      cases hreply : host.call name a.args m.host with
      | answer value state =>
          rw [hreply] at hlast
          cases hlast
          rfl
      | fail fault state =>
          rw [hreply] at hlast
          cases hlast
      | force v state resume scope =>
          exact absurd hreply (hhost name a.args m.host v state resume scope)

theorem endsAt_call (hhost : host.NeverForces) (force : Int → Value → Eval σ Value) (name : String)
    (callee : Value) (args : List Value) (site : Option Location) :
    EndsAt m.focus (call host force name callee args site) m := by
  unfold call
  split
  · rename_i f
    refine .bind fun _ noted hnoted => .bind fun _ begun hbegun => .bind fun value ended hended =>
      .bind fun _ left hleft => ?_
    cases hnoted
    cases hbegun
    cases hleft
    have hfocus := endsAt_apply hhost force ⟨name, args, site⟩ f value ended hended
    exact (show ended.focus = m.focus from hfocus) ▸ endsAt_ofExcept value.normalize
  · refine .bind fun kind _ _ v last hv => ?_
    cases hv

end

theorem endsAt_sequence {host : Host σ} {depth : Nat} {scope : Int} (nodes : List Node)
    (h : ∀ n ∈ nodes, ∀ m, EndsAt n.lastLook (node host depth n scope) m) (m : Machine σ) :
    EndsAt (Node.lastLookAll m.focus nodes) (sequence (node host depth) scope nodes) m := by
  induction nodes generalizing m with
  | nil => exact .pure rfl
  | cons n nodes ih =>
      obtain ⟨hn, hnodes⟩ := List.forall_mem_cons.1 h
      refine .bind fun value middle hvalue => .bind fun values last hvalues => .pure ?_
      rw [ih hnodes middle values last hvalues, hn m value middle hvalue, Node.lastLookAll]

theorem endsAt_node {host : Host σ} (hhost : host.NeverForces) (depth : Nat) (n : Node)
    (scope : Int) (m : Machine σ) : EndsAt n.lastLook (node host depth n scope) m := by
  induction depth generalizing n scope m with
  | zero => exact fun v last h => by cases h
  | succ depth ih =>
      cases n with
      | assign name value =>
          refine .bind fun v middle hv => .bind fun _ noted hnoted => .bind fun _ last hlast =>
            .pure ?_
          cases hnoted
          rw [endsAt_assign _ _ _ _ _ hlast]
          exact ih value scope m v middle hv
      | block children =>
          refine .bind fun _ looked hlooked => .bind fun child opened hopened =>
            .bind fun values last hvalues => .pure ?_
          cases hlooked
          rw [endsAt_sequence children (fun n _ => ih n child) opened values last hvalues,
            endsAt_openScope _ _ _ hopened]
          rfl
      | list children =>
          refine .bind fun _ looked hlooked => .bind fun values last hvalues => .pure ?_
          cases hlooked
          exact endsAt_sequence children (fun n _ => ih n scope) _ values last hvalues
      | literal value =>
          refine .bind fun _ looked hlooked => .pure ?_
          cases hlooked
          rfl
      | var name location =>
          refine .bind fun _ looked hlooked => .bind fun v last hv => .pure ?_
          cases hlooked
          exact endsAt_readVariable scope name v last hv
      | call name args site =>
          refine .bind fun _ looked hlooked => .bind fun values middle hvalues =>
            .bind fun callee found hfound => .bind fun _ back hback => .bind fun v last hv =>
            .pure ?_
          cases hback
          exact endsAt_call hhost _ name callee _ site v last hv
      | lambda body =>
          refine .bind fun _ looked hlooked => .pure ?_
          cases hlooked
          rfl

end Eval

/-- The evaluation behind a run that failed with a fault. -/
theorem exists_evaluation_of_run {host : Host σ} {given : Bindings} {source : String} {state : σ}
    {limit : Nat} {report : Report} {fault : Fault}
    (h : (run host given source state limit).result = .error (.report report))
    (hcause : report.cause = .fault fault) :
    ∃ tree last, parse source limit = .ok tree ∧
      Eval.value host limit tree 0 (.prepared host given source state) = .error fault last ∧
      Report.ofFault host.functionText source last fault = .ok report ∧
      run host given source state limit = .failed last report := by
  obtain ⟨e, -, rfl⟩ | ⟨tree, fault', last, hparse, hlast, hreport, hrun⟩ := run_report_cases h
  · rw [Report.cause_ofSourceError] at hcause
    cases hcause
  · obtain rfl := Failure.fault.inj ((Report.of_ofFault hreport).1.symm.trans hcause)
    exact ⟨tree, last, hparse, hlast, hreport, hrun⟩

/-- With a host that has no lambdas of its own and never claims that a name is unknown: if a run
finds a name unknown, a variable or a call of this name stands in the source text. When nothing is
evaluated before the look-up, that is at a variable and at a call without arguments, the report
points at the name. Otherwise it points to what was looked at last while the arguments were
evaluated; without forced lambdas the tree alone tells what that is, and it may be nothing. -/
theorem unknown_name_reported {σ : Type} (host : Host σ) (hadds : host.AddsNoLambda)
    (hnever : host.NeverNames) (given : Bindings) (source : String) (state : σ) (limit : Nat)
    (report : Report) (name : String)
    (h : (run host given source state limit).result = .error (.report report))
    (hcause : report.cause = .fault (.unknownName name)) :
    ∃ tree n args l, parse source limit = .ok tree ∧ n ∈ tree :: tree.subtrees ∧
      n.lookup? = some (name, args) ∧ n.location = some l ∧ StandsAt source name l ∧
      (args = [] → report.location = some l) ∧
      (host.NeverForces →
        report.location = (Node.lastLookAll (some l) args).bind Location.pointed?) ∧
      ∃ depth scope before values last, before.focus = some l ∧
        Eval.sequence (Eval.node host depth) scope args before = .ok values last ∧
        report.location = last.focus.bind Location.pointed? := by
  obtain ⟨tree, last, hparse, hlast, hreport, -⟩ := exists_evaluation_of_run h hcause
  have hlocation := (Report.of_ofFault hreport).2.1
  obtain ⟨n, args, depth, scope, before, values, found, hn, hname, hfocus, hargs, -, hfound⟩ :=
    Eval.blames_value hadds hnever limit tree 0 _ name last hlast
  obtain ⟨l, hl, hstands⟩ := standsAt_of_parse hparse hn hname
  rw [hl] at hfocus
  rw [hfound] at hlocation
  refine ⟨tree, n, args, l, hparse, hn, hname, hl, hstands, ?_, fun hforces => ?_, depth, scope,
    before, values, found, hfocus, hargs, hlocation⟩
  · rintro rfl
    cases hargs
    rw [hlocation, hfocus]
    exact hstands.pointed?
  · have hend := Eval.endsAt_sequence args (fun n _ => Eval.endsAt_node hforces depth n scope)
      before values found hargs
    rw [hlocation, hend, hfocus]

theorem Host.neverNames_repeating : Host.repeating.NeverNames where
  call name args state := by
    simp only [repeating]
    split
    · trivial
    · exact Reply.neverNames_forceThen fun _ _ => trivial
    · exact Reply.neverNames_forceThen fun _ _ => Reply.neverNames_forceThen fun _ _ => trivial
    · exact fun _ h => by cases h
  display channel hchannel := by cases hchannel
  input channel hchannel := by cases hchannel

/-- A name in a lambda that a function of the host has forced. -/
theorem unknown_name_reported_sample :
    let source := "x <- twice(\nLAMBDA nope)"
    Host.repeating.AddsNoLambda ∧ Host.repeating.NeverNames ∧
    ∃ report, (run Host.repeating [] source () 30).result = .error (.report report) ∧
      report.cause = .fault (.unknownName "nope") ∧ report.location = some ⟨some 2, some 8⟩ ∧
      ∃ tree n args l, parse source 30 = .ok tree ∧ n ∈ tree :: tree.subtrees ∧
        n.lookup? = some ("nope", args) ∧ n.location = some l ∧ StandsAt source "nope" l ∧
        (args = [] → report.location = some l) ∧
        (Host.repeating.NeverForces →
          report.location = (Node.lastLookAll (some l) args).bind Location.pointed?) ∧
        ∃ depth scope before values last, before.focus = some l ∧
          Eval.sequence (Eval.node Host.repeating depth) scope args before = .ok values last ∧
          report.location = last.focus.bind Location.pointed? := by
  intro source
  have hreport : (run Host.repeating [] source () 30).report?.map
      (fun report => (report.cause, report.location)) =
        some (.fault (.unknownName "nope"), some ⟨some 2, some 8⟩) := by
    decide +kernel
  obtain ⟨report, hreport, heq⟩ := Option.map_eq_some_iff.1 hreport
  obtain ⟨hcause, hlocation⟩ := Prod.mk.inj heq
  have hresult := Outcome.report?_eq_some_iff.1 hreport
  exact ⟨Host.addsNoLambda_repeating, Host.neverNames_repeating, report, hresult, hcause,
    hlocation, unknown_name_reported Host.repeating Host.addsNoLambda_repeating
      Host.neverNames_repeating [] source () 30 report "nope" hresult hcause⟩

/-- An unknown function that is called with arguments is reported nowhere, or at an operator in its
arguments. -/
theorem unknown_function_reported_elsewhere :
    let place (source : String) : Option (Failure × Option Location) :=
      (run (Host.none : Host Unit) [] source ()).report?.map fun report =>
        (report.cause, report.location)
    place "nope()" = some (.fault (.unknownName "nope"), some ⟨some 1, some 1⟩) ∧
    place "nope(1)" = some (.fault (.unknownName "nope"), none) ∧
    place "nope(1 + 2)" = some (.fault (.unknownName "nope"), some ⟨some 1, some 8⟩) := by
  decide +kernel

end Pseudocode
