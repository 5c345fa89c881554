import Pseudocode.Proofs.Places

/-!
# Relations that evaluation respects

An evaluation changes its state by few elementary steps: it looks at a node, looks a name up,
opens a scope, binds a name, and does things that neither scopes nor places bear on. Of a relation
between states it is enough to know that these steps respect it, for the trees that can come to be
evaluated; then evaluation does: from related states it ends with the same value or in the same
fault, in related states.

The trees that can come to be evaluated are closed under taking trees below them, and the lambdas
of the host have bodies among them.
-/
namespace Pseudocode

/-- The host has lambdas of such bodies only: those that it was given, and perhaps its own. -/
def Host.KeepsTo (among : Node → Prop) (host : Host σ) : Prop :=
  ∀ name args state, (∀ b ∈ Value.bodiesAll args, among b) →
    (host.call name args state).Within among

/-- All lambdas that the values are or hold have such bodies. -/
def Value.AllWithin (among : Node → Prop) (values : List Value) : Prop :=
  ∀ b ∈ bodiesAll values, among b

namespace Eval

section
variable {σ α : Type} (R : Machine σ → Machine σ → Prop)

/-- The same value, of which something is known, or the same fault, in related states. -/
inductive EndTogether (P : α → Prop) :
    EStateM.Result Fault (Machine σ) α → EStateM.Result Fault (Machine σ) α → Prop
  | ok {a : α} {m m' : Machine σ} : P a → R m m' → EndTogether P (.ok a m) (.ok a m')
  | error (fault : Fault) {m m' : Machine σ} : R m m' →
      EndTogether P (.error fault m) (.error fault m')

/-- From related states the computation ends together. -/
def Respects (P : α → Prop) (c : Eval σ α) : Prop :=
  ∀ m m', R m m' → EndTogether R P (c m) (c m')

/-- A step that has nothing to do with scopes and places. -/
def Aside (g : Machine σ → Machine σ) : Prop :=
  ∀ m scopes focus, g { m with scopes, focus } = { g m with scopes, focus }

/-- The elementary steps respect the relation when only such trees are evaluated. -/
structure Steady (among : Node → Prop) : Prop where
  below : ∀ {n b}, among n → b ∈ n.subtrees → among b
  host : ∀ {m m'}, R m m' → m.host = m'.host
  aside : ∀ {g}, Aside g → ∀ {m m'}, R m m' → R (g m) (g m')
  look : ∀ {n}, among n → Respects R (fun _ => True) (lookAt n.location)
  openScope : ∀ parent, Respects R (fun _ => True) (openScope parent)
  fetch : ∀ {n name args}, among n → n.lookup? = some (name, args) →
    ∀ scope, Respects R (fun _ => True) (fetch scope name)
  assign : ∀ scope name value, Respects R (fun _ => True) (assign scope name value)

end

section
variable {σ α β : Type} {R : Machine σ → Machine σ → Prop} {P : α → Prop} {Q : β → Prop}

theorem Aside.keeps {g : Machine σ → Machine σ} (hg : Aside g) (m : Machine σ) :
    (g m).scopes = m.scopes ∧ (g m).focus = m.focus := by
  have h : g m = { g m with scopes := m.scopes, focus := m.focus } := hg m m.scopes m.focus
  constructor <;> rw [h]

theorem respects_pure {a : α} (h : P a) : Respects R P (pure a) := fun _ _ hm => .ok h hm

theorem respects_throw (fault : Fault) : Respects R P (throw fault) :=
  fun _ _ hm => .error fault hm

theorem Respects.bind {c : Eval σ α} {f : α → Eval σ β} (hc : Respects R P c)
    (hf : ∀ a, P a → Respects R Q (f a)) : Respects R Q (c >>= f) := by
  intro m m' hm
  have hend := hc m m' hm
  generalize hresult : c m = result at hend
  generalize hresult' : c m' = result' at hend
  cases hend with
  | ok hP hlast =>
      rw [bind_of_ok hresult, bind_of_ok hresult']
      exact hf _ hP _ _ hlast
  | error fault hlast =>
      rw [bind_of_error hresult, bind_of_error hresult']
      exact .error fault hlast

theorem Respects.attempt {c : Eval σ α} (hc : Respects R P c) :
    Respects R (fun result => ∀ a, result = .ok a → P a) (attempt c) := by
  intro m m' hm
  have hend := hc m m' hm
  generalize hresult : c m = result at hend
  generalize hresult' : c m' = result' at hend
  cases hend with
  | ok hP hlast =>
      rw [attempt_of_ok hresult, attempt_of_ok hresult']
      exact .ok (fun b hb => by cases hb; exact hP) hlast
  | error fault hlast =>
      rw [attempt_of_error hresult, attempt_of_error hresult']
      exact .ok (fun b hb => by cases hb) hlast

theorem respects_ofExcept {e : Except Fault α} (h : ∀ a, e = .ok a → P a) :
    Respects R P (ofExcept e) := by
  cases e with
  | error fault => exact respects_throw fault
  | ok a => exact respects_pure (h a rfl)

theorem respects_any (e : Except Fault α) : Respects R (fun _ => True) (ofExcept e) :=
  respects_ofExcept fun _ _ => trivial

end

namespace Steady

variable {σ α : Type} {R : Machine σ → Machine σ → Prop} {among : Node → Prop}
  (hR : Steady R among)
include hR

theorem respects_modify {g : Machine σ → Machine σ} (hg : Aside g) :
    Respects R (fun _ => True) (modify g) :=
  fun _ _ hm => .ok trivial (hR.aside hg hm)

theorem respects_hostState : Respects R (fun _ => True) hostState := by
  intro m m' hm
  show EndTogether R _ (.ok m.host m) (.ok m'.host m')
  rw [← hR.host hm]
  exact .ok trivial hm

theorem respects_ofHost (f : σ → Except Fault α × σ) : Respects R (fun _ => True) (ofHost f) :=
  hR.respects_hostState.bind fun _ _ => (hR.respects_modify fun _ _ _ => rfl).bind fun _ _ =>
    respects_any _

theorem respects_note (event : TraceEvent) : Respects R (fun _ => True) (note event) :=
  hR.respects_modify fun _ _ _ => rfl

theorem respects_visit {n : Node} (hn : among n) (scope : Int) :
    Respects R (fun _ => True) (visit n scope) :=
  (hR.look hn).bind fun _ _ => hR.respects_note _

theorem respects_builtin (channel : Option (Channel σ)) (b : Builtin) (args : List Value) :
    Respects R (Value.Within among) (b.apply channel args) := by
  cases b with
  | operator o =>
      refine respects_ofExcept fun v hv => ?_
      obtain ⟨l, rfl⟩ := Operator.literal_of_apply hv
      exact fun b hb => by cases hb
  | display =>
      exact (respects_any _).bind fun texts _ => (hR.respects_modify fun _ _ _ => rfl).bind
        fun _ _ => (hR.respects_ofHost _).bind fun _ _ => respects_pure fun b hb => by cases hb
  | input =>
      refine (respects_any _).bind fun prompt _ => ?_
      cases channel with
      | none => exact respects_throw _
      | some channel =>
          exact (hR.respects_ofHost _).bind fun answer _ => respects_pure fun b hb => by cases hb

variable {force : Int → Value → Eval σ Value}
  (hforce : ∀ scope v, v.Within among → Respects R (Value.Within among) (force scope v))
include hforce

theorem respects_reply (reply : Reply σ) (h : reply.Within among) :
    Respects R (Value.Within among) (reply.run force) := by
  induction reply with
  | answer value state =>
      exact (hR.respects_modify fun _ _ _ => rfl).bind fun _ _ => respects_pure h
  | fail fault state =>
      exact (hR.respects_modify fun _ _ _ => rfl).bind fun _ _ => respects_throw fault
  | force value state resume scope ih =>
      obtain ⟨hvalue, hresume⟩ := h
      refine (hR.respects_modify fun _ _ _ => rfl).bind fun _ _ => ?_
      refine (hforce scope value hvalue).attempt.bind fun result hresult => ?_
      exact hR.respects_hostState.bind fun s _ => ih result s (hresume result s hresult)

theorem respects_call {host : Host σ} (hhost : host.KeepsTo among) (name : String)
    (callee : Value) {args : List Value} (hargs : Value.AllWithin among args)
    (site : Option Location) :
    Respects R (Value.Within among) (call host force name callee args site) := by
  unfold call
  split
  · rename_i f
    have happly : Respects R (Value.Within among) (apply host force ⟨name, args, site⟩ f) := by
      cases f with
      | builtin b => exact hR.respects_builtin host.channel b args
      | host name =>
          exact hR.respects_hostState.bind fun s _ =>
            hR.respects_reply hforce _ (hhost name args s hargs)
    refine (hR.respects_note _).bind fun _ _ => ?_
    refine (hR.respects_modify fun _ _ _ => rfl).bind fun _ _ => happly.bind fun v hv => ?_
    refine (hR.respects_modify fun _ _ _ => rfl).bind fun _ _ => respects_ofExcept fun w hw => ?_
    rw [Value.Within, Value.bodies_normalize v w hw]
    exact hv
  · exact (respects_any _).bind fun _ _ => respects_throw _

end Steady

/-- The evaluator respects the relation on such trees, and the lambdas that come of them have
bodies among such trees. -/
def RespectsOn (R : Machine σ → Machine σ → Prop) (among : Node → Prop)
    (evaluate : Node → Int → Eval σ (Option Value)) : Prop :=
  ∀ n scope, among n →
    Respects R (fun value => Value.AllWithin among value.toList) (evaluate n scope)

section
variable {σ : Type} {R : Machine σ → Machine σ → Prop} {among : Node → Prop}
  {evaluate : Node → Int → Eval σ (Option Value)}

theorem respects_sequence (h : RespectsOn R among evaluate) (scope : Int) (nodes : List Node)
    (hnodes : ∀ n ∈ nodes, among n) :
    Respects R (Value.AllWithin among) (sequence evaluate scope nodes) := by
  induction nodes with
  | nil => exact respects_pure fun b hb => by cases hb
  | cons n ns ih =>
      obtain ⟨hn, hns⟩ := List.forall_mem_cons.1 hnodes
      refine (h n scope hn).bind fun value hvalue => (ih hns).bind fun values hvalues => ?_
      refine respects_pure fun b hb => ?_
      rw [Value.bodiesAll_append] at hb
      exact (List.mem_append.1 hb).elim (hvalue b) (hvalues b)

theorem within_collapse {values : List Value} (h : Value.AllWithin among values) :
    (Value.collapse values).Within among := by
  rwa [Value.Within, Value.bodies_collapse]

theorem allWithin_some {v : Value} (h : v.Within among) :
    Value.AllWithin among (some v).toList := by
  rwa [Option.toList_some, Value.AllWithin, Value.bodiesAll_singleton]

namespace Steady

variable (hR : Steady R among)
include hR

theorem respects_forceWith (h : RespectsOn R among evaluate) (scope : Int) (v : Value)
    (hv : v.Within among) : Respects R (Value.Within among) (forceWith evaluate scope v) := by
  cases v with
  | lambda body =>
      refine (hR.openScope scope).bind fun child _ => ?_
      exact (h body child (hv body List.mem_cons_self)).bind fun value hvalue =>
        respects_pure (within_collapse hvalue)
  | _ => exact respects_pure hv

theorem respects_readVariable {n : Node} {name : String} {args : List Node} (hn : among n)
    (hname : n.lookup? = some (name, args)) (scope : Int) :
    Respects R (Value.Within among) (readVariable scope name) := by
  refine (hR.fetch hn hname scope).bind fun value _ => ?_
  cases value with
  | literal l | derived l object => exact respects_pure fun b hb => by cases hb
  | _ => exact (respects_any _).bind fun kind _ => respects_throw _

theorem among_children {n : Node} {children : List Node} (hn : among n)
    (h : n.subtrees = Node.subtreesAll children) : ∀ b ∈ children, among b :=
  fun b hb => hR.below hn (h ▸ Node.mem_subtreesAll.2 ⟨b, hb, .inl rfl⟩)

/-- One activation. -/
theorem respectsOn_level {host : Host σ} (hhost : host.KeepsTo among)
    (h : RespectsOn R among evaluate) : RespectsOn R among (level host evaluate) := by
  intro n scope hn
  cases n with
  | assign name value =>
      refine (h value scope (hR.below hn List.mem_cons_self)).bind fun v _ => ?_
      exact (hR.respects_note _).bind fun _ _ => (hR.assign scope name _).bind fun _ _ =>
        respects_pure fun b hb => by cases hb
  | block children =>
      refine (hR.respects_visit hn scope).bind fun _ _ =>
        (hR.openScope scope).bind fun child _ => ?_
      exact (respects_sequence h child children (hR.among_children hn rfl)).bind
        fun values hvalues => respects_pure (allWithin_some (within_collapse hvalues))
  | list children =>
      refine (hR.respects_visit hn scope).bind fun _ _ => ?_
      exact (respects_sequence h scope children (hR.among_children hn rfl)).bind
        fun values hvalues => respects_pure (allWithin_some (within_collapse hvalues))
  | literal value =>
      exact (hR.respects_visit hn scope).bind fun _ _ => respects_pure fun b hb => by cases hb
  | var name location =>
      refine (hR.respects_visit hn scope).bind fun _ _ => ?_
      exact (hR.respects_readVariable hn rfl scope).bind fun v hv =>
        respects_pure (allWithin_some hv)
  | call name args site =>
      refine (hR.respects_visit hn scope).bind fun _ _ => ?_
      refine (respects_sequence h scope args (hR.among_children hn rfl)).bind
        fun values hvalues => ?_
      refine (hR.fetch hn rfl scope).bind fun callee _ => (hR.look hn).bind fun _ _ => ?_
      have harguments : Value.AllWithin among (Value.collapse values).arguments := by
        rw [Value.AllWithin, Value.bodiesAll_arguments]
        exact within_collapse hvalues
      exact (hR.respects_call (hR.respects_forceWith h) hhost name callee harguments site).bind
        fun v hv => respects_pure (allWithin_some hv)
  | lambda body =>
      refine (hR.respects_visit hn scope).bind fun _ _ =>
        respects_pure (allWithin_some fun b hb => ?_)
      obtain rfl := List.mem_singleton.1 hb
      exact hR.below hn List.mem_cons_self

theorem respectsOn_node {host : Host σ} (hhost : host.KeepsTo among) (depth : Nat) :
    RespectsOn R among (node host depth) := by
  induction depth with
  | zero => exact fun n scope _ => respects_throw .tooDeep
  | succ depth ih =>
      intro n scope hn
      rw [node]
      exact hR.respectsOn_level hhost ih n scope hn

theorem respects_value {host : Host σ} (hhost : host.KeepsTo among) (depth : Nat) {n : Node}
    (hn : among n) (scope : Int) :
    Respects R (Value.Within among) (value host depth n scope) :=
  (hR.respectsOn_node hhost depth n scope hn).bind fun _ h => respects_pure (within_collapse h)

end Steady

end

end Eval

end Pseudocode
