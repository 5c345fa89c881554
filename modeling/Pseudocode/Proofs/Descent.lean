import Pseudocode.Proofs.Dispatch
import Pseudocode.Proofs.Shadowing
import Pseudocode.Run

/-!
# Evaluation goes down its tree

A host function may have lambdas forced, and a forced lambda is a value, no part of the
tree that is evaluated at that place. Still evaluation ends. A variable never reads a
lambda back, so lambdas travel through arguments and results of calls alone, and every
lambda that is held by the value of a tree has its body below that tree. So a call has
only trees forced that stand below it, and the evaluation of a tree never nests deeper
than the tree is high.

The host may do with lambdas what it likes as long as it has none of its own: it hands
on, or has forced, those that it was given.
-/
namespace Pseudocode

namespace Node

mutual

/-- The trees that stand below a tree. -/
def subtrees : Node → List Node
  | block children | list children | call _ children _ => subtreesAll children
  | literal _ | var _ _ => []
  | assign _ value => value :: subtrees value
  | lambda body => body :: subtrees body

def subtreesAll : List Node → List Node
  | [] => []
  | n :: ns => n :: subtrees n ++ subtreesAll ns

end

theorem mem_subtreesAll {b : Node} {ns : List Node} :
    b ∈ subtreesAll ns ↔ ∃ n ∈ ns, b = n ∨ b ∈ n.subtrees := by
  induction ns with
  | nil => simp [subtreesAll]
  | cons n ns ih => simp [subtreesAll, ih, or_assoc]

mutual

theorem subtrees_trans {b c : Node} : (n : Node) → b ∈ n.subtrees → c ∈ b.subtrees → c ∈ n.subtrees
  | block children, hb, hc | list children, hb, hc | call _ children _, hb, hc =>
      subtreesAll_trans children hb hc
  | literal _, hb, _ | var _ _, hb, _ => by cases hb
  | assign _ value, hb, hc => by
      rcases List.mem_cons.1 hb with rfl | hb
      · exact List.mem_cons_of_mem _ hc
      · exact List.mem_cons_of_mem _ (subtrees_trans value hb hc)
  | lambda body, hb, hc => by
      rcases List.mem_cons.1 hb with rfl | hb
      · exact List.mem_cons_of_mem _ hc
      · exact List.mem_cons_of_mem _ (subtrees_trans body hb hc)

theorem subtreesAll_trans {b c : Node} :
    (ns : List Node) → b ∈ subtreesAll ns → c ∈ b.subtrees → c ∈ subtreesAll ns
  | [], hb, _ => by cases hb
  | n :: ns, hb, hc => by
      rcases List.mem_append.1 hb with hb | hb
      · apply List.mem_append_left
        rcases List.mem_cons.1 hb with rfl | hb
        · exact List.mem_cons_of_mem _ hc
        · exact List.mem_cons_of_mem _ (subtrees_trans n hb hc)
      · exact List.mem_append_right _ (subtreesAll_trans ns hb hc)

end

mutual

theorem height_lt_of_mem_subtrees {b : Node} : (n : Node) → b ∈ n.subtrees → b.height < n.height
  | block children, hb | list children, hb | call _ children _, hb =>
      Nat.lt_succ_of_le (height_le_of_mem_subtreesAll children hb)
  | literal _, hb | var _ _, hb => by cases hb
  | assign _ value, hb => by
      rw [height]
      rcases List.mem_cons.1 hb with rfl | hb
      · omega
      · have := height_lt_of_mem_subtrees value hb
        omega
  | lambda body, hb => by
      rw [height]
      rcases List.mem_cons.1 hb with rfl | hb
      · omega
      · have := height_lt_of_mem_subtrees body hb
        omega

theorem height_le_of_mem_subtreesAll {b : Node} :
    (ns : List Node) → b ∈ subtreesAll ns → b.height ≤ heightAll ns
  | [], hb => by cases hb
  | n :: ns, hb => by
      rw [heightAll]
      rcases List.mem_append.1 hb with hb | hb
      · rcases List.mem_cons.1 hb with rfl | hb
        · omega
        · have := height_lt_of_mem_subtrees n hb
          omega
      · have := height_le_of_mem_subtreesAll ns hb
        omega

end

end Node

namespace Value

mutual

/-- The bodies of the lambdas that a value is, or holds at any depth of its lists. -/
def bodies : Value → List Node
  | lambda body => [body]
  | list items | tuple items | derivedList items _ => bodiesAll items
  | literal _ | function _ | integer _ | nothing | foreign _ | derived _ _ => []

def bodiesAll : List Value → List Node
  | [] => []
  | v :: vs => bodies v ++ bodiesAll vs

end

@[simp] theorem bodiesAll_singleton (v : Value) : bodiesAll [v] = v.bodies :=
  List.append_nil v.bodies

theorem bodiesAll_append (vs ws : List Value) :
    bodiesAll (vs ++ ws) = bodiesAll vs ++ bodiesAll ws := by
  induction vs with
  | nil => rfl
  | cons v vs ih => simp [bodiesAll, ih]

theorem bodies_collapse (vs : List Value) : (collapse vs).bodies = bodiesAll vs := by
  match vs with
  | [] => rfl
  | [v] => exact (bodiesAll_singleton v).symm
  | v :: w :: vs => rfl

theorem bodiesAll_arguments (v : Value) : bodiesAll v.arguments = v.bodies := by
  cases v <;> simp [arguments, bodies]

mutual

theorem bodies_normalize : (v : Value) → (w : Value) → v.normalize = .ok w → w.bodies = v.bodies
  | nothing, w, h => by
      cases h
      rfl
  | integer n, w, h => by
      rw [normalize] at h
      split at h
      · cases h
        rfl
      · cases h
  | tuple items, w, h | list items, w, h | derivedList items _, w, h => by
      rw [normalize] at h
      cases hall : normalizeAll items with
      | error fault =>
          rw [hall] at h
          cases h
      | ok results =>
          rw [hall] at h
          cases h
          exact bodies_normalizeAll items results hall
  | literal _, w, h | lambda _, w, h | function _, w, h | foreign _, w, h | derived _ _, w, h => by
      cases h
      rfl

theorem bodies_normalizeAll : (vs : List Value) → (ws : List Value) →
    normalizeAll vs = .ok ws → bodiesAll ws = bodiesAll vs
  | [], ws, h => by
      cases h
      rfl
  | v :: vs, ws, h => by
      rw [normalizeAll] at h
      cases hfirst : normalize v with
      | error fault =>
          rw [hfirst] at h
          cases h
      | ok first =>
          rw [hfirst] at h
          cases hall : normalizeAll vs with
          | error fault =>
              rw [hall] at h
              cases h
          | ok results =>
              rw [hall] at h
              cases h
              rw [bodiesAll, bodiesAll, bodies_normalize v first hfirst,
                bodies_normalizeAll vs results hall]

end

end Value

/-- All lambdas that the value is or holds have such bodies. -/
def Value.Within (among : Node → Prop) (v : Value) : Prop := ∀ b ∈ v.bodies, among b

/-- Whatever a reply has forced or answers holds lambdas with such bodies only, provided that what
comes of the forced values does. -/
def Reply.Within (among : Node → Prop) : Reply σ → Prop
  | answer value _ => value.Within among
  | fail _ _ => True
  | .force value _ resume _ => value.Within among ∧
      ∀ result state, (∀ v, result = .ok v → v.Within among) → (resume result state).Within among

theorem Reply.within_forceThen {among : Node → Prop} {value : Value} {state : σ}
    {next : Value → σ → Reply σ} {scope : Int} (hvalue : value.Within among)
    (hnext : ∀ v state, v.Within among → (next v state).Within among) :
    (forceThen value state next scope).Within among := by
  refine ⟨hvalue, fun result state hresult => ?_⟩
  cases result with
  | ok v => exact hnext v state (hresult v rfl)
  | error fault => trivial

/-- The host has no lambdas of its own: it hands on, or has forced, those that it was given. -/
def Host.AddsNoLambda (host : Host σ) : Prop :=
  ∀ (among : Node → Prop) name args state, (∀ b ∈ Value.bodiesAll args, among b) →
    (host.call name args state).Within among

/-- A host that gives a value back, has it forced, or has it forced twice. -/
def Host.repeating : Host Unit where
  channel := Option.none
  functions := ["same", "force", "twice"]
  call
    | "same", [v], state => .answer v state
    | "force", [v], state => .forceThen v state .answer
    | "twice", [v], state =>
        .forceThen v state fun a state =>
          .forceThen v state fun b state => .answer (.list [a, b]) state
    | _, _, state => .fail .invalidArguments state

theorem Host.addsNoLambda_repeating : Host.repeating.AddsNoLambda := by
  intro among name args state hargs
  simp only [repeating]
  split
  · rwa [Value.bodiesAll_singleton] at hargs
  · rw [Value.bodiesAll_singleton] at hargs
    exact Reply.within_forceThen hargs fun result state hresult => hresult
  · rw [Value.bodiesAll_singleton] at hargs
    refine Reply.within_forceThen hargs fun a state ha =>
      Reply.within_forceThen hargs fun b state hb c hc => ?_
    have hc : c ∈ a.bodies ++ Value.bodiesAll [b] := hc
    rw [Value.bodiesAll_singleton] at hc
    exact (List.mem_append.1 hc).elim (ha c) (hb c)
  · trivial

namespace Eval

theorem node_eq_nodeOver (host : Host σ) (depth : Nat) :
    node host depth = nodeOver host (fun _ _ => throw .tooDeep) depth := by
  induction depth with
  | zero => rfl
  | succ depth ih =>
      rw [node, ih, nodeOver]

/-- Both computations are the same, and any value they end in satisfies the predicate. -/
def Agree (P : α → Prop) (c d : Eval σ α) : Prop := c = d ∧ ∀ m a last, d m = .ok a last → P a

section
variable {σ α β : Type} {P : α → Prop} {Q : β → Prop}

theorem Agree.any (c : Eval σ α) : Agree (fun _ => True) c c := ⟨rfl, fun _ _ _ _ => trivial⟩

theorem Agree.pure {a : α} (h : P a) : Agree P (pure a : Eval σ α) (pure a) := by
  refine ⟨rfl, fun m b last hb => ?_⟩
  cases hb
  exact h

theorem Agree.throw (fault : Fault) :
    Agree P (MonadExcept.throw fault : Eval σ α) (MonadExcept.throw fault) := by
  refine ⟨rfl, fun m b last hb => ?_⟩
  cases hb

theorem Agree.bind {c d : Eval σ α} {f g : α → Eval σ β} (hc : Agree P c d)
    (hf : ∀ a, P a → Agree Q (f a) (g a)) : Agree Q (c >>= f) (d >>= g) := by
  obtain ⟨rfl, hP⟩ := hc
  constructor
  · funext m
    cases hm : c m with
    | error fault last => rw [bind_of_error hm, bind_of_error hm]
    | ok a middle => rw [bind_of_ok hm, bind_of_ok hm, (hf a (hP m a middle hm)).1]
  · intro m b last hb
    cases hm : c m with
    | error fault last =>
        rw [bind_of_error hm] at hb
        cases hb
    | ok a middle =>
        rw [bind_of_ok hm] at hb
        exact (hf a (hP m a middle hm)).2 middle b last hb

theorem Agree.attempt {c d : Eval σ α} (h : Agree P c d) :
    Agree (fun result => ∀ a, result = .ok a → P a) (attempt c) (attempt d) := by
  refine ⟨by rw [h.1], fun m result last hresult a ha => ?_⟩
  cases hm : d m with
  | ok b middle =>
      rw [attempt_of_ok hm] at hresult
      cases hresult
      cases ha
      exact h.2 m a last hm
  | error fault middle =>
      rw [attempt_of_error hm] at hresult
      cases hresult
      cases ha

theorem agree_ofExcept {e : Except Fault α} (h : ∀ a, e = .ok a → P a) :
    Agree P (ofExcept e : Eval σ α) (ofExcept e) := by
  cases e with
  | error fault => exact .throw fault
  | ok a => exact .pure (h a rfl)

end

section
variable {σ : Type} {among : Node → Prop}

theorem agree_readVariable (scope : Int) (name : String) :
    Agree (Value.Within among) (readVariable scope name : Eval σ Value)
      (readVariable scope name) := by
  refine .bind (.any _) fun value _ => ?_
  cases value with
  | literal l | derived l object => exact .pure fun b hb => by cases hb
  | _ => exact .bind (.any _) fun kind _ => .throw _

theorem agree_builtin (channel : Option (Channel σ)) (b : Builtin) (args : List Value) :
    Agree (Value.Within among) (b.apply channel args) (b.apply channel args) := by
  cases b with
  | operator o =>
      refine agree_ofExcept fun v hv => ?_
      obtain ⟨l, rfl⟩ := Operator.literal_of_apply hv
      exact fun b hb => by cases hb
  | display =>
      exact .bind (.any _) fun texts _ => .bind (.any _) fun _ _ => .bind (.any _) fun _ _ =>
        .pure fun b hb => by cases hb
  | input =>
      refine .bind (.any _) fun prompt _ => ?_
      cases channel with
      | none => exact .throw _
      | some channel => exact .bind (.any _) fun answer _ => .pure fun b hb => by cases hb

/-- Two ways of forcing agree on values with such lambdas, and what they make of them has such
lambdas only. -/
def ForceAlike (among : Node → Prop) (force force' : Int → Value → Eval σ Value) : Prop :=
  ∀ scope v, v.Within among → Agree (Value.Within among) (force scope v) (force' scope v)

theorem agree_reply {force force' : Int → Value → Eval σ Value}
    (hforce : ForceAlike among force force') (reply : Reply σ) (h : reply.Within among) :
    Agree (Value.Within among) (reply.run force) (reply.run force') := by
  induction reply with
  | answer value state => exact .bind (.any _) fun _ _ => .pure h
  | fail fault state => exact .bind (.any _) fun _ _ => .throw fault
  | force value state resume scope ih =>
      obtain ⟨hvalue, hresume⟩ := h
      exact .bind (.any _) fun _ _ => .bind (hforce scope value hvalue).attempt
        fun result hresult => .bind (.any _) fun state _ =>
          ih result state (hresume result state hresult)

theorem agree_call {host : Host σ} (hhost : host.AddsNoLambda)
    {force force' : Int → Value → Eval σ Value} (hforce : ForceAlike among force force')
    (name : String) (callee : Value) {args : List Value}
    (hargs : ∀ b ∈ Value.bodiesAll args, among b) (site : Option Location) :
    Agree (Value.Within among) (call host force name callee args site)
      (call host force' name callee args site) := by
  unfold call
  split
  · rename_i f
    have happly : Agree (Value.Within among) (apply host force ⟨name, args, site⟩ f)
        (apply host force' ⟨name, args, site⟩ f) := by
      cases f with
      | builtin b => exact agree_builtin host.channel b args
      | host name =>
          exact .bind (.any _) fun state _ => agree_reply hforce _ (hhost among name args _ hargs)
    refine .bind (.any _) fun _ _ => .bind (.any _) fun _ _ => .bind happly fun v hv =>
      .bind (.any _) fun _ _ => agree_ofExcept fun w hw => ?_
    rw [Value.Within, Value.bodies_normalize v w hw]
    exact hv
  · exact .bind (.any _) fun _ _ => .throw _

/-- Two evaluators agree on a tree, and its value holds only lambdas that stand below the tree. -/
def AlikeAt (evaluate evaluate' : Node → Int → Eval σ (Option Value)) (n : Node) : Prop :=
  ∀ scope, Agree (fun value => ∀ b ∈ Value.bodiesAll value.toList, b ∈ n.subtrees)
    (evaluate n scope) (evaluate' n scope)

variable {evaluate evaluate' : Node → Int → Eval σ (Option Value)}

theorem agree_sequence (scope : Int) (nodes : List Node)
    (h : ∀ n ∈ nodes, AlikeAt evaluate evaluate' n) :
    Agree (fun values => ∀ b ∈ Value.bodiesAll values, b ∈ Node.subtreesAll nodes)
      (sequence evaluate scope nodes) (sequence evaluate' scope nodes) := by
  induction nodes with
  | nil => exact .pure fun b hb => by cases hb
  | cons n ns ih =>
      obtain ⟨hn, hns⟩ := List.forall_mem_cons.1 h
      refine .bind (hn scope) fun value hvalue => .bind (ih hns) fun values hvalues => .pure ?_
      intro b hb
      rw [Value.bodiesAll_append] at hb
      rw [Node.subtreesAll]
      rcases List.mem_append.1 hb with hb | hb
      · exact List.mem_append_left _ (List.mem_cons_of_mem n (hvalue b hb))
      · exact List.mem_append_right _ (hvalues b hb)

theorem forceAlike_forceWith (h : ∀ n, among n → AlikeAt evaluate evaluate' n)
    (hclosed : ∀ n b, among n → b ∈ n.subtrees → among b) :
    ForceAlike among (forceWith evaluate) (forceWith evaluate') := by
  intro scope v hv
  cases v with
  | lambda body =>
      have hbody : among body := hv body List.mem_cons_self
      refine .bind (.any _) fun child _ => .bind (h body hbody child) fun value hvalue => .pure ?_
      intro b hb
      rw [Value.bodies_collapse] at hb
      exact hclosed body b hbody (hvalue b hb)
  | _ => exact .pure hv

/-- An activation has only trees evaluated that stand below its own. -/
theorem alikeAt_level {host : Host σ} (hhost : host.AddsNoLambda) (n : Node)
    (h : ∀ b ∈ n.subtrees, AlikeAt evaluate evaluate' b) :
    AlikeAt (level host evaluate) (level host evaluate') n := by
  have hchildren : ∀ children, n.subtrees = Node.subtreesAll children →
      ∀ b ∈ children, AlikeAt evaluate evaluate' b := fun children hn b hb =>
    h b (hn ▸ Node.mem_subtreesAll.2 ⟨b, hb, .inl rfl⟩)
  intro scope
  cases n with
  | assign name value =>
      exact .bind (h value List.mem_cons_self scope) fun v _ => .bind (.any _) fun _ _ =>
        .bind (.any _) fun _ _ => .pure fun b hb => by cases hb
  | block children =>
      refine .bind (.any _) fun _ _ => .bind (.any _) fun child _ =>
        .bind (agree_sequence _ children (hchildren children rfl)) fun values hvalues => .pure ?_
      rwa [Option.toList_some, Value.bodiesAll_singleton, Value.bodies_collapse]
  | list children =>
      refine .bind (.any _) fun _ _ =>
        .bind (agree_sequence _ children (hchildren children rfl)) fun values hvalues => .pure ?_
      rwa [Option.toList_some, Value.bodiesAll_singleton, Value.bodies_collapse]
  | literal value => exact .bind (.any _) fun _ _ => .pure fun b hb => by cases hb
  | var name location =>
      have hread : Agree (Value.Within fun b => b ∈ (Node.var name location).subtrees)
          (readVariable scope name : Eval σ Value) (readVariable scope name) :=
        agree_readVariable scope name
      refine .bind (.any _) fun _ _ => .bind hread fun v hv => .pure ?_
      rwa [Option.toList_some, Value.bodiesAll_singleton]
  | call name args site =>
      have hforce : ForceAlike (· ∈ Node.subtreesAll args) (forceWith evaluate)
          (forceWith evaluate') :=
        forceAlike_forceWith h fun n b hn hb => Node.subtreesAll_trans args hn hb
      refine .bind (.any _) fun _ _ =>
        .bind (agree_sequence _ args (hchildren args rfl)) fun values hvalues =>
        .bind (.any _) fun callee _ => .bind (.any _) fun _ _ =>
        .bind (agree_call hhost hforce name callee ?_ site) fun v hv => .pure ?_
      · rwa [Value.bodiesAll_arguments, Value.bodies_collapse]
      · rwa [Option.toList_some, Value.bodiesAll_singleton]
  | lambda body =>
      refine .bind (.any _) fun _ _ => .pure fun b hb => ?_
      cases hb with
      | head => exact List.mem_cons_self
      | tail _ hb => cases hb

end

variable {σ : Type} {host : Host σ}

theorem alikeAt_node (hhost : host.AddsNoLambda) (depth : Nat) (n : Node) :
    AlikeAt (node host depth) (node host depth) n := by
  induction depth generalizing n with
  | zero => exact fun scope => .throw .tooDeep
  | succ depth ih =>
      exact alikeAt_level hhost n (fun b _ => ih b)

/-- What lies deeper than a tree is high makes no difference to its evaluation. -/
theorem alikeAt_nodeOver (hhost : host.AddsNoLambda)
    (bottom bottom' : Node → Int → Eval σ (Option Value)) (depth depth' : Nat) (n : Node)
    (h : n.height ≤ depth) (h' : n.height ≤ depth') :
    AlikeAt (nodeOver host bottom depth) (nodeOver host bottom' depth') n := by
  induction depth generalizing depth' n with
  | zero => exact absurd n.height_pos (by omega)
  | succ depth ih =>
      cases depth' with
      | zero => exact absurd n.height_pos (by omega)
      | succ depth' =>
          refine alikeAt_level hhost n fun b hb => ih depth' b ?_ ?_ <;>
          · have := Node.height_lt_of_mem_subtrees n hb
            omega

theorem within_value (hhost : host.AddsNoLambda) (depth : Nat) (n : Node) (scope : Int) :
    Agree (Value.Within fun b => b ∈ n.subtrees) (value host depth n scope)
      (value host depth n scope) := by
  refine .bind (alikeAt_node hhost depth n scope) fun v hv => .pure ?_
  rwa [Value.Within, Value.bodies_collapse]

theorem within_forced (hhost : host.AddsNoLambda) (depth : Nat) (body : Node) (scope : Int) :
    Agree (Value.Within fun b => b ∈ body.subtrees) (force host depth scope (.lambda body))
      (force host depth scope (.lambda body)) :=
  .bind (.any _) fun child _ => within_value hhost depth body child

theorem nodeOver_of_height_le (hhost : host.AddsNoLambda)
    (bottom : Node → Int → Eval σ (Option Value)) {depth : Nat} {n : Node}
    (h : n.height ≤ depth) (scope : Int) :
    nodeOver host bottom depth n scope = node host n.height n scope := by
  rw [node_eq_nodeOver]
  exact (alikeAt_nodeOver hhost bottom _ depth n.height n h (Nat.le_refl _) scope).1

end Eval

/-- With a host that has no lambdas of its own, from any state: every lambda that the value of a
tree holds, at any depth of its lists, has its body below the tree. What evaluation would do in
activations nested deeper than the tree is high makes no difference, so that it ends, and ends alike
with any greater limit. An activation has only trees evaluated that stand below its own, also when
these come to it as lambdas; so no lambda is forced while its body is evaluated, nor comes of its
own forcing. -/
theorem evaluation_descends {σ : Type} (host : Host σ) (hhost : host.AddsNoLambda)
    (m : Machine σ) (scope : Int) (n : Node) :
    (∀ depth v last, Eval.value host depth n scope m = .ok v last →
      ∀ b ∈ v.bodies, b ∈ n.subtrees) ∧
    (∀ (bottom : Node → Int → Eval σ (Option Value)) depth, n.height ≤ depth →
      Eval.nodeOver host bottom depth n scope m = Eval.node host n.height n scope m) ∧
    (∀ depth, n.height ≤ depth →
      Eval.value host depth n scope m = Eval.value host n.height n scope m) ∧
    (∀ depth (evaluate : Node → Int → Eval σ (Option Value)),
      (∀ b ∈ n.subtrees, evaluate b = Eval.node host depth b) →
      Eval.level host evaluate n scope m = Eval.node host (depth + 1) n scope m) ∧
    n ∉ n.subtrees ∧
    ∀ depth v last, Eval.force host depth scope (.lambda n) m = .ok v last →
      ∀ b ∈ v.bodies, b ∈ n.subtrees := by
  refine ⟨fun depth => (Eval.within_value hhost depth n scope).2 m, ?_, ?_, ?_, ?_,
    fun depth => (Eval.within_forced hhost depth n scope).2 m⟩
  · intro bottom depth h
    rw [Eval.nodeOver_of_height_le hhost bottom h]
  · intro depth h
    rw [Eval.value, Eval.node_eq_nodeOver host depth, Eval.nodeOver_of_height_le hhost _ h]
    rfl
  · intro depth evaluate hbelow
    have halike : Eval.AlikeAt (Eval.level host evaluate) (Eval.level host (Eval.node host depth))
        n := Eval.alikeAt_level hhost n fun b hb scope => by
      rw [hbelow b hb]
      exact Eval.alikeAt_node hhost depth b scope
    rw [(halike scope).1, Eval.node]
  · intro hself
    exact Nat.lt_irrefl n.height (Node.height_lt_of_mem_subtrees n hself)

/-- A lambda that goes through one call into another, which has it forced twice. Its body is a
lambda again, and this is what comes of it. -/
theorem evaluation_descends_twice :
    let m : Machine Unit :=
      { scopes := #[{ bindings := rootBindings Host.repeating [] }], host := () }
    let inner : Node := .var "x" none
    let n : Node := .call "twice" [.call "same" [.lambda (.lambda inner)] none] none
    Host.repeating.AddsNoLambda ∧ n.height = 5 ∧ (∃ last, Eval.value Host.repeating 9 n 0 m =
      .ok (.list [.lambda inner, .lambda inner]) last) ∧ inner ∈ n.subtrees ∧
    Eval.value Host.repeating 9 n 0 m = Eval.value Host.repeating 5 n 0 m ∧
    ∀ bottom : Node → Int → Eval Unit (Option Value),
      Eval.nodeOver Host.repeating bottom 5 n 0 m = Eval.node Host.repeating 5 n 0 m := by
  intro m inner n
  obtain ⟨hbodies, hnesting, hlimit, -⟩ :=
    evaluation_descends Host.repeating Host.addsNoLambda_repeating m 0 n
  have hvalue : ∃ last, Eval.value Host.repeating 9 n 0 m =
      .ok (.list [.lambda inner, .lambda inner]) last := ⟨_, rfl⟩
  refine ⟨Host.addsNoLambda_repeating, rfl, hvalue, ?_, hlimit 9 (by decide),
    fun bottom => hnesting bottom 5 (by decide)⟩
  obtain ⟨last, hlast⟩ := hvalue
  exact hbodies 9 _ last hlast inner List.mem_cons_self

end Pseudocode
