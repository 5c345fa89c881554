import Pseudocode.Proofs.HardErrors
import Pseudocode.Proofs.RunLog

/-!
# Every node runs once

What a run does is known from its tree. When no function of a host can force a lambda,
the nodes outside of lambdas are evaluated one by one, each of them once, and a run that
fails stops somewhere on that way.

The trace of a run is the spine of the proof. Its scopes, the names bound in them and the
texts displayed can all be read off the trace, whatever the program; and the trace is the
way through the tree.
-/
namespace Pseudocode

namespace TraceEvent

/-- A step without the types of its values. -/
def bare : TraceEvent → TraceEvent
  | assign name scope _ => assign name scope ""
  | call name _ => call name []
  | event => event

/-- Around which scope a new one is opened. -/
def opened? : TraceEvent → Option Int
  | openScope _ parent => some parent
  | _ => none

def display : TraceEvent := call "DISPLAY" []

end TraceEvent

namespace Node

mutual

def blockCount : Node → Nat
  | block children => blockCountAll children + 1
  | list children | call _ children _ => blockCountAll children
  | assign _ value => blockCount value
  | literal _ | var _ _ | lambda _ => 0

def blockCountAll : List Node → Nat
  | [] => 0
  | n :: ns => blockCount n + blockCountAll ns

end

mutual

/-- The number of calls of `DISPLAY` outside of lambdas. -/
def displayCount : Node → Nat
  | block children | list children => displayCountAll children
  | call name children _ => displayCountAll children + if name = "DISPLAY" then 1 else 0
  | assign _ value => displayCount value
  | literal _ | var _ _ | lambda _ => 0

def displayCountAll : List Node → Nat
  | [] => 0
  | n :: ns => displayCount n + displayCountAll ns

end

mutual

/-- The blocks outside of lambdas in pre-order, each with the number of the block around it and
its statements. They are numbered from `next`, and `around` is the block around the tree. -/
def blocks (around next : Nat) : Node → List (Nat × List Node)
  | block children => (around, children) :: blocksAll next (next + 1) children
  | list children | call _ children _ => blocksAll around next children
  | assign _ value => blocks around next value
  | literal _ | var _ _ | lambda _ => []

def blocksAll (around next : Nat) : List Node → List (Nat × List Node)
  | [] => []
  | n :: ns => blocks around next n ++ blocksAll around (next + blockCount n) ns

end

mutual

/-- The steps of an evaluation of the tree in scope `around`, when the next scope that is opened
has the handle `next`. -/
def walk (around next : Nat) : Node → List TraceEvent
  | block children =>
      .evaluate "Block" around :: .openScope next around :: walkAll next (next + 1) children
  | list children => .evaluate "List" around :: walkAll around next children
  | literal _ => [.evaluate "Value" around]
  | var _ _ => [.evaluate "Var" around]
  | assign name value => walk around next value ++ [.assign name around ""]
  | call name args _ => .evaluate "Call" around :: (walkAll around next args ++ [.call name []])
  | lambda _ => [.evaluate "Lambda" around]

def walkAll (around next : Nat) : List Node → List TraceEvent
  | [] => []
  | n :: ns => walk around next n ++ walkAll around (next + blockCount n) ns

end

mutual

theorem length_blocks (around next : Nat) : (n : Node) →
    (n.blocks around next).length = n.blockCount
  | block children => by rw [blocks, List.length_cons, length_blocksAll, blockCount]
  | list children => by rw [blocks, length_blocksAll, blockCount]
  | call _ children _ => by rw [blocks, length_blocksAll, blockCount]
  | assign _ value => by rw [blocks, length_blocks, blockCount]
  | literal _ => rfl
  | var _ _ => rfl
  | lambda _ => rfl

theorem length_blocksAll (around next : Nat) : (ns : List Node) →
    (blocksAll around next ns).length = blockCountAll ns
  | [] => rfl
  | n :: ns => by
      rw [blocksAll, List.length_append, length_blocks, length_blocksAll, blockCountAll]

end

mutual

/-- On its way through a tree an evaluation opens a scope for each block, inside the scope of the
block around it. -/
theorem filterMap_opened?_walk (around next : Nat) : (n : Node) →
    (n.walk around next).filterMap TraceEvent.opened? =
      (n.blocks around next).map fun b => (b.1 : Int)
  | block children => by
      have ih := filterMap_opened?_walkAll next (next + 1) children
      simp [walk, blocks, List.filterMap_cons, TraceEvent.opened?, ih]
  | list children => by
      have ih := filterMap_opened?_walkAll around next children
      simp [walk, blocks, List.filterMap_cons, TraceEvent.opened?, ih]
  | call _ children _ => by
      have ih := filterMap_opened?_walkAll around next children
      simp [walk, blocks, List.filterMap_cons, TraceEvent.opened?, ih]
  | assign _ value => by
      have ih := filterMap_opened?_walk around next value
      simp [walk, blocks, List.filterMap_cons, TraceEvent.opened?, ih]
  | literal _ => rfl
  | var _ _ => rfl
  | lambda _ => rfl

theorem filterMap_opened?_walkAll (around next : Nat) : (ns : List Node) →
    (walkAll around next ns).filterMap TraceEvent.opened? =
      (blocksAll around next ns).map fun b => (b.1 : Int)
  | [] => rfl
  | n :: ns => by
      rw [walkAll, blocksAll, List.filterMap_append, List.map_append, filterMap_opened?_walk,
        filterMap_opened?_walkAll]

end

mutual

theorem count_display_walk (around next : Nat) : (n : Node) →
    (n.walk around next).count .display = n.displayCount
  | block children => by
      have ih := count_display_walkAll next (next + 1) children
      simp [walk, displayCount, TraceEvent.display, ← ih]
  | list children => by
      have ih := count_display_walkAll around next children
      simp [walk, displayCount, TraceEvent.display, ← ih]
  | call name children _ => by
      have ih := count_display_walkAll around next children
      by_cases h : name = "DISPLAY" <;> simp [walk, displayCount, TraceEvent.display, ← ih, h]
  | assign _ value => by
      have ih := count_display_walk around next value
      simp [walk, displayCount, TraceEvent.display, ← ih]
  | literal _ => rfl
  | var _ _ => rfl
  | lambda _ => rfl

theorem count_display_walkAll (around next : Nat) : (ns : List Node) →
    (walkAll around next ns).count .display = displayCountAll ns
  | [] => rfl
  | n :: ns => by
      rw [walkAll, displayCountAll, List.count_append, count_display_walk, count_display_walkAll]

end

/-- A name is bound in scope `i` when it is assigned next to the blocks, in scope `around`, or by
the block that has this number. -/
def BoundIn (around next : Nat) (names : List String) (blocks : List (Nat × List Node))
    (name : String) (i : Nat) : Prop :=
  (i = around ∧ name ∈ names) ∨
    ∃ k b, blocks[k]? = some b ∧ i = next + k ∧ name ∈ assignedAll b.2

section
variable {around next i : Nat} {name : String} {names more : List String}
  {blocks others : List (Nat × List Node)}

theorem boundIn_nil : ¬ BoundIn around next [] [] name i := by
  simp [BoundIn]

theorem boundIn_append :
    BoundIn around next (names ++ more) (blocks ++ others) name i ↔
      BoundIn around next names blocks name i ∨
        BoundIn around (next + blocks.length) more others name i := by
  constructor
  · rintro (⟨rfl, hname⟩ | ⟨k, b, hb, rfl, hname⟩)
    · rcases List.mem_append.1 hname with hname | hname
      · exact .inl (.inl ⟨rfl, hname⟩)
      · exact .inr (.inl ⟨rfl, hname⟩)
    · by_cases hk : k < blocks.length
      · rw [List.getElem?_append_left hk] at hb
        exact .inl (.inr ⟨k, b, hb, rfl, hname⟩)
      · rw [List.getElem?_append_right (by omega)] at hb
        exact .inr (.inr ⟨k - blocks.length, b, hb, by omega, hname⟩)
  · rintro ((⟨rfl, hname⟩ | ⟨k, b, hb, rfl, hname⟩) | (⟨rfl, hname⟩ | ⟨k, b, hb, rfl, hname⟩))
    · exact .inl ⟨rfl, List.mem_append_left more hname⟩
    · have hk : k < blocks.length := (List.getElem?_eq_some_iff.1 hb).choose
      exact .inr ⟨k, b, by rw [List.getElem?_append_left hk, hb], rfl, hname⟩
    · exact .inl ⟨rfl, List.mem_append_right names hname⟩
    · refine .inr ⟨blocks.length + k, b, ?_, by omega, hname⟩
      rw [List.getElem?_append_right (by omega), Nat.add_sub_cancel_left, hb]

theorem boundIn_concat (other : String) :
    BoundIn around next (names ++ [other]) blocks name i ↔
      BoundIn around next names blocks name i ∨ (i = around ∧ name = other) := by
  have happend : BoundIn around next (names ++ [other]) (blocks ++ []) name i ↔ _ := boundIn_append
  rw [List.append_nil] at happend
  rw [happend]
  simp [BoundIn]

/-- The names that a block assigns are bound in its own scope. -/
theorem boundIn_block (children : List Node) :
    BoundIn around next [] ((around, children) :: blocks) name i ↔
      BoundIn next (next + 1) (assignedAll children) blocks name i := by
  constructor
  · rintro (⟨-, hname⟩ | ⟨k, b, hb, rfl, hname⟩)
    · cases hname
    · cases k with
      | zero =>
          cases hb
          exact .inl ⟨rfl, hname⟩
      | succ k => exact .inr ⟨k, b, hb, by omega, hname⟩
  · rintro (⟨rfl, hname⟩ | ⟨k, b, hb, rfl, hname⟩)
    · exact .inr ⟨0, _, rfl, rfl, hname⟩
    · exact .inr ⟨k + 1, b, hb, by omega, hname⟩

end

mutual

/-- On its way through a tree an evaluation assigns every name in the scope where it belongs. -/
theorem assign_mem_walk (around next : Nat) (name : String) (i : Nat) : (n : Node) →
    (TraceEvent.assign name i "" ∈ n.walk around next ↔
      BoundIn around next n.assigned (n.blocks around next) name i)
  | block children => by
      have ih := assign_mem_walkAll next (next + 1) name i children
      simp [walk, blocks, assigned, boundIn_block, ih]
  | list children => by
      have ih := assign_mem_walkAll around next name i children
      simp [walk, blocks, assigned, ih]
  | call _ children _ => by
      have ih := assign_mem_walkAll around next name i children
      simp [walk, blocks, assigned, ih]
  | assign other value => by
      have ih := assign_mem_walk around next name i value
      rw [walk, blocks, assigned, boundIn_concat, List.mem_append, ih]
      simp only [List.mem_singleton, TraceEvent.assign.injEq, Int.natCast_inj, and_true]
      rw [and_comm (a := name = other)]
  | literal _ => by simp [walk, blocks, assigned, boundIn_nil]
  | var _ _ => by simp [walk, blocks, assigned, boundIn_nil]
  | lambda _ => by simp [walk, blocks, assigned, boundIn_nil]

theorem assign_mem_walkAll (around next : Nat) (name : String) (i : Nat) : (ns : List Node) →
    (TraceEvent.assign name i "" ∈ walkAll around next ns ↔
      BoundIn around next (assignedAll ns) (blocksAll around next ns) name i)
  | [] => by simp [walkAll, blocksAll, assignedAll, boundIn_nil]
  | n :: ns => by
      rw [walkAll, blocksAll, assignedAll, boundIn_append, List.mem_append, assign_mem_walk,
        assign_mem_walkAll, length_blocks]

end

end Node

def opens (steps : List TraceEvent) : Nat := (steps.filterMap TraceEvent.opened?).length

theorem opens_append (steps more : List TraceEvent) :
    opens (steps ++ more) = opens steps + opens more := by
  simp [opens]

namespace Arena

theorem binding?_push (scopes : Arena) (parent : Int) (name : String) (i : Nat) :
    binding? (scopes.push { parent := some parent }) name i = scopes.binding? name i := by
  unfold binding?
  rw [Array.getElem?_push]
  split
  · rename_i hi
    rw [Array.getElem?_eq_none (by omega)]
    rfl
  · rfl

theorem map_parent_modify (scopes : List Scope) (index : Nat) (name : String) (v : Value) :
    (scopes.modify index (·.bind name v)).map Scope.parent = scopes.map Scope.parent := by
  apply List.ext_getElem?
  intro i
  rw [List.getElem?_map, List.getElem?_map, List.getElem?_modify]
  split
  · cases scopes[i]? <;> rfl
  · simp

theorem isSome_binding?_modify {scopes : Arena} {index : Nat} (hi : index < scopes.size)
    (bound : String) (v : Value) (name : String) (i : Nat) :
    (binding? (scopes.modify index (·.bind bound v)) name i).isSome ↔
      (scopes.binding? name i).isSome ∨ (name = bound ∧ i = index) := by
  unfold binding?
  rw [Array.getElem?_modify]
  by_cases hindex : index = i
  · subst hindex
    rw [if_pos rfl, Array.getElem?_eq_getElem hi, Option.map_some, Option.bind_some,
      Option.bind_some, Scope.bind, Bindings.get?_insert]
    by_cases hname : name = bound <;> simp [hname]
  · rw [if_neg hindex]
    have hne : ¬ i = index := fun he => hindex he.symm
    simp [hne]

end Arena

namespace Machine

def steps (m : Machine σ) : List TraceEvent := m.trace.toList.map TraceEvent.bare

def displayed (m : Machine σ) : Nat := m.effects.toList.countP (·.topic = .stdout)

/-- No call goes on, and scopes, bindings and displayed texts are those that the steps tell. -/
structure Recorded (m : Machine σ) : Prop extends m.Sound where
  parents : m.scopes.toList.tail.map Scope.parent =
    (m.steps.filterMap TraceEvent.opened?).map some
  bound : ∀ (name : String) (i : Nat), 0 < i →
    ((m.scopes.binding? name i).isSome ↔ TraceEvent.assign name i "" ∈ m.steps)
  shown : m.displayed = m.steps.count .display

/-- What the steps still tell when a run has ended in a fault: a call of `DISPLAY` that has begun
may have displayed nothing. -/
structure Interrupted (m : Machine σ) : Prop where
  size : m.scopes.size = 1 + opens m.steps
  shown : m.displayed ≤ m.steps.count .display

theorem Recorded.size {m : Machine σ} (h : m.Recorded) : m.scopes.size = 1 + opens m.steps := by
  have hlength := congrArg List.length h.parents
  have hpos := h.rooted.size_pos
  simp only [List.length_map, List.length_tail, Array.length_toList] at hlength
  rw [opens]
  omega

theorem Recorded.interrupted {m : Machine σ} (h : m.Recorded) : m.Interrupted :=
  ⟨h.size, h.shown.le⟩

/-- Steps that open and bind nothing. -/
theorem Recorded.extend {m last : Machine σ} {more : List TraceEvent} (h : m.Recorded)
    (hsteps : last.steps = m.steps ++ more) (hscopes : last.scopes = m.scopes)
    (hcalls : last.calls = m.calls) (hopened : more.filterMap TraceEvent.opened? = [])
    (hbound : ∀ name (i : Nat), TraceEvent.assign name i "" ∉ more)
    (hshown : last.displayed = m.displayed + more.count .display) : last.Recorded where
  toSound := h.toSound.of_kept hscopes hcalls
  parents := by
    rw [hscopes, hsteps, List.filterMap_append, hopened, List.append_nil, h.parents]
  bound name i hpos := by
    rw [hscopes, h.bound name i hpos, hsteps, List.mem_append]
    simp [hbound]
  shown := by rw [hshown, hsteps, List.count_append, h.shown]

theorem steps_push (m : Machine σ) (event : TraceEvent) :
    ({ m with trace := m.trace.push event } : Machine σ).steps = m.steps ++ [event.bare] := by
  simp [steps]

/-- A scope that has just been opened binds nothing, and has not been assigned to. -/
theorem Recorded.opened {m last : Machine σ} (h : m.Recorded) {parent : Nat}
    (hp : parent < m.scopes.size)
    (hscopes : last.scopes = m.scopes.push { parent := some (parent : Int) })
    (hcalls : last.calls = m.calls) (hshown : last.displayed = m.displayed)
    (hsteps : last.steps = m.steps ++ [.openScope m.scopes.size parent]) : last.Recorded where
  toSound := h.toSound.opened hp hscopes hcalls
  parents := by
    have hne : m.scopes.toList ≠ [] := by
      rw [← List.length_pos_iff, Array.length_toList]
      exact h.rooted.size_pos
    rw [hscopes, hsteps, Array.toList_push, List.tail_append_of_ne_nil hne, List.map_append,
      h.parents, List.filterMap_append, List.map_append]
    rfl
  bound name i hpos := by
    rw [hscopes, Arena.binding?_push, h.bound name i hpos, hsteps, List.mem_append]
    simp
  shown := by
    rw [hshown, hsteps, List.count_append, h.shown]
    simp [TraceEvent.display]

theorem Recorded.assigned {m last : Machine σ} (h : m.Recorded) {scope : Nat}
    (hs : scope < m.scopes.size) {name : String} {v : Value} (hv : v.isData)
    (hscopes : last.scopes = m.scopes.modify scope (·.bind name v))
    (hcalls : last.calls = m.calls) (hshown : last.displayed = m.displayed)
    (hsteps : last.steps = m.steps ++ [.assign name scope ""]) : last.Recorded where
  toSound := h.toSound.bound hv hscopes hcalls
  parents := by
    rw [hscopes, hsteps, Array.toList_modify, List.map_tail, Arena.map_parent_modify,
      ← List.map_tail, h.parents, List.filterMap_append]
    simp [List.filterMap_cons, TraceEvent.opened?]
  bound other i hpos := by
    rw [hscopes, Arena.isSome_binding?_modify hs, h.bound other i hpos, hsteps, List.mem_append]
    simp only [List.mem_singleton, TraceEvent.assign.injEq, Int.natCast_inj, and_true]
  shown := by
    rw [hshown, hsteps, List.count_append, h.shown]
    simp [TraceEvent.display]

end Machine

/-- A builtin function displays a text when it is `DISPLAY` and succeeds, and may do so when it is
`DISPLAY` and fails. -/
theorem Builtin.apply_shows (channel : Option (Channel σ)) (b : Builtin) {args : List Value}
    (h : Value.areData args) (m : Machine σ) :
    (∃ l last, b.apply channel args m = .ok (.literal l) last ∧ last.scopes = m.scopes ∧
      last.calls = m.calls ∧ last.trace = m.trace ∧
      last.displayed = m.displayed + if b.name = "DISPLAY" then 1 else 0) ∨
    ∃ fault last, b.apply channel args m = .error fault last ∧ last.scopes = m.scopes ∧
      last.trace = m.trace ∧
      last.displayed ≤ m.displayed + if b.name = "DISPLAY" then 1 else 0 := by
  cases b with
  | operator o =>
      obtain ⟨v, hv⟩ := o.apply_ok args fun v hv =>
        Value.isSome_kind?_of_isData (Value.areData_iff.1 h v hv)
      obtain ⟨l, rfl⟩ := Operator.literal_of_apply hv
      have hname : (Builtin.operator o).name ≠ "DISPLAY" := (name_display_ne o).symm
      refine .inl ⟨l, m, ?_, rfl, rfl, rfl, by rw [if_neg hname, Nat.add_zero]⟩
      rw [apply, hv]
      rfl
  | display =>
      rw [apply, applyDisplay_eq]
      cases args.mapM Value.displayText with
      | error fault => exact .inr ⟨fault, m, rfl, rfl, rfl, Nat.le_add_right _ _⟩
      | ok texts =>
          dsimp only
          rcases Channel.displayOn channel (" ".intercalate texts) m.host with ⟨done, state⟩
          cases done with
          | ok _ => exact .inl ⟨_, _, rfl, rfl, rfl, rfl, by simp [Machine.displayed, name]⟩
          | error fault => exact .inr ⟨fault, _, rfl, rfl, rfl, by simp [Machine.displayed, name]⟩
  | input =>
      rw [apply, applyInput_eq]
      cases prompt args with
      | error fault => exact .inr ⟨fault, m, rfl, rfl, rfl, Nat.le_add_right _ _⟩
      | ok prompt =>
          cases channel with
          | none => exact .inr ⟨_, m, rfl, rfl, rfl, Nat.le_add_right _ _⟩
          | some channel =>
              dsimp only
              rcases channel.input prompt m.host with ⟨answer, state⟩
              cases answer with
              | ok answer => exact .inl ⟨_, _, rfl, rfl, rfl, rfl, rfl⟩
              | error fault => exact .inr ⟨fault, _, rfl, rfl, rfl, Nat.le_add_right _ _⟩

namespace Eval

/-- Started in a recorded state with so many scopes, the computation takes these steps and ends in
a recorded state and a value that satisfies the predicate, or takes the first of these steps and
ends in a fault. -/
def Follows (size : Nat) (steps : List TraceEvent) (P : α → Prop) (c : Eval σ α) : Prop :=
  ∀ m : Machine σ, m.Recorded → m.scopes.size = size →
    match c m with
    | .ok a last => last.Recorded ∧ last.steps = m.steps ++ steps ∧ P a
    | .error _ last => last.Interrupted ∧ ∃ done, done <+: steps ∧ last.steps = m.steps ++ done

section
variable {σ α β : Type} {size : Nat} {steps more : List TraceEvent} {P : α → Prop} {Q : β → Prop}

theorem Follows.pure {a : α} (h : P a) : Follows size [] P (pure a : Eval σ α) :=
  fun _ hm _ => ⟨hm, by simp, h⟩

theorem Follows.throw (fault : Fault) :
    Follows size steps P (MonadExcept.throw fault : Eval σ α) :=
  fun _ hm _ => ⟨hm.interrupted, [], List.nil_prefix, by simp⟩

theorem Follows.bind {c : Eval σ α} {f : α → Eval σ β} (hc : Follows size steps P c)
    (hf : ∀ a, P a → Follows (size + opens steps) more Q (f a)) :
    Follows size (steps ++ more) Q (c >>= f) := by
  intro m hm hsize
  have hfirst := hc m hm hsize
  cases hcm : c m with
  | error fault last =>
      rw [hcm] at hfirst
      rw [bind_of_error hcm]
      obtain ⟨hlast, done, hdone, hsteps⟩ := hfirst
      exact ⟨hlast, done, hdone.trans (List.prefix_append steps more), hsteps⟩
  | ok a middle =>
      rw [hcm] at hfirst
      rw [bind_of_ok hcm]
      obtain ⟨hmiddle, hsteps, ha⟩ := hfirst
      have hgrown : middle.scopes.size = size + opens steps := by
        rw [hmiddle.size, hsteps, opens_append, ← Nat.add_assoc, ← hm.size, hsize]
      have hnext := hf a ha middle hmiddle hgrown
      cases hlast : f a middle with
      | error fault last =>
          rw [hlast] at hnext
          obtain ⟨hstopped, done, hdone, hrest⟩ := hnext
          refine ⟨hstopped, steps ++ done, ?_, ?_⟩
          · exact (List.prefix_append_right_inj steps).2 hdone
          · rw [hrest, hsteps, List.append_assoc]
      | ok b last =>
          rw [hlast] at hnext
          obtain ⟨hended, hrest, hb⟩ := hnext
          exact ⟨hended, by rw [hrest, hsteps, List.append_assoc], hb⟩

/-- Computations that take no steps first. -/
theorem Follows.after {c : Eval σ α} {f : α → Eval σ β} (hc : Follows size [] P c)
    (hf : ∀ a, P a → Follows size steps Q (f a)) : Follows size steps Q (c >>= f) :=
  hc.bind hf

/-- Computations that take no steps last. -/
theorem Follows.before {c : Eval σ α} {f : α → Eval σ β} (hc : Follows size steps P c)
    (hf : ∀ a, P a → Follows (size + opens steps) [] Q (f a)) : Follows size steps Q (c >>= f) := by
  have h := hc.bind hf
  rwa [List.append_nil] at h

theorem follows_lookAt (location : Option Location) :
    Follows size [] (fun _ => True) (lookAt location : Eval σ Unit) :=
  fun _ hm _ => ⟨hm.extend (List.append_nil _).symm rfl rfl rfl (by simp) rfl,
    (List.append_nil _).symm, trivial⟩

theorem follows_visit (n : Node) (scope : Nat) :
    Follows size [.evaluate n.sort scope] (fun _ => True) (visit n scope : Eval σ Unit) := by
  intro m hm _
  have hsteps := Machine.steps_push { m with focus := n.location } (.evaluate n.sort scope)
  exact ⟨hm.extend hsteps rfl rfl rfl (by simp [TraceEvent.bare])
    (by simp [TraceEvent.bare, TraceEvent.display]; rfl), hsteps, trivial⟩

theorem follows_openScope {parent : Nat} (hp : parent < size) :
    Follows size [.openScope size parent] (fun child => child = size)
      (openScope parent : Eval σ Nat) := by
  intro m hm hsize
  have hlt : parent < m.scopes.size := by omega
  rw [openScope_of_valid (by omega), ← hsize]
  have hsteps := Machine.steps_push
    { m with scopes := m.scopes.push { parent := some (parent : Int) } }
    (.openScope m.scopes.size parent)
  exact ⟨hm.opened hlt rfl rfl rfl hsteps, hsteps, rfl⟩

theorem follows_assign {scope : Nat} (hs : scope < size) (name typeName : String) {v : Value}
    (hv : v.isData) : Follows size [.assign name scope ""] (fun _ => True) (do
      note (.assign name scope typeName)
      assign scope name v : Eval σ Unit) := by
  intro m hm hsize
  have hnote : note (.assign name scope typeName) m = .ok ()
    { m with trace := m.trace.push (.assign name scope typeName) } := rfl
  rw [bind_of_ok hnote, assign_of_valid (by show scope < m.scopes.size; omega)]
  have hsteps := Machine.steps_push { m with scopes := m.scopes.modify scope (·.bind name v) }
    (.assign name scope typeName)
  exact ⟨hm.assigned (by omega) hv rfl rfl rfl hsteps, hsteps, trivial⟩

theorem follows_fetch {scope : Nat} (hs : scope < size) (name : String) :
    Follows size [] (Value.Fits name) (fetch scope name : Eval σ Value) := by
  intro m hm hsize
  rw [fetch_eq]
  obtain hnone | ⟨v, hv, hfits⟩ :=
    hm.toSound.fetch_cases (show scope < m.scopes.size by omega) name
  · rw [hnone]
    exact Follows.throw (P := Value.Fits name) (.unknownName name) m hm hsize
  · rw [hv]
    exact Follows.pure hfits m hm hsize

theorem follows_readVariable {scope : Nat} (hs : scope < size) (name : String) :
    Follows size [] (fun v => v.isData) (readVariable scope name : Eval σ Value) := by
  refine (follows_fetch hs name).after fun v hv => ?_
  split
  · rename_i hliteral
    refine .pure ?_
    cases v with
    | literal l => rfl
    | derived l object =>
        obtain h | ⟨b, h, -⟩ := hv <;> cases h
    | _ => cases hliteral
  · obtain ⟨kind, hk⟩ := kind_of_isSome hv.isSome_kind?
    rw [hk]
    exact .throw _

theorem follows_call (host : Host σ) (force : Int → Value → Eval σ Value) {name : String}
    {callee : Value} (hc : callee.Fits name) {args : List Value} (hargs : Value.areData args)
    (site : Option Location) :
    Follows size [.call name []] (fun v => v.isData) (call host force name callee args site) := by
  obtain hdata | ⟨b, rfl, rfl⟩ := hc
  · obtain ⟨kind, hk⟩ := kind_of_isSome (Value.isSome_kind?_of_isData hdata)
    have hcall : call host force name callee args site =
        (do throw (.notCallable name (← ofExcept callee.kind)) : Eval σ Value) := by
      cases callee <;> first | rfl | cases hdata
    rw [hcall, hk]
    exact .throw _
  · intro m hm hsize
    have hcount : [TraceEvent.call b.name []].count .display =
        if b.name = "DISPLAY" then 1 else 0 := by
      by_cases hname : b.name = "DISPLAY" <;> simp [TraceEvent.display, hname]
    have hcalled := Machine.steps_push m (.call b.name (args.map Value.typeName))
    rw [call_builtin]
    obtain ⟨l, last, hl, hscopes, hcalls, htrace, hshown⟩ |
        ⟨fault, last, hf, hscopes, htrace, hshown⟩ :=
      b.apply_shows host.channel hargs { m with
        trace := m.trace.push (.call b.name (args.map Value.typeName))
        calls := ⟨b.name, args, site⟩ :: m.calls }
    · have hleft : last.calls.tail = m.calls := by rw [hcalls, List.tail_cons]
      have hsteps : last.steps = m.steps ++ [.call b.name []] := by
        rw [Machine.steps, htrace]
        exact hcalled
      rw [hl]
      refine ⟨hm.extend hsteps hscopes hleft rfl (by simp) ?_, hsteps, rfl⟩
      rw [hcount]
      exact hshown
    · have hsteps : last.steps = m.steps ++ [.call b.name []] := by
        rw [Machine.steps, htrace]
        exact hcalled
      rw [hf]
      refine ⟨⟨?_, ?_⟩, _, List.prefix_rfl, hsteps⟩
      · rw [hsteps, opens_append, hscopes]
        exact hm.size
      · rw [hsteps, List.count_append, ← hm.shown, hcount]
        exact hshown

end

section
variable {σ : Type} {host : Host σ}

theorem opens_walk (around next : Nat) (n : Node) : opens (n.walk around next) = n.blockCount := by
  rw [opens, Node.filterMap_opened?_walk, List.length_map, Node.length_blocks]

theorem follows_sequence {depth scope size : Nat} (nodes : List Node) (hs : scope < size)
    (h : ∀ (n : Node) (size : Nat), scope < size → Follows size (n.walk scope size)
      (fun v => Value.areData v.toList) (node host depth n scope)) :
    Follows size (Node.walkAll scope size nodes) (fun vs => Value.areData vs)
      (sequence (node host depth) scope nodes) := by
  induction nodes generalizing size with
  | nil => exact .pure rfl
  | cons n nodes ih =>
      rw [Node.walkAll]
      refine (h n size hs).bind fun v hv => ?_
      rw [opens_walk]
      exact (ih (by omega)).before fun vs hvs => .pure (Value.areData_append hv hvs)

/-- An evaluation follows the way through its tree. -/
theorem follows_node (depth : Nat) (n : Node) {scope size : Nat} (hs : scope < size) :
    Follows size (n.walk scope size) (fun v => Value.areData v.toList)
      (node host depth n scope) := by
  induction depth generalizing n scope size with
  | zero => exact .throw .tooDeep
  | succ depth ih =>
      have hall {scope size : Nat} (hs : scope < size) (nodes : List Node) :
          Follows size (Node.walkAll scope size nodes) (fun vs => Value.areData vs)
            (sequence (node host depth) scope nodes) :=
        follows_sequence nodes hs fun n size hs => ih n hs
      cases n with
      | assign name value =>
          rw [Node.walk]
          refine (ih value hs).bind fun v hv => ?_
          rw [← bind_assoc]
          exact (follows_assign (by omega) name _ (Value.isData_collapse hv)).before fun _ _ =>
            .pure rfl
      | block children =>
          rw [Node.walk]
          refine (follows_visit _ scope).bind fun _ _ => ?_
          refine (follows_openScope hs).bind fun child hchild => ?_
          subst hchild
          exact (hall (Nat.lt_succ_self child) children).before fun vs hvs =>
            .pure (Value.areData_singleton.2 (Value.isData_collapse hvs))
      | list children =>
          rw [Node.walk]
          exact (follows_visit _ scope).bind fun _ _ => (hall hs children).before fun vs hvs =>
            .pure (Value.areData_singleton.2 (Value.isData_collapse hvs))
      | literal value => exact (follows_visit _ scope).before fun _ _ => .pure rfl
      | var name location =>
          exact (follows_visit _ scope).before fun _ _ =>
            (follows_readVariable hs name).after fun v hv =>
            .pure (Value.areData_singleton.2 hv)
      | call name args site =>
          rw [Node.walk]
          refine (follows_visit _ scope).bind fun _ _ => (hall hs args).bind fun vs hvs => ?_
          refine (follows_fetch (by omega) name).after fun callee hcallee => ?_
          refine (follows_lookAt site).after fun _ _ => ?_
          exact (follows_call host _ hcallee
            (Value.areData_arguments (Value.isData_collapse hvs)) site).before fun v hv =>
            .pure (Value.areData_singleton.2 hv)
      | lambda body => exact (follows_visit _ scope).before fun _ _ => .pure rfl

theorem follows_value (depth : Nat) (n : Node) :
    Follows 1 (n.walk 0 1) (fun _ => True) (value host depth n 0) :=
  (follows_node depth n Nat.one_pos).before fun _ _ => .pure trivial

end

end Eval

namespace Machine

theorem recorded_prepared {host : Host σ} (h : host.functions = []) (source : String) (state : σ) :
    (prepared host [] source state).Recorded where
  toSound := by
    rw [prepared, rootBindings_of_no_functions h]
    exact sound_start _ state
  parents := rfl
  bound name i hpos := by
    have hnone : (prepared host [] source state).scopes[i]? = none := Array.getElem?_eq_none hpos
    rw [Arena.binding?, hnone]
    simp [steps, prepared]
  shown := by
    show List.countP _ (skippedEffects source) = 0
    rw [List.countP_eq_zero, skippedEffects]
    split <;> simp [Diagnostic.effect]

/-- When the steps are the way through a tree, the scopes are those of its blocks. -/
theorem Recorded.scope_of_block {m : Machine σ} (h : m.Recorded) {tree : Node}
    (hsteps : m.steps = tree.walk 0 1) {k parent : Nat} {children : List Node}
    (hb : (tree.blocks 0 1)[k]? = some (parent, children)) :
    ∃ scope, m.scopes[k + 1]? = some scope ∧ scope.parent = some (parent : Int) ∧
      ∀ name, (scope.bindings.get? name).isSome ↔ name ∈ Node.assignedAll children := by
  have hparents := congrArg (·[k]?) h.parents
  simp only [hsteps, Node.filterMap_opened?_walk, List.getElem?_map, hb, List.getElem?_tail,
    Array.getElem?_toList, Option.map_some] at hparents
  obtain ⟨scope, hscope, hparent⟩ := Option.map_eq_some_iff.1 hparents
  refine ⟨scope, hscope, hparent, fun name => ?_⟩
  have hbound := h.bound name (k + 1) (Nat.succ_pos k)
  rw [Arena.binding?, hscope, Option.bind_some, hsteps, Node.assign_mem_walk] at hbound
  rw [hbound]
  constructor
  · rintro (⟨hk, -⟩ | ⟨j, b, hj, hk, hname⟩)
    · omega
    · obtain rfl : k = j := by omega
      rw [hb] at hj
      cases hj
      exact hname
  · intro hname
    exact .inr ⟨k, _, hb, Nat.add_comm k 1, hname⟩

end Machine

theorem Outcome.displayed_failed (m : Machine σ) (report : Report) :
    (failed m report).machine.displayed = m.displayed := by
  simp [failed, Machine.displayed]

/-- The steps of a run are the way through its tree, or the beginning of it. -/
theorem runTree_follows (host : Host σ) (source : String) (limit : Nat) (tree : Node)
    {m : Machine σ} (hm : m.Recorded) (hsize : m.scopes.size = 1) (hsteps : m.steps = []) :
    let outcome := runTree host source limit tree m
    (∀ v, outcome.result = .ok v →
      outcome.machine.Recorded ∧ outcome.machine.steps = tree.walk 0 1) ∧
    ∀ stop, outcome.result = .error stop →
      outcome.machine.Interrupted ∧ outcome.machine.steps <+: tree.walk 0 1 := by
  have hfollows :=
    (Eval.follows_value limit tree : Eval.Follows 1 _ _ (Eval.value host _ _ _)) m hm hsize
  rw [hsteps] at hfollows
  simp only [List.nil_append] at hfollows
  obtain ⟨w, last, hw, hrun⟩ | ⟨fault, last, hfault, hrun⟩ :=
    runTree_cases host source limit tree m
  · rw [hw] at hfollows
    obtain ⟨hlast, hwalk, -⟩ := hfollows
    rw [hrun]
    exact ⟨fun v _ => ⟨hlast, hwalk⟩, fun stop hstop => by cases hstop⟩
  · rw [hfault] at hfollows
    obtain ⟨hlast, done, hdone, hwalk⟩ := hfollows
    rw [← hwalk] at hdone
    obtain ⟨report, -, hrun⟩ | ⟨escaped, -, hrun⟩ := hrun
    · rw [hrun]
      refine ⟨fun v hv => (by cases hv), fun stop _ => ⟨⟨hlast.size, ?_⟩, hdone⟩⟩
      rw [Outcome.displayed_failed]
      exact hlast.shown
    · rw [hrun]
      exact ⟨fun v hv => (by cases hv), fun stop _ => ⟨hlast, hdone⟩⟩

/-- With a host that offers no functions, and no scope given, every node outside of lambdas runs
once and in order: the steps of a run that succeeds are the way through its tree. So it opens one
scope for each block, inside the scope of the block around it and with the names that the block
assigns, and displays one text for each call of `DISPLAY`. A run that fails stops somewhere on that
way, and one without a tree does nothing. -/
theorem run_visits_once {σ : Type} (host : Host σ) (hfunctions : host.functions = [])
    (source : String) (state : σ) (limit : Nat) :
    let outcome := run host [] source state limit
    (∀ e, parse source limit = .error e →
      outcome.machine.scopes.size = 1 ∧ outcome.machine.displayed = 0) ∧
    ∀ tree, parse source limit = .ok tree →
      (∀ v, outcome.result = .ok v →
        outcome.machine.steps = tree.walk 0 1 ∧
        outcome.machine.scopes.size = 1 + tree.blockCount ∧
        (∀ (k parent : Nat) (children : List Node),
          (tree.blocks 0 1)[k]? = some (parent, children) →
          ∃ scope, outcome.machine.scopes[k + 1]? = some scope ∧
            scope.parent = some (parent : Int) ∧
            ∀ name, (scope.bindings.get? name).isSome ↔ name ∈ Node.assignedAll children) ∧
        outcome.machine.displayed = tree.displayCount) ∧
      (∀ stop, outcome.result = .error stop →
        outcome.machine.steps <+: tree.walk 0 1 ∧
        outcome.machine.scopes.size ≤ 1 + tree.blockCount ∧
        outcome.machine.displayed ≤ tree.displayCount) := by
  have hstart := Machine.recorded_prepared hfunctions source state
  rw [run_eq]
  refine ⟨fun e he => ?_, fun tree htree => ?_⟩
  · rw [he]
    exact ⟨rfl, by rw [Outcome.displayed_failed]; exact hstart.shown⟩
  · rw [htree]
    obtain ⟨hends, hstops⟩ := runTree_follows host source limit tree hstart rfl rfl
    constructor
    · intro v hv
      obtain ⟨hlast, hsteps⟩ := hends v hv
      refine ⟨hsteps, ?_, fun k parent children hb => hlast.scope_of_block hsteps hb, ?_⟩
      · rw [hlast.size, hsteps, Eval.opens_walk]
      · rw [hlast.shown, hsteps, Node.count_display_walk]
    · intro stop hstop
      obtain ⟨hlast, hsteps⟩ := hstops stop hstop
      refine ⟨hsteps, ?_, ?_⟩
      · have hopened := (hsteps.sublist.filterMap TraceEvent.opened?).length_le
        rw [← opens, ← opens, Eval.opens_walk] at hopened
        rw [hlast.size]
        omega
      · have hshown := hsteps.sublist.count_le TraceEvent.display
        rw [Node.count_display_walk] at hshown
        exact hlast.shown.trans hshown

/-- A block and a display inside a lambda do not count. -/
theorem run_visits_once_sample :
    let host : Host Unit := Host.silent
    let source := "x <- \x7bDISPLAY(1)\x7d\nf <- LAMBDA \x7bDISPLAY(2)\x7d\n\x7by <- x\x7d"
    let outcome := run host [] source () 99
    host.functions = [] ∧ ∃ tree v, parse source 99 = .ok tree ∧ outcome.result = .ok v ∧
      tree.blockCount = 3 ∧ tree.displayCount = 1 ∧
      outcome.machine.steps = tree.walk 0 1 ∧
      outcome.machine.scopes.size = 1 + tree.blockCount ∧
      outcome.machine.displayed = tree.displayCount := by
  intro host source outcome
  have hcounts : (parse source 99).toOption.map (fun tree => (tree.blockCount, tree.displayCount)) =
      some (3, 1) := by decide +kernel
  have hok : outcome.result.isOk = true := by decide +kernel
  cases htree : parse source 99 with
  | error e =>
      rw [htree] at hcounts
      cases hcounts
  | ok tree =>
      cases hresult : outcome.result with
      | error stop =>
          rw [hresult] at hok
          cases hok
      | ok v =>
          rw [htree] at hcounts
          obtain ⟨hblocks, hdisplays⟩ := Prod.mk.inj (Option.some.inj hcounts)
          obtain ⟨hsteps, hsize, -, hshown⟩ :=
            ((run_visits_once host rfl source () 99).2 tree htree).1 v hresult
          exact ⟨rfl, tree, v, rfl, rfl, hblocks, hdisplays, hsteps, hsize, hshown⟩

end Pseudocode
