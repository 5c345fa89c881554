import Pseudocode.Proofs.Acceptance

/-!
# Trees up to locations

The parser passes locations on and never looks at them. So the tree of a stream, up to
locations, depends on what its tokens say alone, and so does whether there is a tree.
-/
namespace Pseudocode

namespace Node

mutual

/-- The same tree without its locations. -/
def unlocated : Node → Node
  | block children => block (unlocatedAll children)
  | list children => list (unlocatedAll children)
  | literal value => literal value
  | var name _ => var name (some {})
  | assign name value => assign name (unlocated value)
  | call name args _ => call name (unlocatedAll args) (some {})
  | lambda body => lambda (unlocated body)

def unlocatedAll : List Node → List Node
  | [] => []
  | n :: ns => unlocated n :: unlocatedAll ns

end

theorem unlocatedAll_eq_map (ns : List Node) : unlocatedAll ns = ns.map unlocated := by
  induction ns with
  | nil => rfl
  | cons n ns ih => rw [unlocatedAll, ih, List.map_cons]

end Node

def Token.unlocated (t : Token) : Token := ⟨t.kind, {}⟩

@[simp] theorem Token.kind_unlocated (t : Token) : t.unlocated.kind = t.kind := rfl

namespace Parser

def Group.unlocated : Group → Group
  | call name _ => call name {}
  | group => group

def Frame.unlocated : Frame → Frame
  | group g opener nodes => group g.unlocated opener.unlocated (nodes.map Node.unlocated)
  | assign name arrow => assign name arrow.unlocated
  | operation name left operator => operation name left.unlocated operator.unlocated
  | lambda word => lambda word.unlocated

def State.unlocated : State → State
  | ready stack => ready (stack.map Frame.unlocated)
  | named name word stack => named name word.unlocated (stack.map Frame.unlocated)
  | complete node => complete node.unlocated

@[simp] theorem Group.closer_unlocated (g : Group) : g.unlocated.closer = g.closer := by
  cases g <;> rfl

theorem Group.unlocated_node (g : Group) (nodes : List Node) :
    (g.node nodes).unlocated = g.unlocated.node (nodes.map Node.unlocated) := by
  cases g with
  | block braced =>
      cases braced with
      | true => simp [node, unlocated, Node.unlocated, Node.unlocatedAll_eq_map]
      | false =>
          match nodes with
          | [] => rfl
          | [_] => rfl
          | _ :: _ :: _ => simp [node, unlocated, Node.unlocated, Node.unlocatedAll_eq_map]
  | list => simp [node, unlocated, Node.unlocated, Node.unlocatedAll_eq_map]
  | call name location => simp [node, unlocated, Node.unlocated, Node.unlocatedAll_eq_map]

@[simp] theorem State.depth_unlocated (s : State) : s.unlocated.depth = s.depth := by
  cases s <;> simp [unlocated, depth]

theorem deliver_unlocated (node : Node) (stack : List Frame) :
    deliver node.unlocated (stack.map Frame.unlocated) = (deliver node stack).unlocated := by
  induction stack generalizing node with
  | nil => rfl
  | cons frame stack ih =>
      cases frame with
      | group g opener nodes => rfl
      | assign name arrow => exact ih (.assign name node)
      | operation name left operator => exact ih (.call name [left, node] (some operator.location))
      | lambda word => exact ih (.lambda node)

theorem close_unlocated (token : Token) (stack : List Frame) :
    (close token.unlocated (stack.map Frame.unlocated)).toOption =
      (close token stack).toOption.map State.unlocated := by
  cases stack with
  | nil => rfl
  | cons frame stack =>
      cases frame with
      | group g opener nodes =>
          simp only [List.map_cons, Frame.unlocated, close, Token.kind_unlocated,
            Group.closer_unlocated]
          split
          · rw [← List.map_reverse, ← Group.unlocated_node, deliver_unlocated]
            rfl
          · rfl
      | _ => rfl

theorem operate_unlocated (name : String) (token : Token) (stack : List Frame) :
    (operate name token.unlocated (stack.map Frame.unlocated)).toOption =
      (operate name token stack).toOption.map State.unlocated := by
  cases stack with
  | nil => rfl
  | cons frame stack =>
      cases frame with
      | group g opener nodes => cases nodes <;> rfl
      | _ => rfl

theorem read_unlocated (token : Token) (stack : List Frame) :
    (read token.unlocated (stack.map Frame.unlocated)).toOption =
      (read token stack).toOption.map State.unlocated := by
  unfold read
  rw [Token.kind_unlocated]
  cases token.kind with
  | blockClose => exact close_unlocated token stack
  | argumentsClose => exact close_unlocated token stack
  | operation name => exact operate_unlocated name token stack
  | less => exact operate_unlocated "<" token stack
  | text content => exact congrArg some (deliver_unlocated (.literal (.text content)) stack)
  | number value => exact congrArg some (deliver_unlocated (.literal (.number value)) stack)
  | _ => rfl

theorem advance_deliver_unlocated (node : Node) (token : Token) (stack : List Frame) :
    (advance (deliver node.unlocated (stack.map Frame.unlocated)) token.unlocated).toOption =
      (advance (deliver node stack) token).toOption.map State.unlocated := by
  rw [deliver_unlocated]
  obtain ⟨root, h⟩ | ⟨next, h, -⟩ := deliver_cases node stack
  · rw [h]
    rfl
  · rw [h]
    exact read_unlocated token next

/-- One token makes the same of a state with and without locations. -/
theorem advance_unlocated (state : State) (token : Token) :
    (advance state.unlocated token.unlocated).toOption =
      (advance state token).toOption.map State.unlocated := by
  cases state with
  | complete node => rfl
  | ready stack => exact read_unlocated token stack
  | named name word stack =>
      by_cases harrow : token.kind = .arrow
      · simp only [State.unlocated, advance, Token.kind_unlocated, harrow]
        rfl
      · by_cases hopen : token.kind = .argumentsOpen
        · simp only [State.unlocated, advance, Token.kind_unlocated, hopen]
          rfl
        · have harrow' : token.unlocated.kind ≠ .arrow := harrow
          have hopen' : token.unlocated.kind ≠ .argumentsOpen := hopen
          rw [advance_named stack harrow hopen, State.unlocated,
            advance_named _ harrow' hopen']
          exact advance_deliver_unlocated (.var name (some word.location)) token stack

theorem toOption_bind (e : Except SourceError α) (f : α → Except SourceError β) :
    (e >>= f).toOption = e.toOption.bind fun a => (f a).toOption := by
  cases e <;> rfl

theorem step_unlocated (limit : Nat) (state : State) (token : Token) :
    (step limit state.unlocated token.unlocated).toOption =
      (step limit state token).toOption.map State.unlocated := by
  unfold step
  rw [toOption_bind, toOption_bind, advance_unlocated]
  cases (advance state token).toOption with
  | none => rfl
  | some next =>
      simp only [Option.map_some, Option.bind_some, State.depth_unlocated]
      split <;> rfl

theorem foldlM_step_unlocated (limit : Nat) (state : State) (tokens : List Token) :
    ((tokens.map Token.unlocated).foldlM (step limit) state.unlocated).toOption =
      (tokens.foldlM (step limit) state).toOption.map State.unlocated := by
  induction tokens generalizing state with
  | nil => rfl
  | cons token tokens ih =>
      rw [List.map_cons, List.foldlM_cons, List.foldlM_cons, toOption_bind, toOption_bind,
        step_unlocated]
      cases (step limit state token).toOption with
      | none => rfl
      | some next => exact ih next

theorem finish_unlocated (state : State) :
    (finish state.unlocated).toOption = (finish state).toOption.map Node.unlocated := by
  match state with
  | .ready [] => rfl
  | .ready (_ :: _) => rfl
  | .named _ _ _ => rfl
  | .complete _ => rfl

end Parser

open Pseudocode.Parser

/-- A stream without locations has the tree without locations. -/
theorem parseTokens_unlocated (limit : Nat) (tokens : List Token) :
    (parseTokens limit (tokens.map Token.unlocated)).toOption =
      (parseTokens limit tokens).toOption.map Node.unlocated := by
  have hfold : ((tokens.map Token.unlocated).foldlM (step limit) (.ready [])).toOption = _ :=
    foldlM_step_unlocated limit (.ready []) tokens
  unfold parseTokens
  rw [toOption_bind, toOption_bind, hfold]
  cases (tokens.foldlM (step limit) (.ready [])).toOption with
  | none => rfl
  | some state => exact finish_unlocated state

end Pseudocode
