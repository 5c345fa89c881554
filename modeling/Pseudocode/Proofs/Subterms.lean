import Pseudocode.Proofs.Descent
import Pseudocode.Proofs.RoundTrip

/-!
# What stands where in a parsed tree

`Shaped` says of a whole tree that it can be read from a text, by what its parts begin and end
with when they are written out. Every part of such a tree is such a tree again, so the same can be
said of each part in terms of the trees alone: an operator takes two operands and folds from the
left, an assignment takes all that follows it, and a list behind a name is a list of arguments.
-/
namespace Pseudocode

namespace Node

/-- A call by the name of an operator, whatever its arguments are. -/
def IsOperatorCall (n : Node) : Prop :=
  ∃ name ∈ operatorNames, ∃ args location, n = call name args location

/-- The tree is an assignment, or its right operand or its body ends in one. -/
inductive EndsInAssign : Node → Prop
  | assign {name : String} {value : Node} : EndsInAssign (assign name value)
  | operation {name : String} {left right : Node} {location : Option Location} :
      name ∈ operatorNames → EndsInAssign right →
      EndsInAssign (call name [left, right] location)
  | lambda {body : Node} : EndsInAssign body → EndsInAssign (lambda body)

/-- The tree is a variable, or its right operand, its body or the value that it assigns ends in
one. -/
inductive EndsInVar : Node → Prop
  | var {name : String} {location : Option Location} : EndsInVar (var name location)
  | operation {name : String} {left right : Node} {location : Option Location} :
      name ∈ operatorNames → EndsInVar right → EndsInVar (call name [left, right] location)
  | lambda {body : Node} : EndsInVar body → EndsInVar (lambda body)
  | assign {name : String} {value : Node} : EndsInVar value → EndsInVar (assign name value)

/-- The trees that are written one behind the other: the items of a list and the arguments of a
function. -/
def row : Node → List Node
  | list children => children
  | call name args _ => if name ∈ operatorNames then [] else args
  | _ => []

/-- What the grammar admits at one place of a tree. -/
structure Arranged (n : Node) : Prop where
  operator_call : ∀ name args location, n = call name args location → name ∈ operatorNames →
    ∃ left right, args = [left, right] ∧ ¬ left.EndsInAssign ∧ ¬ right.IsOperatorCall
  lambda_body : ∀ body, n = lambda body → ¬ body.IsOperatorCall
  assign_last : ∀ front m behind, n.row = front ++ m :: behind → m.EndsInAssign → behind = []
  var_before_list : ∀ front m children behind,
    n.row = front ++ m :: list children :: behind → ¬ m.EndsInVar
  text : ∀ content, n = literal (.text content) → '"' ∉ content.toList

theorem EndsInAssign.isAssign_rightmost {n : Node} (h : n.EndsInAssign) :
    n.rightmost.isAssign = true := by
  induction h with
  | assign => rfl
  | operation hop _ ih => rwa [rightmost_operation hop]
  | lambda _ ih => exact ih

/-- The assignment hides the variable that it ends in. -/
theorem EndsInVar.rightmost_cases {n : Node} (h : n.EndsInVar) :
    n.rightmost.isVar = true ∨ n.rightmost.isAssign = true := by
  induction h with
  | var => exact .inl rfl
  | operation hop _ ih => rwa [rightmost_operation hop]
  | lambda _ ih => exact ih
  | assign _ _ => exact .inr rfl

theorem Shaped.of_mem_subtrees {n : Node} (h : n.Shaped) : ∀ b ∈ n.subtrees, b.Shaped := by
  have hall {children : List Node} (hc : ∀ n ∈ children, n.Shaped)
      (ih : ∀ n ∈ children, ∀ b ∈ n.subtrees, b.Shaped) :
      ∀ b ∈ subtreesAll children, b.Shaped := by
    intro b hb
    obtain ⟨n, hn, rfl | hbelow⟩ := mem_subtreesAll.1 hb
    · exact hc _ hn
    · exact ih n hn b hbelow
  induction h with
  | block hc ih => exact hall hc ih
  | list hc _ ih => exact hall hc ih
  | number => exact List.forall_mem_nil _
  | text _ => exact List.forall_mem_nil _
  | var _ => exact List.forall_mem_nil _
  | assign _ hv ih => exact List.forall_mem_cons.2 ⟨hv, ih⟩
  | call _ hc _ ih => exact hall hc ih
  | operation _ hl hr _ _ ihl ihr =>
      apply hall <;> intro n hn <;> rcases List.mem_pair.1 hn with rfl | rfl <;> assumption
  | lambda hb _ ih => exact List.forall_mem_cons.2 ⟨hb, ih⟩

theorem Shaped.isOperation_of_operatorCall {n : Node} (h : n.Shaped) (hop : n.IsOperatorCall) :
    n.isOperation = true := by
  obtain ⟨name, hname, args, location, rfl⟩ := hop
  cases h with
  | call hword _ _ => exact absurd hname hword.not_mem_operatorNames
  | operation _ _ _ _ _ => exact isOperation_operation hname

theorem Shaped.not_operatorCall {n : Node} (h : n.Shaped) (hop : n.isOperation = false) :
    ¬ n.IsOperatorCall := by
  intro hcall
  rw [h.isOperation_of_operatorCall hcall] at hop
  cases hop

theorem Shaped.chain_row {n : Node} (h : n.Shaped) : n.row.IsChain Adjacent := by
  cases h with
  | list _ hrow => exact hrow
  | call hname _ hrow => rwa [row, if_neg hname.not_mem_operatorNames]
  | operation hop _ _ _ _ =>
      rw [row, if_pos hop]
      exact .nil
  | block _ | number | text _ | var _ | assign _ _ | lambda _ _ => exact .nil

theorem Shaped.adjacent_of_row {n a b : Node} {front behind : List Node} (h : n.Shaped)
    (hrow : n.row = front ++ a :: b :: behind) : a.Adjacent b := by
  have hchain := h.chain_row
  rw [hrow] at hchain
  exact (List.isChain_cons_cons.1 hchain.right_of_append).1

theorem Shaped.arranged {n : Node} (h : n.Shaped) : n.Arranged where
  operator_call name args location hn hop := by
    subst hn
    cases h with
    | call hname _ _ => exact absurd hop hname.not_mem_operatorNames
    | operation _ _ hr hassign hright =>
        refine ⟨_, _, rfl, fun hend => ?_, hr.not_operatorCall hright⟩
        rw [hend.isAssign_rightmost] at hassign
        cases hassign
  lambda_body body hn := by
    subst hn
    cases h with
    | lambda hbody hop => exact hbody.not_operatorCall hop
  assign_last front m behind hrow hend := by
    cases behind with
    | nil => rfl
    | cons b behind =>
        have hadjacent := (h.adjacent_of_row hrow).1
        rw [hend.isAssign_rightmost] at hadjacent
        cases hadjacent
  var_before_list front m children behind hrow hend := by
    obtain ⟨hassign, hvar⟩ := h.adjacent_of_row hrow
    rcases hend.rightmost_cases with hm | hm
    · cases hvar hm
    · rw [hm] at hassign
      cases hassign
  text content hn := by
    subst hn
    cases h with
    | text hquote => exact hquote

end Node

/-- Every part of a parsed tree is arranged as the grammar has it. -/
theorem parsed_parts_arranged (source : String) (limit : Nat) (tree : Node)
    (h : parse source limit = .ok tree) : ∀ n ∈ tree :: tree.subtrees, n.Arranged := by
  have hshaped := Node.shaped_of_parse h
  intro n hn
  rcases List.mem_cons.1 hn with rfl | hn
  · exact hshaped.arranged
  · exact (hshaped.of_mem_subtrees n hn).arranged

/-- A row that ends in an assignment, whose value is an operation that folds from the left. -/
theorem parsed_parts_arranged_sample : ∃ tree : Node,
    parse "F(x (1) LAMBDA y <- 2 - z \"a\" * 3)\nu + (v <- w)" = .ok tree ∧
    tree.subtrees.length = 17 ∧ ∀ n ∈ tree :: tree.subtrees, n.Arranged := by
  have hok : (parse "F(x (1) LAMBDA y <- 2 - z \"a\" * 3)\nu + (v <- w)").toOption.map
      (·.subtrees.length) = some 17 := by decide +kernel
  cases hp : parse "F(x (1) LAMBDA y <- 2 - z \"a\" * 3)\nu + (v <- w)" with
  | error e =>
      rw [hp] at hok
      cases hok
  | ok tree =>
      rw [hp] at hok
      exact ⟨tree, rfl, Option.some.inj hok, parsed_parts_arranged _ _ tree hp⟩

end Pseudocode
