import Mathlib.Data.List.Chain
import Pseudocode.Proofs.Outline

/-!
# The shape of parsed trees

Not every tree can be read from a text. In a row of operands an assignment comes last,
since its right-hand side takes all that follows; a name is never followed by a list,
since the two would be a call; and a right operand is no operation, since operations
fold from the left. `Shaped` collects these facts. They are shown of every tree that a
text is parsed to, by an invariant that ties the stack of the parser to the outline.
-/
namespace Pseudocode

theorem IsName.not_mem_operatorNames {name : String} (h : IsName name) :
    name ∉ Node.operatorNames := by
  intro hmem
  obtain ⟨hword, hkind⟩ := h
  have hsplit : name ∈ Token.operatorWords ∨ ∃ c ∈ Lexeme.signs, c ∈ name.toList := by
    have hall : ∀ name ∈ Node.operatorNames, name ∈ Token.operatorWords ∨
        (Lexeme.signs.any fun c => c ∈ name.toList) = true := by decide +kernel
    simpa using hall name hmem
  rcases hsplit with hop | ⟨c, hc, hin⟩
  · rw [Token.Kind.ofWord, String.ofList_toList, if_pos hop] at hkind
    cases hkind
  · exact hword.not_mem_signs hin hc

namespace Node

def isAssign : Node → Bool
  | assign _ _ => true
  | _ => false

def isVar : Node → Bool
  | var _ _ => true
  | _ => false

def isList : Node → Bool
  | list _ => true
  | _ => false

/-- The operand that a tree ends with when it is written out. -/
def rightmost : Node → Node
  | lambda body => rightmost body
  | call name [left, right] location =>
      if name ∈ operatorNames then rightmost right else call name [left, right] location
  | n => n

/-- The operand that a tree begins with when it is written out. -/
def leftmost : Node → Node
  | call name [left, right] location =>
      if name ∈ operatorNames then leftmost left else call name [left, right] location
  | n => n

section
variable {name : String} {left right : Node} {args : List Node} {location : Option Location}

theorem rightmost_operation (h : name ∈ operatorNames) :
    rightmost (call name [left, right] location) = rightmost right := by
  rw [rightmost, if_pos h]

theorem leftmost_operation (h : name ∈ operatorNames) :
    leftmost (call name [left, right] location) = leftmost left := by
  rw [leftmost, if_pos h]

theorem rightmost_call (h : name ∉ operatorNames) :
    rightmost (call name args location) = call name args location := by
  unfold rightmost
  split <;> simp_all

theorem leftmost_call (h : name ∉ operatorNames) :
    leftmost (call name args location) = call name args location := by
  unfold leftmost
  split <;> simp_all

theorem isOperation_operation (h : name ∈ operatorNames) :
    isOperation (call name [left, right] location) = true := by
  simp [isOperation, h]

theorem isOperation_call (h : name ∉ operatorNames) :
    isOperation (call name args location) = false := by
  unfold isOperation
  split <;> simp_all

end

/-- `b` can be written behind `a` in one row. -/
def Adjacent (a b : Node) : Prop :=
  a.rightmost.isAssign = false ∧ (a.rightmost.isVar = true → b.leftmost.isList = false)

inductive Shaped : Node → Prop
  | block {children : List Node} : (∀ n ∈ children, Shaped n) → Shaped (block children)
  | list {children : List Node} : (∀ n ∈ children, Shaped n) → children.IsChain Adjacent →
      Shaped (list children)
  | number {value : Float} : Shaped (literal (.number value))
  | text {content : String} : '"' ∉ content.toList → Shaped (literal (.text content))
  | var {name : String} {location : Option Location} : IsName name → Shaped (var name location)
  | assign {name : String} {value : Node} : IsName name → Shaped value →
      Shaped (assign name value)
  | call {name : String} {args : List Node} {location : Option Location} : IsName name →
      (∀ n ∈ args, Shaped n) → args.IsChain Adjacent → Shaped (call name args location)
  | operation {name : String} {left right : Node} {location : Option Location} :
      name ∈ operatorNames → Shaped left → Shaped right → left.rightmost.isAssign = false →
      right.isOperation = false → Shaped (call name [left, right] location)
  | lambda {body : Node} : Shaped body → body.isOperation = false → Shaped (lambda body)

end Node

namespace Parser
open Layout (Bracket)
open Outline

/-- The last node of the group that is innermost, unless something is begun in it. -/
def top? : List Frame → Option Node
  | .group _ _ (node :: _) :: _ => some node
  | _ => none

/-- An operand may follow. -/
def Open (stack : List Frame) : Prop := ∀ n ∈ top? stack, n.rightmost.isAssign = false

/-- A list that follows is no list of arguments. -/
def Clear (stack : List Frame) : Prop := ∀ n ∈ top? stack, n.rightmost.isVar = false

/-- Nodes that stand in a row, the latest first. -/
def Row (nodes : List Node) : Prop :=
  (∀ n ∈ nodes, n.Shaped) ∧ nodes.IsChain fun b a => Node.Adjacent a b

/-- The stack of the parser while the brackets are open. -/
inductive Holds : List Bracket → List Frame → Prop
  | program {opener : Token} {nodes : List Node} : (∀ n ∈ nodes, n.Shaped) →
      Holds [.brace] [.group (.block false) opener nodes]
  | braces {b : Bracket} {bs : List Bracket} {opener : Token} {nodes : List Node}
      {stack : List Frame} : b ≠ .brace → (∀ n ∈ nodes, n.Shaped) → Open stack →
      Holds (b :: bs) stack →
      Holds (.brace :: b :: bs) (.group (.block true) opener nodes :: stack)
  | statement {bs : List Bracket} {opener opener' : Token} {group : Group}
      {nodes nodes' : List Node} {stack : List Frame} : Row nodes →
      Holds (.brace :: bs) (.group group opener' nodes' :: stack) →
      Holds (.statement :: .brace :: bs)
        (.group (.block false) opener nodes :: .group group opener' nodes' :: stack)
  | rightSide {b : Bracket} {bs : List Bracket} {name : String} {opener arrow : Token}
      {nodes : List Node} {stack : List Frame} : b ≠ .brace → IsName name → Row nodes →
      Open stack → Holds (b :: bs) stack →
      Holds (.arrow :: b :: bs) (.group (.block false) opener nodes :: .assign name arrow :: stack)
  | list {b : Bracket} {bs : List Bracket} {opener : Token} {nodes : List Node}
      {stack : List Frame} : b ≠ .brace → Row nodes → Open stack → Clear stack →
      Holds (b :: bs) stack → Holds (.paren :: b :: bs) (.group .list opener nodes :: stack)
  | call {b : Bracket} {bs : List Bracket} {name : String} {location : Location}
      {opener : Token} {nodes : List Node} {stack : List Frame} : b ≠ .brace → IsName name →
      Row nodes → Open stack → Holds (b :: bs) stack →
      Holds (.paren :: b :: bs) (.group (.call name location) opener nodes :: stack)
  | lambda {b : Bracket} {bs : List Bracket} {word : Token} {stack : List Frame} : b ≠ .brace →
      Open stack → Holds (b :: bs) stack → Holds (b :: bs) (.lambda word :: stack)
  | operation {b : Bracket} {bs : List Bracket} {name : String} {left : Node}
      {operator opener : Token} {group : Group} {nodes : List Node} {stack : List Frame} :
      b ≠ .brace → name ∈ Node.operatorNames → left.rightmost.isAssign = false →
      Holds (b :: bs) (.group group opener (left :: nodes) :: stack) →
      Holds (b :: bs) (.operation name left operator :: .group group opener nodes :: stack)

section
variable {b : Bracket} {bs : List Bracket} {group : Group} {opener : Token} {node : Node}
  {nodes : List Node} {stack : List Frame}

theorem Row.nil : Row [] := ⟨by simp, .nil⟩

theorem row_cons : Row (node :: nodes) ↔
    node.Shaped ∧ (∀ last ∈ nodes.head?, Node.Adjacent last node) ∧ Row nodes := by
  simp only [Row, List.forall_mem_cons, List.isChain_cons]
  constructor
  · rintro ⟨⟨hn, hs⟩, hl, hc⟩
    exact ⟨hn, hl, hs, hc⟩
  · rintro ⟨hn, hl, hs, hc⟩
    exact ⟨⟨hn, hs⟩, hl, hc⟩

/-- The rows of a group are all that counts for what is below it. -/
theorem Holds.row_iff (hb : b ≠ .brace) (h : Holds (b :: bs) (.group group opener nodes :: stack)) :
    Row nodes ∧ ∀ others, Row others → Holds (b :: bs) (.group group opener others :: stack) := by
  cases h with
  | program | braces => exact absurd rfl hb
  | statement hr h => exact ⟨hr, fun others ho => .statement ho h⟩
  | rightSide hne hn hr ho h => exact ⟨hr, fun others hr' => .rightSide hne hn hr' ho h⟩
  | list hne hr ho hc h => exact ⟨hr, fun others hr' => .list hne hr' ho hc h⟩
  | call hne hn hr ho h => exact ⟨hr, fun others hr' => .call hne hn hr' ho h⟩

/-- A line in braces or in the program. -/
theorem Holds.addLine (h : Holds (.brace :: bs) (.group group opener nodes :: stack))
    (hn : node.Shaped) : Holds (.brace :: bs) (.group group opener (node :: nodes) :: stack) := by
  cases h with
  | program hs => exact .program (List.forall_mem_cons.2 ⟨hn, hs⟩)
  | braces hb hs ho h => exact .braces hb (List.forall_mem_cons.2 ⟨hn, hs⟩) ho h

/-- A complete operand ends up as the last node of the innermost group. -/
theorem Holds.deliver (h : Holds (b :: bs) stack) (hb : b ≠ .brace) (ho : Open stack)
    (hn : node.Shaped) (hop : node.isOperation = false)
    (hlist : node.leftmost.isList = true → Clear stack) :
    ∃ group opener last nodes rest,
      Parser.deliver node stack = .ready (.group group opener (last :: nodes) :: rest) ∧
      Holds (b :: bs) (.group group opener (last :: nodes) :: rest) ∧
      last.rightmost = node.rightmost := by
  induction stack generalizing node with
  | nil => cases h
  | cons frame stack ih =>
      cases frame with
      | assign name arrow => cases h
      | group group opener nodes =>
          refine ⟨group, opener, node, nodes, stack, rfl, ?_, rfl⟩
          obtain ⟨hr, hput⟩ := h.row_iff hb
          refine hput _ (row_cons.2 ⟨hn, fun last hl => ?_, hr⟩)
          cases nodes with
          | nil => cases hl
          | cons last' nodes =>
              cases hl
              refine ⟨ho last rfl, fun hv => ?_⟩
              by_contra hne
              have hc := hlist (by simpa using hne) last rfl
              rw [hv] at hc
              cases hc
      | lambda word =>
          cases h with
          | lambda _ hopen h =>
              obtain ⟨group, opener, last, nodes, rest, hd, hh, hl⟩ := ih h hopen
                (.lambda hn hop) rfl (fun hlist => by simp [Node.leftmost, Node.isList] at hlist)
              exact ⟨group, opener, last, nodes, rest, hd, hh, by rw [hl, Node.rightmost]⟩
      | operation name left operator =>
          cases h with
          | @operation _ _ _ _ _ opener group nodes rest _ hname hleft h =>
              obtain ⟨hr, hput⟩ := h.row_iff hb
              obtain ⟨hshape, hadj, hrest⟩ := row_cons.1 hr
              refine ⟨group, opener, _, nodes, rest, rfl, hput _ (row_cons.2 ⟨?_, ?_, hrest⟩),
                Node.rightmost_operation hname⟩
              · exact .operation hname hshape hn hleft hop
              · intro last hl
                obtain ⟨ha, hv⟩ := hadj last hl
                exact ⟨ha, by rwa [Node.leftmost_operation hname]⟩

/-- The node of an implicit block. -/
theorem shaped_block_node {nodes : List Node} (h : ∀ n ∈ nodes, n.Shaped) :
    ((Group.block false).node nodes.reverse).Shaped := by
  have hr : ∀ n ∈ nodes.reverse, n.Shaped := fun n hn => h n (List.mem_reverse.1 hn)
  match hn : nodes.reverse with
  | [] => exact .block (by simp)
  | [n] => exact hr n (by simp [hn])
  | _ :: _ :: _ => exact .block (hn ▸ hr)

theorem Row.chain (h : Row nodes) : nodes.reverse.IsChain Node.Adjacent :=
  List.isChain_reverse.2 h.2

theorem Row.shaped (h : Row nodes) : ∀ n ∈ nodes.reverse, n.Shaped :=
  fun n hn => h.1 n (List.mem_reverse.1 hn)

end

/-- The parser and the outline have read the same tokens. -/
inductive Fits : Outline → State → Prop
  | before : Fits ⟨[], .free⟩ (.ready [])
  | after {root : Node} : root.Shaped → Fits ⟨[], .free⟩ (.complete root)
  | between {bs : List Bracket} {group : Group} {opener : Token} {nodes : List Node}
      {stack : List Frame} : Holds (.brace :: bs) (.group group opener nodes :: stack) →
      Fits ⟨.brace :: bs, .free⟩ (.ready (.group group opener nodes :: stack))
  | ready {b : Bracket} {bs : List Bracket} {stack : List Frame} : b ≠ .brace →
      Holds (b :: bs) stack → Open stack → Clear stack → Fits ⟨b :: bs, .free⟩ (.ready stack)
  | named {b : Bracket} {bs : List Bracket} {name : String} {word : Token}
      {stack : List Frame} : b ≠ .brace → Holds (b :: bs) stack → Open stack → IsName name →
      Fits ⟨b :: bs, .free⟩ (.named name word stack)
  | pointed {b : Bracket} {bs : List Bracket} {name : String} {arrow : Token}
      {stack : List Frame} : b ≠ .brace → Holds (b :: bs) stack → Open stack → IsName name →
      Fits ⟨b :: bs, .pointed⟩ (.ready (.assign name arrow :: stack))
  | ended {b : Bracket} {bs : List Bracket} {stack : List Frame} : b ≠ .brace →
      Holds (b :: bs) stack → Fits ⟨b :: bs, .ended⟩ (.ready stack)

section
variable {b : Bracket} {bs : List Bracket} {node : Node} {stack : List Frame} {token : Token}
  {after : Outline} {state : State}

/-- Something has just been begun, so nothing stands before the next operand. -/
theorem Holds.fits_begun (h : Holds (b :: bs) stack) (hb : b ≠ .brace) (ht : top? stack = none) :
    Fits ⟨b :: bs, .free⟩ (.ready stack) := by
  refine .ready hb h (fun n hn => ?_) (fun n hn => ?_) <;> rw [ht] at hn <;> cases hn

/-- A complete operand other than an assignment or a bare name. -/
theorem Holds.fits_deliver (h : Holds (b :: bs) stack) (hb : b ≠ .brace) (ho : Open stack)
    (hn : node.Shaped) (hop : node.isOperation = false)
    (hlist : node.leftmost.isList = true → Clear stack) (ha : node.rightmost.isAssign = false)
    (hv : node.rightmost.isVar = false) :
    Fits ⟨b :: bs, .free⟩ (Parser.deliver node stack) := by
  obtain ⟨group, opener, last, nodes, rest, hd, hh, hl⟩ := h.deliver hb ho hn hop hlist
  rw [hd]
  refine .ready hb hh (fun n hn => ?_) (fun n hn => ?_) <;> cases hn <;> rwa [hl]

theorem of_close_group {group : Group} {opener : Token} {nodes : List Node}
    (h : close token (.group group opener nodes :: stack) = .ok state) :
    token.kind = group.closer ∧ state = Parser.deliver (group.node nodes.reverse) stack := by
  simp only [close] at h
  split at h <;> cases h
  rename_i hkind
  exact ⟨hkind, rfl⟩

/-- A closer, as the outline allows it. -/
theorem Holds.fits_close {pace : Pace} (h : Holds (b :: bs) stack)
    (ht : Takes ⟨b :: bs, pace⟩ token.kind after)
    (hc : close token stack = .ok state) : Fits after state := by
  cases h with
  | lambda | operation => cases hc
  | program hs =>
      obtain ⟨hkind, rfl⟩ := of_close_group hc
      rw [hkind] at ht
      cases ht with
      | endBraces => exact .after (shaped_block_node hs)
      | plain hb _ => exact absurd rfl hb
  | @braces b' bs opener nodes stack hb hs ho h =>
      obtain ⟨hkind, rfl⟩ := of_close_group hc
      rw [hkind] at ht
      cases ht with
      | plain hb _ => exact absurd rfl hb
      | endBraces =>
          refine h.fits_deliver hb ho (.block fun n hn => hs n (List.mem_reverse.1 hn)) rfl ?_ ?_ ?_
            <;> simp [Group.node, Node.leftmost, Node.rightmost, Node.isList, Node.isAssign,
              Node.isVar]
  | statement hr h =>
      obtain ⟨hkind, rfl⟩ := of_close_group hc
      rw [hkind] at ht
      cases ht with
      | plain _ hp => exact hp.elim
      | endStatement => exact .between (h.addLine (shaped_block_node hr.1))
  | rightSide hb hname hr ho h =>
      obtain ⟨hkind, rfl⟩ := of_close_group hc
      rw [hkind] at ht
      cases ht with
      | plain _ hp => exact hp.elim
      | endRightSide =>
          obtain ⟨group, opener, last, nodes, rest, hd, hh, -⟩ := h.deliver hb ho
            (.assign hname (shaped_block_node hr.1)) rfl
            (fun hlist => by simp [Node.leftmost, Node.isList] at hlist)
          rw [Parser.deliver, hd]
          exact .ended hb hh
  | list hb hr ho hclear h =>
      obtain ⟨hkind, rfl⟩ := of_close_group hc
      rw [hkind] at ht
      cases ht with
      | plain _ hp => exact hp.elim
      | endParen =>
          refine h.fits_deliver hb ho (.list hr.shaped hr.chain) rfl (fun _ => hclear) ?_ ?_
            <;> simp [Group.node, Node.rightmost, Node.isAssign, Node.isVar]
  | call hb hname hr ho h =>
      obtain ⟨hkind, rfl⟩ := of_close_group hc
      rw [hkind] at ht
      cases ht with
      | plain _ hp => exact hp.elim
      | endParen =>
          have hnot := hname.not_mem_operatorNames
          refine h.fits_deliver hb ho (.call hname hr.shaped hr.chain)
            (Node.isOperation_call hnot) ?_ ?_ ?_
            <;> simp [Group.node, Node.leftmost_call hnot, Node.rightmost_call hnot, Node.isList,
              Node.isAssign, Node.isVar]

/-- An operator takes the last node of a row. -/
theorem Holds.fits_operate {name : String} (h : Holds (b :: bs) stack) (hb : b ≠ .brace)
    (ho : Open stack) (hname : name ∈ Node.operatorNames)
    (hop : operate name token stack = .ok state) : Fits ⟨b :: bs, .free⟩ state := by
  unfold operate at hop
  split at hop
  · cases hop
    exact (Holds.operation hb hname (ho _ rfl) h).fits_begun hb rfl
  · cases hop

/-- A token inside a row, when no name is waiting. -/
theorem Holds.fits_read (h : Holds (b :: bs) stack) (hb : b ≠ .brace) (ho : Open stack)
    (hclear : token.kind = .argumentsOpen → Clear stack)
    (ht : Takes ⟨b :: bs, .free⟩ token.kind after) (hr : read token stack = .ok state) :
    Fits after state := by
  have htake := ht
  generalize hk : token.kind = kind at ht
  simp only [read, hk] at hr
  cases ht with
  | statement => exact absurd rfl hb
  | braces _ =>
      cases hr
      exact .between (.braces hb (by simp) ho h)
  | paren _ =>
      cases hr
      exact (Holds.list hb .nil ho (hclear hk) h).fits_begun (by simp) rfl
  | arrow _ => cases hr
  | endStatement => exact h.fits_close htake hr
  | endRightSide => exact h.fits_close htake hr
  | endBraces => exact absurd rfl hb
  | endParen => exact h.fits_close htake hr
  | plain _ hplain =>
      cases kind with
      | less => exact h.fits_operate hb ho (by decide) hr
      | operation name => exact h.fits_operate hb ho hplain hr
      | lambda =>
          cases hr
          exact (Holds.lambda hb ho h).fits_begun hb rfl
      | number value =>
          cases hr
          refine h.fits_deliver hb ho .number rfl ?_ ?_ ?_ <;>
            simp [Node.leftmost, Node.rightmost, Node.isList, Node.isAssign, Node.isVar]
      | text content =>
          cases hr
          refine h.fits_deliver hb ho (.text hplain) rfl ?_ ?_ ?_ <;>
            simp [Node.leftmost, Node.rightmost, Node.isList, Node.isAssign, Node.isVar]
      | identifier name =>
          cases hr
          exact .named hb h ho hplain
      | _ => exact hplain.elim

/-- One token keeps the parser and the outline together. -/
theorem Fits.advance {before : Outline} {next : State} (h : Fits before state)
    (ht : Takes before token.kind after) (ha : Parser.advance state token = .ok next) :
    Fits after next := by
  cases h with
  | before =>
      generalize hk : token.kind = kind at ht
      cases ht
      simp only [Parser.advance, read, hk] at ha
      cases ha
      exact .between (.program (by simp))
  | after => cases ha
  | between h =>
      have htake := ht
      generalize hk : token.kind = kind at ht
      cases ht with
      | statement =>
          simp only [Parser.advance, read, hk] at ha
          cases ha
          exact (Holds.statement .nil h).fits_begun (by simp) rfl
      | endBraces =>
          simp only [Parser.advance, read, hk] at ha
          exact h.fits_close htake ha
      | braces hb | paren hb | plain hb _ | arrow hb => exact absurd rfl hb
  | ready hb h ho hc => exact h.fits_read hb ho (fun _ => hc) ht ha
  | @named b bs name word stack hb h ho hname =>
      obtain ⟨hk, hto⟩ | ⟨hk, hto⟩ | ⟨hk, ready, hd, -, hto⟩ | ⟨root, -, hto⟩ :=
        advance_named_cases name word token stack
      · rw [hto] at ha
        cases ha
        rw [hk] at ht
        cases ht with
        | arrow _ => exact .pointed hb h ho hname
        | plain _ hp => exact hp.elim
      · rw [hto] at ha
        cases ha
        rw [hk] at ht
        cases ht with
        | paren _ =>
            exact (Holds.call hb hname .nil ho h).fits_begun (by simp) rfl
        | plain _ hp => exact hp.elim
      · -- The name is a variable, and the token is read behind it.
        have hvar : (Node.var name (some word.location)).Shaped := .var hname
        obtain ⟨group, opener, last, nodes, rest, hd', hh, hl⟩ := h.deliver hb ho hvar rfl
          (fun hlist => by simp [Node.leftmost, Node.isList] at hlist)
        rw [hd'] at hd
        cases hd
        rw [hto] at ha
        refine hh.fits_read hb (fun n hn => ?_) (fun hopen => absurd hopen hk) ht ha
        cases hn
        simp [hl, Node.rightmost, Node.isAssign]
      · rw [hto] at ha
        cases ha
  | pointed hb h ho hname =>
      generalize hk : token.kind = kind at ht
      simp only [Parser.advance, read, hk] at ha
      cases ht with
      | rightSide _ =>
          cases ha
          exact (Holds.rightSide hb hname .nil ho h).fits_begun (by simp) rfl
      | endStatement | endRightSide | endParen => cases ha
  | ended hb h =>
      have htake := ht
      generalize hk : token.kind = kind at ht
      simp only [Parser.advance, read, hk] at ha
      cases ht with
      | endStatement => exact h.fits_close htake ha
      | endRightSide => exact h.fits_close htake ha
      | endParen => exact h.fits_close htake ha

theorem Fits.run {before : Outline} {last : State} {tokens : List Token} (h : Fits before state)
    (ht : Runs before tokens after) (hr : Parser.run state tokens = .ok last) :
    Fits after last := by
  induction tokens generalizing before state with
  | nil =>
      cases ht
      cases hr
      exact h
  | cons token tokens ih =>
      obtain ⟨middle, htake, hrest⟩ := ht
      obtain ⟨next, ha, hn⟩ := advance_of_run_cons hr
      exact ih (h.advance htake ha) hrest hn

end

/-- A text is parsed to a shaped tree. -/
theorem shaped_of_accepted {cs : List Char} {root : Node}
    (h : run (.ready []) (Layout.ofSource cs).tokens.toList = .ok (.complete root)) :
    root.Shaped := by
  have hfits := Fits.before.run (Layout.runs_ofSource (Layout.scan_skeleton_of_accepted h)) h
  cases hfits with
  | after hs => exact hs

end Parser

end Pseudocode
