import Pseudocode.Node.Parser

/-!
# The grammar of token streams

The parser is a machine with a stack; the language it accepts is stated here without
one. An operand is one node. A sequence is what stands between two brackets: nodes
side by side, where an operator takes the node before it and the operand after it.

A bare name is an operand only because of the token behind it, so every phrase is
derived together with the tokens that follow it. The same derivation serves streams
that no text has: nothing here asks where the tokens come from.
-/
namespace Pseudocode

/-- The name under which an operator token is called. -/
def Token.Kind.operator? : Token.Kind → Option String
  | .operation name => some name
  | .less => some "<"
  | _ => none

namespace Parser

/-- What a stretch of tokens may be read as. -/
inductive Phrase where
  | operand (node : Node)
  | sequence (nodes : List Node)
  deriving Repr

/-- A name in front of these tokens is neither assigned to nor called. -/
def StandsAlone (rest : List Token) : Prop :=
  ∃ next after, rest = next :: after ∧ next.kind ≠ .arrow ∧ next.kind ≠ .argumentsOpen

/-- `Derives tokens phrase rest`: the tokens read as the phrase when `rest` follows them. -/
inductive Derives : List Token → Phrase → List Token → Prop
  | number {token : Token} {value : Float} {rest : List Token} :
      token.kind = .number value → Derives [token] (.operand (.literal (.number value))) rest
  | text {token : Token} {content : String} {rest : List Token} :
      token.kind = .text content → Derives [token] (.operand (.literal (.text content))) rest
  | name {word : Token} {name : String} {rest : List Token} :
      word.kind = .identifier name → StandsAlone rest →
      Derives [word] (.operand (.var name (some word.location))) rest
  | assign {word arrow : Token} {name : String} {value : Node} {tokens rest : List Token} :
      word.kind = .identifier name → arrow.kind = .arrow →
      Derives tokens (.operand value) rest →
      Derives (word :: arrow :: tokens) (.operand (.assign name value)) rest
  | call {word opener closer : Token} {name : String} {args : List Node}
      {tokens rest : List Token} :
      word.kind = .identifier name → opener.kind = .argumentsOpen →
      closer.kind = .argumentsClose → Derives tokens (.sequence args) (closer :: rest) →
      Derives (word :: opener :: (tokens ++ [closer]))
        (.operand (.call name args (some word.location))) rest
  | lambda {word : Token} {body : Node} {tokens rest : List Token} :
      word.kind = .lambda → Derives tokens (.operand body) rest →
      Derives (word :: tokens) (.operand (.lambda body)) rest
  | list {opener closer : Token} {nodes : List Node} {tokens rest : List Token} :
      opener.kind = .argumentsOpen → closer.kind = .argumentsClose →
      Derives tokens (.sequence nodes) (closer :: rest) →
      Derives (opener :: (tokens ++ [closer])) (.operand (.list nodes)) rest
  | braces {opener closer : Token} {nodes : List Node} {tokens rest : List Token} :
      opener.kind = .blockOpen true → closer.kind = .blockClose →
      Derives tokens (.sequence nodes) (closer :: rest) →
      Derives (opener :: (tokens ++ [closer])) (.operand (.block nodes)) rest
  | lines {opener closer : Token} {nodes : List Node} {tokens rest : List Token} :
      opener.kind = .blockOpen false → closer.kind = .blockClose → nodes.length ≠ 1 →
      Derives tokens (.sequence nodes) (closer :: rest) →
      Derives (opener :: (tokens ++ [closer])) (.operand (.block nodes)) rest
  /-- An implicit block of exactly one node is that node. -/
  | line {opener closer : Token} {node : Node} {tokens rest : List Token} :
      opener.kind = .blockOpen false → closer.kind = .blockClose →
      Derives tokens (.sequence [node]) (closer :: rest) →
      Derives (opener :: (tokens ++ [closer])) (.operand node) rest
  | empty {rest : List Token} : Derives [] (.sequence []) rest
  | append {nodes : List Node} {node : Node} {tokens operand rest : List Token} :
      Derives tokens (.sequence nodes) (operand ++ rest) →
      Derives operand (.operand node) rest →
      Derives (tokens ++ operand) (.sequence (nodes ++ [node])) rest
  /-- The operator replaces the last node by the call of it and the operand. -/
  | operate {operator : Token} {name : String} {nodes : List Node} {left right : Node}
      {tokens operand rest : List Token} :
      Derives tokens (.sequence (nodes ++ [left])) (operator :: (operand ++ rest)) →
      operator.kind.operator? = some name → Derives operand (.operand right) rest →
      Derives (tokens ++ operator :: operand)
        (.sequence (nodes ++ [.call name [left, right] (some operator.location)])) rest

/-- A whole group of either sort of block, by the node that the parser makes of it. -/
theorem Derives.block {opener closer : Token} {braced : Bool} {nodes : List Node}
    {tokens rest : List Token} (ho : opener.kind = .blockOpen braced)
    (hc : closer.kind = .blockClose) (h : Derives tokens (.sequence nodes) (closer :: rest)) :
    Derives (opener :: (tokens ++ [closer])) (.operand ((Group.block braced).node nodes)) rest := by
  cases braced with
  | true => exact .braces ho hc h
  | false =>
      match nodes, h with
      | [], h => exact .lines ho hc (by simp) h
      | [_], h => exact .line ho hc h
      | _ :: _ :: _, h => exact .lines ho hc (by simp) h

def run (state : State) (tokens : List Token) : Except SourceError State :=
  tokens.foldlM advance state

theorem run_cons (state : State) (token : Token) (tokens : List Token) :
    run state (token :: tokens) = advance state token >>= fun next => run next tokens := by
  simp [run, List.foldlM_cons]

theorem run_cons_of_advance {state next : State} {token : Token} (tokens : List Token)
    (h : advance state token = .ok next) : run state (token :: tokens) = run next tokens := by
  rw [run_cons, h]
  rfl

theorem run_append (state : State) (front back : List Token) :
    run state (front ++ back) = run state front >>= fun next => run next back := by
  simp [run, List.foldlM_append]

theorem advance_of_run_cons {state last : State} {token : Token} {tokens : List Token}
    (h : run state (token :: tokens) = .ok last) :
    ∃ next, advance state token = .ok next ∧ run next tokens = .ok last := by
  rw [run_cons] at h
  cases ha : advance state token with
  | error e => rw [ha] at h; cases h
  | ok next => rw [ha] at h; exact ⟨next, rfl, h⟩

theorem run_split {state last : State} {front back : List Token}
    (h : run state (front ++ back) = .ok last) :
    ∃ middle, run state front = .ok middle ∧ run middle back = .ok last := by
  rw [run_append] at h
  cases hf : run state front with
  | error e => rw [hf] at h; cases h
  | ok middle => rw [hf] at h; exact ⟨middle, rfl, h⟩

/-- A delivered node ends the program or leaves the parser ready for the next token. -/
theorem deliver_cases (node : Node) (stack : List Frame) :
    (∃ root, deliver node stack = .complete root) ∨
      ∃ next, deliver node stack = .ready next ∧ next.length ≤ stack.length := by
  induction stack generalizing node with
  | nil => exact .inl ⟨node, rfl⟩
  | cons frame stack ih =>
      cases frame with
      | group group opener nodes => exact .inr ⟨_, rfl, by simp⟩
      | assign name arrow =>
          obtain ⟨root, h⟩ | ⟨next, h, hl⟩ := ih (.assign name node)
          · exact .inl ⟨root, h⟩
          · exact .inr ⟨next, h, by simp only [List.length_cons]; omega⟩
      | operation name left operator =>
          obtain ⟨root, h⟩ | ⟨next, h, hl⟩ := ih (.call name [left, node] (some operator.location))
          · exact .inl ⟨root, h⟩
          · exact .inr ⟨next, h, by simp only [List.length_cons]; omega⟩
      | lambda word =>
          obtain ⟨root, h⟩ | ⟨next, h, hl⟩ := ih (.lambda node)
          · exact .inl ⟨root, h⟩
          · exact .inr ⟨next, h, by simp only [List.length_cons]; omega⟩

theorem advance_identifier {word : Token} {name : String} (h : word.kind = .identifier name)
    (stack : List Frame) : advance (.ready stack) word = .ok (.named name word stack) := by
  simp only [advance, read, h]

theorem advance_block {opener : Token} {braced : Bool} (h : opener.kind = .blockOpen braced)
    (stack : List Frame) :
    advance (.ready stack) opener = .ok (.ready (.group (.block braced) opener [] :: stack)) := by
  simp only [advance, read, h]

theorem advance_operator {token : Token} {name : String} (h : token.kind.operator? = some name)
    (stack : List Frame) : advance (.ready stack) token = operate name token stack := by
  cases hk : token.kind <;> simp only [hk, Token.Kind.operator?] at h <;> cases h
  · simp only [advance, read, hk]
  · simp only [advance, read, hk]

/-- A name that stands alone is a variable, delivered before the next token is read. -/
theorem advance_named {name : String} {word token : Token} (stack : List Frame)
    (harrow : token.kind ≠ .arrow) (hopen : token.kind ≠ .argumentsOpen) :
    advance (.named name word stack) token =
      advance (deliver (.var name (some word.location)) stack) token := by
  obtain ⟨root, h⟩ | ⟨next, h, -⟩ := deliver_cases (.var name (some word.location)) stack
  · rw [h]
    cases hk : token.kind <;> simp_all [advance]
  · rw [h]
    cases hk : token.kind <;> simp_all [advance]

/-- What the token behind a name makes of it. -/
theorem advance_named_cases (name : String) (word token : Token) (stack : List Frame) :
    (token.kind = .arrow ∧ advance (.named name word stack) token =
      .ok (.ready (.assign name token :: stack))) ∨
    (token.kind = .argumentsOpen ∧ advance (.named name word stack) token =
      .ok (.ready (.group (.call name word.location) token [] :: stack))) ∨
    (token.kind ≠ .argumentsOpen ∧ ∃ next,
      deliver (.var name (some word.location)) stack = .ready next ∧
      next.length ≤ stack.length ∧ advance (.named name word stack) token = read token next) ∨
    ∃ root, deliver (.var name (some word.location)) stack = .complete root ∧
      advance (.named name word stack) token = .error (.stray token) := by
  by_cases harrow : token.kind = .arrow
  · exact .inl ⟨harrow, by simp only [advance, harrow]⟩
  by_cases hopen : token.kind = .argumentsOpen
  · exact .inr (.inl ⟨hopen, by simp only [advance, hopen]⟩)
  refine .inr (.inr ?_)
  rw [advance_named stack harrow hopen]
  obtain ⟨root, hd⟩ | ⟨next, hd, hl⟩ := deliver_cases (.var name (some word.location)) stack
  · exact .inr ⟨root, hd, by rw [hd]; rfl⟩
  · exact .inl ⟨hopen, next, hd, hl, by rw [hd]; rfl⟩

/-- The run over the tokens of a phrase: an operand is delivered, a sequence fills its group. -/
def Phrase.Runs : Phrase → List Token → List Token → Prop
  | .operand node, tokens, rest => ∀ stack,
      run (.ready stack) (tokens ++ rest) = run (deliver node stack) rest
  | .sequence nodes, tokens, rest => ∀ group opener stack,
      run (.ready (.group group opener [] :: stack)) (tokens ++ rest) =
        run (.ready (.group group opener nodes.reverse :: stack)) rest

/-- A group that was opened, filled and closed delivers its node. -/
theorem run_group (group : Group) {opener closer : Token} {nodes : List Node}
    {tokens rest : List Token} (stack : List Frame)
    (hopen : closer.kind = .blockClose ∨ closer.kind = .argumentsClose)
    (hc : closer.kind = group.closer)
    (h : (Phrase.sequence nodes).Runs tokens (closer :: rest)) :
    run (.ready (.group group opener [] :: stack)) (tokens ++ closer :: rest) =
      run (deliver (group.node nodes) stack) rest := by
  rw [h group opener stack]
  apply run_cons_of_advance
  have hclose : close closer (.group group opener nodes.reverse :: stack) =
      .ok (deliver (group.node nodes) stack) := by
    simp [close, hc]
  rcases hopen with hk | hk
  · simp only [advance, read, hk, hclose]
  · simp only [advance, read, hk, hclose]

theorem Derives.runs {tokens rest : List Token} {phrase : Phrase}
    (h : Derives tokens phrase rest) : phrase.Runs tokens rest := by
  induction h with
  | number hk =>
      intro stack
      exact run_cons_of_advance _ (by simp [advance, read, hk])
  | text hk =>
      intro stack
      exact run_cons_of_advance _ (by simp [advance, read, hk])
  | @name word name rest hk halone =>
      intro stack
      obtain ⟨next, after, rfl, harrow, hopen⟩ := halone
      rw [List.singleton_append, run_cons_of_advance _ (advance_identifier hk stack), run_cons,
        run_cons, advance_named stack harrow hopen]
  | @assign word arrow name value tokens rest hk ha _ ih =>
      intro stack
      have harrow : advance (.named name word stack) arrow =
          .ok (.ready (.assign name arrow :: stack)) := by
        simp [advance, ha]
      rw [List.cons_append, List.cons_append, run_cons_of_advance _ (advance_identifier hk stack),
        run_cons_of_advance _ harrow, ih]
      rfl
  | @call word opener closer name args tokens rest hk ho hc _ ih =>
      intro stack
      have hopener : advance (.named name word stack) opener =
          .ok (.ready (.group (.call name word.location) opener [] :: stack)) := by
        simp [advance, ho]
      rw [List.cons_append, List.cons_append, List.append_assoc,
        run_cons_of_advance _ (advance_identifier hk stack), run_cons_of_advance _ hopener]
      exact run_group (.call name word.location) stack (.inr hc) hc ih
  | @lambda word body tokens rest hk _ ih =>
      intro stack
      have hword : advance (.ready stack) word = .ok (.ready (.lambda word :: stack)) := by
        simp [advance, read, hk]
      rw [List.cons_append, run_cons_of_advance _ hword, ih]
      rfl
  | @list opener closer nodes tokens rest ho hc _ ih =>
      intro stack
      have hopener : advance (.ready stack) opener =
          .ok (.ready (.group .list opener [] :: stack)) := by
        simp [advance, read, ho]
      rw [List.cons_append, List.append_assoc, run_cons_of_advance _ hopener]
      exact run_group .list stack (.inr hc) hc ih
  | @braces opener closer nodes tokens rest ho hc _ ih =>
      intro stack
      rw [List.cons_append, List.append_assoc, run_cons_of_advance _ (advance_block ho stack)]
      exact run_group (.block _) stack (.inl hc) hc ih
  | @lines opener closer nodes tokens rest ho hc hlen _ ih =>
      intro stack
      have hnode : (Group.block false).node nodes = .block nodes := by
        match nodes, hlen with
        | [], _ => rfl
        | [_], hlen => exact absurd rfl hlen
        | _ :: _ :: _, _ => rfl
      rw [List.cons_append, List.append_assoc, run_cons_of_advance _ (advance_block ho stack),
        ← hnode]
      exact run_group (.block _) stack (.inl hc) hc ih
  | @line opener closer node tokens rest ho hc _ ih =>
      intro stack
      rw [List.cons_append, List.append_assoc, run_cons_of_advance _ (advance_block ho stack)]
      exact run_group (.block false) stack (.inl hc) hc ih
  | empty =>
      intro group opener stack
      rfl
  | @append nodes node tokens operand rest _ _ ihs iho =>
      intro group opener stack
      rw [List.append_assoc, ihs, iho]
      simp [deliver]
  | @operate operator name nodes left right tokens operand rest _ hop _ ihs iho =>
      intro group opener stack
      have hoperate : advance (.ready (.group group opener (nodes ++ [left]).reverse :: stack))
          operator = .ok (.ready (.operation name left operator ::
            .group group opener nodes.reverse :: stack)) := by
        rw [advance_operator hop, List.reverse_append, List.reverse_singleton]
        rfl
      rw [List.append_assoc, List.cons_append, ihs, run_cons_of_advance _ hoperate, iho]
      simp [deliver]

def Starts (token : Token) : Prop :=
  token.kind ≠ .blockClose ∧ token.kind ≠ .argumentsClose ∧ token.kind.operator? = none

/-- No group is open innermost, so the next token has to start an operand. -/
def AwaitsOperand : List Frame → Prop
  | .group _ _ _ :: _ => False
  | _ => True

theorem AwaitsOperand.close_ne_ok {stack : List Frame} (hw : AwaitsOperand stack) (token : Token)
    (next : State) : close token stack ≠ .ok next := by
  intro h
  cases stack with
  | nil => cases h
  | cons frame stack =>
      cases frame with
      | group group opener nodes => exact hw
      | assign name arrow => cases h
      | operation name left operator => cases h
      | lambda word => cases h

theorem AwaitsOperand.operate_ne_ok {stack : List Frame} (hw : AwaitsOperand stack) (name : String)
    (token : Token) (next : State) : operate name token stack ≠ .ok next := by
  intro h
  cases stack with
  | nil => cases h
  | cons frame stack =>
      cases frame with
      | group group opener nodes => exact hw
      | assign name arrow => cases h
      | operation name left operator => cases h
      | lambda word => cases h

theorem AwaitsOperand.starts {stack : List Frame} {token : Token} {next : State}
    (hw : AwaitsOperand stack) (h : advance (.ready stack) token = .ok next) : Starts token := by
  refine ⟨?_, ?_, ?_⟩
  · intro hk
    simp only [advance, read, hk] at h
    exact hw.close_ne_ok token next h
  · intro hk
    simp only [advance, read, hk] at h
    exact hw.close_ne_ok token next h
  · cases ho : token.kind.operator? with
    | none => rfl
    | some name =>
        rw [advance_operator ho] at h
        exact absurd h (hw.operate_ne_ok name token next)

/-- The tokens begin with an operand, and the run to `root` goes on with its node delivered. -/
def OperandAhead (stack : List Frame) (tokens : List Token) (root : Node) : Prop :=
  ∃ operand node rest, tokens = operand ++ rest ∧ operand ≠ [] ∧
    Derives operand (.operand node) rest ∧ run (deliver node stack) rest = .ok (.complete root)

/-- The tokens begin with what is missing of a group, and the run to `root` goes on with the
group's node delivered. -/
def GroupAhead (group : Group) (nodes : List Node) (stack : List Frame) (tokens : List Token)
    (root : Node) : Prop :=
  ∃ inner all closer rest, tokens = inner ++ closer :: rest ∧ closer.kind = group.closer ∧
    (∀ front, Derives front (.sequence nodes.reverse) tokens →
      Derives (front ++ inner) (.sequence all) (closer :: rest)) ∧
    run (deliver (group.node all) stack) rest = .ok (.complete root)

/-- What holds of every accepted run over at most `length` tokens. -/
structure Ahead (length : Nat) : Prop where
  operand : ∀ {tokens : List Token} {token : Token} {stack : List Frame} {root : Node},
    (token :: tokens).length ≤ length → Starts token →
    run (.ready stack) (token :: tokens) = .ok (.complete root) →
    OperandAhead stack (token :: tokens) root
  group : ∀ {tokens : List Token} {group : Group} {opener : Token} {nodes : List Node}
    {stack : List Frame} {root : Node}, tokens.length ≤ length →
    run (.ready (.group group opener nodes :: stack)) tokens = .ok (.complete root) →
    GroupAhead group nodes stack tokens root

theorem Ahead.awaited {length : Nat} (ih : Ahead length) {tokens : List Token}
    {stack : List Frame} {root : Node} (hl : tokens.length ≤ length)
    (h : run (.ready stack) tokens = .ok (.complete root)) (hw : AwaitsOperand stack) :
    OperandAhead stack tokens root := by
  cases tokens with
  | nil => cases h
  | cons token tokens =>
      obtain ⟨next, ha, -⟩ := advance_of_run_cons h
      exact ih.operand hl (hw.starts ha) h

/-- A name and what the token behind it makes of it. -/
theorem Ahead.named {length : Nat} (ih : Ahead length) {tokens : List Token} {word : Token}
    {name : String} {stack : List Frame} {root : Node} (hl : tokens.length ≤ length)
    (hk : word.kind = .identifier name)
    (h : run (.named name word stack) tokens = .ok (.complete root)) :
    OperandAhead stack (word :: tokens) root := by
  cases tokens with
  | nil => cases h
  | cons token tokens =>
      have hl' : tokens.length ≤ length := by simp only [List.length_cons] at hl; omega
      by_cases harrow : token.kind = .arrow
      · have ha : advance (.named name word stack) token =
            .ok (.ready (.assign name token :: stack)) := by
          simp only [advance, harrow]
        rw [run_cons_of_advance _ ha] at h
        obtain ⟨operand, value, rest, rfl, -, hd, hr⟩ := ih.awaited hl' h trivial
        exact ⟨word :: token :: operand, .assign name value, rest, rfl, by simp,
          .assign hk harrow hd, hr⟩
      · by_cases hopen : token.kind = .argumentsOpen
        · have ha : advance (.named name word stack) token =
              .ok (.ready (.group (.call name word.location) token [] :: stack)) := by
            simp only [advance, hopen]
          rw [run_cons_of_advance _ ha] at h
          obtain ⟨inner, args, closer, rest, rfl, hc, hd, hr⟩ := ih.group hl' h
          exact ⟨word :: token :: (inner ++ [closer]), .call name args (some word.location), rest,
            by simp, by simp, .call hk hopen hc (hd [] .empty), hr⟩
        · refine ⟨[word], .var name (some word.location), token :: tokens, rfl, by simp,
            .name hk ⟨token, tokens, rfl, harrow, hopen⟩, ?_⟩
          rw [run_cons, ← advance_named stack harrow hopen, ← run_cons]
          exact h

theorem Ahead.succ_operand {length : Nat} (ih : Ahead length) {tokens : List Token}
    {token : Token} {stack : List Frame} {root : Node} (hl : tokens.length ≤ length)
    (hs : Starts token) (h : run (.ready stack) (token :: tokens) = .ok (.complete root)) :
    OperandAhead stack (token :: tokens) root := by
  obtain ⟨next, ha, hr⟩ := advance_of_run_cons h
  cases hk : token.kind with
  | arrow => simp only [advance, read, hk] at ha; cases ha
  | less => simp [Starts, hk, Token.Kind.operator?] at hs
  | operation name => simp [Starts, hk, Token.Kind.operator?] at hs
  | blockClose => exact absurd hk hs.1
  | argumentsClose => exact absurd hk hs.2.1
  | text content =>
      simp only [advance, read, hk, Except.ok.injEq] at ha
      subst next
      exact ⟨[token], _, tokens, rfl, by simp, .text hk, hr⟩
  | number value =>
      simp only [advance, read, hk, Except.ok.injEq] at ha
      subst next
      exact ⟨[token], _, tokens, rfl, by simp, .number hk, hr⟩
  | lambda =>
      simp only [advance, read, hk, Except.ok.injEq] at ha
      subst next
      obtain ⟨operand, body, rest, rfl, -, hd, hr⟩ := ih.awaited hl hr trivial
      exact ⟨token :: operand, .lambda body, rest, rfl, by simp, .lambda hk hd, hr⟩
  | argumentsOpen =>
      simp only [advance, read, hk, Except.ok.injEq] at ha
      subst next
      obtain ⟨inner, nodes, closer, rest, rfl, hc, hd, hr⟩ := ih.group hl hr
      exact ⟨token :: (inner ++ [closer]), .list nodes, rest, by simp, by simp,
        .list hk hc (hd [] .empty), hr⟩
  | blockOpen braced =>
      simp only [advance, read, hk, Except.ok.injEq] at ha
      subst next
      obtain ⟨inner, nodes, closer, rest, rfl, hc, hd, hr⟩ := ih.group hl hr
      exact ⟨token :: (inner ++ [closer]), _, rest, by simp, by simp,
        .block hk hc (hd [] .empty), hr⟩
  | identifier name =>
      rw [advance_identifier hk] at ha
      simp only [Except.ok.injEq] at ha
      subst next
      exact ih.named hl hk hr

/-- The rest of a group when its next token closes it. -/
theorem groupAhead_close {token : Token} {tokens : List Token} {group : Group} {opener : Token}
    {nodes : List Node} {stack : List Frame} {root : Node}
    (hk : token.kind = .blockClose ∨ token.kind = .argumentsClose)
    (h : run (.ready (.group group opener nodes :: stack)) (token :: tokens) =
      .ok (.complete root)) :
    GroupAhead group nodes stack (token :: tokens) root := by
  obtain ⟨next, ha, hr⟩ := advance_of_run_cons h
  have hclose : close token (.group group opener nodes :: stack) = .ok next := by
    rcases hk with hk | hk <;> simpa only [advance, read, hk] using ha
  simp only [close] at hclose
  split at hclose
  · rename_i hc
    cases hclose
    exact ⟨[], nodes.reverse, token, tokens, rfl, hc,
      fun front hf => by simpa only [List.append_nil] using hf, hr⟩
  · cases hclose

/-- The rest of a group when its next token is an operator. -/
theorem Ahead.group_operator {length : Nat} (ih : Ahead length) {token : Token}
    {tokens : List Token} {group : Group} {opener : Token} {nodes : List Node}
    {stack : List Frame} {root : Node} {name : String} (hl : tokens.length ≤ length)
    (ho : token.kind.operator? = some name)
    (h : run (.ready (.group group opener nodes :: stack)) (token :: tokens) =
      .ok (.complete root)) :
    GroupAhead group nodes stack (token :: tokens) root := by
  obtain ⟨next, ha, hr⟩ := advance_of_run_cons h
  rw [advance_operator ho] at ha
  cases nodes with
  | nil => cases ha
  | cons left nodes =>
      simp only [operate, Except.ok.injEq] at ha
      subst next
      obtain ⟨operand, right, rest, rfl, -, hright, hr⟩ := ih.awaited hl hr trivial
      have hl' : rest.length ≤ length := by simp only [List.length_append] at hl; omega
      obtain ⟨inner, all, closer, rest, rfl, hc, hd, hr⟩ := ih.group hl' hr
      refine ⟨token :: operand ++ inner, all, closer, rest, by simp, hc, ?_, hr⟩
      intro front hfront
      rw [List.reverse_cons] at hfront
      rw [← List.append_assoc]
      apply hd
      rw [List.reverse_cons]
      exact Derives.operate hfront ho hright

theorem Ahead.succ_group {length : Nat} (ih : Ahead length) {tokens : List Token}
    {group : Group} {opener : Token} {nodes : List Node} {stack : List Frame} {root : Node}
    (hl : tokens.length ≤ length + 1)
    (h : run (.ready (.group group opener nodes :: stack)) tokens = .ok (.complete root)) :
    GroupAhead group nodes stack tokens root := by
  cases tokens with
  | nil => cases h
  | cons token tokens =>
      have hl' : tokens.length ≤ length := Nat.le_of_succ_le_succ hl
      by_cases hclose : token.kind = .blockClose ∨ token.kind = .argumentsClose
      · exact groupAhead_close hclose h
      cases ho : token.kind.operator? with
      | some name => exact ih.group_operator hl' ho h
      | none =>
          have hs : Starts token :=
            ⟨fun hk => hclose (.inl hk), fun hk => hclose (.inr hk), ho⟩
          obtain ⟨operand, node, rest, he, hne, hnode, hr⟩ := ih.succ_operand hl' hs h
          have hl'' : rest.length ≤ length := by
            have hlen := congrArg List.length he
            have hpos := List.length_pos_iff.2 hne
            simp only [List.length_cons, List.length_append] at hlen hl
            omega
          obtain ⟨inner, all, closer, rest, rfl, hc, hd, hr⟩ := ih.group hl'' hr
          refine ⟨operand ++ inner, all, closer, rest, by rw [he, List.append_assoc], hc, ?_, hr⟩
          intro front hfront
          rw [he] at hfront
          rw [← List.append_assoc]
          apply hd
          rw [List.reverse_cons]
          exact Derives.append hfront hnode

theorem ahead (length : Nat) : Ahead length := by
  induction length with
  | zero =>
      refine ⟨fun hl => absurd hl (by simp), fun hl h => ?_⟩
      obtain rfl := List.eq_nil_of_length_eq_zero (Nat.le_zero.1 hl)
      cases h
  | succ length ih =>
      exact ⟨fun hl hs h => ih.succ_operand (Nat.le_of_succ_le_succ hl) hs h,
        fun hl h => ih.succ_group hl h⟩

/-- The runs that end in a tree are the derivations of that tree. -/
theorem run_eq_complete_iff {tokens : List Token} {root : Node} :
    run (.ready []) tokens = .ok (.complete root) ↔ Derives tokens (.operand root) [] := by
  constructor
  · intro h
    obtain ⟨operand, node, rest, rfl, -, hd, hr⟩ :=
      (ahead tokens.length).awaited (Nat.le_refl _) h trivial
    -- The node is delivered to an empty stack, so no token may be left.
    cases rest with
    | nil =>
        cases hr
        simpa only [List.append_nil] using hd
    | cons token rest =>
        obtain ⟨next, ha, -⟩ := advance_of_run_cons hr
        cases ha
  · intro h
    have hr := h.runs []
    rw [List.append_nil] at hr
    exact hr

end Parser

end Pseudocode
