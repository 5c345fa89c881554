import Pseudocode.Proofs.Outline

/-!
# Blocks inside of a stream

What lies at the bottom of the parser's stack is out of reach while a group above it is
open. So a block is parsed the same inside of anything else as on its own, with as much
less nesting left as there is below it, and a program of several blocks is parsed one
block after the other.

The stream of a text is such a program: it is the blocks of its lines, one after the
other, inside the program block.
-/
namespace Pseudocode

namespace Parser

/-- The state with more frames below its stack. A complete node is delivered to them. -/
def State.over (below : List Frame) : State → State
  | ready stack => ready (stack ++ below)
  | named name word stack => named name word (stack ++ below)
  | complete node => deliver node below

theorem deliver_append (node : Node) (stack below : List Frame) :
    deliver node (stack ++ below) = (deliver node stack).over below := by
  induction stack generalizing node with
  | nil => rfl
  | cons frame stack ih =>
      cases frame with
      | group group opener nodes => rfl
      | assign name arrow => exact ih _
      | operation name left operator => exact ih _
      | lambda word => exact ih _

section
variable (below : List Frame) {stack : List Frame}

theorem close_append (token : Token) (h : stack ≠ []) :
    close token (stack ++ below) = (close token stack).map (State.over below) := by
  cases stack with
  | nil => exact absurd rfl h
  | cons frame stack =>
      cases frame with
      | group group opener nodes =>
          simp only [List.cons_append, close, deliver_append]
          split <;> rfl
      | _ => rfl

theorem operate_append (name : String) (token : Token) (h : stack ≠ []) :
    operate name token (stack ++ below) = (operate name token stack).map (State.over below) := by
  cases stack with
  | nil => exact absurd rfl h
  | cons frame stack =>
      cases frame with
      | group group opener nodes => cases nodes <;> rfl
      | _ => rfl

theorem read_append (token : Token) (h : stack ≠ []) :
    read token (stack ++ below) = (read token stack).map (State.over below) := by
  unfold read
  cases token.kind with
  | blockClose => exact close_append below token h
  | argumentsClose => exact close_append below token h
  | operation name => exact operate_append below name token h
  | less => exact operate_append below "<" token h
  | text content => exact congrArg Except.ok (deliver_append _ stack below)
  | number value => exact congrArg Except.ok (deliver_append _ stack below)
  | _ => rfl

theorem ne_nil_of_pairs (h : stack.filterMap Frame.pair? ≠ []) : stack ≠ [] := by
  rintro rfl
  exact h rfl

/-- While a group is open, a token does not reach what lies below. -/
theorem advance_over (state : State) (token : Token) (h : state.pairs ≠ []) :
    advance (state.over below) token = (advance state token).map (State.over below) := by
  cases state with
  | complete root => exact absurd rfl h
  | ready stack => exact read_append below token (ne_nil_of_pairs h)
  | named name word stack =>
      by_cases harrow : token.kind = .arrow
      · simp only [State.over, advance, harrow]
        rfl
      · by_cases hopen : token.kind = .argumentsOpen
        · simp only [State.over, advance, hopen]
          rfl
        · rw [State.over, advance_named _ harrow hopen, advance_named _ harrow hopen,
            deliver_append]
          obtain ⟨root, hd⟩ | ⟨next, hd, -⟩ :=
            deliver_cases (.var name (some word.location)) stack
          · have hp := pairs_deliver (.var name (some word.location)) stack
            rw [hd] at hp
            exact absurd hp.symm h
          · have hp : next.filterMap Frame.pair? ≠ [] := by rwa [filterMap_of_deliver hd]
            rw [hd]
            exact read_append below token (ne_nil_of_pairs hp)

theorem advance_of_step {limit : Nat} {state next : State} {token : Token}
    (h : step limit state token = .ok next) : advance state token = .ok next := by
  unfold step at h
  cases ha : advance state token with
  | error e => rw [ha] at h; cases h
  | ok reached =>
      rw [ha] at h
      simp only [bind, Except.bind] at h
      split at h
      · cases h; rfl
      · cases h

theorem run_of_foldlM_step {limit : Nat} {state last : State} {tokens : List Token}
    (h : tokens.foldlM (step limit) state = .ok last) : run state tokens = .ok last := by
  induction tokens generalizing state with
  | nil => exact h
  | cons token tokens ih =>
      rw [List.foldlM_cons] at h
      cases hs : step limit state token with
      | error e => rw [hs] at h; cases h
      | ok next =>
          rw [hs] at h
          exact (run_cons_of_advance tokens (advance_of_step hs)).trans (ih h)

theorem step_over (limit : Nat) (state : State) (token : Token) (h : state.pairs ≠ []) :
    step (limit + below.length) (state.over below) token =
      (step limit state token).map (State.over below) := by
  rw [step, step, advance_over below state token h]
  cases advance state token with
  | error e => rfl
  | ok next =>
      have hdepth : (next.over below).depth ≤ limit + below.length ↔ next.depth ≤ limit := by
        cases next with
        | ready stack => simp [State.over, State.depth]
        | named name word stack => simp [State.over, State.depth]
        | complete root =>
            have hle : (State.over below (.complete root)).depth ≤ below.length :=
              depth_deliver_le root below
            have hzero : (State.complete root).depth = 0 := rfl
            omega
      simp only [Except.map, bind, Except.bind, hdepth]
      split <;> rfl

/-- A stream that keeps a group open to its last token does not reach what lies below. -/
theorem foldlM_step_over (limit : Nat) (state : State) (tokens : List Token)
    (hopen : ∀ front token back, tokens = front ++ token :: back →
      Mark.scan state.pairs (Token.marks front) ≠ some []) :
    tokens.foldlM (step (limit + below.length)) (state.over below) =
      (tokens.foldlM (step limit) state).map (State.over below) := by
  induction tokens generalizing state with
  | nil => rfl
  | cons token tokens ih =>
      have hp : state.pairs ≠ [] := fun hp => hopen [] token tokens rfl (by rw [hp]; rfl)
      rw [List.foldlM_cons, List.foldlM_cons, step_over below limit state token hp]
      cases hs : step limit state token with
      | error e => rfl
      | ok next =>
          refine ih next fun front token' back he => ?_
          have hfront := hopen (token :: front) token' back (by rw [he]; rfl)
          rwa [Token.marks_cons, Mark.scan_append, advance_pairs (advance_of_step hs)] at hfront

end

theorem parseTokens_mono {limit deeper : Nat} (hle : limit ≤ deeper) {tokens : List Token}
    {root : Node} (h : parseTokens limit tokens = .ok root) :
    parseTokens deeper tokens = .ok root := by
  have hdeeper : ¬ Overflows deeper (.ready []) tokens := by
    rintro ⟨front, reached, hp, hr, hd⟩
    have hlimit : Overflows limit (.ready []) tokens :=
      ⟨front, reached, hp, hr, Nat.lt_of_le_of_lt hle hd⟩
    rw [parseTokens_eq_tooDeep hlimit] at h
    cases h
  rw [parseTokens_eq_run hdeeper, run_bind_finish_eq_ok]
  exact run_of_parseTokens h

/-- A block, from the token that opens it to the one that closes it. -/
def IsBlock (tokens : List Token) : Prop :=
  ∃ first braced inner last, tokens = first :: (inner ++ [last]) ∧
    first.kind = .blockOpen braced ∧ last.kind = .blockClose ∧ WellNested (Token.marks inner)

theorem wellNested_of_isBlock {tokens : List Token} (h : IsBlock tokens) :
    WellNested (Token.marks tokens) := by
  obtain ⟨first, braced, inner, last, rfl, hfirst, hlast, hinner⟩ := h
  have hmarks : Token.marks (first :: (inner ++ [last])) =
      .opens .curly :: (Token.marks inner ++ .closes .curly :: []) := by
    rw [Token.marks_cons, Token.marks_append, Token.marks_cons, hfirst, hlast]
    rfl
  rw [hmarks]
  exact .pair .curly hinner .nil

theorem wellNested_flatten {blocks : List (List Token)} (h : ∀ b ∈ blocks, IsBlock b) :
    WellNested (Token.marks blocks.flatten) := by
  induction blocks with
  | nil => exact .nil
  | cons b blocks ih =>
      rw [List.flatten_cons, Token.marks_append]
      exact (wellNested_of_isBlock (h b List.mem_cons_self)).append
        (ih fun b' hb' => h b' (List.mem_cons_of_mem b hb'))

/-- Inside of anything a block is parsed as on its own, and its node is delivered. -/
theorem foldlM_block (limit : Nat) (below : List Frame) {tokens : List Token}
    (h : IsBlock tokens) :
    tokens.foldlM (step (limit + below.length)) (.ready below) =
      (parseTokens limit tokens).map fun node => deliver node below := by
  obtain ⟨first, braced, inner, last, rfl, hfirst, hlast, hinner⟩ := h
  have hopened : step (limit + below.length) (.ready below) first =
      (step limit (.ready []) first).map (State.over below) := by
    have hone : below.length + 1 ≤ limit + below.length ↔ 1 ≤ limit := by omega
    simp only [step, advance_block hfirst, bind, Except.bind, State.depth, List.length_cons,
      List.length_nil, Nat.zero_add, hone]
    split <;> rfl
  rw [parseTokens, List.foldlM_cons, List.foldlM_cons, hopened]
  cases hs : step limit (.ready []) first with
  | error e => rfl
  | ok state =>
      have hstate : state = program braced first := by
        have ha := advance_of_step hs
        rw [advance_block hfirst] at ha
        exact (Except.ok.inj ha).symm
      subst hstate
      have hover := foldlM_step_over below limit (program braced first) (inner ++ [last])
        fun front token back he => open_before_last hinner he
      simp only [Except.map, bind, Except.bind] at hover ⊢
      rw [hover]
      cases hr : (inner ++ [last]).foldlM (step limit) (program braced first) with
      | error e => rfl
      | ok reached =>
          -- The block is closed by its last token, so its node is complete.
          have hrun : run (program braced first) (inner ++ [last]) = .ok reached :=
            run_of_foldlM_step hr
          have hpairs := run_pairs hrun
          rw [pairs_program, scan_last hinner hlast] at hpairs
          obtain ⟨root, rfl⟩ :=
            ((rooted_program braced first).run hrun).complete (Option.some.inj hpairs).symm
          rfl

/-- Blocks one after the other in an open group become its nodes. -/
theorem foldlM_blocks (limit : Nat) (group : Group) (opener : Token) (nodes : List Node)
    (stack : List Frame) {blocks : List (List Token)} (h : ∀ b ∈ blocks, IsBlock b) :
    blocks.flatten.foldlM (step (limit + (stack.length + 1)))
        (.ready (.group group opener nodes :: stack)) =
      (blocks.mapM (parseTokens limit)).map fun more =>
        .ready (.group group opener (more.reverse ++ nodes) :: stack) := by
  induction blocks generalizing nodes with
  | nil => rfl
  | cons b blocks ih =>
      have hb := foldlM_block limit (.group group opener nodes :: stack) (h b List.mem_cons_self)
      rw [List.length_cons] at hb
      rw [List.flatten_cons, List.foldlM_append, hb, List.mapM_cons]
      cases parseTokens limit b with
      | error e => rfl
      | ok node =>
          have hrest := ih (node :: nodes) fun b' hb' => h b' (List.mem_cons_of_mem b hb')
          simp only [Except.map, bind, Except.bind, deliver] at hrest ⊢
          rw [hrest]
          cases blocks.mapM (parseTokens limit) with
          | error e => rfl
          | ok more => simp [pure, Except.pure]

section
variable {first last : Token} {braced : Bool} (hfirst : first.kind = .blockOpen braced)
include hfirst

/-- A block of blocks before its last token. -/
theorem foldlM_first_blocks (limit : Nat) {blocks : List (List Token)}
    (h : ∀ b ∈ blocks, IsBlock b) :
    (first :: blocks.flatten).foldlM (step (limit + 1)) (.ready []) =
      (blocks.mapM (parseTokens limit)).map fun nodes =>
        .ready [.group (.block braced) first nodes.reverse] := by
  have hopened : step (limit + 1) (.ready []) first = .ok (program braced first) := by
    simp [step, advance_block hfirst, bind, Except.bind, State.depth, program]
  have hblocks := foldlM_blocks limit (.block braced) first [] [] h
  simp only [List.length_nil, Nat.zero_add, List.append_nil] at hblocks
  rw [List.foldlM_cons, hopened]
  exact hblocks

/-- A block of blocks is parsed block by block. -/
theorem parseTokens_blocks (hlast : last.kind = .blockClose) (limit : Nat)
    {blocks : List (List Token)} (h : ∀ b ∈ blocks, IsBlock b) :
    parseTokens (limit + 1) (first :: (blocks.flatten ++ [last])) =
      (blocks.mapM (parseTokens limit)).map (Group.block braced).node := by
  rw [parseTokens, ← List.cons_append, List.foldlM_append, foldlM_first_blocks hfirst limit h]
  cases blocks.mapM (parseTokens limit) with
  | error e => rfl
  | ok nodes =>
      have hclosed : step (limit + 1) (.ready [.group (.block braced) first nodes.reverse]) last =
          .ok (.complete ((Group.block braced).node nodes)) := by
        simp [step, advance, read, hlast, close, Group.closer, deliver, bind, Except.bind,
          State.depth]
      simp only [Except.map, bind, Except.bind, List.foldlM_cons, hclosed]
      rfl

end

end Parser

namespace Outline
open Layout (Bracket)

theorem mark?_of_plain {kind : Token.Kind} (h : kind.Plain) : kind.mark? = none := by
  cases kind with
  | blockOpen _ | blockClose | argumentsOpen | argumentsClose => exact h.elim
  | _ => rfl

/-- Brackets that are open already are out of reach for tokens that close none of them. -/
theorem Takes.above {before after : Outline} {kind : Token.Kind} (h : Takes before kind after)
    {top base : List Bracket} (hb : before.brackets = top ++ base) {stack reached : List Pair}
    (hscan : Mark.scan stack kind.mark?.toList = some reached) (hl : stack.length = top.length) :
    ∃ next, after.brackets = next ++ base ∧ reached.length = next.length := by
  have hopens : ∀ {b : Bracket} {pair : Pair}, after.brackets = b :: before.brackets →
      kind.mark? = some (.opens pair) →
      ∃ next, after.brackets = next ++ base ∧ reached.length = next.length := by
    intro b pair ha hk
    rw [hk, Option.toList_some, Mark.scan_opens] at hscan
    cases hscan
    exact ⟨b :: top, by rw [ha, hb]; rfl, by simp [hl]⟩
  have hkeeps : after.brackets = before.brackets → kind.mark? = none →
      ∃ next, after.brackets = next ++ base ∧ reached.length = next.length := by
    intro ha hk
    rw [hk] at hscan
    cases hscan
    exact ⟨top, by rw [ha, hb], hl⟩
  have hcloses : ∀ {b : Bracket} {pair : Pair}, before.brackets = b :: after.brackets →
      kind.mark? = some (.closes pair) →
      ∃ next, after.brackets = next ++ base ∧ reached.length = next.length := by
    intro b pair ha hk
    rw [hk, Option.toList_some, Mark.scan_cons] at hscan
    match stack, top with
    | [], _ => cases hscan
    | _ :: _, [] => cases hl
    | q :: stack, b' :: top =>
        rw [ha] at hb
        simp only [Mark.take] at hscan
        split at hscan
        · cases hscan
          exact ⟨top, (List.cons.inj hb).2, Nat.succ.inj hl⟩
        · cases hscan
  cases h with
  | program | statement | rightSide _ | braces _ | paren _ => exact hopens rfl rfl
  | plain _ hk => exact hkeeps rfl (mark?_of_plain hk)
  | arrow _ => exact hkeeps rfl rfl
  | endStatement | endRightSide | endBraces | endParen => exact hcloses rfl rfl

theorem Runs.above {before after : Outline} {tokens : List Token} (h : Runs before tokens after)
    {top base : List Bracket} (hb : before.brackets = top ++ base) {stack reached : List Pair}
    (hscan : Mark.scan stack (Token.marks tokens) = some reached)
    (hl : stack.length = top.length) :
    ∃ next, after.brackets = next ++ base ∧ reached.length = next.length := by
  induction tokens generalizing before top stack with
  | nil =>
      cases h
      cases hscan
      exact ⟨top, hb, hl⟩
  | cons token tokens ih =>
      obtain ⟨middle, ht, hr⟩ := h
      rw [Token.marks_cons] at hscan
      obtain ⟨stack', hstack⟩ := Mark.scan_prefix (List.prefix_append _ _) hscan
      rw [Mark.scan_append, hstack, Option.bind_some] at hscan
      obtain ⟨top', hb', hl'⟩ := ht.above hb hstack hl
      exact ih hr hb' hscan hl'

/-- Well-nested tokens leave the open brackets as they are. -/
theorem Runs.brackets_eq {before after : Outline} {tokens : List Token}
    (h : Runs before tokens after) (hw : WellNested (Token.marks tokens)) :
    after.brackets = before.brackets := by
  obtain ⟨next, hn, hl⟩ := h.above (List.nil_append _).symm (hw.scan []) rfl
  rw [hn, List.length_eq_zero_iff.1 hl.symm, List.nil_append]

/-- Directly inside of braces only a line can begin. -/
theorem Takes.line {bs : List Bracket} {kind : Token.Kind} {next : Outline}
    (h : Takes ⟨.brace :: bs, .free⟩ kind next) (hc : kind ≠ .blockClose) :
    kind = .blockOpen false ∧ next = ⟨.statement :: .brace :: bs, .free⟩ := by
  cases h with
  | statement => exact ⟨rfl, rfl⟩
  | braces hb | paren hb | arrow hb => exact absurd rfl hb
  | plain hb _ => exact absurd rfl hb
  | endBraces => exact absurd rfl hc

theorem Takes.endLine {bs : List Bracket} {pace : Pace} {next : Outline}
    (h : Takes ⟨.statement :: bs, pace⟩ .blockClose next) : next = ⟨bs, .free⟩ := by
  cases h with
  | plain _ hk => exact hk.elim
  | endStatement => rfl

theorem kind_of_closes_curly {kind : Token.Kind} (h : kind.mark? = some (.closes .curly)) :
    kind = .blockClose := by
  cases kind with
  | blockClose => rfl
  | _ => cases h

theorem exists_split_of_marks {tokens : List Token} {inner after : List Mark} {m : Mark}
    (h : Token.marks tokens = inner ++ m :: after) :
    ∃ front token back, tokens = front ++ token :: back ∧ Token.marks front = inner ∧
      token.kind.mark? = some m ∧ Token.marks back = after := by
  obtain ⟨front, rest, rfl, hfront, hrest⟩ := List.filterMap_eq_append_iff.1 h
  obtain ⟨plain, token, back, rfl, hplain, htoken, hback⟩ := List.filterMap_eq_cons_iff.1 hrest
  refine ⟨front ++ plain, token, back, by rw [List.append_assoc], ?_, htoken, hback⟩
  have hnone : Token.marks plain = [] := List.filterMap_eq_nil_iff.2 hplain
  rw [Token.marks_append, hnone, List.append_nil]
  exact hfront

/-- What stands directly inside of braces are the blocks of lines. -/
theorem Runs.blocks {bs : List Bracket} {tokens : List Token} {after : Outline}
    (h : Runs ⟨.brace :: bs, .free⟩ tokens after) (hw : WellNested (Token.marks tokens)) :
    ∃ blocks : List (List Token), tokens = blocks.flatten ∧ ∀ b ∈ blocks, Parser.IsBlock b := by
  induction hl : tokens.length using Nat.strong_induction_on generalizing tokens with
  | _ length ih =>
  subst hl
  cases tokens with
  | nil => exact ⟨[], rfl, by simp⟩
  | cons first rest =>
      obtain ⟨next, ht, hr⟩ := h
      have hc : first.kind ≠ .blockClose := by
        intro hk
        rw [Token.marks_cons, hk] at hw
        cases hw
      obtain ⟨hfirst, rfl⟩ := ht.line hc
      rw [Token.marks_cons, hfirst] at hw
      generalize hm : Token.marks rest = marks at hw
      cases hw with
      | @pair _ inner others hinner hothers =>
          obtain ⟨front, last, back, rfl, hfront, hlast, hback⟩ := exists_split_of_marks hm
          -- The line is still open before its closer, and the closer ends it.
          obtain ⟨middle, hrf, next, hlt, hrb⟩ := runs_append.1 hr
          have hnested : WellNested (Token.marks front) := by rwa [hfront]
          have hmiddle : middle.brackets = .statement :: .brace :: bs := hrf.brackets_eq hnested
          have hkind := kind_of_closes_curly hlast
          obtain ⟨brackets, pace⟩ := middle
          subst hmiddle
          rw [hkind] at hlt
          obtain rfl := hlt.endLine
          obtain ⟨blocks, hblocks, hall⟩ := ih back.length (by simp; omega) hrb
            (by rwa [hback]) rfl
          refine ⟨(first :: (front ++ [last])) :: blocks, ?_, ?_⟩
          · rw [List.flatten_cons, ← hblocks]
            simp
          · intro b hb
            rcases List.mem_cons.1 hb with rfl | hb
            · exact ⟨first, false, front, last, rfl, hfirst, hkind, hnested⟩
            · exact hall b hb

end Outline

namespace Layout
open Outline

/-- The stream of a text with well-nested brackets is the program block of its lines. -/
theorem exists_blocks {cs : List Char} (h : Mark.scan [] (skeleton cs) = some []) :
    ∃ (lines : List (List Token)) (last : Token),
      (ofSource cs).tokens.toList = programOpener :: (lines.flatten ++ [last]) ∧
      last.kind = .blockClose ∧ ∀ line ∈ lines, Parser.IsBlock line := by
  obtain ⟨hstanding, hs, hst⟩ := standing_foldl standing_start anchored_start stacked_start
    .start (Lexeme.all cs)
  rw [List.nil_append, Lexeme.filterMap_mark?_all] at hstanding
  obtain ⟨inner, last, hinner, hlast, hnested⟩ :=
    hstanding.nested hs hst h (Position.start.advance cs)
  have hlist : (ofSource cs).tokens.toList = programOpener :: (inner ++ [last]) := by
    rw [toList_of_moves (ofSource_moves _), ← hinner]
    rfl
  obtain ⟨next, ht, hr⟩ := hlist ▸ runs_ofSource h
  cases ht with
  | program =>
      obtain ⟨middle, hr, -⟩ := hr.of_snoc
      obtain ⟨lines, rfl, hall⟩ := hr.blocks hnested
      exact ⟨lines, last, hlist, hlast, hall⟩

end Layout

end Pseudocode
