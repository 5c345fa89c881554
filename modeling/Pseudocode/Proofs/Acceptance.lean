import Pseudocode.Proofs.Grammar

/-!
# Which streams have a tree

The parser decides the grammar, as long as its limit admits the tokens. A stream that
nests deeper is refused before its end is seen, whether or not it is derived. Every other
refusal is an error in the stream.
-/
namespace Pseudocode

namespace Parser

theorem depth_deliver_le (node : Node) (stack : List Frame) :
    (deliver node stack).depth ≤ stack.length := by
  obtain ⟨root, h⟩ | ⟨next, h, hl⟩ := deliver_cases node stack
  · rw [h]
    exact Nat.zero_le _
  · rw [h]
    exact hl

theorem depth_close_le {token : Token} {stack : List Frame} {next : State}
    (h : close token stack = .ok next) : next.depth ≤ stack.length := by
  match stack, h with
  | .group group _ nodes :: stack, h =>
      simp only [close] at h
      split at h
      · cases h
        have hd := depth_deliver_le (group.node nodes.reverse) stack
        simp only [List.length_cons]
        omega
      · cases h

theorem depth_operate_le {name : String} {token : Token} {stack : List Frame} {next : State}
    (h : operate name token stack = .ok next) : next.depth ≤ stack.length + 1 := by
  match stack, h with
  | .group _ _ (_ :: _) :: _, h =>
      cases h
      exact Nat.le_refl _

theorem depth_read_le {token : Token} {stack : List Frame} {next : State}
    (h : read token stack = .ok next) : next.depth ≤ stack.length + 1 := by
  cases hk : token.kind <;> simp only [read, hk] at h
  case less | operation => exact depth_operate_le h
  case blockClose | argumentsClose => exact Nat.le_succ_of_le (depth_close_le h)
  case text content =>
    cases h
    exact Nat.le_succ_of_le (depth_deliver_le _ stack)
  case number value =>
    cases h
    exact Nat.le_succ_of_le (depth_deliver_le _ stack)
  case arrow => cases h
  all_goals
    cases h
    simp [State.depth]

/-- One token begins at most one thing. -/
theorem depth_advance_le {state next : State} {token : Token}
    (h : advance state token = .ok next) : next.depth ≤ state.depth + 1 := by
  cases state with
  | complete root => cases h
  | ready stack => exact depth_read_le h
  | named name word stack =>
      obtain ⟨-, ha⟩ | ⟨-, ha⟩ | ⟨-, after, -, hl, ha⟩ | ⟨root, -, ha⟩ :=
        advance_named_cases name word token stack <;> rw [ha] at h
      · cases h
        exact Nat.le_refl _
      · cases h
        exact Nat.le_refl _
      · exact Nat.le_trans (depth_read_le h) (Nat.add_le_add_right hl 1)
      · cases h

theorem depth_run_le {state last : State} {tokens : List Token}
    (h : run state tokens = .ok last) : last.depth ≤ state.depth + tokens.length := by
  induction tokens generalizing state with
  | nil => cases h; exact Nat.le_refl _
  | cons token tokens ih =>
      obtain ⟨next, ha, hr⟩ := advance_of_run_cons h
      have hn := depth_advance_le ha
      have hl := ih hr
      simp only [List.length_cons]
      omega

/-- After some of the tokens, more is begun and not complete than the limit allows. -/
def Overflows (limit : Nat) (state : State) (tokens : List Token) : Prop :=
  ∃ front reached, front <+: tokens ∧ run state front = .ok reached ∧ limit < reached.depth

theorem Overflows.cons {limit : Nat} {state next : State} {token : Token} {tokens : List Token}
    (ha : advance state token = .ok next) (h : Overflows limit next tokens) :
    Overflows limit state (token :: tokens) := by
  obtain ⟨front, reached, hp, hr, hd⟩ := h
  exact ⟨token :: front, reached, List.cons_prefix_cons.2 ⟨rfl, hp⟩,
    (run_cons_of_advance front ha).trans hr, hd⟩

theorem Overflows.of_cons {limit : Nat} {state : State} {token : Token} {tokens : List Token}
    (hs : state.depth ≤ limit) (h : Overflows limit state (token :: tokens)) :
    ∃ next, advance state token = .ok next ∧ Overflows limit next tokens := by
  obtain ⟨front, reached, hp, hr, hd⟩ := h
  cases front with
  | nil =>
      cases hr
      omega
  | cons first front =>
      obtain ⟨rfl, htail⟩ := List.cons_prefix_cons.1 hp
      obtain ⟨next, ha, hr⟩ := advance_of_run_cons hr
      exact ⟨next, ha, front, reached, htail, hr, hd⟩

/-- A stream of no more tokens than the limit never passes it. -/
theorem Overflows.lt_length {limit : Nat} {tokens : List Token}
    (h : Overflows limit (.ready []) tokens) : limit < tokens.length := by
  obtain ⟨front, reached, hp, hr, hd⟩ := h
  have hle : reached.depth ≤ 0 + front.length := depth_run_le hr
  have hlen := hp.length_le
  omega

theorem foldlM_step_eq_run {limit : Nat} {state : State} {tokens : List Token}
    (h : ¬ Overflows limit state tokens) : tokens.foldlM (step limit) state = run state tokens := by
  induction tokens generalizing state with
  | nil => rfl
  | cons token tokens ih =>
      rw [List.foldlM_cons, run_cons, step]
      cases ha : advance state token with
      | error e => rfl
      | ok next =>
          have hnext : ¬ Overflows limit next tokens := fun hn => h (hn.cons ha)
          have hd : next.depth ≤ limit :=
            Nat.le_of_not_lt fun hd => hnext ⟨[], next, List.nil_prefix, rfl, hd⟩
          simp only [bind, Except.bind, hd, if_true]
          exact ih hnext

theorem foldlM_step_eq_tooDeep {limit : Nat} {state : State} {tokens : List Token}
    (hs : state.depth ≤ limit) (h : Overflows limit state tokens) :
    tokens.foldlM (step limit) state = .error .tooDeep := by
  induction tokens generalizing state with
  | nil =>
      obtain ⟨front, reached, hp, hr, hd⟩ := h
      obtain rfl := List.prefix_nil.1 hp
      cases hr
      omega
  | cons token tokens ih =>
      obtain ⟨next, ha, hn⟩ := h.of_cons hs
      rw [List.foldlM_cons, step, ha]
      by_cases hd : next.depth ≤ limit
      · simp only [bind, Except.bind, hd, if_true]
        exact ih hd hn
      · simp only [bind, Except.bind, hd, if_false]

theorem close_error_kind {token : Token} {stack : List Frame} {e : SourceError}
    (h : close token stack = .error e) : e.kind = "ParseError" := by
  match stack, h with
  | [], h => cases h; rfl
  | .group group _ nodes :: stack, h =>
      simp only [close] at h
      split at h
      · cases h
      · cases h; rfl
  | .assign _ _ :: _, h => cases h; rfl
  | .operation _ _ _ :: _, h => cases h; rfl
  | .lambda _ :: _, h => cases h; rfl

theorem operate_error_kind {name : String} {token : Token} {stack : List Frame} {e : SourceError}
    (h : operate name token stack = .error e) : e.kind = "ParseError" := by
  unfold operate at h
  split at h
  · cases h
  · cases h; rfl

theorem read_error_kind {token : Token} {stack : List Frame} {e : SourceError}
    (h : read token stack = .error e) : e.kind = "ParseError" := by
  cases hk : token.kind <;> simp only [read, hk] at h
  case less | operation => exact operate_error_kind h
  case blockClose | argumentsClose => exact close_error_kind h
  case arrow => cases h; rfl
  all_goals cases h

theorem advance_error_kind {state : State} {token : Token} {e : SourceError}
    (h : advance state token = .error e) : e.kind = "ParseError" := by
  cases state with
  | complete root => cases h; rfl
  | ready stack => exact read_error_kind h
  | named name word stack =>
      obtain ⟨-, ha⟩ | ⟨-, ha⟩ | ⟨-, after, -, -, ha⟩ | ⟨root, -, ha⟩ :=
        advance_named_cases name word token stack <;> rw [ha] at h
      · cases h
      · cases h
      · exact read_error_kind h
      · cases h
        rfl

theorem run_error_kind {state : State} {tokens : List Token} {e : SourceError}
    (h : run state tokens = .error e) : e.kind = "ParseError" := by
  induction tokens generalizing state with
  | nil => cases h
  | cons token tokens ih =>
      rw [run_cons] at h
      cases ha : advance state token with
      | error e' =>
          rw [ha] at h
          cases h
          exact advance_error_kind ha
      | ok next =>
          rw [ha] at h
          exact ih h

theorem finish_eq_ok {state : State} {tree : Node} :
    finish state = .ok tree ↔ state = .complete tree := by
  constructor
  · intro h
    unfold finish at h
    split at h <;> cases h
    rfl
  · rintro rfl
    rfl

theorem finish_error_kind {state : State} {e : SourceError} (h : finish state = .error e) :
    e.kind = "ParseError" := by
  match state, h with
  | .named _ _ _, h => cases h; rfl
  | .ready [], h => cases h; rfl
  | .ready (.group _ _ _ :: _), h => cases h; rfl
  | .ready (.assign _ _ :: _), h => cases h; rfl
  | .ready (.operation _ _ _ :: _), h => cases h; rfl
  | .ready (.lambda _ :: _), h => cases h; rfl

/-- A stream that never passes the limit ends as its run without a limit. -/
theorem parseTokens_eq_run {limit : Nat} {tokens : List Token}
    (h : ¬ Overflows limit (.ready []) tokens) :
    parseTokens limit tokens = run (.ready []) tokens >>= finish := by
  rw [parseTokens, foldlM_step_eq_run h]

theorem parseTokens_eq_tooDeep {limit : Nat} {tokens : List Token}
    (h : Overflows limit (.ready []) tokens) : parseTokens limit tokens = .error .tooDeep := by
  rw [parseTokens, foldlM_step_eq_tooDeep (Nat.zero_le _) h]
  rfl

theorem run_bind_finish_eq_ok {tokens : List Token} {tree : Node} :
    run (.ready []) tokens >>= finish = .ok tree ↔
      run (.ready []) tokens = .ok (.complete tree) := by
  cases hr : run (.ready []) tokens with
  | error e => exact ⟨nofun, nofun⟩
  | ok state =>
      rw [Except.ok.injEq]
      exact finish_eq_ok

theorem run_bind_finish_error_kind {tokens : List Token} {e : SourceError}
    (h : run (.ready []) tokens >>= finish = .error e) : e.kind = "ParseError" := by
  cases hr : run (.ready []) tokens with
  | error e' =>
      rw [hr] at h
      cases h
      exact run_error_kind hr
  | ok state =>
      rw [hr] at h
      exact finish_error_kind h

theorem run_of_parseTokens {limit : Nat} {tokens : List Token} {tree : Node}
    (h : parseTokens limit tokens = .ok tree) : run (.ready []) tokens = .ok (.complete tree) := by
  by_cases ho : Overflows limit (.ready []) tokens
  · rw [parseTokens_eq_tooDeep ho] at h
    cases h
  · rw [parseTokens_eq_run ho] at h
    exact run_bind_finish_eq_ok.1 h

theorem parseTokens_error_kind {limit : Nat} {tokens : List Token} {e : SourceError}
    (h : parseTokens limit tokens = .error e) :
    e.kind = "ParseError" ∨ e = .tooDeep ∧ limit < tokens.length := by
  by_cases ho : Overflows limit (.ready []) tokens
  · rw [parseTokens_eq_tooDeep ho] at h
    cases h
    exact .inr ⟨rfl, ho.lt_length⟩
  · rw [parseTokens_eq_run ho] at h
    exact .inl (run_bind_finish_error_kind h)

/-- With a limit on nesting that its tokens cannot reach, a stream with a derivation is parsed. -/
theorem parseTokens_of_derives {tokens : List Token} {tree : Node}
    (h : Derives tokens (.operand tree) []) {limit : Nat} (hl : tokens.length ≤ limit) :
    parseTokens limit tokens = .ok tree := by
  have ho : ¬ Overflows limit (.ready []) tokens := fun ho => absurd ho.lt_length (by omega)
  rw [parseTokens_eq_run ho, run_bind_finish_eq_ok, run_eq_complete_iff]
  exact h

/-- A stream is parsed to the tree that the grammar derives from it, and has an error in it if there
is none. The limit on nesting has to admit the tokens. -/
theorem parseTokens_decides_grammar (limit : Nat) (tokens : List Token)
    (hlimit : tokens.length ≤ limit) :
    (∀ tree, parseTokens limit tokens = .ok tree ↔ Derives tokens (.operand tree) []) ∧
    ((∃ e, parseTokens limit tokens = .error e ∧ e.kind = "ParseError") ↔
      ¬ ∃ tree, Derives tokens (.operand tree) []) := by
  have htree (tree : Node) :
      parseTokens limit tokens = .ok tree ↔ Derives tokens (.operand tree) [] :=
    ⟨fun h => run_eq_complete_iff.1 (run_of_parseTokens h),
      fun h => parseTokens_of_derives h hlimit⟩
  refine ⟨htree, ?_⟩
  constructor
  · rintro ⟨e, he, -⟩ ⟨tree, hderives⟩
    rw [(htree tree).2 hderives] at he
    cases he
  · intro hnone
    cases hparse : parseTokens limit tokens with
    | ok tree => exact absurd ⟨tree, (htree tree).1 hparse⟩ hnone
    | error e =>
        obtain hkind | ⟨-, hlt⟩ := parseTokens_error_kind hparse
        · exact ⟨e, rfl, hkind⟩
        · exact absurd hlt (Nat.not_lt.2 hlimit)

/-- An operation among the arguments of a call, and the same with one closer too many. -/
theorem parseTokens_decides_grammar_sample :
    let call : List Token := [.identifier "f", .argumentsOpen, .text "a", .operation "+", .lambda,
      .text "b", .argumentsClose].map (⟨·, {}⟩)
    let closed := call ++ [⟨.argumentsClose, {}⟩]
    call.length ≤ 8 ∧ closed.length ≤ 8 ∧
    Derives call (.operand (.call "f" [.call "+" [.literal (.text "a"),
      .lambda (.literal (.text "b"))] (some {})] (some {}))) [] ∧
    ¬ ∃ tree, Derives closed (.operand tree) [] := by
  intro call closed
  have hcall : call.length ≤ 8 := by decide
  have hclosed : closed.length ≤ 8 := by decide
  refine ⟨hcall, hclosed, ((parseTokens_decides_grammar 8 call hcall).1 _).1 rfl, ?_⟩
  exact (parseTokens_decides_grammar 8 closed hclosed).2.1 ⟨_, rfl, rfl⟩

theorem run_replicate_opener (count : Nat) (stack : List Frame) :
    run (.ready stack) (List.replicate count ⟨.argumentsOpen, {}⟩) =
      .ok (.ready (List.replicate count (.group .list ⟨.argumentsOpen, {}⟩ []) ++ stack)) := by
  induction count generalizing stack with
  | zero => rfl
  | succ count ih =>
      rw [List.replicate_succ, run_cons_of_advance _ rfl, ih, List.replicate_succ',
        List.append_assoc]
      rfl

/-- Two thousand open parentheses have no tree, and it is their nesting that is refused. -/
theorem unclosed_parentheses_too_deep :
    (¬ ∃ tree, Derives (List.replicate 2000 ⟨.argumentsOpen, {}⟩) (.operand tree) []) ∧
      parseTokens nestingLimit (List.replicate 2000 ⟨.argumentsOpen, {}⟩) = .error .tooDeep ∧
      SourceError.tooDeep.kind ≠ "ParseError" := by
  refine ⟨?_, ?_, by decide⟩
  · rintro ⟨tree, hd⟩
    have hr := run_eq_complete_iff.2 hd
    rw [run_replicate_opener] at hr
    cases hr
  · apply parseTokens_eq_tooDeep
    refine ⟨List.replicate 2000 ⟨.argumentsOpen, {}⟩, _, List.prefix_refl _,
      run_replicate_opener 2000 [], ?_⟩
    simp only [State.depth, List.append_nil, List.length_replicate]
    decide

end Parser

end Pseudocode
