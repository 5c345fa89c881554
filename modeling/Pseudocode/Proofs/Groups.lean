import Pseudocode.Proofs.Acceptance
import Pseudocode.Proofs.Nesting

/-!
# The open groups of the parser

The groups on the parser's stack are the brackets that a scan of the tokens has open.
Frames that wait for an operand lie between them and count for nothing. Below, a run
that begins with an open group is compared with the scan of its tokens, both when it
succeeds and when it fails because of a bracket.
-/
namespace Pseudocode

/-- The error is one of brackets: a closer without an opener, or an opener without a closer. -/
def SourceError.Unbalanced : SourceError → Prop
  | stray _ | neverClosed _ => True
  | _ => False

namespace Parser

def Group.pair : Group → Pair
  | block _ => .curly
  | list | call _ _ => .round

def Frame.pair? : Frame → Option Pair
  | group g _ _ => some g.pair
  | _ => none

/-- The sorts of the open groups, the innermost first. -/
def State.pairs : State → List Pair
  | ready stack | named _ _ stack => stack.filterMap Frame.pair?
  | complete _ => []

theorem mark?_closer (group : Group) : group.closer.mark? = some (.closes group.pair) := by
  cases group <;> rfl

theorem pairs_deliver (node : Node) (stack : List Frame) :
    (deliver node stack).pairs = stack.filterMap Frame.pair? := by
  induction stack generalizing node with
  | nil => rfl
  | cons frame stack ih =>
      cases frame with
      | group group opener nodes => rfl
      | assign name arrow => exact ih _
      | operation name left operator => exact ih _
      | lambda word => exact ih _

theorem filterMap_of_deliver {node : Node} {stack after : List Frame}
    (h : deliver node stack = .ready after) :
    after.filterMap Frame.pair? = stack.filterMap Frame.pair? := by
  have hp := pairs_deliver node stack
  rw [h] at hp
  exact hp

theorem close_pairs {token : Token} {stack : List Frame} {next : State}
    (h : close token stack = .ok next) :
    Mark.scan (stack.filterMap Frame.pair?) token.kind.mark?.toList = some next.pairs := by
  match stack, h with
  | .group group _ nodes :: stack, h =>
      simp only [close] at h
      split at h
      · rename_i hc
        cases h
        rw [hc, mark?_closer, pairs_deliver]
        exact Mark.scan_closes _ _ _
      · cases h

theorem operate_pairs {name : String} {token : Token} {stack : List Frame} {next : State}
    (h : operate name token stack = .ok next) : stack.filterMap Frame.pair? = next.pairs := by
  match stack, h with
  | .group _ _ (_ :: _) :: _, h =>
      cases h
      rfl

theorem read_pairs {token : Token} {stack : List Frame} {next : State}
    (h : read token stack = .ok next) :
    Mark.scan (stack.filterMap Frame.pair?) token.kind.mark?.toList = some next.pairs := by
  cases hk : token.kind with
  | blockClose =>
      simp only [read, hk] at h
      rw [← hk]
      exact close_pairs h
  | argumentsClose =>
      simp only [read, hk] at h
      rw [← hk]
      exact close_pairs h
  | operation name =>
      simp only [read, hk] at h
      exact congrArg some (operate_pairs h)
  | less =>
      simp only [read, hk] at h
      exact congrArg some (operate_pairs h)
  | text content =>
      simp only [read, hk, Except.ok.injEq] at h
      subst next
      exact congrArg some (pairs_deliver _ stack).symm
  | number value =>
      simp only [read, hk, Except.ok.injEq] at h
      subst next
      exact congrArg some (pairs_deliver _ stack).symm
  | arrow => simp only [read, hk] at h; cases h
  | argumentsOpen => simp only [read, hk, Except.ok.injEq] at h; subst next; rfl
  | blockOpen braced => simp only [read, hk, Except.ok.injEq] at h; subst next; rfl
  | lambda => simp only [read, hk, Except.ok.injEq] at h; subst next; rfl
  | identifier name => simp only [read, hk, Except.ok.injEq] at h; subst next; rfl

theorem advance_pairs {state next : State} {token : Token} (h : advance state token = .ok next) :
    Mark.scan state.pairs token.kind.mark?.toList = some next.pairs := by
  cases state with
  | complete root => cases h
  | ready stack => exact read_pairs h
  | named name word stack =>
      obtain ⟨hk, ha⟩ | ⟨hk, ha⟩ | ⟨-, after, hd, -, ha⟩ | ⟨root, -, ha⟩ :=
        advance_named_cases name word token stack <;> rw [ha] at h
      · cases h
        rw [hk]
        rfl
      · cases h
        rw [hk]
        rfl
      · have hscan := read_pairs h
        rw [filterMap_of_deliver hd] at hscan
        exact hscan
      · cases h

/-- The open groups after a run are the open brackets after the scan of its tokens. -/
theorem run_pairs {state last : State} {tokens : List Token} (h : run state tokens = .ok last) :
    Mark.scan state.pairs (Token.marks tokens) = some last.pairs := by
  induction tokens generalizing state with
  | nil => cases h; rfl
  | cons token tokens ih =>
      obtain ⟨next, ha, hr⟩ := advance_of_run_cons h
      rw [Token.marks_cons, Mark.scan_append, advance_pairs ha]
      exact ih hr

/-- The outermost frame is a group, or the tree is complete. -/
def Rooted : State → Prop
  | .complete _ => True
  | .ready stack | .named _ _ stack =>
      ∃ group opener nodes, stack.getLast? = some (.group group opener nodes)

theorem rooted_deliver (node : Node) {stack : List Frame}
    (h : stack = [] ∨ Rooted (.ready stack)) : Rooted (deliver node stack) := by
  induction stack generalizing node with
  | nil => trivial
  | cons frame stack ih =>
      obtain ⟨group, opener, nodes, hlast⟩ := h.resolve_left (by simp)
      cases stack with
      | nil =>
          cases hlast
          exact ⟨group, opener, node :: nodes, rfl⟩
      | cons below stack =>
          rw [List.getLast?_cons_cons] at hlast
          have hr : Rooted (.ready (below :: stack)) := ⟨group, opener, nodes, hlast⟩
          cases frame with
          | group g o ns => exact ⟨group, opener, nodes, by rw [List.getLast?_cons_cons, hlast]⟩
          | assign name arrow => exact ih _ (.inr hr)
          | operation name left operator => exact ih _ (.inr hr)
          | lambda word => exact ih _ (.inr hr)

theorem Rooted.cons {stack : List Frame} (h : Rooted (.ready stack)) (frame : Frame) :
    Rooted (.ready (frame :: stack)) := by
  obtain ⟨group, opener, nodes, hlast⟩ := h
  cases stack with
  | nil => cases hlast
  | cons below stack => exact ⟨group, opener, nodes, by rw [List.getLast?_cons_cons, hlast]⟩

theorem rooted_close {token : Token} {stack : List Frame} {next : State}
    (hs : Rooted (.ready stack)) (h : close token stack = .ok next) : Rooted next := by
  match stack, h with
  | .group group _ nodes :: stack, h =>
      simp only [close] at h
      split at h
      · cases h
        apply rooted_deliver
        cases stack with
        | nil => exact .inl rfl
        | cons below stack =>
            obtain ⟨g, o, ns, hlast⟩ := hs
            exact .inr ⟨g, o, ns, by rwa [List.getLast?_cons_cons] at hlast⟩
      · cases h

theorem rooted_operate {name : String} {token : Token} {stack : List Frame} {next : State}
    (hs : Rooted (.ready stack)) (h : operate name token stack = .ok next) : Rooted next := by
  match stack, h with
  | .group group opener (left :: nodes) :: stack, h =>
      cases h
      apply Rooted.cons
      obtain ⟨g, o, ns, hlast⟩ := hs
      cases stack with
      | nil => exact ⟨group, opener, nodes, rfl⟩
      | cons below stack =>
          rw [List.getLast?_cons_cons] at hlast
          exact ⟨g, o, ns, by rw [List.getLast?_cons_cons, hlast]⟩

theorem rooted_read {token : Token} {stack : List Frame} {next : State}
    (hs : Rooted (.ready stack)) (h : read token stack = .ok next) : Rooted next := by
  cases hk : token.kind <;> simp only [read, hk] at h
  case less | operation => exact rooted_operate hs h
  case blockClose | argumentsClose => exact rooted_close hs h
  case arrow => cases h
  case text | number => cases h; exact rooted_deliver _ (.inr hs)
  case identifier => cases h; exact hs
  all_goals cases h; exact hs.cons _

theorem Rooted.advance {state next : State} {token : Token} (hs : Rooted state)
    (h : advance state token = .ok next) : Rooted next := by
  cases state with
  | complete root => cases h
  | ready stack => exact rooted_read hs h
  | named name word stack =>
      have hs' : Rooted (.ready stack) := hs
      obtain ⟨-, ha⟩ | ⟨-, ha⟩ | ⟨-, after, hd, -, ha⟩ | ⟨root, -, ha⟩ :=
        advance_named_cases name word token stack <;> rw [ha] at h
      · cases h
        exact hs'.cons _
      · cases h
        exact hs'.cons _
      · have hr := rooted_deliver (.var name (some word.location)) (.inr hs')
        rw [hd] at hr
        exact rooted_read hr h
      · cases h

theorem Rooted.run {state last : State} {tokens : List Token} (hs : Rooted state)
    (h : run state tokens = .ok last) : Rooted last := by
  induction tokens generalizing state with
  | nil => cases h; exact hs
  | cons token tokens ih =>
      obtain ⟨next, ha, hr⟩ := advance_of_run_cons h
      exact ih (hs.advance ha) hr

theorem pairs_ne_nil_of_getLast? {stack : List Frame} {group : Group} {opener : Token}
    {nodes : List Node} (h : stack.getLast? = some (.group group opener nodes)) :
    stack.filterMap Frame.pair? ≠ [] := by
  intro hp
  have hm := List.mem_of_getLast? h
  have hnone := List.filterMap_eq_nil_iff.1 hp _ hm
  cases hnone

/-- With no group open, a run that began with one has its tree. -/
theorem Rooted.complete {state : State} (hs : Rooted state) (hp : state.pairs = []) :
    ∃ root, state = .complete root := by
  match state, hs with
  | .complete root, _ => exact ⟨root, rfl⟩
  | .ready stack, ⟨_, _, _, h⟩ => exact absurd hp (pairs_ne_nil_of_getLast? h)
  | .named _ _ stack, ⟨_, _, _, h⟩ => exact absurd hp (pairs_ne_nil_of_getLast? h)

theorem close_unbalanced {token : Token} {stack : List Frame} {e : SourceError}
    (hk : token.kind = .blockClose ∨ token.kind = .argumentsClose)
    (h : close token stack = .error e) (he : e.Unbalanced)
    (hp : stack.filterMap Frame.pair? ≠ []) :
    Mark.scan (stack.filterMap Frame.pair?) token.kind.mark?.toList = none := by
  match stack, h with
  | [], _ => exact absurd rfl hp
  | .assign _ _ :: _, h => cases h; exact he.elim
  | .operation _ _ _ :: _, h => cases h; exact he.elim
  | .lambda _ :: _, h => cases h; exact he.elim
  | .group group _ nodes :: stack, h =>
      simp only [close] at h
      split at h
      · cases h
      · rename_i hc
        -- Of the two closers, one closes this sort of group and the other does not.
        rcases hk with hk | hk <;> rw [hk] at hc ⊢ <;>
          cases group <;> first | exact absurd rfl hc | rfl

theorem operate_not_unbalanced {name : String} {token : Token} {stack : List Frame}
    {e : SourceError} (h : operate name token stack = .error e) : ¬ e.Unbalanced := by
  unfold operate at h
  split at h
  · cases h
  · cases h
    exact id

theorem read_unbalanced {token : Token} {stack : List Frame} {e : SourceError}
    (h : read token stack = .error e) (he : e.Unbalanced)
    (hp : stack.filterMap Frame.pair? ≠ []) :
    Mark.scan (stack.filterMap Frame.pair?) token.kind.mark?.toList = none := by
  cases hk : token.kind <;> simp only [read, hk] at h
  case less | operation => exact absurd he (operate_not_unbalanced h)
  case blockClose => rw [← hk]; exact close_unbalanced (.inl hk) h he hp
  case argumentsClose => rw [← hk]; exact close_unbalanced (.inr hk) h he hp
  case arrow => cases h; exact he.elim
  all_goals cases h

/-- With a group open, a token is refused as a bracket only if the scan refuses it. -/
theorem advance_unbalanced {state : State} {token : Token} {e : SourceError}
    (h : advance state token = .error e) (he : e.Unbalanced) (hp : state.pairs ≠ []) :
    Mark.scan state.pairs token.kind.mark?.toList = none := by
  cases state with
  | complete root => exact absurd rfl hp
  | ready stack => exact read_unbalanced h he hp
  | named name word stack =>
      have hp' : stack.filterMap Frame.pair? ≠ [] := hp
      obtain ⟨-, ha⟩ | ⟨-, ha⟩ | ⟨-, after, hd, -, ha⟩ | ⟨root, hd, ha⟩ :=
        advance_named_cases name word token stack <;> rw [ha] at h
      · cases h
      · cases h
      · rw [← filterMap_of_deliver hd] at hp'
        have hscan := read_unbalanced h he hp'
        rw [filterMap_of_deliver hd] at hscan
        exact hscan
      · have hpairs := pairs_deliver (.var name (some word.location)) stack
        rw [hd] at hpairs
        exact absurd hpairs.symm hp

/-- Tokens that keep a group open to the last of them cause no error of brackets. -/
theorem run_not_unbalanced (state : State) {tokens : List Token} {reached : List Pair}
    {e : SourceError} (hscan : Mark.scan state.pairs (Token.marks tokens) = some reached)
    (hopen : ∀ front token back, tokens = front ++ token :: back →
      Mark.scan state.pairs (Token.marks front) ≠ some [])
    (h : run state tokens = .error e) : ¬ e.Unbalanced := by
  induction tokens generalizing state with
  | nil => cases h
  | cons token tokens ih =>
      rw [Token.marks_cons, Mark.scan_append] at hscan
      rw [run_cons] at h
      cases ha : advance state token with
      | error e' =>
          rw [ha] at h
          cases h
          intro he
          have hp : state.pairs ≠ [] := fun hp => hopen [] token tokens rfl (by rw [hp]; rfl)
          rw [advance_unbalanced ha he hp] at hscan
          cases hscan
      | ok next =>
          rw [ha] at h
          rw [advance_pairs ha] at hscan
          refine ih next hscan (fun front token' back he => ?_) h
          have hfront := hopen (token :: front) token' back (by rw [he]; rfl)
          rw [Token.marks_cons, Mark.scan_append, advance_pairs ha] at hfront
          exact hfront

/-- A group stays open up to its last token when what it holds is well nested. -/
theorem open_before_last {inner : List Token} (hinner : WellNested (Token.marks inner))
    {pair : Pair} {front back : List Token} {last token : Token}
    (h : inner ++ [last] = front ++ token :: back) :
    Mark.scan [pair] (Token.marks front) ≠ some [] := by
  have hfront : front <+: inner := by
    have hp : front <+: inner ++ [last] := ⟨token :: back, h.symm⟩
    apply List.prefix_of_prefix_length_le hp (List.prefix_append _ _)
    have hlen := congrArg List.length h
    simp only [List.length_append, List.length_cons, List.length_nil] at hlen
    omega
  obtain ⟨back', hback⟩ := hfront
  obtain ⟨reached, hreach⟩ := Mark.scan_prefix
    ⟨Token.marks back', by rw [← Token.marks_append, hback]⟩ (hinner.scan [])
  have habove : Mark.scan [pair] (Token.marks front) = some (reached ++ [pair]) :=
    Mark.scan_above [pair] hreach
  intro hnil
  rw [habove] at hnil
  cases reached <;> cases hnil

theorem scan_last {inner : List Token} (hinner : WellNested (Token.marks inner)) {last : Token}
    (hlast : last.kind = .blockClose) :
    Mark.scan [.curly] (Token.marks (inner ++ [last])) = some [] := by
  have hmarks : Token.marks (inner ++ [last]) = Token.marks inner ++ [.closes .curly] := by
    rw [Token.marks_append]
    simp [Token.marks, hlast, Token.Kind.mark?]
  rw [hmarks, Mark.scan_append, hinner.scan]
  rfl

def program (braced : Bool) (first : Token) : State := .ready [.group (.block braced) first []]

theorem pairs_program (braced : Bool) (first : Token) : (program braced first).pairs = [.curly] :=
  rfl

theorem rooted_program (braced : Bool) (first : Token) : Rooted (program braced first) :=
  ⟨_, _, _, rfl⟩

section
variable {first : Token} {braced : Bool} (hfirst : first.kind = .blockOpen braced)
include hfirst

theorem run_first (tokens : List Token) :
    run (.ready []) (first :: tokens) = run (program braced first) tokens :=
  run_cons_of_advance tokens (advance_block hfirst [])

/-- The program block of an accepted stream is closed by its last token and not before. -/
theorem scan_of_accepted {tokens : List Token} {root : Node}
    (h : run (.ready []) (first :: tokens) = .ok (.complete root)) :
    Mark.scan [.curly] (Token.marks tokens) = some [] ∧
      ∀ front token back, tokens = front ++ token :: back →
        Mark.scan [.curly] (Token.marks front) ≠ some [] := by
  rw [run_first hfirst] at h
  refine ⟨run_pairs h, ?_⟩
  rintro front token back rfl hnil
  obtain ⟨middle, hm, hrest⟩ := run_split h
  have hpairs := run_pairs hm
  rw [pairs_program, hnil] at hpairs
  obtain ⟨root', rfl⟩ :=
    ((rooted_program braced first).run hm).complete (Option.some.inj hpairs).symm
  obtain ⟨next, ha, -⟩ := advance_of_run_cons hrest
  cases ha

/-- A well-nested program block is refused for other reasons than its brackets. -/
theorem parseTokens_not_unbalanced {last : Token} {inner : List Token} {limit : Nat}
    {e : SourceError} (hlast : last.kind = .blockClose) (hinner : WellNested (Token.marks inner))
    (h : parseTokens limit (first :: (inner ++ [last])) = .error e) : ¬ e.Unbalanced := by
  by_cases ho : Overflows limit (.ready []) (first :: (inner ++ [last]))
  · rw [parseTokens_eq_tooDeep ho] at h
    cases h
    exact id
  rw [parseTokens_eq_run ho, run_first hfirst] at h
  have hscan := scan_last hinner hlast
  cases hr : run (program braced first) (inner ++ [last]) with
  | error e' =>
      rw [hr] at h
      cases h
      exact run_not_unbalanced (program braced first) hscan
        (fun front token back he => open_before_last hinner he) hr
  | ok state =>
      rw [hr] at h
      have hpairs := run_pairs hr
      rw [pairs_program, hscan] at hpairs
      obtain ⟨root, rfl⟩ :=
        ((rooted_program braced first).run hr).complete (Option.some.inj hpairs).symm
      cases h

end

end Parser

end Pseudocode
