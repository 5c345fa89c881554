import Pseudocode.Proofs.Parallel
import Pseudocode.Proofs.Reparse

/-!
# Formatting keeps what a program does

The text of a parsed tree has the same tree at other places. Evaluation never asks for a
place but to point there when it fails. So a program does the same as its formatted text:
the values and the faults, the texts displayed, the scopes and all that the host has to
do with the run are the same, up to the places in the bodies of lambdas.

A host is handed lambdas and can look into them, so this holds of hosts that look past the
places there, and of no others. What a host has to do with a run is made visible by a host
that keeps a record.
-/
namespace Pseudocode

/-- What a host and a run have to do with each other. -/
inductive Dealing where
  | displayed (text : String) (result : Except Fault Unit)
  | asked (prompt : String) (answer : Except Fault Answer)
  | called (name : String) (args : List Value)
  /-- The host has a value forced, and is given what comes of it. -/
  | forcing (value : Value) (scope : Int)
  | forced (result : Except Fault Value)
  | answered (value : Value)
  | failed (fault : Fault)

def Dealing.mapBodies (f : Node → Node) : Dealing → Dealing
  | displayed text result => displayed text result
  | asked prompt answer => asked prompt answer
  | called name args => called name (args.map (Value.mapBodies f))
  | forcing value scope => forcing (value.mapBodies f) scope
  | forced result => forced (result.map (Value.mapBodies f))
  | answered value => answered (value.mapBodies f)
  | failed fault => failed fault

/-- The same channel, which keeps a record. -/
def Channel.recorded (channel : Channel σ) : Channel (σ × List Dealing) where
  display text state :=
    let done := channel.display text state.1
    (done.1, (done.2, state.2 ++ [.displayed text done.1]))
  input prompt state :=
    let given := channel.input prompt state.1
    (given.1, (given.2, state.2 ++ [.asked prompt given.1]))

def Reply.recorded (record : List Dealing) : Reply σ → Reply (σ × List Dealing)
  | answer value state => .answer value (state, record ++ [.answered value])
  | fail fault state => .fail fault (state, record ++ [.failed fault])
  | force value state resume scope =>
      .force value (state, record ++ [.forcing value scope])
        (fun result state => (resume result state.1).recorded (state.2 ++ [.forced result])) scope

def Host.recorded (host : Host σ) : Host (σ × List Dealing) where
  channel := host.channel.map Channel.recorded
  functions := host.functions
  call name args state := (host.call name args state.1).recorded (state.2 ++ [.called name args])
  functionText := host.functionText

/-- All that the host has to do with the run of a program. -/
def dealings (host : Host σ) (given : Bindings) (source : String) (state : σ)
    (limit : Nat := nestingLimit) : List Dealing :=
  (run host.recorded given source (state, []) limit).machine.host.2

section
variable {σ τ : Type} {f : Node → Node} {S : σ → τ → Prop}

/-- The states of the hosts are related, and the records differ in the bodies of lambdas. -/
def Recorded (f : Node → Node) (S : σ → τ → Prop) (s : σ × List Dealing) (t : τ × List Dealing) :
    Prop :=
  S s.1 t.1 ∧ s.2.map (Dealing.mapBodies f) = t.2.map (Dealing.mapBodies f)

theorem map_record_append {record record' : List Dealing}
    (hrecord : record.map (Dealing.mapBodies f) = record'.map (Dealing.mapBodies f))
    {d d' : Dealing} (hd : d.mapBodies f = d'.mapBodies f) :
    (record ++ [d]).map (Dealing.mapBodies f) = (record' ++ [d']).map (Dealing.mapBodies f) := by
  simp only [List.map_append, List.map_singleton, hrecord, hd]

theorem Channel.Alike.recorded {channel : Channel σ} {channel' : Channel τ}
    (h : channel.Alike S channel') :
    channel.recorded.Alike (Recorded f S) channel'.recorded where
  display text s t hs := by
    obtain ⟨hdone, hstate⟩ := h.display text s.1 t.1 hs.1
    exact ⟨hdone, hstate, map_record_append hs.2 (congrArg (Dealing.displayed text) hdone)⟩
  input prompt s t hs := by
    obtain ⟨hanswer, hstate⟩ := h.input prompt s.1 t.1 hs.1
    exact ⟨hanswer, hstate, map_record_append hs.2 (congrArg (Dealing.asked prompt) hanswer)⟩

theorem Reply.Alike.recorded {reply : Reply σ} {reply' : Reply τ} (h : reply.Alike f S reply')
    {record record' : List Dealing}
    (hrecord : record.map (Dealing.mapBodies f) = record'.map (Dealing.mapBodies f)) :
    (reply.recorded record).Alike f (Recorded f S) (reply'.recorded record') := by
  induction h generalizing record record' with
  | answer hvalue hstate =>
      exact .answer hvalue
        ⟨hstate, map_record_append hrecord (congrArg Dealing.answered hvalue)⟩
  | fail fault hstate => exact .fail fault ⟨hstate, map_record_append hrecord rfl⟩
  | force scope hvalue hstate _ ih =>
      refine .force scope hvalue
        ⟨hstate, map_record_append hrecord (congrArg (Dealing.forcing · scope) hvalue)⟩ ?_
      intro a b s t hab hs
      apply ih a b s.1 t.1 hab hs.1
      exact map_record_append hs.2 (congrArg Dealing.forced hab)

/-- Hosts that do alike keep the same record. -/
theorem Host.Alike.recorded {host : Host σ} {host' : Host τ} (h : host.Alike f S host') :
    host.recorded.Alike f (Recorded f S) host'.recorded where
  functions := h.functions
  channel := by
    have hchannel := h.channel
    show Option.Rel _ (host.channel.map Channel.recorded) (host'.channel.map Channel.recorded)
    generalize host.channel = channel at hchannel ⊢
    generalize host'.channel = channel' at hchannel ⊢
    cases hchannel with
    | none => exact .none
    | some hboth => exact .some hboth.recorded
  call name args args' s t hargs hs := by
    apply (h.call name args args' s.1 t.1 hargs hs.1).recorded
    exact map_record_append hs.2 (congrArg (Dealing.called name) hargs)
  functionText := h.functionText

end

namespace Node

theorem keepsSorts_unlocated : KeepsSorts unlocated := by
  intro a b h
  cases a <;> cases b <;>
    simp only [unlocated, unlocatedAll_eq_map, reduceCtorEq, block.injEq, list.injEq,
      literal.injEq, var.injEq, assign.injEq, call.injEq, lambda.injEq, and_true] at h
  case block.block => exact .block h
  case list.list => exact .list h
  case literal.literal =>
    rw [h]
    exact .literal _
  case var.var =>
    rw [h]
    exact .var _ _ _
  case assign.assign =>
    rw [h.1]
    exact .assign _ h.2
  case call.call =>
    rw [h.1]
    exact .call _ _ _ h.2
  case lambda.lambda => exact .lambda h

end Node

/-- The host looks past places: from related states, and given lambdas with the same bodies at
other places, it does the same and its states stay related. -/
def Host.LooksPastPlaces (host : Host σ) (S : σ → σ → Prop) : Prop :=
  host.Alike Node.unlocated S host

/-- A program and its formatted text do the same, if each number in the program reads back from
its text and the host looks past places. Both have a value or both fail, and the values, or the
causes of the failure, are the same; so are the texts displayed, the scopes with their parents and
bindings, and the dealings with the host. The limit on nesting has to admit the tokens of the
formatted text. -/
theorem formatting_keeps_behaviour (host : Host σ) (S : σ → σ → Prop)
    (hhost : host.LooksPastPlaces S) (given : Bindings) (source : String) (state : σ)
    (hstate : S state state) (limit : Nat) (indent : Int) (tree : Node)
    (h : parse source limit = .ok tree) (hx : ∀ x ∈ tree.numbers, Number.ReadsBack x) :
    let formatted := tree.programText indent
    let before := run host given source state limit
    let after := run host given formatted state limit
    ∃ layout, tokenize formatted = .ok layout ∧ (layout.tokens.size ≤ limit →
      before.answer Node.unlocated = after.answer Node.unlocated ∧
      before.machine.shown = after.machine.shown ∧
      before.machine.scopes.map (Scope.mapBodies Node.unlocated) =
        after.machine.scopes.map (Scope.mapBodies Node.unlocated) ∧
      S before.machine.host after.machine.host ∧
      (dealings host given source state limit).map (Dealing.mapBodies Node.unlocated) =
        (dealings host given formatted state limit).map (Dealing.mapBodies Node.unlocated)) := by
  intro formatted before after
  obtain ⟨layout, ht, hagain⟩ := reparse h hx indent
  refine ⟨layout, ht, fun hsize => ?_⟩
  obtain ⟨again, hagain, hsame⟩ := hagain.resolve_left fun hdeep => Nat.not_lt.2 hsize hdeep.1
  have hparse : parse formatted limit = .ok again := by rw [parse_of_tokenize ht, hagain]
  have hruns := alike_run hhost Node.keepsSorts_unlocated given h hparse hsame.symm hstate
  have hrecords := alike_run hhost.recorded Node.keepsSorts_unlocated given h hparse hsame.symm
    (s := (state, [])) (t := (state, [])) ⟨hstate, rfl⟩
  exact ⟨hruns.answer, hruns.machine.shown, hruns.machine.scopes, hruns.machine.host,
    hrecords.machine.host.2⟩

-- Two operands in one line are printed in braces, which nest.
example : (match parse "1 2\n3" 2 with
    | .error _ => false
    | .ok tree =>
        match parse (tree.programText 2) 2 with
        | .error e => decide (e = .tooDeep)
        | .ok _ => false) = true := by
  decide +kernel

/-- A host that keeps what it is given and shown, and has the first of it forced later. -/
def Host.keeping : Host (List Value) where
  channel := some
    { display := fun text kept => (.ok (), kept ++ [.text text])
      input := fun prompt kept => (.ok (.text prompt), kept) }
  functions := ["keep", "replay"]
  call name args kept :=
    if name = "keep" then .answer .nothing (kept ++ args)
    else .forceThen (kept.headD .nothing) kept .answer

/-- What is kept may differ in places. -/
theorem Host.looksPastPlaces_keeping : Host.keeping.LooksPastPlaces fun s t =>
    s.map (Value.mapBodies Node.unlocated) = t.map (Value.mapBodies Node.unlocated) where
  functions := rfl
  channel := by
    refine .some ⟨fun text s t hs => ⟨rfl, ?_⟩, fun prompt s t hs => ⟨rfl, hs⟩⟩
    rw [List.map_append, List.map_append, hs]
  call name args args' s t hargs hs := by
    unfold keeping
    dsimp only
    split
    · refine .answer rfl ?_
      rw [List.map_append, List.map_append, hs, hargs]
    · refine Reply.alike_forceThen ?_ hs fun a b s t hab hs => .answer hab hs
      have hfirst (kept : List Value) : (kept.headD .nothing).mapBodies Node.unlocated =
          (kept.map (Value.mapBodies Node.unlocated)).headD .nothing := by
        cases kept <;> rfl
      rw [hfirst, hfirst, hs]
  functionText := rfl

/-- A lambda that is kept, replayed and displayed, and another that is bound. Formatting moves
both, and drops a mark. -/
theorem formatting_keeps_behaviour_sample :
    let source := "keep(LAMBDA(y+1));\nz<-LAMBDA y\nDISPLAY(replay())"
    let formatted := "keep(LAMBDA (y + 1))\nz <- LAMBDA y\nDISPLAY(replay())"
    let before := run Host.keeping [("y", .number 0.5)] source []
    let after := run Host.keeping [("y", .number 0.5)] formatted []
    ∃ tree : Node, parse source = .ok tree ∧ tree.numbers = [1.0] ∧
      tree.programText 2 = formatted ∧ before.machine.shown = ["1.5"] ∧
      before.answer Node.unlocated = after.answer Node.unlocated ∧
      before.machine.shown = after.machine.shown ∧
      before.machine.scopes.map (Scope.mapBodies Node.unlocated) =
        after.machine.scopes.map (Scope.mapBodies Node.unlocated) ∧
      before.machine.host.map (Value.mapBodies Node.unlocated) =
        after.machine.host.map (Value.mapBodies Node.unlocated) ∧
      (dealings Host.keeping [("y", .number 0.5)] source []).map
          (Dealing.mapBodies Node.unlocated) =
        (dealings Host.keeping [("y", .number 0.5)] formatted []).map
          (Dealing.mapBodies Node.unlocated) := by
  intro source formatted before after
  have hok : (parse source).toOption.map
      (fun tree => (tree.numbers, tree.programText 2)) = some ([1.0], formatted) := by
    decide +kernel
  have hsize : (tokenize formatted).toOption.all (·.tokens.size ≤ nestingLimit) = true := by
    decide +kernel
  have hshown : before.machine.shown = ["1.5"] := by decide +kernel
  have hreads : ∀ x ∈ [(1.0 : Float)], Number.ReadsBack x := by
    simp only [List.forall_mem_cons, List.not_mem_nil, false_implies, implies_true, and_true]
    exact ⟨['1'], 1.0, by decide +kernel, by decide +kernel, by decide +kernel⟩
  cases hp : parse source with
  | error e =>
      rw [hp] at hok
      cases hok
  | ok tree =>
      rw [hp] at hok
      obtain ⟨hx, hprinted⟩ := Prod.mk.inj (Option.some.inj hok)
      refine ⟨tree, rfl, hx, hprinted, hshown, ?_⟩
      obtain ⟨layout, ht, hsame⟩ := formatting_keeps_behaviour Host.keeping _
        Host.looksPastPlaces_keeping [("y", .number 0.5)] source [] rfl nestingLimit 2 tree hp
        (by rwa [hx])
      rw [hprinted] at ht hsame
      rw [ht] at hsize
      exact hsame (of_decide_eq_true hsize)

/-- A host that tells in which line the body of a lambda stands. -/
def Host.surveying : Host Unit where
  channel := Option.none
  functions := ["line"]
  call _ args state :=
    match (Value.bodiesAll args).map Node.location with
    | [some ⟨some line, _⟩] => .answer (.text (toString line)) state
    | _ => .fail .invalidArguments state

/-- Formatting joins two lines, and another number is displayed. -/
theorem formatting_moves_places :
    let source := "DISPLAY(line(\nLAMBDA y))"
    ∃ tree : Node, parse source = .ok tree ∧ tree.numbers = [] ∧
      (run Host.surveying [] source ()).machine.shown = ["2"] ∧
      (run Host.surveying [] (tree.programText 2) ()).machine.shown = ["1"] := by
  intro source
  have hok : (parse source).toOption.map (fun tree => (tree.numbers, tree.programText 2)) =
      some ([], "DISPLAY(line(LAMBDA y))") := by
    decide +kernel
  cases hp : parse source with
  | error e =>
      rw [hp] at hok
      cases hok
  | ok tree =>
      rw [hp] at hok
      obtain ⟨hx, hprinted⟩ := Prod.mk.inj (Option.some.inj hok)
      refine ⟨tree, rfl, hx, ?_⟩
      rw [hprinted]
      constructor <;> decide +kernel

end Pseudocode
