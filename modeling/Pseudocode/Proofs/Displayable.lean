import Pseudocode.Evaluation.Builtin
import Pseudocode.Export

/-!
# Values that can be shown

Whether a value can be displayed, whether it can be exported and how it is printed are
told by three traversals. The first two agree: a value passes exactly if everything in it,
at any depth of its lists, is a list or a literal. The third asks for exact types, so that
a value that has passed is printed unless it is or holds an object of a derived class. The
display function has all its texts before it does anything, or it does nothing.
-/
namespace Pseudocode

theorem not_exists_eq_ok {β ε : Type} {e : ε} : ¬ ∃ b : β, Except.error e = .ok b := by
  rintro ⟨b, h⟩
  cases h

theorem exists_mapM_eq_ok_iff {α β ε : Type} {f : α → Except ε β} {as : List α} :
    (∃ bs, as.mapM f = .ok bs) ↔ ∀ a ∈ as, ∃ b, f a = .ok b := by
  induction as with
  | nil => exact iff_of_true ⟨[], rfl⟩ (List.forall_mem_nil _)
  | cons a as ih =>
      rw [List.mapM_cons, List.forall_mem_cons, ← ih]
      cases f a with
      | error e => exact iff_of_false not_exists_eq_ok fun h => not_exists_eq_ok h.1
      | ok b =>
          cases as.mapM f with
          | error e => exact iff_of_false not_exists_eq_ok fun h => not_exists_eq_ok h.2
          | ok bs => exact iff_of_true ⟨b :: bs, rfl⟩ ⟨⟨b, rfl⟩, ⟨bs, rfl⟩⟩

namespace Value

mutual

/-- What a value holds at any depth of its lists and is no list itself. -/
def leaves : Value → List Value
  | list items | derivedList items _ => leavesAll items
  | v@(literal _) | v@(lambda _) | v@(function _) | v@(integer _) | v@nothing | v@(tuple _)
  | v@(foreign _) | v@(derived _ _) => [v]

def leavesAll : List Value → List Value
  | [] => []
  | v :: vs => leaves v ++ leavesAll vs

end

mutual

/-- The objects of derived classes that a value is or holds, at any depth of its lists. -/
def objects : Value → List Foreign
  | derived _ object => [object]
  | derivedList items object => object :: objectsAll items
  | list items => objectsAll items
  | literal _ | lambda _ | function _ | integer _ | nothing | tuple _ | foreign _ => []

def objectsAll : List Value → List Foreign
  | [] => []
  | v :: vs => objects v ++ objectsAll vs

end

/-- Everything in the value that is no list is a number, a text or a boolean. -/
def Displayable (v : Value) : Prop := ∀ leaf ∈ v.leaves, leaf.isLiteral = true

mutual

/-- What holds of everything that is no list, and of a list when it holds of its items, holds of
every value. -/
theorem induct {P : Value → Prop} (leaf : ∀ v : Value, v.kind? ≠ some .list → P v)
    (lists : ∀ items, (∀ v ∈ items, P v) → P (list items))
    (derivedLists : ∀ items object, (∀ v ∈ items, P v) → P (derivedList items object)) :
    (v : Value) → P v
  | list items => lists items (inductAll leaf lists derivedLists items)
  | derivedList items object =>
      derivedLists items object (inductAll leaf lists derivedLists items)
  | literal l | derived l _ => leaf _ (by cases l <;> exact nofun)
  | lambda _ | function _ | integer _ | nothing | tuple _ | foreign _ => leaf _ nofun

theorem inductAll {P : Value → Prop} (leaf : ∀ v : Value, v.kind? ≠ some .list → P v)
    (lists : ∀ items, (∀ v ∈ items, P v) → P (list items))
    (derivedLists : ∀ items object, (∀ v ∈ items, P v) → P (derivedList items object)) :
    (vs : List Value) → ∀ v ∈ vs, P v
  | [] => List.forall_mem_nil P
  | v :: vs =>
      List.forall_mem_cons.2
        ⟨induct leaf lists derivedLists v, inductAll leaf lists derivedLists vs⟩

end

theorem mem_leavesAll {leaf : Value} {vs : List Value} :
    leaf ∈ leavesAll vs ↔ ∃ v ∈ vs, leaf ∈ v.leaves := by
  induction vs with
  | nil => simp [leavesAll]
  | cons v vs ih => simp [leavesAll, ih]

theorem displayable_of_leaves {v : Value} {items : List Value} (hv : v.leaves = leavesAll items) :
    v.Displayable ↔ ∀ item ∈ items, item.Displayable := by
  simp only [Displayable, hv, mem_leavesAll]
  constructor
  · intro h item hitem leaf hleaf
    exact h leaf ⟨item, hitem, hleaf⟩
  · rintro h leaf ⟨item, hitem, hleaf⟩
    exact h item hitem leaf hleaf

theorem displayable_leaf {v : Value} (h : v.kind? ≠ some .list) :
    v.Displayable ↔ v.isLiteral = true := by
  have hleaves : v.leaves = [v] := by
    cases v with
    | list items | derivedList items object => exact absurd rfl h
    | _ => rfl
  rw [Displayable, hleaves, List.forall_mem_singleton]

theorem ensureAllDisplayable_eq_ok_iff {vs : List Value} :
    ensureAllDisplayable vs = .ok () ↔ ∀ v ∈ vs, v.ensureDisplayable = .ok () := by
  induction vs with
  | nil => exact iff_of_true rfl (List.forall_mem_nil _)
  | cons v vs ih =>
      rw [ensureAllDisplayable, List.forall_mem_cons, ← ih]
      cases v.ensureDisplayable with
      | error fault =>
          refine iff_of_false ?_ ?_
          · intro h
            cases h
          · rintro ⟨h, -⟩
            cases h
      | ok _ => exact (and_iff_right rfl).symm

theorem toData_eq_mapM (vs : List Value) : toData vs = vs.mapM toDatum := by
  induction vs with
  | nil => rfl
  | cons v vs ih => rw [toData, ih, List.mapM_cons]

theorem ensureDisplayable_eq_ok_iff (v : Value) : v.ensureDisplayable = .ok () ↔ v.Displayable := by
  induction v using induct with
  | leaf v hv =>
      rw [displayable_leaf hv]
      cases v with
      | literal l | derived l object => exact iff_of_true rfl rfl
      | list items | derivedList items object => exact absurd rfl hv
      | _ => exact iff_of_false (fun h => by cases h) Bool.false_ne_true
  | lists items ih | derivedLists items object ih =>
      rw [ensureDisplayable, ensureAllDisplayable_eq_ok_iff, displayable_of_leaves rfl]
      exact forall₂_congr ih

theorem exists_toDatum_iff (v : Value) : (∃ d, v.toDatum = .ok d) ↔ v.Displayable := by
  have hitems {items : List Value} (ih : ∀ v ∈ items, (∃ d, v.toDatum = .ok d) ↔ v.Displayable) :
      (∃ d, (do return Datum.list (← toData items)) = Except.ok d) ↔
        ∀ v ∈ items, v.Displayable := by
    rw [toData_eq_mapM, ← forall₂_congr ih, ← exists_mapM_eq_ok_iff]
    cases items.mapM toDatum with
    | error fault => exact iff_of_false not_exists_eq_ok not_exists_eq_ok
    | ok ds => exact iff_of_true ⟨.list ds, rfl⟩ ⟨ds, rfl⟩
  induction v using induct with
  | leaf v hv =>
      rw [displayable_leaf hv]
      cases v with
      | literal l | derived l object => exact iff_of_true ⟨l.toDatum, rfl⟩ rfl
      | list items | derivedList items object => exact absurd rfl hv
      | _ => exact iff_of_false not_exists_eq_ok Bool.false_ne_true
  | lists items ih | derivedLists items object ih =>
      rw [toDatum, displayable_of_leaves rfl]
      exact hitems ih

/-- The value is printed unless it holds objects of derived classes, and then printing fails at
the first of them. -/
def PrintedUpToObjects (indent level : Int) (v : Value) : Prop :=
  (v.objects = [] → ∃ text, v.print indent level = .ok text) ∧
  ∀ object rest, v.objects = object :: rest →
    v.print indent level = .error (.mismatch (.notPrintable object.typeName))

theorem printAll_upToObjects {indent level : Int} {vs : List Value}
    (h : ∀ v ∈ vs, v.PrintedUpToObjects indent level) :
    (objectsAll vs = [] → ∃ texts, printAll indent level vs = .ok texts) ∧
    ∀ object rest, objectsAll vs = object :: rest →
      printAll indent level vs = .error (.mismatch (.notPrintable object.typeName)) := by
  induction vs with
  | nil => exact ⟨fun _ => ⟨[], rfl⟩, nofun⟩
  | cons v vs ih =>
      obtain ⟨⟨hprinted, hrefused⟩, hvs⟩ := List.forall_mem_cons.1 h
      obtain ⟨ihprinted, ihrefused⟩ := ih hvs
      rw [objectsAll, printAll]
      cases hv : v.objects with
      | cons object rest =>
          rw [hrefused object rest hv]
          refine ⟨nofun, fun first others hfirst => ?_⟩
          obtain ⟨rfl, -⟩ := List.cons.inj hfirst
          rfl
      | nil =>
          obtain ⟨text, htext⟩ := hprinted hv
          rw [htext, List.nil_append]
          refine ⟨fun hnone => ?_, fun object rest hsome => ?_⟩
          · obtain ⟨texts, htexts⟩ := ihprinted hnone
            rw [htexts]
            exact ⟨text :: texts, rfl⟩
          · rw [ihrefused object rest hsome]
            rfl

/-- Functions and lambdas are printed too, so that there is no converse. -/
theorem Displayable.printedUpToObjects {v : Value} (h : v.Displayable) (indent level : Int) :
    v.PrintedUpToObjects indent level := by
  induction v using induct with
  | leaf v hv =>
      have hliteral := (displayable_leaf hv).1 h
      cases v with
      | literal l => exact ⟨fun _ => ⟨_, rfl⟩, nofun⟩
      | derived l object =>
          refine ⟨nofun, fun first rest hfirst => ?_⟩
          obtain ⟨rfl, -⟩ := List.cons.inj hfirst
          rfl
      | list items | derivedList items object => exact absurd rfl hv
      | _ => cases hliteral
  | lists items ih =>
      obtain ⟨hprinted, hrefused⟩ := printAll_upToObjects fun v hv =>
        ih v hv ((displayable_of_leaves rfl).1 h v hv)
      refine ⟨fun hnone => ?_, fun object rest hsome => ?_⟩
      · obtain ⟨texts, htexts⟩ := hprinted hnone
        rw [print, htexts]
        exact ⟨_, rfl⟩
      · rw [print, hrefused object rest hsome]
        rfl
  | derivedLists items object ih =>
      refine ⟨nofun, fun first rest hfirst => ?_⟩
      obtain ⟨rfl, -⟩ := List.cons.inj hfirst
      rfl

/-- A text of a derived class is displayed as it stands; nothing else of a derived class is. -/
theorem Displayable.exists_displayText_iff {v : Value} (h : v.Displayable) :
    (∃ text, v.displayText = .ok text) ↔
      v.objects = [] ∨ ∃ content object, v = derived (.text content) object := by
  have hprinted := h.printedUpToObjects 2 0
  unfold displayText
  rw [(ensureDisplayable_eq_ok_iff v).2 h,
    show (Except.ok () : Except Fault Unit) = pure () from rfl, pure_bind]
  split
  · exact iff_of_true ⟨_, rfl⟩ (.inl rfl)
  · exact iff_of_true ⟨_, rfl⟩ (.inr ⟨_, _, rfl⟩)
  · rename_i hderived
    cases hobjects : v.objects with
    | nil => exact iff_of_true (hprinted.1 hobjects) (.inl rfl)
    | cons object rest =>
        rw [hprinted.2 object rest hobjects]
        refine iff_of_false not_exists_eq_ok ?_
        rintro (hnone | ⟨content, object, rfl⟩)
        · cases hnone
        · exact hderived content object rfl

theorem Displayable.exists_serialize {v : Value} (h : v.Displayable) (yaml : Datum → String)
    (pretty : Bool) : ∃ text, serialize yaml (some "json") pretty v = .ok text := by
  have hformat : Format.ofName? "json" = some .json := by decide +kernel
  obtain ⟨d, hd⟩ := (exists_toDatum_iff v).2 h
  refine ⟨Format.write yaml pretty d .json, ?_⟩
  rw [serialize, hd, Option.bind_some, hformat]
  rfl

end Value

/-- The values can be displayed exactly if everything in them that is no list is a literal, and
exactly if they can be exported; then they have a text in JSON. They are also printed, and have a
displayed text, unless they are or hold objects of derived classes; printing fails at the first of
these. The display function is given either values with displayed texts only, and then it reports
one effect and hands the same text to the host, which may fail at that, or it fails and changes
nothing. -/
theorem one_gate_for_display (v : Value) (yaml : Datum → String) {σ : Type}
    (channel : Option (Channel σ)) (args : List Value) (m : Machine σ) :
    (v.ensureDisplayable = .ok () ↔ ∃ d, v.toDatum = .ok d) ∧
    (v.ensureDisplayable = .ok () ↔ ∀ leaf ∈ v.leaves, leaf.isLiteral = true) ∧
    (v.ensureDisplayable = .ok () →
      (∀ pretty, ∃ text, serialize yaml (some "json") pretty v = .ok text) ∧
      (∀ indent level, v.PrintedUpToObjects indent level) ∧
      ((∃ text, v.displayText = .ok text) ↔
        v.objects = [] ∨ ∃ content object, v = .derived (.text content) object)) ∧
    ((∀ a ∈ args, ∃ text, a.displayText = .ok text) → ∃ texts,
      args.mapM Value.displayText = .ok texts ∧
      let text := String.intercalate " " texts
      let effects := m.effects.push ⟨.stdout, text⟩
      Builtin.display.apply channel args m =
        match Channel.displayOn channel text m.host with
        | (.ok _, host) => .ok (.text text) { m with effects, host }
        | (.error fault, host) => .error fault { m with effects, host }) ∧
    ((∃ a ∈ args, ∀ text, a.displayText ≠ .ok text) → ∃ fault,
      Builtin.display.apply channel args m = .error fault m) := by
  have hgate := v.ensureDisplayable_eq_ok_iff
  refine ⟨hgate.trans v.exists_toDatum_iff.symm, hgate, fun h => ?_, fun h => ?_, ?_⟩
  · have hv := hgate.1 h
    exact ⟨hv.exists_serialize yaml, hv.printedUpToObjects, hv.exists_displayText_iff⟩
  · obtain ⟨texts, htexts⟩ := exists_mapM_eq_ok_iff.2 h
    refine ⟨texts, htexts, ?_⟩
    have hend := Builtin.applyDisplay_eq channel args m
    rw [htexts] at hend
    exact hend
  · rintro ⟨a, ha, h⟩
    show ∃ fault, Builtin.applyDisplay channel args m = .error fault m
    rw [Builtin.applyDisplay_eq]
    cases htexts : args.mapM Value.displayText with
    | error fault => exact ⟨fault, rfl⟩
    | ok texts =>
        obtain ⟨text, htext⟩ := exists_mapM_eq_ok_iff.1 ⟨texts, htexts⟩ a ha
        exact absurd htext (h text)

/-- A number of a derived class passes the gate and is exported, but it has no printed form and
cannot be displayed. A host that fails to show a text leaves the effect. -/
theorem derived_number_not_displayed :
    let metres : Value := .derived (.number 1.5) ⟨"Metres", .ok "1.5"⟩
    let closed : Channel Unit :=
      { display := fun _ state => (.error (.crashed "closed"), state)
        input := fun _ state => (.error .noInputChannel, state) }
    metres.ensureDisplayable = .ok () ∧ (∃ d, metres.toDatum = .ok d) ∧
    metres.print 2 0 = .error (.mismatch (.notPrintable "Metres")) ∧
    metres.displayText = .error (.mismatch (.notPrintable "Metres")) ∧
    ∀ m, Builtin.display.apply (some closed) [.text "a"] m =
      .error (.crashed "closed") { m with effects := m.effects.push ⟨.stdout, "a"⟩ } :=
  ⟨rfl, ⟨_, rfl⟩, rfl, rfl, fun _ => rfl⟩

end Pseudocode
