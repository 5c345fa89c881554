import Pseudocode.Evaluation.Builtin
import Pseudocode.Value.Normal

/-!
# Values up to the bodies of lambdas

No operation of the language on values looks into a lambda: a lambda is refused, or handed
on as it is. So each operation commutes with a change of the bodies, whatever the change
is, and so do the operations on scopes.
-/
namespace Pseudocode

namespace Value

section
variable (f : Node → Node)

mutual

/-- The value with other bodies in the lambdas that it is or holds. -/
def mapBodies : Value → Value
  | lambda body => lambda (f body)
  | list items => list (mapBodiesAll items)
  | tuple items => tuple (mapBodiesAll items)
  | literal l => literal l
  | function g => function g
  | integer n => integer n
  | nothing => nothing
  | foreign object => foreign object
  | derived l object => derived l object
  | derivedList items object => derivedList (mapBodiesAll items) object

def mapBodiesAll : List Value → List Value
  | [] => []
  | v :: vs => mapBodies v :: mapBodiesAll vs

end

@[simp] theorem mapBodiesAll_eq_map (vs : List Value) :
    mapBodiesAll f vs = vs.map (mapBodies f) := by
  induction vs with
  | nil => rfl
  | cons v vs ih => rw [mapBodiesAll, ih, List.map_cons]

@[simp] theorem kind?_mapBodies (v : Value) : (v.mapBodies f).kind? = v.kind? := by
  cases v <;> rfl

@[simp] theorem kind_mapBodies (v : Value) : (v.mapBodies f).kind = v.kind := by
  rw [kind, kind, kind?_mapBodies]

@[simp] theorem isLiteral_mapBodies (v : Value) : (v.mapBodies f).isLiteral = v.isLiteral := by
  cases v <;> rfl

theorem mapBodies_eq_function_iff {v : Value} {g : Function} :
    v.mapBodies f = function g ↔ v = function g := by
  cases v <;> simp [mapBodies]

theorem mapBodies_eq_lambda_iff {v : Value} {b : Node} :
    v.mapBodies f = lambda b ↔ ∃ body, v = lambda body ∧ f body = b := by
  cases v <;> simp [mapBodies]

theorem mapBodies_collapse (vs : List Value) :
    (collapse vs).mapBodies f = collapse (vs.map (mapBodies f)) := by
  match vs with
  | [] => rfl
  | [v] => rfl
  | v :: w :: vs => simp [collapse, mapBodies]

theorem map_arguments (v : Value) :
    v.arguments.map (mapBodies f) = (v.mapBodies f).arguments := by
  cases v <;> simp [arguments, mapBodies]

mutual

theorem normalize_mapBodies : (v : Value) → (v.mapBodies f).normalize = mapBodies f <$> v.normalize
  | nothing | literal _ | lambda _ | function _ | foreign _ | derived _ _ => rfl
  | integer n => by
      rw [mapBodies, normalize]
      split <;> rfl
  | list items | tuple items | derivedList items _ => by
      rw [mapBodies, normalize, normalize, normalizeAll_mapBodiesAll items]
      cases normalizeAll items with
      | error fault => rfl
      | ok results => exact congrArg (Except.ok ∘ list) (mapBodiesAll_eq_map f results).symm

theorem normalizeAll_mapBodiesAll : (vs : List Value) →
    normalizeAll (mapBodiesAll f vs) = List.map (mapBodies f) <$> normalizeAll vs
  | [] => rfl
  | v :: vs => by
      rw [mapBodiesAll, normalizeAll, normalizeAll, normalize_mapBodies v,
        normalizeAll_mapBodiesAll vs]
      cases normalize v with
      | error fault => rfl
      | ok first => cases normalizeAll vs <;> rfl

end

mutual

theorem ensureDisplayable_mapBodies : (v : Value) →
    (v.mapBodies f).ensureDisplayable = v.ensureDisplayable
  | list items | derivedList items _ => ensureAllDisplayable_mapBodiesAll items
  | literal _ | lambda _ | function _ | integer _ | nothing | tuple _ | foreign _
  | derived _ _ => rfl

theorem ensureAllDisplayable_mapBodiesAll : (vs : List Value) →
    ensureAllDisplayable (mapBodiesAll f vs) = ensureAllDisplayable vs
  | [] => rfl
  | v :: vs => by
      rw [mapBodiesAll, ensureAllDisplayable, ensureAllDisplayable, ensureDisplayable_mapBodies v,
        ensureAllDisplayable_mapBodiesAll vs]

end

mutual

/-- What can be displayed holds no lambda. -/
theorem mapBodies_of_displayable : (v : Value) → v.ensureDisplayable = .ok () → v.mapBodies f = v
  | list items, h | derivedList items _, h => by
      rw [mapBodies, mapBodiesAll_of_displayable items h]
  | literal _, _ | function _, _ | integer _, _ | nothing, _ | foreign _, _ | derived _ _, _ => rfl
  | lambda _, h | tuple _, h => by cases h

theorem mapBodiesAll_of_displayable : (vs : List Value) → ensureAllDisplayable vs = .ok () →
    mapBodiesAll f vs = vs
  | [], _ => rfl
  | v :: vs, h => by
      rw [ensureAllDisplayable] at h
      cases hv : ensureDisplayable v with
      | error fault =>
          rw [hv] at h
          cases h
      | ok _ =>
          rw [hv] at h
          rw [mapBodiesAll, mapBodies_of_displayable v hv, mapBodiesAll_of_displayable vs h]

end

theorem displayText_mapBodies (v : Value) : (v.mapBodies f).displayText = v.displayText := by
  cases hv : v.ensureDisplayable with
  | error fault =>
      unfold displayText
      rw [ensureDisplayable_mapBodies, hv]
      rfl
  | ok _ => rw [mapBodies_of_displayable f v hv]

end

end Value

section
variable (f : Node → Node)

theorem Shape.expect_mapBodies (shape : Shape) (v : Value) :
    shape.expect (v.mapBodies f) = shape.expect v := by
  cases v with
  | literal l => rfl
  | _ => cases shape <;> rfl

/-- The operands, without the proof that there are as many as there should be. -/
theorem Shape.val_operands (shape : Shape) (count : Nat) (args : List Value) :
    Subtype.val <$> shape.operands count args =
      if args.length = count then args.mapM shape.expect
      else .error (.mismatch (.count count args.length)) := by
  have hall : ∀ args : List Value,
      Subtype.val <$> shape.expectAll args = args.mapM shape.expect := by
    intro args
    induction args with
    | nil => rfl
    | cons v vs ih =>
        rw [expectAll, List.mapM_cons, ← ih]
        cases shape.expect v with
        | error fault => rfl
        | ok first => cases shape.expectAll vs <;> rfl
  unfold operands
  split
  · rename_i hcount
    subst hcount
    exact hall args
  · rfl

theorem mapM_mapBodies {α : Type} {g : Value → Except Fault α}
    (h : ∀ v, g (v.mapBodies f) = g v) (args : List Value) :
    (args.map (Value.mapBodies f)).mapM g = args.mapM g := by
  induction args with
  | nil => rfl
  | cons v vs ih => rw [List.map_cons, List.mapM_cons, List.mapM_cons, h, ih]

theorem Shape.operands_mapBodies (shape : Shape) (count : Nat) (args : List Value) :
    shape.operands count (args.map (Value.mapBodies f)) = shape.operands count args := by
  have hval : Subtype.val <$> shape.operands count (args.map (Value.mapBodies f)) =
      Subtype.val <$> shape.operands count args := by
    rw [val_operands, val_operands, List.length_map, mapM_mapBodies f (shape.expect_mapBodies f)]
  generalize shape.operands count (args.map (Value.mapBodies f)) = left at hval ⊢
  generalize shape.operands count args = right at hval ⊢
  cases left with
  | error fault =>
      cases right with
      | error fault' => exact congrArg Except.error (Except.error.inj hval)
      | ok operands => cases hval
  | ok operands =>
      cases right with
      | error fault => cases hval
      | ok operands' => exact congrArg Except.ok (Subtype.ext (Except.ok.inj hval))

theorem firstMatch?_mapBodies {arity : Nat} (args : List Value)
    (candidates : List (Candidate arity)) :
    firstMatch? (args.map (Value.mapBodies f)) candidates = firstMatch? args candidates := by
  induction candidates with
  | nil => rfl
  | cons candidate rest ih => rw [firstMatch?, firstMatch?, Shape.operands_mapBodies, ih]

theorem Operator.apply_mapBodies (o : Operator) (args : List Value) :
    o.apply (args.map (Value.mapBodies f)) = o.apply args := by
  rw [apply, apply, dispatch, dispatch, firstMatch?_mapBodies,
    mapM_mapBodies f (Value.kind_mapBodies f)]

theorem Builtin.prompt_mapBodies (args : List Value) :
    prompt (args.map (Value.mapBodies f)) = prompt args := by
  match args with
  | [] => rfl
  | [v] => exact v.displayText_mapBodies f
  | _ :: _ :: _ => simp [prompt]

/-- A builtin function does the same whatever the bodies are. -/
theorem Builtin.apply_mapBodies {σ : Type} (channel : Option (Channel σ)) (b : Builtin)
    (args : List Value) :
    b.apply channel (args.map (Value.mapBodies f)) = b.apply channel args := by
  cases b with
  | operator o => rw [apply, apply, Operator.apply_mapBodies]
  | display =>
      rw [apply, apply, applyDisplay, applyDisplay,
        mapM_mapBodies f (Value.displayText_mapBodies f)]
  | input => rw [apply, apply, applyInput, applyInput, prompt_mapBodies]

end

def Scope.mapBodies (f : Node → Node) (s : Scope) : Scope :=
  { s with bindings := s.bindings.map fun entry => (entry.1, entry.2.mapBodies f) }

section
variable (f : Node → Node)

@[simp] theorem Scope.parent_mapBodies (s : Scope) : (s.mapBodies f).parent = s.parent := rfl

theorem Scope.get?_mapBodies (s : Scope) (name : String) :
    (s.mapBodies f).bindings.get? name = (s.bindings.get? name).map (Value.mapBodies f) := by
  obtain ⟨bindings, parent⟩ := s
  simp only [mapBodies, Bindings.get?]
  induction bindings with
  | nil => rfl
  | cons entry rest ih =>
      rw [List.map_cons, List.lookup_cons, List.lookup_cons, ih]
      cases name == entry.1 <;> rfl

theorem Scope.bind_mapBodies (s : Scope) (name : String) (v : Value) :
    (s.mapBodies f).bind name (v.mapBodies f) = (s.bind name v).mapBodies f := by
  have hinsert (b : Bindings) :
      Bindings.insert (b.map fun entry => (entry.1, entry.2.mapBodies f)) name (v.mapBodies f) =
        (b.insert name v).map fun entry => (entry.1, entry.2.mapBodies f) := by
    induction b with
    | nil => rfl
    | cons entry rest ih =>
        simp only [List.map_cons, Bindings.insert]
        split
        · rfl
        · rw [ih, List.map_cons]
  simp only [bind, mapBodies, hinsert]

namespace Arena

theorem index?_mapBodies (scopes : Arena) (handle : Int) :
    index? (scopes.map (Scope.mapBodies f)) handle = scopes.index? handle := by
  rw [index?, index?, Array.size_map]

theorem scope?_mapBodies (scopes : Arena) (handle : Int) :
    scope? (scopes.map (Scope.mapBodies f)) handle =
      (scopes.scope? handle).map (Scope.mapBodies f) := by
  rw [scope?, scope?, index?_mapBodies]
  cases scopes.index? handle with
  | none => rfl
  | some index => exact Array.getElem?_map

theorem searchFrom_mapBodies (scopes : Arena) (name : String) (steps : Nat) (handle : Int) :
    searchFrom (scopes.map (Scope.mapBodies f)) name steps handle =
      Value.mapBodies f <$> scopes.searchFrom name steps handle := by
  induction steps generalizing handle with
  | zero => rfl
  | succ steps ih =>
      rw [searchFrom, searchFrom, scope?_mapBodies]
      cases scopes.scope? handle with
      | none => rfl
      | some scope =>
          simp only [Option.map_some, Scope.get?_mapBodies, Scope.parent_mapBodies]
          cases scope.bindings.get? name with
          | some value => rfl
          | none =>
              cases scope.parent with
              | none => rfl
              | some parent => exact ih parent

theorem fetch_mapBodies (scopes : Arena) (handle : Int) (name : String) :
    fetch (scopes.map (Scope.mapBodies f)) handle name =
      Value.mapBodies f <$> scopes.fetch handle name := by
  rw [fetch, fetch, Array.size_map, searchFrom_mapBodies]

theorem assign_mapBodies (scopes : Arena) (handle : Int) (name : String) (v : Value) :
    assign (scopes.map (Scope.mapBodies f)) handle name (v.mapBodies f) =
      Array.map (Scope.mapBodies f) <$> scopes.assign handle name v := by
  rw [assign, assign, index?_mapBodies]
  cases scopes.index? handle with
  | none => rfl
  | some index =>
      apply congrArg Except.ok
      apply Array.ext_getElem?
      intro i
      simp only [Array.getElem?_modify, Array.getElem?_map]
      split
      · cases scopes[i]? with
        | none => rfl
        | some scope => exact congrArg some (scope.bind_mapBodies f name v)
      · rfl

theorem openScope_mapBodies (scopes : Arena) (parent : Int) :
    openScope (scopes.map (Scope.mapBodies f)) parent =
      Array.map (Scope.mapBodies f) <$> scopes.openScope parent := by
  rw [openScope, openScope, Array.size_map]
  split
  · have hnew : Scope.mapBodies f { parent := some parent } = { parent := some parent } := rfl
    exact congrArg Except.ok (by rw [Array.map_push, hnew])
  · rfl

end Arena

end

end Pseudocode
