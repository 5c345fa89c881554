import Pseudocode.Value.Basic

/-!
# Scopes

A scope binds names to values, in the order in which the names were first bound,
and may lie inside another scope, its parent, known by a handle. Scopes do not look
into each other: an arena does (`Pseudocode.Evaluation.Arena`).
-/
namespace Pseudocode

/-- Names and their values, in the order in which the names were first bound. -/
abbrev Bindings := List (String × Value)

namespace Bindings

/-- Binds a name. A name that is bound already keeps its place. -/
def insert : Bindings → String → Value → Bindings
  | [], name, value => [(name, value)]
  | (n, v) :: rest, name, value =>
      if n = name then (n, value) :: rest else (n, v) :: insert rest name value

def insertAll (b : Bindings) (entries : List (String × Value)) : Bindings :=
  entries.foldl (fun b (name, value) => b.insert name value) b

def get? (b : Bindings) (name : String) : Option Value := b.lookup name

def names (b : Bindings) : List String := b.map Prod.fst

/-- The name has its new value, and every other name keeps its own. -/
theorem get?_insert (b : Bindings) (name other : String) (value : Value) :
    (b.insert name value).get? other = if other = name then some value else b.get? other := by
  induction b with
  | nil =>
      by_cases h : other = name
      · simp [insert, get?, h]
      · simp [insert, get?, List.lookup_cons, h, beq_eq_false_iff_ne.mpr h]
  | cons entry rest ih =>
      obtain ⟨n, v⟩ := entry
      simp only [get?] at ih ⊢
      by_cases hn : n = name
      · subst hn
        by_cases h : other = n
        · simp [insert, h]
        · simp [insert, List.lookup_cons, h, beq_eq_false_iff_ne.mpr h]
      · by_cases h : other = n
        · subst h
          simp [insert, hn]
        · simp [insert, hn, List.lookup_cons, beq_eq_false_iff_ne.mpr h, ih]

end Bindings

structure Scope where
  bindings : Bindings := []
  parent : Option Int := none
  deriving Repr

namespace Scope

/-- A scope in one line: its names and its parent. -/
def describe (s : Scope) : String :=
  let parent := match s.parent with
    | some handle => s!", parent=#{handle}"
    | none => ""
  "<Context bindings=[" ++ String.intercalate ", " s.bindings.names ++ "]" ++ parent ++ ">"

def bind (s : Scope) (name : String) (value : Value) : Scope :=
  { s with bindings := s.bindings.insert name value }

mutual

/-- A value that may be looked for among keys. Lists, lambdas and objects of the host may not. -/
def isKey : Value → Bool
  | .literal _ | .derived _ _ | .function _ | .integer _ | .nothing => true
  | .tuple items => areKeys items
  | .list _ | .derivedList _ _ | .lambda _ | .foreign _ => false

def areKeys : List Value → Bool
  | [] => true
  | v :: vs => isKey v && areKeys vs

end

def find? (s : Scope) (key : Value) : Except Fault (Option Value) :=
  match key with
  | .text name | .derived (.text name) _ => .ok (s.bindings.get? name)
  | key => if isKey key then .ok none else .error .invalidArguments

/-- The value under a key that must be bound. -/
def find (s : Scope) (key : Value) : Except Fault Value := do
  match ← s.find? key with
  | some value => return value
  | none => throw .missingKey

/-- Binds a key, which has to be a text. -/
def set (s : Scope) (key value : Value) : Except Fault Scope :=
  match key with
  | .text name | .derived (.text name) _ => .ok (s.bind name value)
  | _ => .error .invalidArguments

/-- Binds keys one after the other. A key that is no text ends it, and the keys before it stay. -/
def update (s : Scope) : List (Value × Value) → Scope × Option Fault
  | [] => (s, none)
  | (key, value) :: rest =>
      match s.set key value with
      | .ok s => s.update rest
      | .error fault => (s, some fault)

end Scope

end Pseudocode
