import Pseudocode.Export.Json

/-!
# Export

A value in a format given by name. YAML is left to an emitter that the caller supplies.
-/
namespace Pseudocode

inductive Format where
  | json
  | yaml
  deriving DecidableEq, Repr

/-- The format of a name, in letters of any case. -/
def Format.ofName? (name : String) : Option Format :=
  match String.ofList (name.toList.map Char.toLower) with
  | "json" => some .json
  | "yaml" => some .yaml
  | _ => none

/-- A datum in a format. Only JSON has a form on one line. -/
def Format.write (yaml : Datum → String) (pretty : Bool) (d : Datum) : Format → String
  | .json => Json.text (if pretty then .indented 2 else .compact) d
  | .yaml => yaml d

/-- A value in the named format. A value that cannot be exported is refused before the name is
looked at. -/
def serialize (yaml : Datum → String) (format : Option String) (pretty : Bool) (v : Value) :
    Except Fault String := do
  let d ← v.toDatum
  match format.bind Format.ofName? with
  | some f => return f.write yaml pretty d
  | none => throw (.unknownFormat format)

end Pseudocode
