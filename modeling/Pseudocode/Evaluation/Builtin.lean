import Pseudocode.Evaluation.Host
import Pseudocode.Evaluation.Operator
import Pseudocode.Value.Printer

/-!
# Builtin functions
-/
namespace Pseudocode

namespace Builtin

/-- Shows the arguments, with a blank between them, and answers the text shown. -/
def applyDisplay (channel : Option (Channel σ)) (args : List Value) : Eval σ Value := do
  let texts ← Eval.ofExcept (args.mapM Value.displayText)
  let text := String.intercalate " " texts
  Eval.emit .stdout text
  Eval.ofHost (Channel.displayOn channel text)
  return .text text

def prompt : List Value → Except Fault String
  | [] => .ok "input"
  | [v] => v.displayText
  | args => .error (.tooManyPrompts args.length)

def applyInput (channel : Option (Channel σ)) (args : List Value) : Eval σ Value := do
  let prompt ← Eval.ofExcept (prompt args)
  match channel with
  | none => throw .noInputChannel
  | some channel => return .text (← Eval.ofHost (channel.input prompt)).content

theorem applyDisplay_eq (channel : Option (Channel σ)) (args : List Value) (m : Machine σ) :
    applyDisplay channel args m =
      match args.mapM Value.displayText with
      | .error fault => .error fault m
      | .ok texts =>
          let text := String.intercalate " " texts
          let effects := m.effects.push ⟨.stdout, text⟩
          match Channel.displayOn channel text m.host with
          | (.ok _, host) => .ok (.text text) { m with effects, host }
          | (.error fault, host) => .error fault { m with effects, host } := by
  rw [applyDisplay]
  cases args.mapM Value.displayText with
  | error fault => rfl
  | ok texts =>
      let text := String.intercalate " " texts
      refine (Eval.ofHost_map_eq (Channel.displayOn channel text) (fun _ => Value.text text)
        { m with effects := m.effects.push ⟨.stdout, text⟩ }).trans ?_
      dsimp only
      cases Channel.displayOn channel text m.host with
      | mk result host => cases result <;> rfl

theorem applyInput_eq (channel : Option (Channel σ)) (args : List Value) (m : Machine σ) :
    applyInput channel args m =
      match prompt args, channel with
      | .error fault, _ => .error fault m
      | .ok _, none => .error .noInputChannel m
      | .ok prompt, some channel =>
          match channel.input prompt m.host with
          | (.ok answer, host) => .ok (.text answer.content) { m with host }
          | (.error fault, host) => .error fault { m with host } := by
  rw [applyInput]
  cases prompt args with
  | error fault => rfl
  | ok prompt =>
      cases channel with
      | none => rfl
      | some channel =>
          refine (Eval.ofHost_map_eq (channel.input prompt)
            (fun answer => Value.text answer.content) m).trans ?_
          dsimp only
          cases channel.input prompt m.host with
          | mk result host => cases result <;> rfl

def apply (channel : Option (Channel σ)) : Builtin → List Value → Eval σ Value
  | operator o, args => Eval.ofExcept (o.apply args)
  | display, args => applyDisplay channel args
  | input, args => applyInput channel args

def all : List Builtin :=
  ([.add, .subtract, .multiply, .divide, .power, .modulo, .greater, .less, .equal, .and, .or,
    .not].map Builtin.operator) ++ [.display, .input]

def bindings : Bindings :=
  all.map (fun b => (b.name, .function (.builtin b))) ++
    [("true", .boolean true), ("false", .boolean false)]

end Builtin

end Pseudocode
