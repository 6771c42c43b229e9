import Covenant.Diagnostic.Template

/-!
# The catalogue of errors

Every error of the compiler has a code, the stage that reports it, a message and perhaps hints.
-/

namespace Covenant

/-- The stage of the compiler that reports an error. -/
inductive Stage where
  /-- Reading the source. -/
  | reading
  /-- Building the program from its parse tree. -/
  | building
  /-- Rendering the program. -/
  | rendering
  /-- A stage outside the compiler. -/
  | other (name : Bytes)
  deriving DecidableEq, Repr, Inhabited

def Stage.name : Stage → Bytes
  | reading => "syntax"
  | building => "construction"
  | rendering => "unsupported"
  | other n => n

def Stage.ofName (n : Bytes) : Stage :=
  if n = Bytes.ofString "syntax" then reading
  else if n = Bytes.ofString "construction" then building
  else if n = Bytes.ofString "unsupported" then rendering
  else other n

def Stage.heading : Stage → Bytes
  | reading => "Syntax error"
  | building => "Construction error"
  | rendering => "Unsupported construct"
  | other _ => "Error"

/-- What the catalogue says about a code. -/
structure Entry where
  stage : Stage
  message : Template
  hints : List Template := []

namespace Catalogue

open Piece (text field)

def reading : List (String × Entry) :=
  [("SYNTAX-0001", ⟨.reading, [text "expected ", field "Expected", text ", got '", field "Got",
      text "'"], []⟩),
   ("SYNTAX-0002", ⟨.reading, [text "unexpected token '", field "Token", text "'"], []⟩),
   ("SYNTAX-0003", ⟨.reading, [text "unterminated string"], []⟩),
   ("SYNTAX-0004", ⟨.reading, [text "illegal character '", field "Char", text "'"], []⟩),
   ("SYNTAX-0005", ⟨.reading, [text "unterminated block: expected '\x7d' before end of input"],
      [[text "check that every '\x7b' has a matching '\x7d'"]]⟩),
   ("SYNTAX-0006", ⟨.reading, [text "expected a type, got '", field "Got", text "'"], []⟩),
   ("SYNTAX-0007", ⟨.reading, [text "unterminated comment"], []⟩)]

def building : List (String × Entry) :=
  [("BUILD-0001", ⟨.building, [text "missing declaration name in ", field "Rule"], []⟩),
   ("BUILD-0002", ⟨.building, [field "Rule", text " is missing its ", field "Field"], []⟩),
   ("BUILD-0003", ⟨.building, [text "incomplete field pair in ", field "Rule"], []⟩),
   ("BUILD-0004", ⟨.building, [text "unknown decorator '@", field "Name", text "'"], []⟩),
   ("BUILD-0005", ⟨.building, [text "'new ", field "Name",
      text "' is only allowed as the value of a @map constant"],
      [[text "@map(\x7b key: K, value: V \x7d)\nconst name = new Map<K, V>();"]]⟩),
   ("BUILD-0006", ⟨.building, [text "class ", field "Name", text " must be decorated with @asset"],
      []⟩),
   ("BUILD-0007", ⟨.building, [text "@map constant ", field "Name",
      text " has no key and value types"],
      [[text "@map(\x7b key: K, value: V \x7d)"], [text "new Map<K, V>()"]]⟩),
   ("BUILD-0008", ⟨.building, [text "no construction rule for '", field "Rule", text "'"], []⟩),
   ("BUILD-0009", ⟨.building, [text "unexpected ", field "Got", text " in ", field "Rule"], []⟩),
   ("BUILD-0010", ⟨.building, [text "invalid number literal: ", field "Literal"], []⟩)]

def rendering : List (String × Entry) :=
  [("GEN-0001", ⟨.rendering, [text "no rendering rule for ", field "Kind"], []⟩),
   ("GEN-0002", ⟨.rendering, [text "operator '", field "Operator", text "' requires Clarity ",
      field "Required", text " or later (target is ", field "Target", text ")"], []⟩),
   ("GEN-0003", ⟨.rendering, [text "unknown operator '", field "Operator", text "'"], []⟩),
   ("GEN-0004", ⟨.rendering, [text "cannot infer a type for data variable ", field "Name"],
      [[text "add a type annotation: let ", field "Name", text ": int = ..."]]⟩),
   ("GEN-0005", ⟨.rendering, [text "if without else has no value in Clarity"],
      [[text "add an else branch, or a statement after the if to use as one"]]⟩)]

def entry? (code : Bytes) : Option Entry :=
  ((reading ++ building ++ rendering).find? fun (c, _) => Bytes.ofString c == code).map (·.2)

end Catalogue

end Covenant
