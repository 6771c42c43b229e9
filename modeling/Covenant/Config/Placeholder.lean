import Covenant.Text.Bytes

/-!
# Placeholders

A configuration may name variables of the environment as `$NAME` in braces, with or without
a default behind `:-`.  Placeholders are replaced in the text before it is read.
-/

namespace Covenant

/-- The values of the environment; a variable that is not set is empty. -/
abbrev Environment := Bytes → Bytes

/-- A place in a text where a value goes. -/
structure Placeholder where
  name : Bytes
  default : Bytes := []
  /-- The number of bytes between the opening and the closing brace, both included. -/
  length : Nat
  deriving DecidableEq, Repr, Inhabited

namespace Placeholder

/-- The placeholder whose name starts here, when there is one.  A name has at least one byte; a
default runs to the next closing brace. -/
def ofBody? (s : Bytes) : Option Placeholder :=
  let name := s.takeWhile fun b => b ≠ 125 ∧ b ≠ 58
  if name.isEmpty then none
  else match s.drop name.length with
    | 125 :: _ => some { name, length := name.length + 2 }
    | 58 :: 45 :: rest =>
      let default := rest.takeWhile (· ≠ 125)
      if default.length < rest.length then
        some { name, default, length := name.length + default.length + 4 }
      else none
    | _ => none

def value (p : Placeholder) (env : Environment) : Bytes :=
  if (env p.name).isEmpty then p.default else env p.name

/-- The text with its placeholders replaced from the left, after `skip` more bytes that belong to
a placeholder already replaced. -/
def fillFrom (env : Environment) : (skip : Nat) → Bytes → Bytes
  | _, [] => []
  | skip + 1, _ :: rest => fillFrom env skip rest
  | 0, b :: rest =>
    match b, rest with
    | 36, 123 :: body =>
      match ofBody? body with
      | some p => p.value env ++ fillFrom env p.length rest
      | none => b :: fillFrom env 0 rest
    | _, _ => b :: fillFrom env 0 rest

def fill (env : Environment) (s : Bytes) : Bytes :=
  fillFrom env 0 s

def names : Bytes → List Bytes
  | [] => []
  | b :: rest =>
    match b, rest with
    | 36, 123 :: body => ((ofBody? body).map name).toList ++ names rest
    | _, _ => names rest

end Placeholder

end Covenant
