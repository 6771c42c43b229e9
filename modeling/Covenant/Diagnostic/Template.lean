import Covenant.Text.Json

/-!
# Message templates

A message is fixed text with named fields.  The fields are filled from the data of the error; a
field without a value says so, and a template without any data is shown as it stands.
-/

namespace Covenant

/-- A value attached to an error. -/
inductive Datum where
  | text (s : Bytes)
  | int (i : Int)
  | bool (b : Bool)
  | null
  deriving DecidableEq, Repr, Inhabited

def Datum.display : Datum → Bytes
  | text s => s
  | int i => Bytes.ofInt i
  | bool true => "true"
  | bool false => "false"
  | null => "<no value>"

def Datum.json : Datum → Bytes
  | text s => Json.string s
  | int i => Bytes.ofInt i
  | bool true => "true"
  | bool false => "false"
  | null => "null"

abbrev Data := List (Bytes × Datum)

/-- A part of a template. -/
inductive Piece where
  /-- Fixed text. -/
  | text (s : String)
  /-- The value of a field. -/
  | field (name : String)

def Piece.render (data : Option Data) : Piece → Bytes
  | text s => s
  | field name =>
    match data with
    | none => "\x7b\x7b." ++ name ++ "\x7d\x7d"
    | some values => ((values.lookup (name : Bytes)).getD .null).display

abbrev Template := List Piece

def Template.render (t : Template) (data : Option Data) : Bytes :=
  t.flatMap (Piece.render data)

end Covenant
