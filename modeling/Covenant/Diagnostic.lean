import Covenant.Diagnostic.Catalogue
import Covenant.Diagnostic.Fault
import Covenant.Suggest

/-!
# Diagnostics

What the user is told about a failure: on one line (`Diagnostic.text`), as a small report
(`Diagnostic.pretty`) or as JSON (`Diagnostic.json`).
-/

namespace Covenant

/-- A failure as it is shown. -/
structure Diagnostic where
  stage : Stage
  /-- The catalogue code, empty for an error outside the catalogue. -/
  code : Bytes := []
  message : Bytes
  hints : List Bytes := []
  /-- The place; a line below one stands for no place. -/
  pos : Pos := {}
  file : Bytes := []
  data : Option Data := none
  deriving Inhabited

namespace Diagnostic

/-- The diagnostic of a code and its data.  A code outside the catalogue is its own message, given
the data brings one. -/
def ofCode (code : Bytes) (data : Option Data) (pos : Pos) : Diagnostic :=
  match Catalogue.entry? code with
  | some e =>
    { stage := e.stage, code, message := e.message.render data,
      hints := (e.hints.map (·.render data)).filter (· ≠ []), pos, data }
  | none =>
    let message := match (data.getD []).lookup (Bytes.ofString "message") with
      | some (.text m) => m
      | _ => code
    { stage := .building, code, message, pos, data }

def knownDecorators : List Bytes :=
  ["public", "readonly", "private", "map", "asset"]

def decoratorHint (name : Bytes) : List Bytes :=
  match Suggest.closest? name knownDecorators with
  | some near => if near.isEmpty then [] else ["Did you mean `@" ++ near ++ "`?"]
  | none => []

def ofFault (f : Fault) : Diagnostic :=
  let d := ofCode f.cause.code f.cause.data f.pos
  match f.cause with
  | .unknownDecorator name => { d with hints := d.hints ++ decoratorHint name }
  | _ => d

def inFile (d : Diagnostic) (file : Bytes) : Diagnostic :=
  if file.isEmpty then d else { d with file }

def place (d : Diagnostic) : Bytes :=
  "line " ++ Bytes.ofInt d.pos.line ++ ", column " ++ Bytes.ofInt d.pos.column

def body (d : Diagnostic) : Bytes :=
  d.message ++ d.hints.flatMap (Bytes.ofString "\n  " ++ ·)

def text (d : Diagnostic) : Bytes :=
  let file : Bytes := if d.file.isEmpty then [] else d.file ++ ": "
  let place : Bytes := if 0 < d.pos.line then d.place ++ ": " else []
  file ++ place ++ d.body

def pretty (d : Diagnostic) : Bytes :=
  let header : Bytes :=
    if !d.file.isEmpty then
      ":\n  in: " ++ d.file ++ (if 0 < d.pos.line then "\n  at: " ++ d.place else []) ++ "\n  "
    else if 0 < d.pos.line then ": " ++ d.place ++ "\n  "
    else ":\n  "
  d.stage.heading ++ header ++ d.body

/-- The diagnostic as a JSON object.  Empty hints, file and data are left out, and the data is
sorted by name. -/
def json (d : Diagnostic) : Bytes :=
  let data := (d.data.getD []).mergeSort fun x y => Bytes.ble x.1 y.1
  let always (key : String) (value : Bytes) : List (Bytes × Bytes) := [(key, value)]
  let given (isEmpty : Bool) (key : String) (value : Bytes) : List (Bytes × Bytes) :=
    if isEmpty then [] else [(key, value)]
  Json.object <|
    always "class" (Json.string d.stage.name) ++
    always "code" (Json.string d.code) ++
    always "message" (Json.string d.message) ++
    given d.hints.isEmpty "hints" (Json.array (d.hints.map Json.string)) ++
    always "line" (Bytes.ofInt d.pos.line) ++
    always "column" (Bytes.ofInt d.pos.column) ++
    given d.file.isEmpty "file" (Json.string d.file) ++
    given data.isEmpty "data" (Json.object (data.map fun (k, v) => (k, v.json)))

end Diagnostic

end Covenant
