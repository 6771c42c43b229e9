import Covenant.Diagnostic
import Covenant.Program.Build.Item
import Covenant.Program.Print

/-!
# Building statements and declarations
-/

namespace Covenant.Site

variable (s : Site)

/-! ### Functions -/

def decorator : List Item → Except Fault Item
  | [] => s.missing "decorator" "name"
  | .token t :: more =>
    if t.kind = .decorator then
      let name := t.literal.stripPrefix "@"
      if Diagnostic.knownDecorators.contains name then
        match more with
        | [] => .ok (.decorator (.mk t.pos name none))
        | .node n :: _ => .ok (.decorator (.mk t.pos name (some n)))
        | it :: _ => s.unexpected it
      else .error ⟨.unknownDecorator name, t.pos⟩
    else s.unexpected (.token t)
  | it :: _ => s.unexpected it

def parameters (items : List Item) : Except Fault Item :=
  return .params (← items.mapM s.parameter)

def parameterItem : List Item → Except Fault Item
  | [] => s.missing "parameter" "name"
  | [name] => return .node (.parameter ⟨← s.ident name, none⟩)
  | name :: type :: _ => return .node (.parameter ⟨← s.ident name, some (← s.type type)⟩)

def firstIdent? (items : List Item) : Option Ident :=
  items.findSome? fun | .node (.expr (.ident n)) => some n | _ => none

def firstType? (items : List Item) : Option Ty :=
  items.findSome? fun | .node (.type t) => some t | _ => none

def firstBlock? (items : List Item) : Option Block :=
  items.findSome? fun | .node (.block b) => some b | _ => none

def firstParams? (items : List Item) : Option (List Parameter) :=
  items.findSome? fun | .params ps => some ps | _ => none

def decorators (items : List Item) : List Decorator :=
  items.filterMap fun | .decorator d => some d | _ => none

def wrongDecorator {α : Type} (d : Decorator) (rule : Bytes) : Except Fault α :=
  .error ⟨.unexpected ("decorator @" ++ d.name) rule, d.pos⟩

/-- A function.  Its parts are known by their shape and may come in any order; of each shape the
first one counts. -/
def functionDecl (items : List Item) : Except Fault Item :=
  match firstIdent? items with
  | none => s.noName "function declaration"
  | some name =>
    match firstBlock? items with
    | none => s.missing ("function " ++ name.name) "body"
    | some body =>
      let ds := decorators items
      let misfit (d : Decorator) : Bool :=
        d.name == Bytes.ofString "map" || d.name == Bytes.ofString "asset"
      match ds.find? misfit with
      | some d => wrongDecorator d ("function " ++ name.name)
      | none =>
        .ok (.ofStmt (.fnDecl (.mk s.pos ds name ((firstParams? items).getD [])
          (firstType? items) (some body))))

def signature : List Item → Except Fault Item
  | name :: params :: result :: _ => do
    let n ← s.ident name
    let ps ← s.params params
    let r ← s.type result
    return .ofStmt (.fnDecl (.mk n.pos [] n ps (some r) none))
  | _ => s.missing "function signature" "return type"

/-! ### Bindings -/

/-- The common shape of variables and constants. -/
structure Binding where
  decorators : List Decorator
  name : Ident
  type : Option Ty
  value : Option Item

def splitDecorators : List Item → List Decorator × List Item
  | .decorator d :: items =>
    let (ds, rest) := splitDecorators items
    (d :: ds, rest)
  | items => ([], items)

/-- Type and value behind a name: a type can only stand before the value. -/
def typeAndValue (type : Option Ty) (value : Option Item) :
    List Item → Except Fault (Option Ty × Option Item)
  | [] => .ok (type, value)
  | it :: items =>
    match it, type, value with
    | .node (.type t), none, none => typeAndValue (some t) none items
    | it, type, none => typeAndValue type (some it) items
    | it, _, some _ => s.unexpected it

def binding (rule : String) (items : List Item) : Except Fault Binding :=
  match splitDecorators items with
  | (_, []) => s.noName rule
  | (ds, name :: rest) => do
    let n ← s.ident name
    let (type, value) ← s.typeAndValue none none rest
    return ⟨ds, n, type, value⟩

def variableDecl (items : List Item) : Except Fault Item := do
  let b ← s.binding "variable declaration" items
  match b.value with
  | none => s.missing ("variable " ++ b.name.name) "value"
  | some it => return .ofStmt (.letDecl s.pos b.name b.type (← s.expr it))

/-- The key and value types of a map: from the shape given to the decorator, else from the type
arguments of the created object. -/
def mapTypes? (d : Decorator) (value : Option Item) : Option (Ty × Ty) :=
  let shaped := match d.argument with
    | some (.type t) => (t.get? "key").bind fun k => (t.get? "value").map fun v => (k, v)
    | _ => none
  match shaped, value with
  | some kv, _ => some kv
  | none, some (.creation _ _ [k, v]) => some (k, v)
  | none, _ => none

def mapConst (b : Binding) (d : Decorator) : Except Fault Item := do
  let value ← match b.value with
    | none | some (.creation ..) => pure none
    | some it => some <$> s.expr it
  match mapTypes? d b.value with
  | some (k, v) =>
    return .ofStmt (.mapConst s.pos b.decorators b.name b.type value
      ⟨"@" ++ d.name, d.pos, b.name, k, v⟩)
  | none => .error ⟨.untypedMap b.name.name, s.pos⟩

def constantDecl (items : List Item) : Except Fault Item := do
  let b ← s.binding "constant declaration" items
  match b.decorators.find? (·.name != Bytes.ofString "map") with
  | some d => wrongDecorator d ("constant " ++ b.name.name)
  | none =>
    match b.decorators.getLast? with
    | some d => s.mapConst b d
    | none =>
      match b.value with
      | none => s.missing ("constant " ++ b.name.name) "value"
      | some it => return .ofStmt (.constDecl s.pos b.name b.type (← s.expr it))

def mapDecl : List Item → Except Fault Item
  | key :: value :: name :: _ => do
    let k ← s.type key
    let v ← s.type value
    let n ← s.ident name
    return .ofStmt (.mapDecl ⟨"map", s.pos, n, k, v⟩)
  | _ => s.missing "map declaration" "name"

/-! ### Assets, traits and modules -/

/-- The parts of an asset read so far. -/
structure AssetParts where
  name : Option Ident := none
  fields : List Parameter := []
  decorated : Bool := false

def assetPart (parts : AssetParts) : Item → Except Fault AssetParts
  | .decorator d =>
    if d.name = Bytes.ofString "asset" then .ok { parts with decorated := true }
    else wrongDecorator d "class declaration"
  | .node (.expr (.ident n)) =>
    match parts.name with
    | none => .ok { parts with name := some n }
    | some _ => s.unexpected (.node (.expr (.ident n)))
  | .node (.parameter p) => .ok { parts with fields := parts.fields ++ [p] }
  | it => s.unexpected it

def assetDecl (items : List Item) : Except Fault Item := do
  let parts ← items.foldlM s.assetPart {}
  match parts.name with
  | none => s.noName "class declaration"
  | some name =>
    if parts.decorated then return .ofStmt (.assetDecl s.pos name parts.fields)
    else .error ⟨.plainClass name.name, s.pos⟩

def assetField : List Item → Except Fault Item
  | [] => s.missing "asset field" "name"
  | [name] => do s.incomplete ("asset field " ++ (← s.ident name).name)
  | name :: type :: _ => return .node (.parameter ⟨← s.ident name, some (← s.type type)⟩)

def traitDecl : List Item → Except Fault Item
  | [] => s.noName "trait declaration"
  | name :: items => return .ofStmt (.traitDecl s.pos (← s.ident name) (← items.mapM s.function))

def importDecl (items : List Item) : Except Fault Item :=
  match items.length, items.getLast? with
  | _ + 2, some (.node (.expr (.literal _ _ (.string source)))) =>
    return .ofStmt (.importDecl s.pos (← items.dropLast.mapM s.ident) source)
  | _ + 2, some it => s.unexpected it
  | _, _ => s.missing "import declaration" "module"

def exportDecl : List Item → Except Fault Item
  | it :: _ => return .ofStmt (.exportDecl s.pos (← s.stmt it))
  | [] => s.missing "export declaration" "declaration"

/-! ### Statements -/

def blockItem (items : List Item) : Except Fault Item :=
  return .node (.block (.mk s.pos (← items.mapM s.stmt)))

def exprStmt : List Item → Except Fault Item
  | it :: _ => return .ofStmt (.exprStmt s.pos (← s.expr it))
  | [] => s.missing "expression statement" "expression"

/-- The further branches of a conditional: conditions and blocks in turn, and perhaps a block at
the end. -/
def branches : List Item → Except Fault Else
  | [] => .ok .absent
  | [last] => return .final (← s.block last)
  | condition :: body :: items => do
    let c ← s.expr condition
    let b ← s.block body
    return .elseIf c b (← branches items)

def ifStmt : List Item → Except Fault Item
  | condition :: body :: items => do
    let c ← s.expr condition
    let b ← s.block body
    return .ofStmt (.ifStmt s.pos c b (← s.branches items))
  | _ => s.missing "if statement" "consequence"

def tryStmt : List Item → Except Fault Item
  | body :: name :: handler :: _ => do
    let b ← s.block body
    let n ← s.ident name
    return .ofStmt (.tryStmt s.pos b n (← s.block handler))
  | _ => s.missing "try statement" "catch block"

def throwStmt : List Item → Except Fault Item
  | it :: _ => return .ofStmt (.throwStmt s.pos (← s.expr it))
  | [] => s.missing "throw statement" "value"

def returnStmt : List Item → Except Fault Item
  | it :: _ => return .ofStmt (.returnStmt s.pos (some (← s.expr it)))
  | [] => .ok (.ofStmt (.returnStmt s.pos none))

def program (items : List Item) : Except Fault Program :=
  return ⟨← items.mapM s.stmt⟩

end Covenant.Site
