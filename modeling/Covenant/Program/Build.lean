import Covenant.Program.Build.Expression
import Covenant.Program.Build.Statement

/-!
# Building a program from its parse tree

Subtrees are built first and in order; the first fault ends the build.
-/

namespace Covenant

def Site.build (assets : List Bytes) (s : Site) (items : List Item) : Except Fault Item :=
  match s.rule with
  | .program => return .node (.program (← s.program items).statements)
  | .functionDecl => s.functionDecl items
  | .decorator => s.decorator items
  | .variableDecl => s.variableDecl items
  | .constantDecl => s.constantDecl items
  | .mapDecl => s.mapDecl items
  | .assetDecl => s.assetDecl items
  | .assetField => s.assetField items
  | .traitDecl => s.traitDecl items
  | .signature => s.signature items
  | .exprStmt => s.exprStmt items
  | .ifStmt => s.ifStmt items
  | .tryStmt => s.tryStmt items
  | .throwStmt => s.throwStmt items
  | .returnStmt => s.returnStmt items
  | .importDecl => s.importDecl items
  | .exportDecl => s.exportDecl items
  | .block => s.blockItem items
  | .parameters => s.parameters items
  | .parameter => s.parameterItem items
  | .arguments => s.arguments items
  | .assignment => s.assignment items
  | .conditional => s.conditional items
  | .binary _ => s.binary items
  | .unary => s.unary items
  | .suffixed => s.suffixed assets items
  | .call => s.call items
  | .member => s.member items
  | .isSuffix => s.typeCheck items
  | .asSuffix => s.typeAssertion items
  | .listLit => s.list items
  | .tupleLit => s.tuple items
  | .tupleItem => s.tupleItem items
  | .comprehension => s.comprehension items
  | .lambda => s.lambda items
  | .newExpr => s.creation items
  | .literal => s.literal items
  | .namedType => s.namedType items
  | .listType => s.listType items
  | .tupleType => s.tupleType items
  | .tupleTypeItem => s.tupleTypeItem items
  | .optionalType => s.optionalType items
  | .responseType => s.responseType items
  | .other name => .error ⟨.noRule name, s.pos⟩

namespace Tree

mutual

def build (assets : List Bytes) : Tree → Except Fault Item
  | .leaf t => Item.ofToken t
  | .node rule pos kids => do
    let items ← buildAll assets kids
    Site.build assets ⟨rule, pos⟩ items

def buildAll (assets : List Bytes) : List Tree → Except Fault (List Item)
  | [] => .ok []
  | t :: ts => do
    let it ← t.build assets
    return it :: (← buildAll assets ts)

end

mutual

/-- The rules built in a tree, in order and up to the first fault, with what they became. -/
def trace (assets : List Bytes) : Tree → List Bytes
  | .leaf _ => []
  | .node rule pos kids =>
    traceAll assets kids ++
      match build assets (.node rule pos kids) with
      | .ok it => ["build " ++ rule.name ++ " -> " ++ it.kind]
      | .error _ => []

def traceAll (assets : List Bytes) : List Tree → List Bytes
  | [] => []
  | t :: ts =>
    t.trace assets ++
      match t.build assets with
      | .ok _ => traceAll assets ts
      | .error _ => []

end

/-- The name of an asset: the first name that stands right in its declaration. -/
def assetName? (kids : List Tree) : Option Bytes :=
  kids.findSome? fun
    | .leaf t => if t.kind = .ident then some t.literal else none
    | .node .. => none

mutual

def declaredAssets : Tree → List Bytes
  | .leaf _ => []
  | .node .assetDecl _ kids => (assetName? kids).toList
  | .node _ _ kids => declaredAssetsAll kids

def declaredAssetsAll : List Tree → List Bytes
  | [] => []
  | t :: ts => t.declaredAssets ++ declaredAssetsAll ts

end

/-- The rules built in a program tree, when assets are known by the given names. -/
def buildTrace (assets : List Bytes) (t : Tree) : List Bytes :=
  match t with
  | .node .program _ _ => t.trace (assets ++ t.declaredAssets)
  | _ => []

end Tree

/-- Build a program.  Assets are known by the given names and by their declarations, wherever
those stand. -/
def Program.ofTree (assets : List Bytes) (t : Tree) : Except Fault Program :=
  match t with
  | .node .program pos kids => do
    let items ← Tree.buildAll (assets ++ t.declaredAssets) kids
    Site.program ⟨.program, pos⟩ items
  | _ => .error ⟨.missing "input" "program", {}⟩

end Covenant
