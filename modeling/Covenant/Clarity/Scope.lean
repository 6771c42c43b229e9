import Covenant.Program.Basic

/-!
# Scopes and inferred types

A scope gives the names in force their types, as far as these are known.  The type of an
expression is inferred from its shape alone; an operation on numbers has the type of its left
operand.
-/

namespace Covenant

abbrev Scope := List (Bytes × Option Ty)

def Scope.bind (sc : Scope) (name : Ident) (type : Option Ty) : Scope :=
  (name.name, type) :: sc

def Scope.type? (sc : Scope) (name : Bytes) : Option Ty :=
  (List.lookup name sc).join

/-- The scope with parameters, of which a later one hides an earlier one. -/
def Scope.bindAll (sc : Scope) (params : List Parameter) : Scope :=
  params.foldl (fun sc p => sc.bind p.name p.type) sc

def BinOp.isArithmetic : BinOp → Bool
  | add | sub | mul | div | mod | bitAnd | bitOr | bitXor | shiftLeft | shiftRight => true
  | _ => false

/-- A member of a name that is a value of the chain itself. -/
inductive ChainValue where
  | txSender | contractCaller | blockHeight
  deriving DecidableEq, Repr

/-- The chain value that a member access stands for.  The two names count by their joined text. -/
def ChainValue.of? (object property : Bytes) : Option ChainValue :=
  let path := object ++ "." ++ property
  if path = Bytes.ofString "tx.sender" then some txSender
  else if path = Bytes.ofString "contract.caller" then some contractCaller
  else if path = Bytes.ofString "block.height" then some blockHeight
  else none

def ChainValue.word : ChainValue → String
  | txSender => "tx-sender"
  | contractCaller => "contract-caller"
  | blockHeight => "block-height"

def ChainValue.typeName : ChainValue → String
  | txSender | contractCaller => "principal"
  | blockHeight => "uint"

def Ty.ofName (name : String) : Ty :=
  .named ⟨name, {}⟩

def chainValue? (object : Expr) (property : Ident) : Option ChainValue :=
  match object with
  | .ident n => ChainValue.of? n.name property.name
  | _ => none

def Expr.knownType (sc : Scope) : Expr → Option Ty
  | literal _ _ (.int _) => some (.ofName "int")
  | literal _ _ (.bool _) => some (.ofName "bool")
  | principal .. => some (.ofName "principal")
  | ident n => sc.type? n.name
  | cast _ _ t => some t
  | typeCheck .. => some (.ofName "bool")
  | binary _ .assign _ _ => none
  | binary _ op l r =>
    if op.isArithmetic then (knownType sc l).or (knownType sc r) else some (.ofName "bool")
  | unary _ .not _ => some (.ofName "bool")
  | unary _ _ e => knownType sc e
  | conditional _ _ t e => (knownType sc t).or (knownType sc e)
  | member _ e property => (chainValue? e property).map fun c => .ofName c.typeName
  | list _ (e :: _) => (knownType sc e).map (.list {})
  | someOf _ e => (knownType sc e).map (.optional {})
  | _ => none

end Covenant
