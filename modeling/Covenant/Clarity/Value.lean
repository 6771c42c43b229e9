import Covenant.Clarity.Form
import Covenant.Diagnostic.Fault
import Covenant.Number.Shortest
import Covenant.Program.Basic
import Covenant.Version

/-!
# Operators, literals, bindings and function values in Clarity

Every operator but assignment and inequality is the application of a function.  The functions on
bits need a recent version of Clarity.
-/

namespace Covenant

open Form (atom quoted row apply pair stack)

/-! ### Operators -/

namespace BinOp

def function? : BinOp → Option String
  | add => some "+" | sub => some "-" | mul => some "*" | div => some "/" | mod => some "mod"
  | lt => some "<" | gt => some ">" | le => some "<=" | ge => some ">="
  | eq => some "is-eq" | and => some "and" | or => some "or"
  | bitAnd => some "bit-and" | bitOr => some "bit-or" | bitXor => some "bit-xor"
  | shiftLeft => some "bit-shift-left" | shiftRight => some "bit-shift-right"
  | assign | ne | other _ => none

def isBitwise : BinOp → Bool
  | bitAnd | bitOr | bitXor | shiftLeft | shiftRight => true
  | _ => false

def bitwiseSince : Version :=
  { major := 2 }

def form (target : Version) (pos : Pos) (op : BinOp) (left right : Form) : Except Fault Form :=
  match op with
  | assign => .ok (apply "var-set" [left, right])
  | ne => .ok (apply "not" [apply "is-eq" [left, right]])
  | _ =>
    match op.function? with
    | none => .error ⟨.unknownOperator op.text, {}⟩
    | some f =>
      if op.isBitwise && target.isBefore bitwiseSince then
        .error ⟨.needsTarget op.text bitwiseSince.text target.text, pos⟩
      else .ok (apply f [left, right])

end BinOp

def UnOp.form (op : UnOp) (operand : Form) : Except Fault Form :=
  match op with
  | .not => .ok (apply "not" [operand])
  | .neg => .ok (apply "-" [operand])
  | .other text => .error ⟨.unknownOperator text, {}⟩

/-! ### Literals and bindings -/

def floatText (v : Binary64) : Bytes :=
  let s := v.write Decimal.positional
  if s.contains 46 then s else s ++ ".0"

def Literal.form : Literal → Form
  | int v => atom (Bytes.ofInt v.toInt)
  | float v => atom (floatText v)
  | string s => quoted s
  | bool true => atom "true"
  | bool false => atom "false"

/-- A binding around what follows it; with nothing behind it, the name is the value. -/
def letForm (name : Ident) (value : Form) (body : Option Form) : Form :=
  let head := [atom "let", row [pair name.name value]]
  match body with
  | none => row (head ++ [atom name.name])
  | some b => stack head [b]

/-! ### Comprehensions -/

/-- A name of a function value's parameter in parentheses, and its body. -/
def lambdaForm (params : List Bytes) (body : Form) : Form :=
  apply "lambda" [row (params.map atom), body]

def plainOperand? (iterator : Bytes) : Expr → Option Form
  | .literal _ _ v => some v.form
  | .principal _ address => some (atom ("'" ++ address))
  | .ident n => if n.name = iterator then none else some (atom n.name)
  | _ => none

def isIterator (iterator : Bytes) : Expr → Bool
  | .ident n => n.name == iterator
  | _ => false

/-- An operator between the iterator and a simple operand, applied to the latter alone. -/
def partialForm? (iterator : Bytes) : Expr → Option Form
  | .binary _ op l r =>
    if op.isBitwise then none
    else op.function?.bind fun f =>
      if isIterator iterator l && (plainOperand? iterator r).isSome then
        (plainOperand? iterator r).map fun x => apply f [x]
      else if isIterator iterator r then
        (plainOperand? iterator l).map fun x => apply f [x]
      else none
  | _ => none

def elementType : Option Ty → Option Ty
  | some (.list _ t) => some t
  | _ => none

/-- The arguments of an asset operation: minting takes its two in the other order. -/
def assetArgs {α : Type} (function : Bytes) : List α → List α
  | [a, b] => if function = Bytes.ofString "mint" then [b, a] else [a, b]
  | args => args

end Covenant
