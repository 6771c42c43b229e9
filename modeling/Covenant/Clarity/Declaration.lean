import Covenant.Clarity.Form
import Covenant.Clarity.Name
import Covenant.Diagnostic.Fault
import Covenant.Program.Basic

/-!
# Types and declarations in Clarity
-/

namespace Covenant

open Form (atom row apply pair stack)

namespace Ty

mutual

def form : Ty → Form
  | named n =>
    if n.name = Bytes.ofString "any" then apply "optional" [atom "any"] else atom n.name
  | list _ t => apply "list" [t.form]
  | tuple _ fields => apply "tuple" (fieldForms fields)
  | optional _ t => apply "optional" [t.form]
  | response _ ok err => apply "response" [ok.form, err.form]

def fieldForms : List (Bytes × Ty) → List Form
  | [] => []
  | (key, t) :: fields => pair key t.form :: fieldForms fields

end

def isNamed (name : String) : Ty → Bool
  | named n => n.name == Bytes.ofString name
  | _ => false

def form? : Option Ty → Except Fault Form
  | some t => .ok t.form
  | none => .error ⟨.noRendering "missing type", {}⟩

def testForm (t : Ty) (value : Form) : Form :=
  match t with
  | named n => row [atom ("is-" ++ n.name), value]
  | _ => .list [(.glued, atom "is-"), (.glued, t.form), (.space, value)]

/-- A value taken as one of a type.  Between the two types of integers, and where the type of the
value is known, there are functions for that. -/
def castForm (t : Ty) (known : Option Ty) (value : Form) : Form :=
  if t.isNamed "int" && known.any (isNamed "uint") then apply "to-int" [value]
  else if t.isNamed "uint" && known.any (isNamed "int") then apply "to-uint" [value]
  else apply "as" [t.form, value]

end Ty

def MapShape.form (m : MapShape) : Form :=
  apply "define-map" [atom m.name.name, m.key.form, m.value.form]

/-- The visibility of a function: by the first of the decorators it has, and else by whether it is
exported. -/
def visibility (f : Fn) (exported : Bool) : String :=
  if f.hasDecorator "public" then "public"
  else if f.hasDecorator "readonly" then "read-only"
  else if f.hasDecorator "private" then "private"
  else if exported then "read-only"
  else "private"

def Parameter.form (p : Parameter) : Except Fault Form :=
  return pair p.name.name (← Ty.form? p.type)

def assetForm (name : Ident) (fields : List Parameter) : Except Fault Form :=
  return apply "define-non-fungible-token" (atom name.name :: (← fields.mapM Parameter.form))

def Fn.signatureForm (f : Fn) : Except Fault Form := do
  let params ← f.params.mapM fun p => Ty.form? p.type
  let result ← Ty.form? f.result
  return row [atom f.name.name, row params, result]

def traitForm (name : Ident) (functions : List Fn) : Except Fault Form := do
  let signatures ← functions.mapM Fn.signatureForm
  return stack [atom "define-trait", atom name.name] [.list (Form.items .aligned signatures)]

def useForm (names : List Ident) (source : Bytes) : Form :=
  apply "use-trait" (names.map (fun n => atom n.name) ++ [atom ("." ++ contractOf source)])

end Covenant
