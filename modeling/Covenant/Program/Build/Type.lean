import Covenant.Program.Build.Item

/-!
# Building types
-/

namespace Covenant.Site

variable (s : Site)

def namedType : List Item → Except Fault Item
  | it :: _ => return .ofType (.named (← s.ident it))
  | [] => s.missing "type" "name"

def listType : List Item → Except Fault Item
  | it :: _ => return .ofType (.list s.pos (← s.type it))
  | [] => s.missing "list type" "element type"

def optionalType : List Item → Except Fault Item
  | it :: _ => return .ofType (.optional s.pos (← s.type it))
  | [] => s.missing "optional type" "inner type"

def responseType : List Item → Except Fault Item
  | ok :: err :: _ => return .ofType (.response s.pos (← s.type ok) (← s.type err))
  | _ => s.missing "response type" "error type"

def tupleTypeItem : List Item → Except Fault Item
  | key :: type :: _ => return .typeField (← s.ident key).name (← s.type type)
  | _ => s.incomplete "tuple type"

def tupleType (items : List Item) : Except Fault Item :=
  return .ofType (.tuple s.pos (← s.keyed "tuple type" Item.typeField? [] items))

end Covenant.Site
