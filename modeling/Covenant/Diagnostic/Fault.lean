import Covenant.Diagnostic.Template
import Covenant.Token

/-!
# Causes of failure

A fault is a cause and the place where it shows.  The wording of a cause is the catalogue's:
a cause only knows its code and the values that fill the message.
-/

namespace Covenant

/-- Why a source is refused. -/
inductive Cause where
  /-- Something else was expected here. -/
  | expected (want got : Bytes)
  /-- A token that starts no expression. -/
  | unexpectedToken (token : Bytes)
  /-- A string without its closing quote. -/
  | openString
  /-- A character that starts no token. -/
  | illegalChar (char : Bytes)
  /-- A block without its closing brace. -/
  | openBlock
  /-- A token that starts no type. -/
  | expectedType (got : Bytes)
  /-- A block comment without its end. -/
  | openComment
  /-- A declaration without a name. -/
  | noName (rule : Bytes)
  /-- A part that is missing. -/
  | missing (rule field : Bytes)
  /-- Half a pair. -/
  | incompletePair (rule : Bytes)
  /-- A decorator that does not exist. -/
  | unknownDecorator (name : Bytes)
  /-- An object creation outside a map constant. -/
  | misplacedNew (name : Bytes)
  /-- A class that is no asset. -/
  | plainClass (name : Bytes)
  /-- A map constant without its types. -/
  | untypedMap (name : Bytes)
  /-- A parse tree of no known rule. -/
  | noRule (rule : Bytes)
  /-- A part that does not belong here. -/
  | unexpected (got rule : Bytes)
  /-- A numeral that is out of range or malformed. -/
  | badNumber (literal : Bytes)
  /-- A construct that cannot be rendered. -/
  | noRendering (kind : Bytes)
  /-- An operator that the target lacks. -/
  | needsTarget (operator required target : Bytes)
  /-- An operator that does not exist. -/
  | unknownOperator (operator : Bytes)
  /-- A data variable whose type is unknown. -/
  | untypedVariable (name : Bytes)
  /-- A conditional without a value on one branch. -/
  | ifWithoutElse
  deriving DecidableEq, Repr, Inhabited

def Cause.code : Cause → String
  | expected .. => "SYNTAX-0001"
  | unexpectedToken _ => "SYNTAX-0002"
  | openString => "SYNTAX-0003"
  | illegalChar _ => "SYNTAX-0004"
  | openBlock => "SYNTAX-0005"
  | expectedType _ => "SYNTAX-0006"
  | openComment => "SYNTAX-0007"
  | noName _ => "BUILD-0001"
  | missing .. => "BUILD-0002"
  | incompletePair _ => "BUILD-0003"
  | unknownDecorator _ => "BUILD-0004"
  | misplacedNew _ => "BUILD-0005"
  | plainClass _ => "BUILD-0006"
  | untypedMap _ => "BUILD-0007"
  | noRule _ => "BUILD-0008"
  | unexpected .. => "BUILD-0009"
  | badNumber _ => "BUILD-0010"
  | noRendering _ => "GEN-0001"
  | needsTarget .. => "GEN-0002"
  | unknownOperator _ => "GEN-0003"
  | untypedVariable _ => "GEN-0004"
  | ifWithoutElse => "GEN-0005"

def Cause.data : Cause → Option Data
  | expected want got => some [("Expected", .text want), ("Got", .text got)]
  | unexpectedToken token => some [("Token", .text token)]
  | openString | openBlock | openComment | ifWithoutElse => none
  | illegalChar char => some [("Char", .text char)]
  | expectedType got => some [("Got", .text got)]
  | noName rule | incompletePair rule | noRule rule => some [("Rule", .text rule)]
  | missing rule field => some [("Rule", .text rule), ("Field", .text field)]
  | unknownDecorator name | misplacedNew name | plainClass name | untypedMap name
  | untypedVariable name => some [("Name", .text name)]
  | unexpected got rule => some [("Got", .text got), ("Rule", .text rule)]
  | badNumber literal => some [("Literal", .text literal)]
  | noRendering kind => some [("Kind", .text kind)]
  | needsTarget operator required target =>
    some [("Operator", .text operator), ("Required", .text required), ("Target", .text target)]
  | unknownOperator operator => some [("Operator", .text operator)]

/-- A cause at a place. -/
structure Fault where
  cause : Cause
  /-- Where it shows; the default for a fault without a place. -/
  pos : Pos := {}
  deriving DecidableEq, Repr, Inhabited

end Covenant
