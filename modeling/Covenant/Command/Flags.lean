import Covenant.Text.Blank
import Covenant.Text.Quoted

/-!
# Flags

The flags of a command line come first: `-name`, `-name=value` or `-name value`, with one dash or
two.  The first word that is no flag, or the word behind `--`, begins the operands.
-/

namespace Covenant

/-- A flag, in the order of the names. -/
inductive Flag where
  | asset | check | config | code | help | noCache | out | print | profile | target | trace
  | version
  deriving DecidableEq, Repr, Inhabited

namespace Flag

/-- What a flag takes. -/
inductive Kind where
  /-- Nothing, or a truth value. -/
  | switch
  /-- A text. -/
  | text
  /-- Names with commas between them, in addition to others. -/
  | list
  deriving DecidableEq, Repr, Inhabited

def all : List Flag :=
  [asset, check, config, code, help, noCache, out, print, profile, target, trace, version]

def name : Flag → Bytes
  | asset => "asset"
  | check => "check"
  | config => "config"
  | code => "e"
  | help => "help"
  | noCache => "no-cache"
  | out => "out"
  | print => "print"
  | profile => "profile"
  | target => "target"
  | trace => "trace"
  | version => "version"

def kind : Flag → Kind
  | asset => .list
  | config => .text
  | code => .text
  | out => .text
  | profile => .text
  | target => .text
  | _ => .switch

def purpose : Flag → Bytes
  | asset => "Treat NAME as an NFT asset (repeatable)"
  | check => "Check syntax without generating code"
  | config => "Path to config file"
  | code => "Transpile code string"
  | help => "Show help"
  | noCache => "Disable the build cache"
  | out => "Directory for generated files"
  | print => "Print Clarity to stdout instead of writing files"
  | profile => "Apply a named config profile"
  | target => "Clarity version to generate for"
  | trace => "Log build and generate steps"
  | version => "Show version"

def Kind.label : Kind → Bytes
  | switch => []
  | text => " string"
  | list => " value"

def entry (f : Flag) : Bytes :=
  "  -" ++ f.name ++ f.kind.label ++ "\n    \t" ++ f.purpose ++ "\n"

def usage : Bytes :=
  Bytes.ofString "Usage of stxc:\n" ++ all.flatMap entry

def ofName? (name : Bytes) : Option Flag :=
  all.find? fun f => f.name = name

end Flag

/-- The values of the flags, and the operands. -/
structure Flags where
  config : Bytes := []
  profile : Bytes := []
  target : Bytes := []
  out : Bytes := []
  code : Bytes := []
  assets : List Bytes := []
  check : Bool := false
  print : Bool := false
  trace : Bool := false
  noCache : Bool := false
  version : Bool := false
  help : Bool := false
  operands : List Bytes := []
  deriving DecidableEq, Repr, Inhabited

namespace Flags

/-- Why a command line is refused. -/
inductive Error where
  | malformed (word : Bytes)
  | undefined (name : Bytes)
  /-- The short word for help, which is no flag. -/
  | helpWanted
  | badSwitch (name value : Bytes)
  | noValue (name : Bytes)
  deriving DecidableEq, Repr, Inhabited

def Error.message : Error → Bytes
  | malformed word => "bad flag syntax: " ++ word
  | undefined name => "flag provided but not defined: -" ++ name
  | helpWanted => "flag: help requested"
  | badSwitch name value =>
    "invalid boolean value " ++ Quoted.encode value ++ " for -" ++ name ++ ": parse error"
  | noValue name => "flag needs an argument: -" ++ name

def Error.report (e : Error) : Bytes :=
  (if e = .helpWanted then [] else e.message ++ Bytes.ofString "\n") ++ Flag.usage

def truth? (s : Bytes) : Option Bool :=
  if (["1", "t", "T", "TRUE", "true", "True"].map Bytes.ofString).contains s then some true
  else if (["0", "f", "F", "FALSE", "false", "False"].map Bytes.ofString).contains s then some false
  else none

def setSwitch (fs : Flags) (b : Bool) : Flag → Flags
  | .check => { fs with check := b }
  | .help => { fs with help := b }
  | .noCache => { fs with noCache := b }
  | .print => { fs with print := b }
  | .trace => { fs with trace := b }
  | .version => { fs with version := b }
  | _ => fs

def names (value : Bytes) : List Bytes :=
  ((value.splitOn 44).map Bytes.trim).filter fun name => !name.isEmpty

def setValue (fs : Flags) (value : Bytes) : Flag → Flags
  | .asset => { fs with assets := fs.assets ++ names value }
  | .config => { fs with config := value }
  | .code => { fs with code := value }
  | .out => { fs with out := value }
  | .profile => { fs with profile := value }
  | .target => { fs with target := value }
  | _ => fs

/-- A word of a command line. -/
inductive Word where
  | operand
  /-- The two dashes before operands. -/
  | separator
  | malformed
  | flag (name : Bytes) (value : Option Bytes)

def Word.ofFlag (s : Bytes) : Word :=
  match s with
  | [] => .malformed
  | 45 :: _ => .malformed
  | 61 :: _ => .malformed
  | b :: rest =>
    match Bytes.cut 61 rest with
    | some (name, value) => .flag (b :: name) (some value)
    | none => .flag s none

def Word.ofBytes : Bytes → Word
  | [45, 45] => .separator
  | 45 :: 45 :: rest => .ofFlag rest
  | 45 :: b :: rest => .ofFlag (b :: rest)
  | _ => .operand

def parseFrom (fs : Flags) : List Bytes → Except Error Flags
  | [] => .ok fs
  | word :: rest =>
    match Word.ofBytes word with
    | .operand => .ok { fs with operands := word :: rest }
    | .separator => .ok { fs with operands := rest }
    | .malformed => .error (.malformed word)
    | .flag name value =>
      match Flag.ofName? name with
      | none => .error (if name = Bytes.ofString "h" then .helpWanted else .undefined name)
      | some f =>
        if f.kind = .switch then
          match truth? (value.getD "true") with
          | some b => parseFrom (fs.setSwitch b f) rest
          | none => .error (.badSwitch name (value.getD []))
        else match value with
          | some v => parseFrom (fs.setValue v f) rest
          | none =>
            match rest with
            | v :: more => parseFrom (fs.setValue v f) more
            | [] => .error (.noValue name)

def parse (words : List Bytes) : Except Error Flags :=
  parseFrom {} words

end Flags

end Covenant
