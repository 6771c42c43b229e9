import Covenant.Compile
import Covenant.Program.Print
import Covenant.Text.Blank

/-!
# Interactive sessions

A session remembers the assets declared so far, the target, and whether it shows programs instead
of their Clarity text.  An input is evaluated as a whole; a line that starts with a colon is a
command.
-/

namespace Covenant

/-- What a session carries from one input to the next. -/
structure Session where
  /-- The names known to be assets, in the order in which they became known. -/
  assets : List Bytes := []
  target : Bytes := []
  /-- Show programs instead of their Clarity text. -/
  showProgram : Bool := false
  deriving Inhabited

/-- What the user is told about a failure: a report, or a single line. -/
def Failure.report : Failure → Bytes
  | .stage d => d.pretty ++ "\n"
  | f => f.message ++ "\n"

namespace Session

variable (s : Session)

def options : Options :=
  { assets := s.assets, target := s.target }

def declared? : Stmt → Option Bytes
  | .assetDecl _ n _ | .exportDecl _ (.assetDecl _ n _) => some n.name
  | _ => none

def addAsset (assets : List Bytes) (name : Bytes) : List Bytes :=
  if assets.contains name then assets else assets ++ [name]

def remember (p : Program) : Session :=
  { s with assets := (p.statements.filterMap declared?).foldl addAsset s.assets }

/-- Evaluate a whole input.  Its assets are remembered once it succeeds. -/
def eval (input : Bytes) : Except Failure Bytes × Session :=
  match s.options.program input with
  | .error f => (.error f, s)
  | .ok p =>
    match if s.showProgram then .ok p.print else s.options.render p with
    | .error f => (.error f, s)
    | .ok text => (.ok text, s.remember p)

def lines (ls : List Bytes) : Bytes :=
  ls.flatMap (· ++ Bytes.ofString "\n")

def help : Bytes :=
  lines
    ["REPL Commands:",
     "  :help, :h, :?    Show this help",
     "  :ast             Toggle printing the AST instead of Clarity",
     "  :assets          Show known asset names",
     "  :target [ver]    Show or set the Clarity target",
     "  :clear           Forget assets declared in this session",
     "  exit, quit       Exit the REPL"]

def targetCommand (arg : Bytes) : Bytes × Session :=
  if arg.isEmpty then
    let shown := if s.target.isEmpty then Target.default.text else s.target
    ("Clarity " ++ shown ++ "\n", s)
  else match Target.parse arg with
    | .error e => (e.message ++ "\n", s)
    | .ok v => ("Target set to Clarity " ++ v.text ++ "\n", { s with target := v.text })

def command (cmd : Bytes) : Bytes × Session :=
  let (name, arg) := (cmd.cut 32).getD (cmd, [])
  let is (word : String) : Bool := name == Bytes.ofString word
  if is ":help" || is ":h" || is ":?" then (help, s)
  else if is ":ast" then
    if s.showProgram then ("AST mode OFF\n", { s with showProgram := false })
    else ("AST mode ON\n", { s with showProgram := true })
  else if is ":assets" then
    if s.assets.isEmpty then ("(no assets)\n", s)
    else (Bytes.join ", " s.assets ++ "\n", s)
  else if is ":target" then s.targetCommand arg.trim
  else if is ":clear" then ("Session cleared\n", { s with assets := [] })
  else ("Unknown command: " ++ cmd ++ " (type :help for commands)\n", s)

end Session

end Covenant
