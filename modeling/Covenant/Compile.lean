import Covenant.Clarity.Render
import Covenant.Program.Build
import Covenant.Tree.Parse
import Covenant.Version

/-!
# Compiling a source

A source is parsed, built into a program and rendered; the first stage that fails ends it.
-/

namespace Covenant

/-- How a source is compiled. -/
structure Options where
  filename : Bytes := []
  assets : List Bytes := []
  target : Bytes := []
  deriving Inhabited

/-- Why a compilation failed. -/
inductive Failure where
  /-- The target is no version. -/
  | target (e : Target.Error)
  /-- A stage refused the source. -/
  | stage (d : Diagnostic)

def Failure.cause : Failure → Bytes
  | target e => e.message
  | stage d => d.text

def Failure.message (f : Failure) : Bytes :=
  "transpilation failed: " ++ f.cause

namespace Options

variable (o : Options)

def diagnostic (f : Fault) : Diagnostic :=
  (Diagnostic.ofFault f).inFile o.filename

def programOrFault (source : Bytes) : Except Fault Program := do
  Program.ofTree o.assets (← Tree.parse source)

def program (source : Bytes) : Except Failure Program :=
  (o.programOrFault source).mapError fun f => .stage (o.diagnostic f)

def renderFor (target : Version) (p : Program) : Except Failure Bytes :=
  (p.render target).mapError fun f => .stage (o.diagnostic f)

def version : Except Failure Version :=
  (Target.parse o.target).mapError .target

def render (p : Program) : Except Failure Bytes := do
  o.renderFor (← o.version) p

/-- The Clarity text of a source.  A bad target goes before any fault of the source. -/
def compile (source : Bytes) : Except Failure Bytes := do
  let target ← o.version
  o.renderFor target (← o.program source)

def buildTrace (source : Bytes) : List Bytes :=
  match Tree.parse source with
  | .ok t => t.buildTrace o.assets
  | .error _ => []

def trace (source : Bytes) : List Bytes :=
  match o.version with
  | .error _ => []
  | .ok target =>
    o.buildTrace source ++
      match o.programOrFault source with
      | .ok p => p.renderTrace target
      | .error _ => []

end Options

end Covenant
