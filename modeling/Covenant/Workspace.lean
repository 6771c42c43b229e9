import Covenant.Build
import Covenant.Store.File

/-!
# Workspaces

What a command works on: the disk, and the two streams of text that it writes.
-/

namespace Covenant

/-- Where log lines go. -/
inductive Sink where
  | nowhere
  | out
  | err
  | file (path : Bytes)
  deriving DecidableEq, Repr, Inhabited

/-- What a command works on. -/
structure Workspace where
  disk : Disk
  out : Bytes := []
  err : Bytes := []
  sink : Sink := .nowhere
  deriving Inhabited

namespace Workspace

variable (w : Workspace)

def print (text : Bytes) : Workspace :=
  { w with out := w.out ++ text }

def warn (text : Bytes) : Workspace :=
  { w with err := w.err ++ text }

def log (lines : Log) : Workspace :=
  let text := Log.text "[TRACE] " lines
  match w.sink with
  | .nowhere => w
  | .out => w.print text
  | .err => w.warn text
  | .file path => { w with disk := (w.disk.append path text).toOption.getD w.disk }

def build (now : Nat) (b : Builder) (source : Bytes) : Builder.Result × Builder × Workspace :=
  let (r, b, disk) := b.build now w.disk source
  (r, b, { w with disk }.log r.log)

end Workspace

end Covenant
