import Covenant.Workspace

/-!
# Watching directories

A watcher builds the sources of some directories, and again whenever they change.
-/

namespace Covenant

/-- A change of a file or directory; several kinds may come together. -/
structure Change where
  name : Bytes
  created : Bool := false
  written : Bool := false
  removed : Bool := false
  renamed : Bool := false
  deriving DecidableEq, Repr, Inhabited

/-- Builds the sources of some directories. -/
structure Watcher where
  builder : Builder
  /-- The directories, or none for the working directory. -/
  dirs : List Bytes := []
  watched : List Bytes := []
  history : List Builder.Result := []
  pending : List Bytes := []
  deriving Inhabited

namespace Watcher

variable (w : Watcher)

def roots : List Bytes :=
  if w.dirs.isEmpty then [Path.here] else w.dirs

def builds : Nat :=
  w.history.length

def failures : Nat :=
  w.history.countP fun r => r.error.isSome

def info (s : Workspace) (text : Bytes) : Workspace :=
  s.print ("[WATCH] " ++ text ++ "\n")

def fail (s : Workspace) (text : Bytes) : Workspace :=
  s.warn ("[WATCH ERROR] " ++ text ++ "\n")

def wording (e : BuildError) : Bytes :=
  match e.diagnostic? with
  | some d => d.text
  | none => e.message

def announce (s : Workspace) (r : Builder.Result) : Workspace :=
  match r.error with
  | some e => fail s (wording e)
  | none => info s (r.source ++ " -> " ++ r.output ++
    if r.cached then Bytes.ofString " (cached)" else [])

def build (now : Nat) (s : Workspace) (source : Bytes) : Watcher × Workspace :=
  let (r, builder, s) := s.build now w.builder source
  ({ w with builder, history := w.history ++ [r] }, announce s r)

/-- Build every source of a directory; the number tells how many scans failed. -/
def buildDirectory (now : Nat) (acc : Nat × Watcher × Workspace) (dir : Bytes) :
    Nat × Watcher × Workspace :=
  let (failed, w, s) := acc
  match Layout.sources s.disk dir with
  | .error e => (failed + 1, w, fail s ("scanning " ++ dir ++ ": " ++ e.message))
  | .ok sources =>
    let (w, s) := sources.foldl (fun (w, s) f => w.build now s f) (w, s)
    (failed, w, s)

/-- Build every source once.  The number is that of the scans and builds that failed. -/
def buildAll (now : Nat) (s : Workspace) : Nat × Watcher × Workspace :=
  let (scans, w', s) := w.roots.foldl (buildDirectory now) (0, w, s)
  (scans + (w'.failures - w.failures), w', s)

/-! ### Watching -/

/-- The directories at and below a path, hidden ones and those below them left out; the path itself
may be hidden. -/
def directories (d : Disk) (root : Bytes) : Except Disk.Error (List Bytes) := do
  match ← d.stat "lstat" root with
  | .file _ => return []
  | .directory =>
    let place ← (d.locate root).mapError (⟨"lstat", root, ·⟩)
    let below := (d.under place).filterMap fun (way, e) =>
      if e = .directory && !way.any Layout.isHidden then some (Path.join (root :: way)) else none
    return root :: below

def watchTree (d : Disk) (root : Bytes) : Except Disk.Error Watcher := do
  return { w with watched := w.watched ++ (← directories d root) }

/-- Begin to watch some directories, up to the first that is not there. -/
def startAll (s : Workspace) : (dirs : List Bytes) → Watcher →
    Option (Bytes × Disk.Error) × Watcher × Workspace
  | [], w => (none, w, s)
  | dir :: rest, w =>
    match w.watchTree s.disk dir with
    | .error e => (some (dir, e), w, s)
    | .ok w => startAll (info s ("watching " ++ dir)) rest w

/-- Begin to watch the directories.  The error names the first that is not there. -/
def start (s : Workspace) : Option (Bytes × Disk.Error) × Watcher × Workspace :=
  startAll s w.roots w

def isNewDirectory (d : Disk) (c : Change) : Bool :=
  c.created && match d.find c.name with
    | .ok .directory => true
    | _ => false

def handle (s : Workspace) (c : Change) : Bool × Watcher × Workspace :=
  if isNewDirectory s.disk c then
    match w.watchTree s.disk c.name with
    | .ok w => (false, w, s)
    | .error e => (false, w, fail s ("failed to watch " ++ c.name ++ ": " ++ e.message))
  else if !Layout.isSource c.name then (false, w, s)
  else if c.removed || c.renamed then
    (false, { w with pending := w.pending.filter (· ≠ c.name) }, info s ("removed: " ++ c.name))
  else if !c.written && !c.created then (false, w, s)
  else if w.pending.contains c.name then (true, w, s)
  else (true, { w with pending := w.pending ++ [c.name] }, s)

end Watcher

end Covenant
