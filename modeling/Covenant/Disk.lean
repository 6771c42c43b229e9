import Covenant.Disk.Path

/-!
# Disks

Files and directories as a value.  A place on a disk is the list of names that lead to it from the
root; a path is looked up from the working directory, name by name, so that every name but the
last must be that of a directory.
-/

namespace Covenant

/-- What can be at a place. -/
inductive Disk.Entry where
  | file (content : Bytes)
  | directory
  deriving DecidableEq, Repr, Inhabited

abbrev Place := List Bytes

/-- Files and directories, and where paths start. -/
structure Disk where
  cwd : Place := []
  entries : List (Place × Disk.Entry) := []
  deriving Inhabited

namespace Disk

/-- Why an operation fails. -/
inductive Cause where
  | missing
  | notDirectory
  | isDirectory
  deriving DecidableEq, Repr, Inhabited

def Cause.message : Cause → Bytes
  | missing => "no such file or directory"
  | notDirectory => "not a directory"
  | isDirectory => "is a directory"

/-- An operation that failed. -/
structure Error where
  action : Bytes
  path : Bytes
  cause : Cause
  deriving DecidableEq, Repr, Inhabited

def Error.message (e : Error) : Bytes :=
  e.action ++ " " ++ e.path ++ ": " ++ e.cause.message

/-! ### Looking up -/

def entry? (d : Disk) (place : Place) : Option Entry :=
  if place.isEmpty then some .directory else d.entries.lookup place

def step (place : Place) (name : Bytes) : Place :=
  if name.isEmpty ∨ name = Path.here then place
  else if name = Path.up then place.dropLast else place ++ [name]

/-- The place that names lead to.  There must be a directory at every place on the way. -/
def walk (d : Disk) : Place → List Bytes → Except Cause Place
  | place, [] => .ok place
  | place, name :: rest =>
    match d.entry? place with
    | none => .error .missing
    | some (.file _) => .error .notDirectory
    | some .directory => walk d (step place name) rest

def locate (d : Disk) (p : Bytes) : Except Cause Place :=
  if p.isEmpty then .error .missing
  else d.walk (if Path.isAbsolute p then [] else d.cwd) (p.splitOn 47)

def find (d : Disk) (p : Bytes) : Except Cause Entry := do
  match d.entry? (← d.locate p) with
  | some e => return e
  | none => throw .missing

def stat (d : Disk) (action p : Bytes) : Except Error Entry :=
  (d.find p).mapError fun c => ⟨action, p, c⟩

def contains (d : Disk) (p : Bytes) : Bool :=
  (d.find p).toOption.isSome

def absolute (d : Disk) (p : Bytes) : Bytes :=
  if Path.isAbsolute p then Path.clean p else Path.join [Path.ofSteps true d.cwd, p]

/-! ### Files -/

def read (d : Disk) (p : Bytes) : Except Error Bytes :=
  match d.find p with
  | .ok (.file content) => .ok content
  | .ok .directory => .error ⟨"read", p, .isDirectory⟩
  | .error c => .error ⟨"open", p, c⟩

def put (d : Disk) (place : Place) (e : Entry) : Disk :=
  if (d.entries.lookup place).isSome then
    { d with entries := d.entries.map fun (p, old) => if p = place then (p, e) else (p, old) }
  else { d with entries := d.entries ++ [(place, e)] }

/-- The disk after a file has been given a new content, which may depend on the old one.  A file
that was not there starts empty. -/
def update (d : Disk) (p : Bytes) (content : Bytes → Bytes) : Except Error Disk :=
  match d.locate p with
  | .error c => .error ⟨"open", p, c⟩
  | .ok place =>
    match d.entry? place with
    | some .directory => .error ⟨"open", p, .isDirectory⟩
    | some (.file old) => .ok (d.put place (.file (content old)))
    | none => .ok (d.put place (.file (content [])))

def write (d : Disk) (p content : Bytes) : Except Error Disk :=
  d.update p fun _ => content

def append (d : Disk) (p more : Bytes) : Except Error Disk :=
  d.update p (· ++ more)

/-! ### Directories -/

def stations : Place → List Place
  | [] => []
  | name :: rest => [name] :: (stations rest).map (name :: ·)

def ancestors (p : Bytes) : List Bytes :=
  (stations (Path.steps p)).map (Path.ofSteps (Path.isAbsolute p))

def makeDirectory (d : Disk) (p : Bytes) : Except Error Disk :=
  match d.locate p with
  | .error c => .error ⟨"mkdir", p, c⟩
  | .ok place =>
    match d.entry? place with
    | some .directory => .ok d
    | some (.file _) => .error ⟨"mkdir", p, .notDirectory⟩
    | none => .ok (d.put place .directory)

/-- The disk with a directory at a path, and at every place on the way. -/
def makeDirectories (d : Disk) (p : Bytes) : Except Error Disk :=
  (ancestors p).foldlM makeDirectory d

/-- The order of a walk through a directory: by name, and each directory before its contents. -/
def placeLe : Place → Place → Bool
  | [], _ => true
  | _ :: _, [] => false
  | a :: p, b :: q => if a = b then placeLe p q else a.ble b

def under (d : Disk) (place : Place) : List (Place × Disk.Entry) :=
  let found := d.entries.filterMap fun (p, e) =>
    if place.isPrefixOf p && place.length < p.length then some (p.drop place.length, e) else none
  found.mergeSort fun a b => placeLe a.1 b.1

def ofDirectory (cwd : Place) : Disk :=
  { cwd, entries := (stations cwd).map (·, .directory) }

end Disk

end Covenant
