import Covenant.Build.Layout
import Covenant.Compile
import Covenant.Diagnostic.Template
import Covenant.Store

/-!
# Building files

A builder turns source files into output files.  It remembers which source writes which output, so
that no two sources write the same one, and asks its store before it compiles.
-/

namespace Covenant

abbrev Log := List Bytes

def Log.datum : Datum → Bytes
  | .null => "<nil>"
  | d => d.display

def Log.line (values : List Datum) : Bytes :=
  Bytes.join " " (values.map datum)

def Log.text (label : Bytes) (log : Log) : Bytes :=
  log.flatMap fun l => label ++ l ++ "\n"

def compilerVersion : Bytes := "0.3.0"

/-- Turns sources into outputs. -/
structure Builder where
  assets : List Bytes := []
  target : Bytes := []
  layout : Layout := {}
  store : Option Store := none
  /-- Measures the room that the store takes up, which may fail. -/
  gauge : Store → Except Store.Cause Int := fun s => .ok s.footprint
  /-- The outputs that were written, each with its source. -/
  writers : List (Bytes × Bytes) := []
  deriving Inhabited

/-- Why a file was not built. -/
inductive BuildError where
  /-- Two sources write one output. -/
  | clash (first second output : Bytes)
  | read (path : Bytes) (e : Disk.Error)
  | compile (f : Failure)
  | makeDirectory (e : Disk.Error)
  | write (path : Bytes) (e : Disk.Error)

def BuildError.message : BuildError → Bytes
  | clash first second output => first ++ " and " ++ second ++ " both write " ++ output
  | read path e => "reading " ++ path ++ ": " ++ e.message
  | compile f => f.message
  | makeDirectory e => "creating output directory: " ++ e.message
  | write path e => "writing " ++ path ++ ": " ++ e.message

def BuildError.diagnostic? : BuildError → Option Diagnostic
  | compile (.stage d) => some d
  | _ => none

namespace Builder

variable (b : Builder)

/-- How a file is compiled. -/
def options (filename : Bytes) : Options :=
  { filename, assets := b.assets, target := b.target }

/-- The key of a source in the store. -/
def key (source : Bytes) : Bytes :=
  Store.key compilerVersion b.target b.assets source

/-- An output with what came with it. -/
structure Output where
  text : Bytes
  cached : Bool := false
  deriving DecidableEq, Repr, Inhabited

def storeError (message : Bytes) : Bytes :=
  "cache error: " ++ message

/-- Look a source up in the store: the output if it is there, what is logged, and the builder
after it. -/
def lookUp (now : Nat) (filename source : Bytes) : Option Bytes × Log × Builder :=
  match b.store with
  | none => (none, [], b)
  | some s =>
    let (found, s) := s.get now (b.key source)
    let b' := { b with store := some s }
    match found with
    | .error e => (none, [storeError e.message], b')
    | .ok none => (none, [], b')
    | .ok (some text) =>
      let name := if filename.isEmpty then Bytes.ofString "<input>" else filename
      (some text, ["cache hit " ++ name], b')

/-- Keep an output in the store, and tell what is logged. -/
def keep (now : Nat) (filename source text : Bytes) : Log × Builder :=
  match b.store with
  | none => ([], b)
  | some s =>
    let (errors, s) := s.put now (b.gauge s) (b.key source) filename text
    let log := if errors.isEmpty then [] else [storeError (Store.report errors)]
    (log, { b with store := some s })

/-- The output of a source, from the store or compiled. -/
def transpile (now : Nat) (filename source : Bytes) : Except Failure Output × Log × Builder :=
  match b.lookUp now filename source with
  | (some text, log, b) => (.ok { text, cached := true }, log, b)
  | (none, log, b) =>
    let o := b.options filename
    let log := log ++ o.trace source
    match o.compile source with
    | .error f => (.error f, log, b)
    | .ok text =>
      let (more, b) := b.keep now filename source text
      (.ok { text }, log ++ more, b)

/-- Refuse a source whose parts do not fit together.  The target does not matter. -/
def check (filename source : Bytes) : Except Failure Unit × Log :=
  let o := b.options filename
  ((o.program source).map fun _ => (), o.buildTrace source)

/-- Note which source writes an output; another one may not. -/
def reserve (output source : Bytes) : Except BuildError Builder :=
  match b.writers.lookup output with
  | some first =>
    if first = source then .ok b else .error (.clash first source output)
  | none => .ok { b with writers := (output, source) :: b.writers }

/-- What comes of building a file. -/
structure Result where
  source : Bytes
  /-- The path of the output, when it was written. -/
  output : Bytes := []
  cached : Bool := false
  error : Option BuildError := none
  log : Log := []

/-- Write an output, and make the directories on the way. -/
def writeOutput (d : Disk) (path text : Bytes) : Except BuildError Disk := do
  let d ← (d.makeDirectories (Path.directory path)).mapError .makeDirectory
  (d.write path (text ++ "\n")).mapError (.write path)

/-- Build a file.  The output is written last; what fails before leaves the disk as it is. -/
def build (now : Nat) (d : Disk) (source : Bytes) : Result × Builder × Disk :=
  let output := b.layout.outputPath source
  match b.reserve output source with
  | .error e => ({ source, error := some e }, b, d)
  | .ok b =>
    match d.read source with
    | .error e => ({ source, error := some (.read source e) }, b, d)
    | .ok text =>
      match b.transpile now source text with
      | (.error f, log, b) => ({ source, error := some (.compile f), log }, b, d)
      | (.ok out, log, b) =>
        match writeOutput d output out.text with
        | .error e => ({ source, cached := out.cached, error := some e, log }, b, d)
        | .ok d => ({ source, output, cached := out.cached, log }, b, d)

end Builder

end Covenant
