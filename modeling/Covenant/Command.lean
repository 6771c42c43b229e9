import Covenant.Command.Flags
import Covenant.Command.Help
import Covenant.Config.Load
import Covenant.Diagnostic.Excerpt
import Covenant.Number.Volume
import Covenant.Session.Dialogue
import Covenant.Watch

/-!
# The command line

A command reads its flags and its configuration, and then evaluates a text, starts a dialogue,
looks after the store, watches directories or builds files.
-/

namespace Covenant

/-- What a command is given besides its words. -/
structure Setting where
  env : Environment
  home : Bytes := []
  input : Bytes := []
  now : Nat := 0

namespace Command

/-- Why a command failed. -/
inductive Error where
  | flags (e : Flags.Error)
  | load (e : Config.LoadError)
  | profile (e : Config.ProfileError)
  | settings (problems : List Config.Problem)
  | logFile (e : Disk.Error)
  /-- The text to evaluate was refused; the reason has been written. -/
  | evaluation
  | cacheUsage
  | openStore (e : Store.OpenError)
  | store (e : Store.Error)
  | noInput
  | access (path : Bytes) (e : Disk.Error)
  | scan (path : Bytes) (e : Disk.Error)
  | noSources
  /-- Some files were refused; the reasons have been written. -/
  | files (failed total : Nat)
  | watch (path : Bytes) (e : Disk.Error)

def Error.message : Error → Bytes
  | flags e => e.message
  | load e => "loading config: " ++ e.message
  | profile e => e.message
  | settings problems => "config validation: " ++ Config.report problems
  | logFile e => "opening log file: " ++ e.message
  | evaluation => "transpilation failed"
  | cacheUsage => "usage: stxc cache stats|clear"
  | openStore e => e.message
  | store e => e.message
  | noInput => "no input files"
  | access path e => "cannot access " ++ path ++ ": " ++ e.message
  | scan path e => "scanning " ++ path ++ ": " ++ e.message
  | noSources => "no source files found"
  | files failed total => Bytes.ofNat failed ++ " of " ++ Bytes.ofNat total ++ " files failed"
  | watch path e => "watching " ++ path ++ ": " ++ e.message

abbrev Action := ExceptT Error (StateM Workspace)

def print (text : Bytes) : Action Unit :=
  modify (·.print text)

def warn (text : Bytes) : Action Unit :=
  modify (·.warn text)

/-! ### Errors of sources -/

/-- What is written about an error of a source: the error and the line it is about.  When the text
of the source is not at hand, it is read from the file that the error names. -/
def report (d : Disk) (source : Bytes) (e : BuildError) : Bytes :=
  match e.diagnostic? with
  | none => "error: " ++ e.message ++ "\n"
  | some diagnostic =>
    let source := if source.isEmpty then (d.read diagnostic.file).toOption.getD [] else source
    diagnostic.pretty ++ "\n" ++
      Excerpt.text (source.splitOn 10) diagnostic.pos.line diagnostic.pos.column

def warnOf (source : Bytes) (e : BuildError) : Action Unit := do
  warn (report (← get).disk source e)

/-! ### Settings -/

def override (c : Config) (fs : Flags) : Config :=
  { c.addAssets fs.assets with
    target := if fs.target.isEmpty then c.target else fs.target
    outDir := if fs.out.isEmpty then c.outDir else fs.out
    logLevel := if fs.trace then "trace" else c.logLevel
    cacheEnabled := !fs.noCache && c.cacheEnabled }

def configure (s : Setting) (fs : Flags) : Action Config := do
  let source := { disk := (← get).disk, env := s.env, home := s.home }
  let c ← (Config.loadOrDefault source fs.config).mapError Error.load
  let c ← if fs.profile.isEmpty then pure c else (c.withProfile fs.profile).mapError Error.profile
  let c := override c fs
  match c.problems with
  | [] => return c
  | problems => throw (.settings problems)

def openLog (c : Config) : Action Unit := do
  let sink ←
    if c.logLevel ≠ Bytes.ofString "trace" then pure Sink.nowhere
    else if c.logOutput.isEmpty ∨ c.logOutput = Bytes.ofString "stderr" then pure .err
    else if c.logOutput = Bytes.ofString "stdout" then pure .out
    else
      let disk ← ((← get).disk.append c.logOutput []).mapError Error.logFile
      modify fun w => { w with disk }
      pure (.file c.logOutput)
  modify fun w => { w with sink }

/-! ### The store -/

def storeSettings (c : Config) : Store.Settings :=
  { path := c.cachePath
    maxSize := ((Size.parse c.cacheMaxSize).toOption.map Int64.toInt).getD 0 }

def openStore (c : Config) : Action (Except Store.OpenError Store) := do
  let (disk, opened) := Store.openAt (← get).disk (storeSettings c)
  modify fun w => { w with disk }
  return opened

def saveStore (s : Store) : Action Unit :=
  modify fun w => { w with disk := Store.saveAt w.disk s }

/-- Do something with a builder, which has a store when the configuration says so.  A store that
cannot be opened is left out.  The store is put back before a failure is reported. -/
def withBuilder (c : Config) (act : Builder → Action (Option Error × Builder)) : Action Unit := do
  let builder : Builder :=
    { assets := c.assets, target := c.target
      layout := { outDir := c.outDir, extension := c.extension } }
  let error ← do
    if !c.cacheEnabled then pure (← act builder).1
    else match ← openStore c with
      | .ok s =>
        let (error, b) ← act { builder with store := some s }
        saveStore (b.store.getD s)
        pure error
      | .error e =>
        warn ("warning: build cache disabled: " ++ e.message ++ "\n")
        pure (← act builder).1
  match error with
  | some e => throw e
  | none => return

def cache (c : Config) (words : List Bytes) : Action Unit := do
  let clear ←
    if words = [Bytes.ofString "clear"] then pure true
    else if words = [Bytes.ofString "stats"] then pure false
    else throw .cacheUsage
  match ← openStore c with
  | .error e => throw (.openStore e)
  | .ok s =>
    if clear then
      saveStore (← s.clear.mapError Error.store)
      print ("cleared " ++ s.path ++ "\n")
    else
      let stats ← s.stats.mapError Error.store
      print ("path:    " ++ s.path ++ "\nentries: " ++ Bytes.ofNat stats.entries ++
        "\noutputs: " ++ Volume.text stats.outputBytes ++
        "\nstored:  " ++ Volume.text stats.storedBytes ++ "\n")

/-! ### Sources -/

def evaluate (c : Config) (code : Bytes) : Action Unit := do
  let o : Options := { filename := "<eval>", assets := c.assets, target := c.target }
  modify (·.log (o.trace code))
  match o.compile code with
  | .ok text => print (text ++ "\n")
  | .error f =>
    warnOf code (.compile f)
    throw .evaluation

/-- The files that the operands name, directories replaced by the sources below them, and these
directories. -/
def expand : List Bytes → Action (List Bytes × List Bytes)
  | [] => return ([], [])
  | path :: rest => do
    let disk := (← get).disk
    match ← (disk.stat "stat" path).mapError (Error.access path) with
    | .file _ =>
      let (files, roots) ← expand rest
      return (path :: files, roots)
    | .directory =>
      let found ← (Layout.sources disk path).mapError (Error.scan path)
      let (files, roots) ← expand rest
      return (found ++ files, path :: roots)

def eachFile (act : Builder → Bytes → Action (Bool × Builder)) :
    List Bytes → Builder → Action (Nat × Builder)
  | [], b => return (0, b)
  | f :: rest, b => do
    let (ok, b) ← act b f
    let (failed, b) ← eachFile act rest b
    return (if ok then failed else failed + 1, b)

def buildOne (now : Nat) (b : Builder) (source : Bytes) : Action (Bool × Builder) := do
  let (r, b, w) := (← get).build now b source
  set w
  match r.error with
  | some e =>
    warnOf [] e
    return (false, b)
  | none =>
    let mark := if r.cached then Bytes.ofString " (cached)" else []
    print (r.source ++ " -> " ++ r.output ++ mark ++ "\n")
    return (true, b)

def withText (b : Builder) (source : Bytes) (act : Bytes → Action (Bool × Builder)) :
    Action (Bool × Builder) := do
  match (← get).disk.read source with
  | .ok text => act text
  | .error e =>
    warn ("error: " ++ e.message ++ "\n")
    return (false, b)

def printFile (now : Nat) (b : Builder) (source : Bytes) : Action (Bool × Builder) :=
  withText b source fun text => do
    let (out, log, b) := b.transpile now source text
    modify (·.log log)
    match out with
    | .ok out =>
      print (out.text ++ "\n")
      return (true, b)
    | .error f =>
      warnOf text (.compile f)
      return (false, b)

def checkFile (b : Builder) (source : Bytes) : Action (Bool × Builder) :=
  withText b source fun text => do
    let (checked, log) := b.check source text
    modify (·.log log)
    match checked with
    | .ok () =>
      print (source ++ ": OK\n")
      return (true, b)
    | .error f =>
      warnOf text (.compile f)
      return (false, b)

def processFiles (now : Nat) (fs : Flags) (b : Builder) : Action (Option Error × Builder) := do
  let (files, roots) ← expand fs.operands
  if files.isEmpty then throw .noSources
  let b := { b with layout := { b.layout with roots } }
  let act :=
    if fs.check then checkFile else if fs.print then printFile now else buildOne now
  let (failed, b) ← eachFile act files b
  return (if 0 < failed then some (.files failed files.length) else none, b)

/-! ### Directories -/

/-- Build the sources of some directories, begin to watch them, and stop. -/
def watch (now : Nat) (dirs : List Bytes) (b : Builder) : Action (Option Error × Builder) := do
  let w : Watcher := { builder := { b with layout := { b.layout with roots := dirs } }, dirs }
  let (_, w, s) := w.buildAll now (← get)
  let (error, w, s) := w.start s
  set s
  match error with
  | some (dir, e) => return (some (.watch dir e), w.builder)
  | none =>
    print ("[WATCH] stopped after " ++ Bytes.ofNat w.builds ++ " builds (" ++
      Bytes.ofNat w.failures ++ " failed)\n")
    return (none, w.builder)

/-! ### Commands -/

def dispatch (s : Setting) (fs : Flags) (c : Config) : Action Unit := do
  match fs.operands with
  | [] =>
    warn Help.text
    throw .noInput
  | word :: rest =>
    if word = Bytes.ofString "repl" then
      let session : Session := { assets := c.assets, target := c.target }
      print (Dialogue.outputs (Dialogue.run compilerVersion session s.input))
    else if word = Bytes.ofString "cache" then cache c rest
    else if word = Bytes.ofString "watch" then
      withBuilder c (watch s.now (if rest.isEmpty then c.watchDirs else rest))
    else withBuilder c (processFiles s.now fs)

def act (s : Setting) (words : List Bytes) : Action Unit := do
  match Flags.parse words with
  | .error e =>
    warn e.report
    throw (.flags e)
  | .ok fs =>
    if fs.help then print Help.text
    else if fs.version then print ("stxc version " ++ compilerVersion ++ "\n")
    else
      let c ← configure s fs
      openLog c
      if fs.code.isEmpty then dispatch s fs c else evaluate c fs.code

/-- Carry out a command line in a workspace: the error if it fails, and the workspace after it. -/
def run (s : Setting) (w : Workspace) (words : List Bytes) : Option Error × Workspace :=
  match (act s words).run.run w with
  | (.ok (), w) => (none, w)
  | (.error e, w) => (some e, w)

end Command

end Covenant
