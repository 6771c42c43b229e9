import Covenant.Config.Decode
import Covenant.Config.Placeholder
import Covenant.Disk

/-!
# Configuration files

Where a configuration comes from: a file that is named on demand, the file that the environment
names, a file in the working directory, or one in the home directory.
-/

namespace Covenant.Config

/-- Why no configuration was loaded. -/
inductive LoadError where
  /-- There is no such file. -/
  | missing (path : Bytes)
  /-- There is no file as the environment says. -/
  | missingFromEnvironment (path : Bytes)
  /-- There is no file at all. -/
  | notFound
  | read (e : Disk.Error)
  /-- The file is no document of the right form. -/
  | parse
  | invalid (problems : List Problem)
  deriving Repr, Inhabited

def LoadError.message : LoadError → Bytes
  | missing path => "config file not found: " ++ path
  | missingFromEnvironment path => "STXC_CONFIG file not found: " ++ path
  | notFound => "no config file found (tried STXC_CONFIG, stxc.yaml, ~/.config/stxc/stxc.yaml)"
  | read e => "failed to read config: " ++ e.message
  | parse => "failed to parse config: malformed document"
  | invalid problems => report problems

/-- What a configuration is loaded from. -/
structure Source where
  disk : Disk
  env : Environment
  home : Bytes

def findFile (s : Source) (path : Bytes) : Except LoadError Bytes :=
  let fromEnv := s.env "STXC_CONFIG"
  let atHome := Path.join [s.home, ".config", "stxc", "stxc.yaml"]
  if !path.isEmpty then
    if s.disk.contains path then .ok path else .error (.missing path)
  else if !fromEnv.isEmpty then
    if s.disk.contains fromEnv then .ok fromEnv else .error (.missingFromEnvironment fromEnv)
  else if s.disk.contains "stxc.yaml" then .ok "stxc.yaml"
  else if s.disk.contains atHome then .ok atHome
  else .error .notFound

def basedAt (c : Config) (directory : Bytes) : Config :=
  { c with
    baseDir := directory
    outDir := if c.outDir.isEmpty then [] else Path.resolve directory c.outDir
    cachePath := if c.cachePath.isEmpty then [] else Path.resolve directory c.cachePath
    watchDirs := c.watchDirs.map (Path.resolve directory) }

/-- The configuration of a file, and the path of the file from the root. -/
def load (s : Source) (path : Bytes) : Except LoadError (Config × Bytes) := do
  let path ← findFile s path
  let absolute := s.disk.absolute path
  let text ← (s.disk.read path).mapError .read
  match decode? (Placeholder.fill s.env text) with
  | none => throw .parse
  | some c =>
    let c := c.basedAt (Path.directory absolute)
    match c.problems with
    | [] => return (c, absolute)
    | problems => throw (.invalid problems)

/-- The configuration of a file, or the default one when there is no file. -/
def loadOrDefault (s : Source) (path : Bytes) : Except LoadError Config :=
  match load s path with
  | .ok (c, _) => .ok c
  | .error .notFound => .ok {}
  | .error e => .error e

end Covenant.Config
