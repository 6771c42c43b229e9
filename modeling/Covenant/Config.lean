import Covenant.Config.Duration
import Covenant.Config.Size
import Covenant.Disk.Path
import Covenant.Version

/-!
# Configurations

The settings of the compiler, what is wrong with them, and the named profiles that change them.
-/

namespace Covenant

/-- Settings with a name, put over the others on demand.  Empty ones change nothing. -/
structure Profile where
  target : Bytes := []
  outDir : Bytes := []
  assets : List Bytes := []
  deriving DecidableEq, Repr, Inhabited

/-- The settings of the compiler. -/
structure Config where
  /-- The directory that paths of profiles are seen from. -/
  baseDir : Bytes := []
  target : Bytes := "2.0.0"
  assets : List Bytes := []
  /-- The directory for outputs; empty for the directory of the source. -/
  outDir : Bytes := []
  extension : Bytes := ".clar"
  /-- Outputs are kept for sources that do not change. -/
  cacheEnabled : Bool := true
  cachePath : Bytes := ".stxc/cache.db"
  cacheMaxSize : Bytes := "64MB"
  watchDirs : List Bytes := [Bytes.ofString "."]
  /-- How long a watched directory has to be quiet before sources are built. -/
  debounce : Duration := .ofMilliseconds 100
  logLevel : Bytes := "info"
  logOutput : Bytes := "stderr"
  profiles : Option (List (Bytes × Profile)) := none
  deriving DecidableEq, Repr, Inhabited

namespace Config

/-! ### Validity -/

/-- Something wrong with a configuration. -/
inductive Problem where
  | target (text : Bytes)
  | extension (text : Bytes)
  | cachePath
  | cacheMaxSize (e : Size.Error)
  | debounce (d : Duration)
  | logLevel (text : Bytes)
  | profileTarget (name text : Bytes)
  deriving DecidableEq, Repr, Inhabited

def Problem.message : Problem → Bytes
  | target text =>
    "invalid target.clarity: " ++ Quoted.encode text ++ " (must be a version like 2.0.0)"
  | extension text =>
    "invalid build.extension: " ++ Quoted.encode text ++ " (must start with '.')"
  | cachePath => "cache.path is required when the cache is enabled"
  | cacheMaxSize e => "invalid cache.max_size: " ++ e.message
  | debounce d => "invalid watch.debounce: " ++ d.text ++ " (must not be negative)"
  | logLevel text => "invalid log level: " ++ text ++ " (must be info or trace)"
  | profileTarget name text =>
    "profiles." ++ name ++ ": invalid target " ++ Quoted.encode text

def isVersion (text : Bytes) : Bool :=
  (Version.parse text).toOption.isSome

/-- The profiles that name a target which is no version, in the order of their messages. -/
def profileProblems (c : Config) : List Problem :=
  let bad := (c.profiles.getD []).filter fun (_, p) => !p.target.isEmpty && !isVersion p.target
  (bad.map fun (name, p) => Problem.profileTarget name p.target).mergeSort
    fun p q => p.message.ble q.message

def problems (c : Config) : List Problem :=
  (if isVersion c.target then [] else [Problem.target c.target]) ++
  (if c.extension.isEmpty || c.extension.hasPrefix "." then [] else
  [Problem.extension c.extension]) ++
  (if c.cacheEnabled && c.cachePath.isEmpty then [Problem.cachePath] else []) ++
  (match Size.parse c.cacheMaxSize with
    | .ok _ => []
    | .error e => [Problem.cacheMaxSize e]) ++
  (if c.debounce.isNegative then [Problem.debounce c.debounce] else []) ++
  (if c.logLevel = Bytes.ofString "info" ∨ c.logLevel = Bytes.ofString "trace" then []
    else [Problem.logLevel c.logLevel]) ++
  c.profileProblems

def report (ps : List Problem) : Bytes :=
  "configuration errors:\n  - " ++ Bytes.join "\n  - " (ps.map Problem.message)

/-! ### Profiles -/

/-- Why there is no such profile. -/
inductive ProfileError where
  | noProfiles
  | unknown (name : Bytes) (available : List Bytes)
  deriving DecidableEq, Repr, Inhabited

def ProfileError.message : ProfileError → Bytes
  | noProfiles => "no profiles defined in config"
  | unknown name available =>
    "unknown profile " ++ Quoted.encode name ++ " (available: " ++ Bytes.join ", " available ++ ")"

/-- The configuration with more assets; those it has already are not added again. -/
def addAssets (c : Config) (names : List Bytes) : Config :=
  { c with assets := names.foldl (fun as a => if as.contains a then as else as ++ [a]) c.assets }

def apply (c : Config) (p : Profile) : Config :=
  addAssets
    { c with
      target := if p.target.isEmpty then c.target else p.target
      outDir := if p.outDir.isEmpty then c.outDir else Path.resolve c.baseDir p.outDir }
    p.assets

def withProfile (c : Config) (name : Bytes) : Except ProfileError Config :=
  match c.profiles with
  | none => .error .noProfiles
  | some ps =>
    match ps.lookup name with
    | some p => .ok (c.apply p)
    | none => .error (.unknown name (Bytes.sort (ps.map Prod.fst)))

end Config

end Covenant
