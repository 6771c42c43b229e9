import Covenant.Config
import Covenant.Yaml

/-!
# Configurations as documents

A document sets the fields of a configuration that it names; other names are ignored.  A node
without a value leaves a field as it is, except for lists, which become empty.
-/

namespace Covenant

namespace Yaml.Node

/-- The pairs of a mapping whose keys are distinct texts; pairs without a key do not count. -/
def entries? : Node → Option (List (Bytes × Node))
  | .mapping pairs =>
    let keys? := pairs.mapM fun (k, v) =>
      match k with
      | .scalar _ text => some (text, k.isNull, v)
      | _ => none
    keys?.bind fun keys =>
      if (keys.map Prod.fst).Nodup then
        some (keys.filterMap fun (text, isNull, v) => if isNull then none else some (text, v))
      else none
  | _ => none

def decodeFields? {α : Type} (set : α → Bytes → Node → Option α) (x : α) (n : Node) : Option α :=
  if n.isNull then some x
  else n.entries?.bind fun entries => entries.foldlM (fun x (k, v) => set x k v) x

def decodeText? (old : Bytes) (n : Node) : Option Bytes :=
  if n.isNull then some old
  else match n with
    | .scalar _ text => some text
    | _ => none

def plainTruth : List (Bytes × Bool) :=
  [("true", true), ("True", true), ("TRUE", true), ("false", false), ("False", false),
   ("FALSE", false)]

def truth : List (Bytes × Bool) :=
  let yes : List String := ["y", "Y", "yes", "Yes", "YES", "on", "On", "ON"]
  let no : List String := ["n", "N", "no", "No", "NO", "off", "Off", "OFF"]
  yes.map (Bytes.ofString ·, true) ++ no.map (Bytes.ofString ·, false)

def decodeBool? (old : Bool) (n : Node) : Option Bool :=
  if n.isNull then some old
  else match n with
    | .scalar quoted text =>
      (if quoted then none else plainTruth.lookup text) <|> truth.lookup text
    | _ => none

/-- A duration over an old one.  A bare zero is a number and no duration. -/
def decodeDuration? (old : Duration) (n : Node) : Option Duration :=
  if n.isNull then some old
  else match n with
    | .scalar quoted text =>
      if !quoted && (Numeral.int? text).isSome then none else Duration.parse? text
    | _ => none

/-- A list of texts, or a single one.  Items without a value are left out. -/
def decodeTexts? (n : Node) : Option (List Bytes) :=
  if n.isNull then some []
  else match n with
    | .scalar _ text => some [text]
    | .sequence items => (items.filter fun i => !i.isNull).mapM (decodeText? [])
    | .mapping _ => none

end Yaml.Node

def Profile.set? (p : Profile) (name : Bytes) (n : Yaml.Node) : Option Profile :=
  match name.toString? with
  | some "target" => (n.decodeText? p.target).map ({ p with target := · })
  | some "out_dir" => (n.decodeText? p.outDir).map ({ p with outDir := · })
  | some "assets" => n.decodeTexts?.map ({ p with assets := · })
  | _ => some p

namespace Config

def setTarget? (c : Config) (name : Bytes) (n : Yaml.Node) : Option Config :=
  match name.toString? with
  | some "clarity" => (n.decodeText? c.target).map ({ c with target := · })
  | _ => some c

def setBuild? (c : Config) (name : Bytes) (n : Yaml.Node) : Option Config :=
  match name.toString? with
  | some "out_dir" => (n.decodeText? c.outDir).map ({ c with outDir := · })
  | some "extension" => (n.decodeText? c.extension).map ({ c with extension := · })
  | _ => some c

def setCache? (c : Config) (name : Bytes) (n : Yaml.Node) : Option Config :=
  match name.toString? with
  | some "enabled" => (n.decodeBool? c.cacheEnabled).map ({ c with cacheEnabled := · })
  | some "path" => (n.decodeText? c.cachePath).map ({ c with cachePath := · })
  | some "max_size" => (n.decodeText? c.cacheMaxSize).map ({ c with cacheMaxSize := · })
  | _ => some c

def setWatch? (c : Config) (name : Bytes) (n : Yaml.Node) : Option Config :=
  match name.toString? with
  | some "dirs" => n.decodeTexts?.map ({ c with watchDirs := · })
  | some "debounce" => (n.decodeDuration? c.debounce).map ({ c with debounce := · })
  | _ => some c

def setLogging? (c : Config) (name : Bytes) (n : Yaml.Node) : Option Config :=
  match name.toString? with
  | some "level" => (n.decodeText? c.logLevel).map ({ c with logLevel := · })
  | some "output" => (n.decodeText? c.logOutput).map ({ c with logOutput := · })
  | _ => some c

def decodeProfiles? (n : Yaml.Node) : Option (Option (List (Bytes × Profile))) :=
  if n.isNull then some none
  else n.entries?.bind fun entries =>
    (entries.mapM fun (e : Bytes × Yaml.Node) =>
      (Yaml.Node.decodeFields? Profile.set? {} e.2).map (e.1, ·)).map some

def set? (c : Config) (name : Bytes) (n : Yaml.Node) : Option Config :=
  match name.toString? with
  | some "target" => n.decodeFields? setTarget? c
  | some "assets" => n.decodeTexts?.map ({ c with assets := · })
  | some "build" => n.decodeFields? setBuild? c
  | some "cache" => n.decodeFields? setCache? c
  | some "watch" => n.decodeFields? setWatch? c
  | some "logging" => n.decodeFields? setLogging? c
  | some "profiles" => (decodeProfiles? n).map ({ c with profiles := · })
  | _ => some c

def decode? (text : Bytes) : Option Config :=
  (Yaml.parse? text).bind fun n => n.decodeFields? set? {}

end Config

end Covenant
