import Covenant.Disk
import Covenant.Text.Case

/-!
# Sources and outputs

Which files are sources, and where their outputs go.
-/

namespace Covenant

/-- Where outputs go. -/
structure Layout where
  /-- The directory for outputs; empty for the directory of the source. -/
  outDir : Bytes := []
  /-- The directories of sources; an output keeps the way down from the deepest one. -/
  roots : List Bytes := []
  /-- The extension of outputs; empty for the usual one. -/
  extension : Bytes := []
  deriving DecidableEq, Repr, Inhabited

namespace Layout

def isSource (p : Bytes) : Bool :=
  (Path.extension p).equalFold ".stx"

/-- The shorter of two ways, the first one when they are of one length. -/
def shorter (best : Option Bytes) (way : Bytes) : Option Bytes :=
  match best with
  | none => some way
  | some b => if way.length < b.length then some way else some b

/-- The way from the deepest root around a source down to its directory. -/
def wayDown (l : Layout) (source : Bytes) : Bytes :=
  let ways := l.roots.filterMap fun root => Path.below? root (Path.directory source)
  (ways.foldl shorter none).getD Path.here

/-- What the names of outputs end in. -/
def suffix (l : Layout) : Bytes :=
  if l.extension.isEmpty then Bytes.ofString ".clar" else l.extension

def outputName (l : Layout) (source : Bytes) : Bytes :=
  (Path.base source).stripSuffix (Path.extension source) ++ l.suffix

def outputPath (l : Layout) (source : Bytes) : Bytes :=
  if l.outDir.isEmpty then Path.join [Path.directory source, l.outputName source]
  else Path.join [l.outDir, l.wayDown source, l.outputName source]

/-! ### Finding sources -/

def isHidden (name : Bytes) : Bool :=
  name.head? == some 46

/-- The sources below a directory, those in hidden directories left out. -/
def sourcesUnder (d : Disk) (root : Bytes) (place : Place) : List Bytes :=
  (d.under place).filterMap fun (way, e) =>
    let p := Path.join (root :: way)
    if e ≠ .directory && !way.dropLast.any isHidden && isSource p then some p else none

def sources (d : Disk) (root : Bytes) : Except Disk.Error (List Bytes) := do
  match ← d.stat "lstat" root with
  | .file _ => return if isSource root then [root] else []
  | .directory =>
    let place ← (d.locate root).mapError (⟨"lstat", root, ·⟩)
    return sourcesUnder d root place

end Layout

end Covenant
