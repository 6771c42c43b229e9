import Covenant.Command

/-!
# The program

The outer layer: it brings the files that a command may look at from the real disk, carries out
the command, and takes back what has changed.
-/

namespace Covenant.Main

def pack (b : Bytes) : ByteArray :=
  ⟨b.toArray⟩

def string (b : Bytes) : String :=
  b.toString?.getD (String.ofList (b.map fun x => Char.ofNat x.toNat))

def pathOf (place : Place) : String :=
  string (Path.ofSteps true place)

/-- The disk with what is really at a place and below it. -/
partial def bring (d : Disk) (place : Place) : IO Disk := do
  let path := (← IO.currentDir) / pathOf place
  if ← path.isDir then
    let entries ← path.readDir
    entries.toList.foldlM (fun d e => bring d (place ++ [Bytes.ofString e.fileName]))
      (d.put place .directory)
  else if ← path.pathExists then
    let content ← IO.FS.readBinFile path
    return d.put place (.file content.data.toList)
  else return d

/-- The disk with what is really at a path, and the directories on the way to it. -/
def bringPath (d : Disk) (p : Bytes) : IO Disk := do
  let steps := Path.steps (d.absolute p)
  let d := (Disk.stations steps.dropLast).foldl
    (fun d place => if (d.entry? place).isSome then d else d.put place .directory) d
  if (d.entry? steps).isSome then return d else bring d steps

def takeBack (old new : Disk) : IO Unit := do
  for (place, e) in new.entries do
    if old.entry? place ≠ some e then
      match e with
      | .directory => IO.FS.createDirAll (pathOf place)
      | .file content => IO.FS.writeBinFile (pathOf place) (pack content)

def envValue (name : Bytes) : IO Bytes := do
  return Bytes.ofString ((← IO.getEnv (string name)).getD "")

def envValues (d : Disk) (home : Bytes) (words : List Bytes) : IO (List (Bytes × Bytes)) := do
  let config := Bytes.ofString "STXC_CONFIG"
  let value ← envValue config
  let env : Environment := fun n => if n = config then value else []
  let source : Config.Source := { disk := d, env, home }
  let path := ((Flags.parse words).toOption.map Flags.config).getD []
  let text := do
    let file ← (Config.findFile source path).toOption
    (d.read file).toOption
  let names := config :: Placeholder.names (text.getD [])
  names.mapM fun n => return (n, ← envValue n)

end Covenant.Main

open Covenant in
def main (args : List String) : IO UInt32 := do
  let words := args.map Bytes.ofString
  let cwd := Path.steps (Bytes.ofString (← IO.currentDir).toString)
  let home ← Main.envValue "HOME"
  let named := words.map fun w => ((Bytes.cut 61 w).map Prod.snd).getD w
  let files := [Path.here, Path.join [home, ".config", "stxc", "stxc.yaml"],
    ← Main.envValue "STXC_CONFIG"] ++ named.filter fun w => w.head? ≠ some 45
  let disk ← (files.filter fun p => !p.isEmpty).foldlM Main.bringPath { cwd }
  let values ← Main.envValues disk home words
  let input ←
    if words.contains (Bytes.ofString "repl") then (← IO.getStdin).readToEnd else pure ""
  let setting : Setting :=
    { env := fun n => (values.lookup n).getD [], home, input := Bytes.ofString input
      now := (← IO.monoMsNow) / 1000 }
  let (error, w) := Command.run setting { disk } words
  Main.takeBack disk w.disk
  (← IO.getStdout).write (Main.pack w.out)
  (← IO.getStderr).write (Main.pack w.err)
  match error with
  | none => return 0
  | some e =>
    (← IO.getStderr).write (Main.pack ("error: " ++ e.message ++ "\n"))
    return 1
