import Covenant.Disk
import Covenant.Number.Numeral
import Covenant.Store

/-!
# Stores in files

The file of a store holds a heading and then the fields of the entries in order, each with its
length and a colon before it.
-/

namespace Covenant.Store

/-! ### Contents -/

def heading : Bytes := "stored outputs\n"

def encodeField (s : Bytes) : Bytes :=
  Bytes.ofNat s.length ++ ":" ++ s

def Row.fields (r : Row) : List Bytes :=
  [r.key, r.file, r.output, Bytes.ofNat r.intact.toNat, Bytes.ofNat r.created, Bytes.ofNat r.used]

def encode (rows : List Row) : Bytes :=
  heading ++ (rows.flatMap Row.fields).flatMap encodeField

def decodeField? (s : Bytes) : Option (Bytes × Bytes) := do
  let (length, rest) ← Bytes.cut 58 s
  let n ← Numeral.nat? length
  if n ≤ rest.length then return (rest.take n, rest.drop n) else none

def decodeFields? (s : Bytes) : Option (List Bytes) :=
  if s.isEmpty then some []
  else match decodeField? s with
    | none => none
    | some (f, rest) =>
      if _h : rest.length < s.length then (decodeFields? rest).map (f :: ·) else none
termination_by s.length

def rowsOf? : List Bytes → Option (List Row)
  | [] => some []
  | key :: file :: output :: intact :: created :: used :: rest => do
    let row : Row :=
      { key, file, output, intact := (← Numeral.nat? intact) = 1
        created := ← Numeral.nat? created, used := ← Numeral.nat? used }
    return row :: (← rowsOf? rest)
  | _ => none

def decode? (s : Bytes) : Option (List Row) :=
  if s.isEmpty then some []
  else ((s.stripPrefix? heading).bind decodeFields?).bind rowsOf?

/-! ### Files -/

/-- How a store is set up. -/
structure Settings where
  path : Bytes := []
  maxSize : Int := 0
  /-- The share of the entries that make way; the usual one unless it is a percentage. -/
  share : Int := 0
  deriving DecidableEq, Repr, Inhabited

/-- Why a store cannot be opened. -/
inductive OpenError where
  | noPath
  | directory (e : Disk.Error)
  /-- The path is that of a directory. -/
  | notFile
  /-- The file holds something else. -/
  | notStore
  deriving DecidableEq, Repr, Inhabited

def OpenError.message : OpenError → Bytes
  | noPath => "cache path is required"
  | directory e => "creating cache directory: " ++ e.message
  | notFile => "connecting to cache database: unable to open database file: out of memory (14)"
  | notStore => "connecting to cache database: file is not a database (26)"

def Settings.store (c : Settings) (rows : List Row) : Store :=
  { path := c.path, maxSize := c.maxSize, rows
    share := if 0 < c.share ∧ c.share ≤ 100 then c.share.toNat else 25 }

def saveAt (d : Disk) (s : Store) : Disk :=
  (d.write s.path (encode s.rows)).toOption.getD d

def readAt (d : Disk) (c : Settings) : Except OpenError Store :=
  match d.find c.path with
  | .ok .directory => .error .notFile
  | .ok (.file content) =>
    match decode? content with
    | some rows => .ok (c.store rows)
    | none => .error .notStore
  | .error .missing => .ok (c.store [])
  | .error _ => .error .notFile

/-- Open a store: the disk with its directory and its file, and the store. -/
def openAt (d : Disk) (c : Settings) : Disk × Except OpenError Store :=
  if c.path.isEmpty then (d, .error .noPath)
  else match d.makeDirectories (Path.directory c.path) with
    | .error e => (d, .error (.directory e))
    | .ok d =>
      match readAt d c with
      | .error e => (d, .error e)
      | .ok s => (saveAt d s, .ok s)

end Covenant.Store
