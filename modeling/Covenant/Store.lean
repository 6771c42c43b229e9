import Covenant.Digest.Sha256

/-!
# Stores of outputs

A store keeps the outputs of sources under keys, so that a source which does not change is not
compiled again.  When it takes up too much room, the entries that have not been used for the
longest time make way.

Times are given by the caller and only compared; so is the room that a store takes up.
-/

namespace Covenant

/-- An output that is kept. -/
structure Store.Row where
  key : Bytes
  file : Bytes
  output : Bytes
  intact : Bool := true
  created : Nat
  used : Nat
  deriving DecidableEq, Repr, Inhabited

/-- Outputs under keys. -/
structure Store where
  path : Bytes := []
  /-- The room that may be taken up; without limit unless positive. -/
  maxSize : Int := 0
  /-- The share of the entries that make way at a time, in percent. -/
  share : Nat := 25
  isOpen : Bool := true
  /-- The entries, in the order in which their keys were first put. -/
  rows : List Store.Row := []
  deriving DecidableEq, Repr, Inhabited

namespace Store

/-! ### Keys -/

def terminated (parts : List Bytes) : Bytes :=
  parts.flatMap fun p => p ++ [0]

/-- The key of a source under a version of the compiler, a target and some assets, whose order does
not matter. -/
def key (version target : Bytes) (assets : List Bytes) (source : Bytes) : Bytes :=
  Sha256.hex (terminated [version, target, Bytes.join "," (Bytes.sort assets), source])

/-! ### Errors -/

/-- What goes wrong with a store. -/
inductive Cause where
  | closed
  /-- An empty output cannot be kept. -/
  | emptyOutput
  /-- The room that is taken up cannot be told. -/
  | unmeasured (reason : Bytes)
  deriving DecidableEq, Repr, Inhabited

def Cause.message : Cause → Bytes
  | closed => "sql: database is closed"
  | emptyOutput => "constraint failed: NOT NULL constraint failed: outputs.output (1299)"
  | unmeasured reason => reason

/-- An operation that failed. -/
inductive Error where
  | read (c : Cause)
  | stats (c : Cause)
  | clear (c : Cause)
  | prune (c : Cause)
  | write (c : Cause)
  deriving DecidableEq, Repr, Inhabited

def Error.message : Error → Bytes
  | read c => "reading cache entry: " ++ c.message
  | stats c => "reading cache stats: " ++ c.message
  | clear c => "clearing cache: " ++ c.message
  | prune c => "pruning cache: " ++ c.message
  | write c => "writing cache entry: " ++ c.message

def report (es : List Error) : Bytes :=
  Bytes.join "\n" (es.map Error.message)

/-! ### Entries -/

def row? (s : Store) (key : Bytes) : Option Row :=
  s.rows.find? fun r => r.key = key

def erase (s : Store) (key : Bytes) : Store :=
  { s with rows := s.rows.filter fun r => r.key ≠ key }

/-- The output of a key, which is then used at the time `now`.  An entry that cannot be read is
dropped. -/
def get (s : Store) (now : Nat) (key : Bytes) : Except Error (Option Bytes) × Store :=
  if !s.isOpen then (.error (.read .closed), s)
  else match s.row? key with
    | none => (.ok none, s)
    | some r =>
      if r.intact then
        (.ok (some r.output),
          { s with rows := s.rows.map fun r => if r.key = key then { r with used := now } else r })
      else (.ok none, s.erase key)

/-- The first entry goes before the second when room is made: it was used earlier, or put
earlier. -/
def older (r t : Row) : Bool :=
  if r.used = t.used then r.created ≤ t.created else r.used < t.used

def quota (s : Store) : Nat :=
  if s.rows.isEmpty then 0 else max (s.rows.length * s.share / 100) 1

def victims (s : Store) : List Bytes :=
  ((s.rows.mergeSort older).take s.quota).map Row.key

/-- The store has reached its limit, given the room that it takes up. -/
def isFull (s : Store) (size : Int) : Bool :=
  0 < s.maxSize && s.maxSize ≤ size

def prune (s : Store) (size : Int) : Except Error Store :=
  if !s.isFull size then .ok s
  else if !s.isOpen then .error (.prune .closed)
  else .ok { s with rows := s.rows.filter fun r => !s.victims.contains r.key }

/-- Make way if need be.  A store without a limit does not ask for the room that it takes up. -/
def makeWay (s : Store) (size : Except Cause Int) : Except Error Store :=
  match size with
  | .ok n => s.prune n
  | .error c => if 0 < s.maxSize then .error (.prune c) else .ok s

/-- The entry under its key; a key that is there keeps its place and the time of its first put. -/
def insert (s : Store) (row : Row) : Store :=
  match s.row? row.key with
  | none => { s with rows := s.rows ++ [row] }
  | some old =>
    let row := { row with created := old.created }
    { s with rows := s.rows.map fun r => if r.key = row.key then row else r }

def write (s : Store) (now : Nat) (key file output : Bytes) : Except Error Store :=
  if !s.isOpen then .error (.write .closed)
  else if output.isEmpty then .error (.write .emptyOutput)
  else .ok (s.insert { key, file, output, created := now, used := now })

/-- Make way if need be and keep an output.  Neither failure stands in the way of the other
step. -/
def put (s : Store) (now : Nat) (size : Except Cause Int) (key file output : Bytes) :
    List Error × Store :=
  let (pruneErrors, s) := match s.makeWay size with
    | .ok s' => ([], s')
    | .error e => ([e], s)
  match s.write now key file output with
  | .ok s' => (pruneErrors, s')
  | .error e => (pruneErrors ++ [e], s)

def clear (s : Store) : Except Error Store :=
  if s.isOpen then .ok { s with rows := [] } else .error (.clear .closed)

def corrupt (s : Store) (key : Bytes) : Except Cause Store :=
  if s.isOpen then
    .ok { s with
      rows := s.rows.map fun r => if r.key = key then { r with intact := false } else r }
  else .error .closed

def close (s : Store) : Store :=
  { s with isOpen := false }

def reopen (s : Store) : Store :=
  { s with isOpen := true }

/-! ### Sums -/

/-- How much a store holds. -/
structure Stats where
  entries : Nat := 0
  outputBytes : Nat := 0
  /-- The bytes that the outputs are kept as. -/
  storedBytes : Nat := 0
  deriving DecidableEq, Repr, Inhabited

/-- How much a store holds, given how many bytes an output is kept as. -/
def stats (s : Store) (payload : Bytes → Nat := List.length) : Except Error Stats :=
  if s.isOpen then
    .ok
      { entries := s.rows.length
        outputBytes := (s.rows.map fun r => r.output.length).foldr (· + ·) 0
        storedBytes := (s.rows.map fun r => payload r.output).foldr (· + ·) 0 }
  else .error (.stats .closed)

/-- The room that a store takes up where nothing measures it: four pages, and the outputs. -/
def footprint (s : Store) : Int :=
  16384 + ((s.rows.map fun r => r.output.length).foldr (· + ·) 0 : Nat)

end Store

end Covenant
