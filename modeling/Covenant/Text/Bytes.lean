/-!
# Byte strings

Everything the compiler reads and writes is a byte string: a source may hold bytes that are no
UTF-8, and such bytes pass unchanged into literals, messages and output.  A string constant of
this library stands for its UTF-8 encoding.
-/

namespace Covenant

abbrev Bytes := List UInt8

namespace Bytes

def ofString (s : String) : Bytes :=
  s.toByteArray.data.toList

instance : Coe String Bytes := ⟨ofString⟩

def ofChar (c : Char) : Bytes :=
  String.utf8EncodeChar c

def ofNat (n : Nat) : Bytes :=
  ofString (toString n)

def ofInt (i : Int) : Bytes :=
  ofString (toString i)

def join (sep : Bytes) : List Bytes → Bytes
  | [] => []
  | [x] => x
  | x :: y :: rest => x ++ sep ++ join sep (y :: rest)

/-- The pieces between the occurrences of the byte `sep`; there is always at least one. -/
def splitOn (sep : UInt8) : Bytes → List Bytes
  | [] => [[]]
  | b :: rest =>
    if b = sep then [] :: splitOn sep rest
    else match splitOn sep rest with
      | [] => [[b]]
      | piece :: pieces => (b :: piece) :: pieces

def stripPrefix? : (s p : Bytes) → Option Bytes
  | s, [] => some s
  | [], _ :: _ => none
  | b :: s, a :: p => if a = b then stripPrefix? s p else none

def stripPrefix (s p : Bytes) : Bytes :=
  (stripPrefix? s p).getD s

def stripSuffix (s p : Bytes) : Bytes :=
  match stripPrefix? s.reverse p.reverse with
  | some front => front.reverse
  | none => s

def hasPrefix (s p : Bytes) : Bool :=
  (stripPrefix? s p).isSome

def hasSuffix (s p : Bytes) : Bool :=
  (stripPrefix? s.reverse p.reverse).isSome

def replicate (n : Nat) (s : Bytes) : Bytes :=
  (List.replicate n s).flatten

/-- What stands before and after the first byte `sep`, when there is one. -/
def cut (sep : UInt8) : Bytes → Option (Bytes × Bytes)
  | [] => none
  | b :: rest =>
    if b = sep then some ([], rest)
    else (cut sep rest).map fun (front, back) => (b :: front, back)

/-- Every occurrence of the byte string `old`, taken from the left, becomes `new`. -/
def replaceAll (s old new : Bytes) : Bytes :=
  go 0 s
where
  /-- The first `skip` bytes belong to an occurrence that is already replaced. -/
  go : Nat → Bytes → Bytes
    | _, [] => []
    | skip + 1, _ :: rest => go skip rest
    | 0, b :: rest =>
      if old ≠ [] ∧ hasPrefix (b :: rest) old then new ++ go (old.length - 1) rest
      else b :: go 0 rest

def ble : (s t : Bytes) → Bool
  | [], _ => true
  | _ :: _, [] => false
  | a :: s, b :: t => if a < b then true else if b < a then false else ble s t

def sort (xs : List Bytes) : List Bytes :=
  xs.mergeSort ble

end Bytes

end Covenant
