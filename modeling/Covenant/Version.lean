import Covenant.Number.Numeral
import Covenant.Text.Quoted

/-!
# Versions

Semantic versions: up to three numbers, a pre-release tag and build metadata.  Numbers that are
left out are zero, and a `v` may stand in front.
-/

namespace Covenant

/-- A semantic version. -/
structure Version where
  major : Nat
  minor : Nat := 0
  patch : Nat := 0
  pre : Bytes := []
  metadata : Bytes := []
  deriving DecidableEq, Repr, Inhabited

namespace Version

/-- Why a text is no version. -/
inductive Error where
  /-- It has not the shape of one. -/
  | malformed
  /-- A number is too large. -/
  | outOfRange (segment : Bytes)
  /-- A number of the pre-release tag has a zero in front. -/
  | leadingZero
  deriving DecidableEq, Repr, Inhabited

def Error.message : Error → Bytes
  | malformed => "Invalid Semantic Version"
  | outOfRange segment =>
    "Error parsing version segment: strconv.ParseUint: parsing " ++ Quoted.encode segment ++
      ": value out of range"
  | leadingZero => "Version segment starts with 0"

def text (v : Version) : Bytes :=
  Bytes.ofNat v.major ++ "." ++ Bytes.ofNat v.minor ++ "." ++ Bytes.ofNat v.patch ++
    (if v.pre.isEmpty then [] else Bytes.ofString "-" ++ v.pre) ++
    (if v.metadata.isEmpty then [] else Bytes.ofString "+" ++ v.metadata)

/-! ### Reading -/

def isTagByte (b : UInt8) : Bool :=
  (48 ≤ b && b ≤ 57) || (65 ≤ b && b ≤ 90) || (97 ≤ b && b ≤ 122) || b == 45

def isDigitByte (b : UInt8) : Bool :=
  48 ≤ b && b ≤ 57

def isTag (s : Bytes) : Bool :=
  (s.splitOn 46).all fun part => !part.isEmpty && part.all isTagByte

def segments? (s : Bytes) : Option (List Bytes) :=
  let parts := s.splitOn 46
  if parts.length ≤ 3 && parts.all (fun p => !p.isEmpty && p.all isDigitByte) then some parts
  else none

/-- The version cut into numbers, tag and metadata; a tag that is present is not empty. -/
def cutParts (s : Bytes) : Bytes × Option Bytes × Option Bytes :=
  let (front, metadata) := match s.cut 43 with
    | some (front, back) => (front, some back)
    | none => (s, none)
  match front.cut 45 with
  | some (numbers, pre) => (numbers, some pre, metadata)
  | none => (front, none, metadata)

def segment (s : Bytes) : Except Error Nat :=
  let n := (Numeral.nat? s).getD 0
  if n < Nat.pow 2 64 then .ok n else .error (.outOfRange s)

def hasLeadingZero (part : Bytes) : Bool :=
  part.all isDigitByte && 1 < part.length && part.head? == some 48

def parse (s : Bytes) : Except Error Version := do
  let (numbers, pre, metadata) := cutParts (s.stripPrefix "v")
  match segments? numbers, pre.all isTag, metadata.all isTag with
  | some parts, true, true =>
    let numbers ← parts.mapM segment
    let pre := pre.getD []
    if !pre.isEmpty && (pre.splitOn 46).any hasLeadingZero then throw .leadingZero
    return { major := numbers.getD 0 0, minor := numbers.getD 1 0, patch := numbers.getD 2 0,
             pre, metadata := metadata.getD [] }
  | _, _, _ => throw .malformed

/-! ### Order -/

/-- The version comes before a release: by its numbers, or as a pre-release of it. -/
def isBefore (v release : Version) : Bool :=
  if v.major ≠ release.major then v.major < release.major
  else if v.minor ≠ release.minor then v.minor < release.minor
  else if v.patch ≠ release.patch then v.patch < release.patch
  else !v.pre.isEmpty

end Version

/-! ### Targets: the versions of Clarity that code is generated for -/

def Target.default : Version :=
  { major := 2 }

/-- A text that names no version, and why. -/
structure Target.Error where
  text : Bytes
  reason : Version.Error
  deriving DecidableEq, Repr, Inhabited

def Target.Error.message (e : Error) : Bytes :=
  "invalid Clarity target " ++ Quoted.encode e.text ++ ": " ++ e.reason.message

def Target.parse (s : Bytes) : Except Error Version :=
  if s.isEmpty then .ok default
  else match Version.parse s with
    | .ok v => .ok v
    | .error reason => .error ⟨s, reason⟩

end Covenant
