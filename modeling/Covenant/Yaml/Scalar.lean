import Covenant.Number.Numeral
import Covenant.Yaml.Line

/-!
# Scalars of a document

Plain and quoted text.  Each function returns the text and the lines that are left, the first of
which is the rest of the line where the text ends.  Text that goes over several lines is folded:
one line end is a space, and of several all but one stay.
-/

namespace Covenant.Yaml

def fold (breaks : Nat) : Bytes :=
  if breaks = 1 then [32] else List.replicate (breaks - 1) 10

/-! ### Plain text -/

def isFlowMark (b : UInt8) : Bool :=
  [44, 63, 91, 93, 123, 125].contains b

def isIndicator (b : UInt8) : Bool :=
  [45, 63, 58, 44, 91, 93, 123, 125, 35, 38, 42, 33, 124, 62, 39, 34, 37, 64, 96].contains b

def startsPlain (flow : Bool) : Bytes → Bool
  | [] => false
  | b :: rest =>
    if isBlank b then false
    else if !isIndicator b then true
    else if b = 45 then !rest.head?.any isBlank
    else !flow && (b == 63 || b == 58) && !startsBlank rest

def endsPlain (flow afterBlank : Bool) : Bytes → Bool
  | [] => true
  | b :: rest =>
    (b == 35 && afterBlank) || (b == 58 && startsBlank rest) || (flow && isFlowMark b)

/-- The plain text at the start of a line, with the blanks behind it, and the rest. -/
def plainRun (flow : Bool) : (afterBlank : Bool) → Bytes → Bytes × Bytes
  | _, [] => ([], [])
  | afterBlank, b :: rest =>
    if endsPlain flow afterBlank (b :: rest) then ([], b :: rest)
    else
      let (text, left) := plainRun flow (isBlank b) rest
      (b :: text, left)

/-- The plain text at the start of a line, and what is left of the line. -/
def plainPiece (flow : Bool) (l : Line) : Bytes × Line :=
  let (run, _) := plainRun flow false l.text
  ((run.reverse.dropWhile isBlank).reverse, l.drop run.length)

/-- Plain text that goes on in the lines below, after `breaks` line ends.  Outside brackets it
stands further right than `indent`. -/
def plainMore (flow : Bool) (indent : Int) : (breaks : Nat) → List Line → Bytes × List Line
  | _, [] => ([], [])
  | breaks, l :: rest =>
    let start := l.dropBlanks
    if start.text.isEmpty then plainMore flow indent (breaks + 1) rest
    else if (!flow && (l.column : Int) ≤ indent) || endsPlain flow true start.text then
      ([], {} :: l :: rest)
    else
      let (piece, left) := plainPiece flow start
      if left.text.isEmpty then
        let (more, rest) := plainMore flow indent 1 rest
        (fold breaks ++ piece ++ more, rest)
      else (fold breaks ++ piece, left :: rest)

def plain (flow : Bool) (indent : Int) (l : Line) (rest : List Line) : Bytes × List Line :=
  let (piece, left) := plainPiece flow l
  if left.text.isEmpty then
    let (more, rest) := plainMore flow indent 1 rest
    (piece ++ more, rest)
  else (piece, left :: rest)

/-! ### Quoted text -/

/-- How a line of quoted text ends. -/
inductive QuoteEnd where
  /-- The quote is closed, and this follows. -/
  | closed (rest : Bytes)
  /-- The text goes on in the next line. -/
  | broken
  /-- The text goes on in the next line without a space between. -/
  | joined

/-- A line of text in single quotes, where a quote is written twice.  Blanks at the end of the
line, which are held in `held`, do not count. -/
def singleLine : (held : Bytes) → Bytes → Bytes × QuoteEnd
  | _, [] => ([], .broken)
  | held, 39 :: 39 :: rest =>
    let (text, e) := singleLine [] rest
    (held ++ 39 :: text, e)
  | held, b :: rest =>
    if b = 39 then (held, .closed rest)
    else if isBlank b then singleLine (held ++ [b]) rest
    else
      let (text, e) := singleLine [] rest
      (held ++ b :: text, e)

def hexValue? (s : Bytes) : Option Nat :=
  s.foldl (fun n b => n.bind fun n => (Numeral.hexDigit? b).map (16 * n + ·)) (some 0)

/-- The character of a numeric escape with `width` digits, and the number of digits. -/
def hexEscape? (width : Nat) (s : Bytes) : Option (Bytes × Nat) :=
  if s.length < width then none
  else (hexValue? (s.take width)).bind fun n =>
    if n.isValidChar then some (Bytes.ofChar (Char.ofNat n), width) else none

/-- The meaning of what follows a backslash, and how many bytes that is. -/
def escape? : Bytes → Option (Bytes × Nat)
  | [] => none
  | b :: rest =>
    match b with
    | 48 => some ([0], 1)
    | 97 => some ([7], 1)
    | 98 => some ([8], 1)
    | 116 => some ([9], 1)
    | 9 => some ([9], 1)
    | 110 => some ([10], 1)
    | 118 => some ([11], 1)
    | 102 => some ([12], 1)
    | 114 => some ([13], 1)
    | 101 => some ([27], 1)
    | 32 => some ([32], 1)
    | 34 => some ([34], 1)
    | 39 => some ([39], 1)
    | 47 => some ([47], 1)
    | 92 => some ([92], 1)
    | 78 => some ("\u0085", 1)
    | 95 => some ("\u00a0", 1)
    | 76 => some ("\u2028", 1)
    | 80 => some ("\u2029", 1)
    | 120 => (hexEscape? 2 rest).map fun (c, n) => (c, n + 1)
    | 117 => (hexEscape? 4 rest).map fun (c, n) => (c, n + 1)
    | 85 => (hexEscape? 8 rest).map fun (c, n) => (c, n + 1)
    | _ => none

/-- A line of text in double quotes, after `skip` more bytes of an escape. -/
def doubleLine : (held : Bytes) → (skip : Nat) → Bytes → Option (Bytes × QuoteEnd)
  | _, _, [] => some ([], .broken)
  | held, skip + 1, _ :: rest => doubleLine held skip rest
  | held, 0, b :: rest =>
    if b = 34 then some (held, .closed rest)
    else if b = 92 then
      if rest.isEmpty then some (held, .joined)
      else (escape? rest).bind fun (c, n) =>
        (doubleLine [] n rest).map fun (text, e) => (held ++ c ++ text, e)
    else if isBlank b then doubleLine (held ++ [b]) 0 rest
    else (doubleLine [] 0 rest).map fun (text, e) => (held ++ b :: text, e)

def quotedLine (double : Bool) (s : Bytes) : Option (Bytes × QuoteEnd) :=
  if double then doubleLine [] 0 s else some (singleLine [] s)

def quotedMore (double joined : Bool) : (breaks : Nat) → List Line → Option (Bytes × List Line)
  | _, [] => none
  | breaks, l :: rest =>
    let start := l.dropBlanks
    let lead := if joined then List.replicate breaks 10 else fold (breaks + 1)
    if start.text.isEmpty then quotedMore double joined (breaks + 1) rest
    else match quotedLine double start.text with
      | none => none
      | some (text, .closed left) =>
        some (lead ++ text, start.drop (start.text.length - left.length) :: rest)
      | some (text, .broken) =>
        (quotedMore double false 0 rest).map fun (more, rest) => (lead ++ text ++ more, rest)
      | some (text, .joined) =>
        (quotedMore double true 0 rest).map fun (more, rest) => (lead ++ text ++ more, rest)

def quoted (double : Bool) (l : Line) (rest : List Line) : Option (Bytes × List Line) :=
  (quotedLine double l.text).bind fun
    | (text, .closed left) => some (text, l.drop (l.text.length - left.length) :: rest)
    | (text, .broken) =>
      (quotedMore double false 0 rest).map fun (more, rest) => (text ++ more, rest)
    | (text, .joined) =>
      (quotedMore double true 0 rest).map fun (more, rest) => (text ++ more, rest)

end Covenant.Yaml
