import Covenant.Text.Bytes

/-!
# Characters of a byte string

A byte string is read as a sequence of glyphs: each is a character together with its UTF-8
encoding, or a single stray byte that starts no valid encoding.  The reading loses nothing
(`Glyph.bytes` gives back the bytes), and columns count glyphs.
-/

namespace Covenant

/-- One unit of text: a well-encoded character, or a byte that belongs to none. -/
inductive Glyph where
  /-- A character. -/
  | char (c : Char)
  /-- A byte outside any valid encoding. -/
  | stray (b : UInt8)
  deriving DecidableEq, Repr, Inhabited

namespace Glyph

/-- The character shown for the glyph; a stray byte shows as the replacement character. -/
def rune : Glyph → Char
  | .char c => c
  | .stray _ => '\uFFFD'

def bytes : Glyph → Bytes
  | .char c => Bytes.ofChar c
  | .stray b => [b]

def is (g : Glyph) (c : Char) : Bool :=
  g == .char c

def continues (lo hi : UInt8) (b : UInt8) : Bool :=
  lo ≤ b && b ≤ hi

def payload (b : UInt8) : Nat :=
  b.toNat % 64

/-- The glyph that starts with the byte `b` before `rest`, and how many bytes of `rest` it takes.
The bounds on the second byte rule out overlong forms, surrogates and values past U+10FFFF. -/
def read (b : UInt8) (rest : Bytes) : Glyph × Nat :=
  let n := b.toNat
  if n < 0x80 then (.char (Char.ofNat n), 0)
  else if 0xC2 ≤ n ∧ n < 0xE0 then
    match rest with
    | b₁ :: _ =>
      if continues 0x80 0xBF b₁ then (.char (Char.ofNat (n % 32 * 64 + payload b₁)), 1)
      else (.stray b, 0)
    | [] => (.stray b, 0)
  else if 0xE0 ≤ n ∧ n < 0xF0 then
    match rest with
    | b₁ :: b₂ :: _ =>
      let lo := if n = 0xE0 then 0xA0 else 0x80
      let hi := if n = 0xED then 0x9F else 0xBF
      if continues lo hi b₁ && continues 0x80 0xBF b₂ then
        (.char (Char.ofNat ((n % 16 * 64 + payload b₁) * 64 + payload b₂)), 2)
      else (.stray b, 0)
    | _ => (.stray b, 0)
  else if 0xF0 ≤ n ∧ n < 0xF5 then
    match rest with
    | b₁ :: b₂ :: b₃ :: _ =>
      let lo := if n = 0xF0 then 0x90 else 0x80
      let hi := if n = 0xF4 then 0x8F else 0xBF
      if continues lo hi b₁ && continues 0x80 0xBF b₂ && continues 0x80 0xBF b₃ then
        (.char (Char.ofNat (((n % 8 * 64 + payload b₁) * 64 + payload b₂) * 64 + payload b₃)), 3)
      else (.stray b, 0)
    | _ => (.stray b, 0)
  else (.stray b, 0)

end Glyph

namespace Bytes

/-- The glyphs of a byte string whose first `skip` bytes belong to a glyph already read. -/
def glyphsFrom : (skip : Nat) → Bytes → List Glyph
  | _, [] => []
  | skip + 1, _ :: rest => glyphsFrom skip rest
  | 0, b :: rest =>
    let (g, n) := Glyph.read b rest
    g :: glyphsFrom n rest

def glyphs (s : Bytes) : List Glyph :=
  glyphsFrom 0 s

def ofGlyphs (gs : List Glyph) : Bytes :=
  gs.flatMap Glyph.bytes

def isUtf8 (s : Bytes) : Bool :=
  s.glyphs.all fun
    | .char _ => true
    | .stray _ => false

/-- Each character replaced by its image; a stray byte becomes the replacement character. -/
def mapRunes (f : Char → Char) (s : Bytes) : Bytes :=
  s.glyphs.flatMap fun g => ofChar (f g.rune)

def toString? (s : Bytes) : Option String :=
  if s.isUtf8 then some (String.ofList (s.glyphs.map Glyph.rune)) else none

end Bytes

end Covenant
