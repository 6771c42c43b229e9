import Covenant.Text.Class
import Covenant.Text.Glyph

/-!
# Quoted text

A byte string between double quotes, readable back byte for byte: printable characters stand for
themselves, the quote and the backslash are escaped, the usual control characters have short
escapes, and everything else is written as a hexadecimal escape of its byte or code point.
-/

namespace Covenant.Quoted

def hexDigit (n : Nat) : UInt8 :=
  if n < 10 then UInt8.ofNat (48 + n) else UInt8.ofNat (87 + n)

def hex : (width n : Nat) → Bytes
  | 0, _ => []
  | width + 1, n => hex width (n / 16) ++ [hexDigit (n % 16)]

def shortEscape (c : Char) : Option Char :=
  match c.toNat with
  | 7 => some 'a'
  | 8 => some 'b'
  | 9 => some 't'
  | 10 => some 'n'
  | 11 => some 'v'
  | 12 => some 'f'
  | 13 => some 'r'
  | _ => none

def glyph : Glyph → Bytes
  | .stray b => "\\x" ++ hex 2 b.toNat
  | .char c =>
    if c = '\x22' ∨ c = '\x5c' then "\\" ++ Bytes.ofChar c
    else if Rune.isPrintable c then Bytes.ofChar c
    else match shortEscape c with
      | some e => "\\" ++ Bytes.ofChar e
      | none =>
        if Rune.isAscii c then "\\x" ++ hex 2 c.toNat
        else if c.toNat < 0x10000 then "\\u" ++ hex 4 c.toNat
        else "\\U" ++ hex 8 c.toNat

def encode (s : Bytes) : Bytes :=
  "\"" ++ s.glyphs.flatMap glyph ++ "\""

end Covenant.Quoted
