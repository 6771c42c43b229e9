import Covenant.Text.Quoted

/-!
# JSON text

Written without blanks.  Inside strings the characters that HTML gives a meaning to and the two
Unicode line separators are escaped, so that the text can stand in a page or a script.
-/

namespace Covenant.Json

def glyph : Glyph → Bytes
  | .stray _ => "\\ufffd"
  | .char c =>
    match c.toNat with
    | 0x22 => "\\\""
    | 0x5C => "\\\\"
    | 8 => "\\b"
    | 9 => "\\t"
    | 10 => "\\n"
    | 12 => "\\f"
    | 13 => "\\r"
    | n =>
      if n < 0x20 ∨ n = 0x3C ∨ n = 0x3E ∨ n = 0x26 ∨ n = 0x2028 ∨ n = 0x2029 then
        "\\u" ++ Quoted.hex 4 n
      else Bytes.ofChar c

def string (s : Bytes) : Bytes :=
  "\"" ++ s.glyphs.flatMap glyph ++ "\""

def array (values : List Bytes) : Bytes :=
  "[" ++ Bytes.join "," values ++ "]"

def object (fields : List (Bytes × Bytes)) : Bytes :=
  "\x7b" ++ Bytes.join "," (fields.map fun (k, v) => string k ++ ":" ++ v) ++ "\x7d"

end Covenant.Json
