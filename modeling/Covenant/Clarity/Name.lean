import Covenant.Text.Case
import Covenant.Text.Glyph

/-!
# Clarity names

Names in camel case become words with hyphens, and an import path becomes the name of a contract.
-/

namespace Covenant

def hyphenated (name : Bytes) : Bytes :=
  go none (name.glyphs.map Glyph.rune)
where
  /-- A capital starts a word behind a small letter or digit, and at the end of a run of
  capitals. -/
  go : (prev : Option Char) → List Char → Bytes
    | _, [] => []
    | prev, c :: rest =>
      if Rune.isUpper c then
        let hump := match prev with
          | none => false
          | some p =>
            Rune.isLower p || Rune.isDigit p ||
              (Rune.isUpper p && (rest.head?.map Rune.isLower).getD false)
        (if hump then Bytes.ofString "-" else []) ++ Bytes.ofChar (Rune.toLower c) ++
          go (some c) rest
      else Bytes.ofChar c ++ go (some c) rest

/-- The contract that an import path names: its last part without a known extension. -/
def contractOf (source : Bytes) : Bytes :=
  let last := (source.splitOn 47).getLastD []
  (last.stripSuffix ".stx").stripSuffix ".clar"

end Covenant
