import Covenant.Text.Class
import Covenant.Text.Glyph

/-!
# White space around and between words
-/

namespace Covenant

def Glyph.isSpace (g : Glyph) : Bool :=
  Rune.isSpace g.rune

def Bytes.trim (s : Bytes) : Bytes :=
  let front := s.glyphs.dropWhile Glyph.isSpace
  ofGlyphs (front.reverse.dropWhile Glyph.isSpace).reverse

def Bytes.wordsOf : List Glyph → List (List Glyph)
  | [] => []
  | g :: rest =>
    if g.isSpace then wordsOf rest
    else match rest with
      | [] => [[g]]
      | h :: _ =>
        if h.isSpace then [g] :: wordsOf rest
        else match wordsOf rest with
          | [] => [[g]]
          | w :: ws => (g :: w) :: ws

def Bytes.words (s : Bytes) : List Bytes :=
  (wordsOf s.glyphs).map ofGlyphs

end Covenant
