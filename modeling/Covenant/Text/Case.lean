import Covenant.Text.Class
import Covenant.Text.Glyph

/-!
# Letter case

The simple case mappings of Unicode 15.0, which send a character to one character.
-/

namespace Covenant

namespace CodeShift

def loweringsA : List CodeShift :=
  ofRows 0
  [192,22,1,32,2,6,1,32,34,46,2,1,2,0,1,-199,2,4,2,1,3,14,2,1,3,44,2,1,2,0,1,-121,1,4,2,1,4,0,1,
   210,1,2,2,1,2,0,1,206,1,0,1,1,2,1,1,205,1,0,1,1,3,0,1,79,1,0,1,202,1,0,1,203,1,0,1,1,2,0,1,205,
   1,0,1,207,2,0,1,211,1,0,1,209,1,0,1,1,4,0,1,211,1,0,1,213,2,0,1,214,1,4,2,1,2,0,1,218,1,0,1,1,2,
   0,1,218,3,0,1,1,2,0,1,218,1,0,1,1,2,1,1,217,1,2,2,1,2,0,1,219,1,0,1,1,4,0,1,1,8,0,1,2,1,0,1,1,2,
   0,1,2,1,0,1,1,2,0,1,2,1,16,2,1,3,16,2,1,3,0,1,2,1,2,2,1,2,0,1,-97,1,0,1,-56,1,38,2,1,2,0,1,-130,
   2,16,2,1,8,0,1,10795,1,0,1,1,2,0,1,-163,1,0,1,10792,3,0,1,1,2,0,1,-195,1,0,1,69,1,0,1,71,1,8,2,
   1,290,2,2,1,4,0,1,1,9,0,1,116,7,0,1,38,2,2,1,37,2,0,1,64,2,1,1,63,2,16,1,32,2,8,1,32,36,0,1,8,9,
   22,2,1,6,0,1,-60,3,0,1,1,2,0,1,-7,1,0,1,1,3,2,1,-130,1,15,1,80,1,31,1,32,49,32,2,1,10,52,2,1,2,
   0,1,15,1,12,2,1,3,94,2,1,3,37,1,48,2890,37,1,7264,2,0,1,7264,6,0,1,7264,723,79,1,38864,1,5,1,8,
   2203,42,1,-3008,3,2,1,-3008,321,148,2,1,10,0,1,-7615,2,94,2,1,10,7,1,-8,9,5,1,-8,11,7,1,-8,9,7,
   1,-8,9,5,1,-8,12,6,2,-8,9,7,1,-8,25,7,1,-8,9,7,1,-8,9,7,1,-8,9,1,1,-8,1,1,1,-74,1,0,1,-9,12,3,1,
   -86,1,0,1,-9,12,1,1,-8,1,1,1,-100,13,1,1,-8,1,1,1,-112,1,0,1,-7,12,1,1,-128,1,1,1,-126,1,0,1,-9,
   298,0,1,-7517]

def loweringsB : List CodeShift :=
  ofRows 0
  [8490,0,1,-8383,1,0,1,-8262,7,0,1,28,46,15,1,16,20,0,1,1,819,25,1,26,1841,47,1,48,49,0,1,1,2,0,1,
   -10743,1,0,1,-3814,1,0,1,-10727,3,4,2,1,2,0,1,-10780,1,0,1,-10749,1,0,1,-10783,1,0,1,-10782,2,0,
   1,1,3,0,1,1,9,1,1,-10815,1,98,2,1,9,2,2,1,5,0,1,1,31054,44,2,1,20,26,2,1,136,12,2,1,4,60,2,1,11,
   2,2,1,2,0,1,-35332,1,8,2,1,5,0,1,1,2,0,1,-42280,3,2,2,1,4,18,2,1,2,0,1,-42308,1,0,1,-42319,1,0,
   1,-42315,1,0,1,-42305,1,0,1,-42308,2,0,1,-42258,1,0,1,-42282,1,0,1,-42261,1,0,1,928,1,14,2,1,2,
   0,1,-48,1,0,1,-42307,1,0,1,-35384,1,2,2,1,7,0,1,1,6,2,2,1,29,0,1,1,22316,25,1,32,1222,39,1,40,
   137,35,1,40,157,10,1,39,2,14,1,39,2,6,1,39,2,1,1,39,1771,50,1,64,3054,31,1,32,21889,31,1,32,
   31393,33,1,34]

/-- The simple lower-case mapping above ASCII. -/
def lowerings : List CodeShift :=
  loweringsA ++ loweringsB

def raisingsA : List CodeShift :=
  ofRows 0
  [181,0,1,743,43,22,1,-32,2,6,1,-32,1,0,1,121,2,46,2,-1,2,0,1,-232,2,4,2,-1,3,14,2,-1,3,44,2,-1,3,
   4,2,-1,1,0,1,-300,1,0,1,195,3,2,2,-1,3,0,1,-1,4,0,1,-1,6,0,1,-1,3,0,1,97,4,0,1,-1,1,0,1,163,4,0,
   1,130,3,4,2,-1,3,0,1,-1,5,0,1,-1,3,0,1,-1,4,2,2,-1,3,0,1,-1,4,0,1,-1,2,0,1,56,6,0,1,-1,1,0,1,-2,
   2,0,1,-1,1,0,1,-2,2,0,1,-1,1,0,1,-2,2,14,2,-1,1,0,1,-79,2,16,2,-1,3,0,1,-1,1,0,1,-2,2,0,1,-1,4,
   38,2,-1,4,16,2,-1,9,0,1,-1,3,1,1,10815,2,0,1,-1,5,8,2,-1,1,0,1,10783,1,0,1,10780,1,0,1,10782,1,
   0,1,-210,1,0,1,-206,2,1,1,-205,2,0,1,-202,2,0,1,-203,1,0,1,42319,4,0,1,-205,1,0,1,42315,2,0,1,
   -207,2,0,1,42280,1,0,1,42308,2,0,1,-209,1,0,1,-211,1,0,1,42308,1,0,1,10743,1,0,1,42305,3,0,1,
   -211,2,0,1,10749,1,0,1,-213,3,0,1,-214,8,0,1,10727,3,0,1,-218,2,0,1,42307,1,0,1,-218,4,0,1,
   42282,1,0,1,-218,1,0,1,-69,1,1,1,-217,1,0,1,-71,6,0,1,-219,11,0,1,42261,1,0,1,42258,167,0,1,84,
   44,2,2,-1,4,0,1,-1,4,2,1,130,47,0,1,-38,1,2,1,-37,2,16,1,-32,1,0,1,-31,1,8,1,-32,1,0,1,-64,1,1,
   1,-63,2,0,1,-62,1,0,1,-57,4,0,1,-47,1,0,1,-54,1,0,1,-8,2,22,2,-1,1,0,1,-86,1,0,1,-80,1,0,1,7,1,
   0,1,-116,2,0,1,-96,3,0,1,-1,3,0,1,-1,53,31,1,-32,1,15,1,-80,2,32,2,-1,10,52,2,-1,3,12,2,-1,1,0,
   1,-15,2,94,2,-1,50,37,1,-48,2890,42,1,3008,3,2,1,3008,761,5,1,-8,2179,0,1,-6254,1,0,1,-6253,1,0,
   1,-6244,1,1,1,-6242]

def raisingsB : List CodeShift :=
  ofRows 0
  [7301,0,1,-6243,1,0,1,-6236,1,0,1,-6181,1,0,1,35266,241,0,1,35332,4,0,1,3814,17,0,1,35384,115,
   148,2,-1,6,0,1,-59,6,94,2,-1,1,7,1,8,9,5,1,8,11,7,1,8,9,7,1,8,9,5,1,8,12,6,2,8,9,7,1,8,9,1,1,74,
   1,3,1,86,1,1,1,100,1,1,1,128,1,1,1,112,1,1,1,126,3,7,1,8,9,7,1,8,9,7,1,8,9,1,1,8,2,0,1,9,11,0,1,
   -7205,5,0,1,9,13,1,1,8,15,1,1,8,4,0,1,7,14,0,1,9,347,0,1,-28,34,15,1,-16,5,0,1,-1,844,25,1,-26,
   1863,47,1,-48,2,0,1,-1,4,0,1,-10795,1,0,1,-10792,2,4,2,-1,7,0,1,-1,3,0,1,-1,11,98,2,-1,9,2,2,-1,
   5,0,1,-1,13,37,1,-7264,2,0,1,-7264,6,0,1,-7264,30996,44,2,-1,20,26,2,-1,136,12,2,-1,4,60,2,-1,
   11,2,2,-1,3,8,2,-1,5,0,1,-1,5,2,2,-1,1,0,1,48,3,18,2,-1,12,14,2,-1,5,2,2,-1,7,0,1,-1,6,2,2,-1,
   29,0,1,-1,861,0,1,-928,29,79,1,-38864,21378,25,1,-32,1230,39,1,-40,137,35,1,-40,156,10,1,-39,2,
   14,1,-39,2,6,1,-39,2,1,1,-39,1796,50,1,-64,3022,31,1,-32,21889,31,1,-32,31395,33,1,-34]

/-- The simple upper-case mapping above ASCII. -/
def raisings : List CodeShift :=
  raisingsA ++ raisingsB

end CodeShift

def Rune.toLower (c : Char) : Char :=
  if isAscii c then (if isAsciiUpper c then Char.ofNat (c.toNat + 32) else c)
  else Char.ofNat (CodeShift.apply CodeShift.lowerings c.toNat)

def Rune.toUpper (c : Char) : Char :=
  if isAscii c then (if isAsciiLower c then Char.ofNat (c.toNat - 32) else c)
  else Char.ofNat (CodeShift.apply CodeShift.raisings c.toNat)

/-- A common form of the characters that differ in case only.  The dotted capital I and the
dotless small one stand alone. -/
def Rune.fold (c : Char) : Char :=
  if c = 'İ' ∨ c = 'ı' then c else toLower (toUpper c)

def Bytes.lower (s : Bytes) : Bytes :=
  s.mapRunes Rune.toLower

def Bytes.upper (s : Bytes) : Bytes :=
  s.mapRunes Rune.toUpper

def Bytes.equalFold (s t : Bytes) : Bool :=
  s.mapRunes Rune.fold == t.mapRunes Rune.fold

end Covenant
