import Covenant.Text.Ranges

/-!
# Character classes

The classes of Unicode 15.0 that names and quoted text depend on.  Each is decided directly on
ASCII and by its table above.
-/

namespace Covenant

namespace CodeSet

/-- Decimal digits: general category Nd. -/
def digits : CodeSet :=
  ofGaps 0
  [1632,9,135,9,199,9,413,9,119,9,119,9,119,9,119,9,119,9,119,9,119,9,119,9,119,9,97,9,119,9,71,9,
   279,9,71,9,1863,9,39,9,301,9,129,9,167,9,7,9,183,9,87,9,135,9,7,9,35271,9,679,9,39,9,199,9,23,9,
   87,9,407,9,21271,9,1415,9,2183,9,813,9,129,9,61,9,145,9,279,9,343,9,119,9,375,9,103,9,103,9,423,
   9,103,9,759,9,247,9,71,9,423,9,19207,9,87,9,135,9,27765,49,2369,9,423,9,503,9,1111,9,4759,9]

def lettersA : CodeSet :=
  ofGaps 0
  [170,0,11,0,5,0,6,22,2,30,2,457,5,11,15,4,8,0,2,0,130,4,2,1,3,3,2,0,7,0,2,2,2,0,2,19,2,82,2,138,
   9,165,2,37,3,0,7,40,72,26,5,3,46,42,36,1,2,98,2,0,16,1,8,1,11,2,3,0,17,0,2,29,30,88,12,0,25,32,
   10,1,5,0,6,21,5,0,10,0,4,0,24,24,8,10,6,23,2,5,18,41,59,53,4,0,19,0,8,9,16,15,5,7,3,1,3,21,2,6,
   2,0,4,3,4,0,17,0,14,1,2,2,15,1,11,0,9,5,5,1,3,21,2,6,2,1,2,1,2,1,32,3,2,0,20,2,17,8,2,2,2,21,2,
   6,2,1,2,4,4,0,19,0,16,1,24,0,12,7,3,1,3,21,2,6,2,1,2,4,4,0,31,1,2,2,16,0,18,0,2,5,4,2,2,3,4,1,2,
   0,2,1,4,1,4,2,4,11,23,0,53,7,2,2,2,22,2,15,4,0,27,2,3,0,3,1,31,0,5,7,2,2,2,22]

def lettersB : CodeSet :=
  ofGaps 0
  [3242,9,2,4,4,0,32,1,2,1,16,1,18,8,2,2,2,40,3,0,17,0,6,2,9,2,25,5,6,17,4,23,2,8,2,0,3,6,59,47,2,
   1,13,6,59,1,2,0,2,4,2,23,2,0,2,9,2,1,10,0,3,4,2,0,22,3,33,0,64,7,2,35,28,4,116,42,21,0,17,5,5,3,
   4,0,4,1,8,2,5,12,13,0,18,37,2,0,6,0,3,42,2,332,2,3,3,6,2,0,2,3,3,40,2,3,3,32,2,3,3,6,2,0,2,3,3,
   14,2,56,2,3,3,66,38,15,17,85,3,5,4,619,3,16,2,25,6,74,7,7,8,17,14,18,15,17,15,12,2,2,16,51,36,0,
   5,0,68,88,8,4,3,33,2,0,6,69,11,30,50,29,3,4,12,43,5,25,55,22,10,52,83,0,94,46,18,7,55,29,14,1,
   11,43,27,35,42,2,11,35,3,8,8,42,3,2,42,3,2,5,2,1,4,0,6,191,65,277,3,5,3,37,3,5,3,7,2,0,2,0,2,0,
   2,30]

def lettersC : CodeSet :=
  ofGaps 0
  [8064,52,2,6,2,0,4,2,2,6,4,3,3,5,5,12,6,2,2,6,117,0,14,0,17,12,102,0,5,0,3,9,2,0,4,4,7,0,2,0,2,0,
   2,3,2,10,3,3,6,4,5,0,53,1,2684,228,7,3,4,1,13,37,2,0,6,0,3,55,8,0,17,22,10,6,2,6,2,6,2,6,2,6,2,
   6,2,6,2,6,81,0,470,1,43,4,6,1,5,85,7,2,2,89,2,3,6,42,2,93,18,31,49,15,513,6591,65,22156,68,45,3,
   268,4,15,11,1,21,46,17,30,3,69,50,8,3,102,3,63,6,1,2,0,2,4,25,15,2,2,2,3,2,22,30,51,15,49,63,5,
   4,0,2,1,12,27,11,22,26,28,8,46,29,0,17,4,2,9,11,4,2,40,24,2,2,7,21,22,4,0,4,49,2,0,4,1,3,4,3,0,
   2,0,25,2,3,10,8,2,13,5,3,5,3,5,10,6,2,6,2,42,2,13,7,114,30,11171,13,22,5,48,8453,365,3,105,39,6,
   13,4,6,0,2,9,2,12]

def lettersD : CodeSet :=
  ofGaps 0
  [64312,4,2,0,2,1,2,1,2,107,34,362,19,63,3,53,41,11,117,4,2,134,37,25,7,25,12,88,4,5,3,5,3,5,3,2,
   36,11,2,25,2,18,2,1,2,14,3,13,35,122,390,28,4,48,48,31,14,19,2,7,7,37,11,29,3,35,5,7,49,157,19,
   35,5,35,5,39,9,51,13,10,2,14,2,6,2,1,2,10,2,14,2,6,2,1,68,310,10,21,11,7,25,5,2,41,2,8,70,5,3,0,
   2,43,2,1,4,0,3,22,11,22,10,30,66,18,2,1,11,21,11,25,71,55,7,1,65,0,16,3,2,2,2,28,43,28,4,28,36,
   7,2,27,28,53,11,21,11,18,14,17,111,72,56,50,14,50,14,35,349,41,7,1,79,28,11,0,9,21,43,17,47,20,
   28,22,13,52,58,1,3,0,14,44,33,24,27,35,30,0,3,0,9,34,4,0,13,47,15,3,22,0,2,0,36,17,2,24,20,1,64,
   6,2,0,2,3,2,14,2,9,8,46,39,7,3,1,3,21,2,6,2,1,2,4]

def lettersE : CodeSet :=
  ofGaps 0
  [70461,0,19,0,13,4,159,52,19,3,21,2,31,47,21,1,2,0,185,46,42,3,37,47,21,0,60,42,14,0,72,26,38,6,
   186,43,117,63,32,7,3,0,3,7,2,1,2,23,16,0,2,0,95,7,3,38,17,0,2,0,29,0,11,39,8,0,22,0,12,45,20,0,
   19,72,264,8,2,36,18,0,50,29,113,6,2,1,2,37,22,0,26,5,2,1,2,31,15,0,328,18,16,0,2,12,2,33,125,0,
   80,921,231,195,2637,96,16,1071,18,5,4026,582,8634,568,8,30,18,78,18,29,19,47,17,3,32,20,6,18,
   689,63,129,74,6,0,67,12,65,1,2,0,29,6135,9,1237,43,8,8936,3,2,6,2,1,2,290,16,0,30,2,3,0,15,3,9,
   395,2309,106,6,12,4,8,8,9,5991,84,2,70,2,1,3,0,3,1,3,3,2,11,2,0,2,6,2,64,2,3,3,7,2,6,2,27,2,3,2,
   4,2,0,4,6,2,339,3,24,2,24,2,30,2,24,2,30,2,24,2,30,2,24,2,30,2,24,2,7]

def lettersF : CodeSet :=
  ofGaps 0
  [122624,30,7,5,262,61,147,44,11,6,17,0,322,29,19,43,485,27,757,6,2,3,2,1,2,14,2,196,60,67,8,0,
   1205,3,2,26,2,1,2,0,3,0,2,9,2,3,2,0,2,0,7,0,5,0,2,0,2,0,2,2,2,1,2,0,3,0,2,0,2,0,2,0,2,0,2,1,2,0,
   3,3,2,6,2,3,2,3,2,0,2,9,2,16,6,2,2,4,2,16,4421,42719,33,4153,7,221,3,5761,15,7472,3104,541,1507,
   4938,6,4191]

/-- Letters: general category L. -/
def letters : CodeSet :=
  lettersA ++ lettersB ++ lettersC ++ lettersD ++ lettersE ++ lettersF

def lowersA : CodeSet :=
  ofRuns 0
  [181,0,1,42,23,1,2,7,1,2,52,2,2,1,1,2,12,2,2,1,1,2,44,2,3,2,2,2,2,1,3,2,2,3,0,1,4,1,1,5,0,1,3,0,
   1,4,2,1,3,0,1,3,4,2,3,0,1,2,1,1,2,0,1,3,0,1,4,2,2,3,1,1,3,2,1,7,0,1,3,0,1,3,14,2,2,1,1,2,14,2,2,
   1,1,3,2,2,4,56,2,2,6,1,3,0,1,3,1,1,2,0,1,5,6,2,2,68,1,2,26,1,194,2,2,4,0,1,4,2,1,19,0,1,28,34,1,
   2,1,1,4,2,1,2,20,2,2,4,1,2,0,1,3,0,1,3,1,1,52,47,1,2,32,2,10,52,2,3,10,2,2,1,1,2,94,2,49,40,1,
   2888,42,1,3,2,1,761,5,1,2179,8,1,120,43,1,64,12,1,2,33,1,103,146,2,2,8,1,2,94,2,2,8,1,9,5,1,11,
   7,1,9,7,1,9,5,1,11,7,1,9,7,1,9,13,1,3,7,1,9,7,1,9,7,1,9,4,1,2,1,1,7,0,1,4,2,1,2,1,1,9,3,1,3,1,1,
   9,7,1,11,2,1,2,1,1,275,0,1,4,1,1,4,0,1,28,0,1,5,0,1,5,0,1,3,1,1,9,3,1,5,0,1,54,0,1,2732,47,1,2,
   0,1,4,1,1,2,4,2,5,0,1,2,1,1,2,5,1,6,96,2,2,1,1,8,2,2,5,0,1,13,37,1,2,0,1,6,0,1,30996,44,2,20,26,
   2,136,10,2,2,2,1,2,60,2,2,7,1]

def lowersB : CodeSet :=
  ofRuns 0
  [42874,2,2,3,8,2,5,2,2,3,0,1,2,2,1,2,18,2,6,0,1,6,14,2,5,2,2,7,8,2,29,0,1,4,0,1,822,42,1,6,8,1,8,
   79,1,20289,6,1,13,4,1,1066,25,1,1230,39,1,137,35,1,156,10,1,2,14,1,2,6,1,2,1,1,1796,50,1,3022,
   31,1,21889,31,1,26011,25,1,27,6,1,2,17,1,27,25,1,27,3,1,2,0,1,2,6,1,2,10,1,27,25,1,27,25,1,27,
   25,1,27,25,1,27,25,1,27,25,1,27,25,1,27,25,1,27,27,1,29,24,1,2,5,1,27,24,1,2,5,1,27,24,1,2,5,1,
   27,24,1,2,5,1,27,24,1,2,5,1,2,0,1,1845,9,1,2,19,1,7,5,1,2552,33,1]

/-- Lower-case letters: general category Ll. -/
def lowers : CodeSet :=
  lowersA ++ lowersB

def printablesA : CodeSet :=
  ofGaps 0
  [161,11,2,713,3,5,5,6,2,0,2,19,2,396,2,37,3,49,3,2,2,54,9,26,5,5,18,21,2,191,2,47,3,58,3,100,15,
   58,3,48,3,14,2,27,3,0,2,10,6,30,10,73,2,160,2,7,3,1,3,21,2,6,2,0,4,3,3,8,3,1,3,3,9,0,5,1,2,4,3,
   24,3,2,2,5,5,1,3,21,2,6,2,1,2,1,2,1,3,0,2,4,5,1,3,2,4,0,8,3,2,0,8,16,11,2,2,8,2,2,2,21,2,6,2,1,
   2,4,3,9,2,2,2,2,3,0,16,3,3,11,8,6,2,2,2,7,3,1,3,21,2,6,2,1,2,4,3,8,3,1,3,2,8,2,5,1,2,4,3,17,11,
   1,2,5,4,2,2,3,4,1,2,0,2,1,4,1,4,2,4,11,5,4,4,2,2,3,3,0,7,0,15,20,6,12,2,2,2,22,2,15,3,8,2,2,2,3,
   8,1,2,2,3,0,3,3,3,9,8,21,2,2,2,22,2,9,2,4,3,8,2,2,2,3]

def printablesB : CodeSet :=
  ofGaps 0
  [3285,1,7,1,2,3,3,9,2,2,13,12,2,2,2,50,2,2,2,5,5,15,3,25,2,2,2,17,4,23,2,8,2,0,3,6,4,0,5,5,2,0,2,
   7,7,9,3,2,13,57,5,28,38,1,2,0,2,4,2,23,2,0,2,22,3,4,2,0,2,6,2,9,3,3,33,71,2,35,5,38,2,35,2,14,2,
   12,38,197,2,0,6,0,3,376,2,3,3,6,2,0,2,3,3,40,2,3,3,32,2,3,3,6,2,0,2,3,3,14,2,56,2,3,3,66,3,31,4,
   25,7,85,3,5,3,639,2,27,4,88,8,21,10,23,10,19,13,12,2,2,2,1,13,93,3,9,7,9,7,13,2,10,7,88,8,42,6,
   69,11,30,2,11,5,11,5,0,4,41,3,4,12,43,5,25,7,10,4,61,3,64,2,28,3,10,7,9,7,13,3,30,50,76,4,46,2,
   115,9,59,4,14,4,59,8,42,3,10,9,42,6,533,3,5,3,37,3,5,3,7,2,0,2,0,2,0,2,30,3,52,2,14,2,13]

def printablesC : CodeSet :=
  ofGaps 0
  [8150,5,2,18,3,2,2,8,18,23,9,46,18,1,3,26,2,12,4,32,16,32,16,139,5,662,26,10,22,1811,3,31,2,348,
   6,44,2,0,6,0,3,55,8,1,15,23,10,6,2,6,2,6,2,6,2,6,2,6,2,6,2,6,2,125,35,25,2,88,13,213,27,11,6,62,
   2,85,3,102,6,42,2,93,2,83,13,46,2,29292,4,54,10,347,21,183,9,202,6,1,2,0,2,4,25,58,4,9,7,55,9,
   69,9,11,7,115,12,29,4,77,2,10,5,32,2,54,10,13,3,9,3,102,25,27,11,5,3,5,3,5,10,6,2,6,2,59,5,125,
   3,9,7,11171,13,22,5,48,8453,365,3,105,39,6,13,4,6,25,2,4,2,0,2,1,2,1,2,124,17,444,3,53,8,0,33,
   41,7,50,2,18,2,3,5,4,2,134,5,189,4,5,3,5,3,5,3,2,4,6,2,6,14,1,3,11,2,25,2,18,2,1,2,14,3,13,35,
   122,6,2,5,44,4,87,2,12,4,0,48,45,131,28,4,48,16,27]

def printablesD : CodeSet :=
  ofGaps 0
  [66304,35,10,29,6,42,6,29,2,36,5,13,43,157,3,9,7,35,5,35,5,39,9,51,12,11,2,14,2,6,2,1,2,10,2,14,
   2,6,2,1,68,310,10,21,11,7,25,5,2,41,2,8,70,5,3,0,2,43,2,1,4,0,3,22,2,71,9,8,49,18,2,1,6,32,4,26,
   6,0,65,55,5,19,3,49,2,1,6,7,2,2,2,28,3,2,5,9,8,8,8,63,33,38,5,11,10,53,4,28,3,26,6,25,8,3,13,6,
   81,72,56,50,14,50,8,45,9,9,295,30,2,41,2,2,3,1,76,42,9,41,23,25,39,27,21,22,10,77,5,35,10,61,2,
   4,14,24,8,9,7,52,2,17,9,38,10,95,2,19,12,17,2,46,63,6,2,0,2,3,2,14,2,10,7,58,6,9,7,3,2,7,3,1,3,
   21,2,6,2,1,2,4,2,9,3,1,3,2,3,0,7,0,6,6,3,6,4,4,140,91,2,4,31,71,9,9,167,53,3,37,35,68,12,9,7,12,
   20,57,7,9,55,26,3,14]

def printablesE : CodeSet :=
  ofGaps 0
  [71472,22,186,59,101,82,13,7,3,0,3,7,2,1,2,29,2,1,3,11,10,9,71,7,3,45,3,10,28,71,9,82,14,72,8,9,
   247,8,2,44,2,13,11,28,4,31,3,21,2,13,74,6,2,1,2,43,4,0,2,1,2,8,9,9,7,5,2,1,2,36,2,1,2,5,8,9,311,
   24,8,16,2,40,4,27,87,0,16,49,14,922,103,110,2,4,12,195,2637,98,14,1071,17,21,4011,582,8634,568,
   8,30,2,9,5,80,2,9,7,29,3,5,11,69,11,9,2,6,2,20,6,18,689,90,102,74,5,56,8,16,65,4,12,1,15,6135,9,
   1237,43,8,8936,3,2,6,2,1,2,290,16,0,30,2,3,0,15,3,9,395,2309,106,6,12,4,8,8,9,3,3,4705,45,3,22,
   10,115,61,245,11,38,3,73,9,111,22,69,123,19,13,19,13,86,10,24,136,84,2,70,2,1,3,0,3,1,3,3,2,11,
   2,0,2,6,2,64,2,3,3,7,2,6,2,27,2,3,2,4,2,0,4,6,2,339,3,291,3,701]

def printablesF : CodeSet :=
  ofGaps 0
  [121499,4,2,14,1105,30,7,5,214,6,2,16,3,6,2,1,2,4,6,61,34,0,113,44,4,13,3,9,5,1,321,30,18,57,6,0,
   465,41,743,6,2,3,2,1,2,14,2,196,3,15,42,75,5,9,5,1,786,67,77,60,195,3,2,26,2,1,2,0,3,0,2,9,2,3,
   2,0,2,0,7,0,5,0,2,0,2,0,2,2,2,1,2,0,3,0,2,0,2,0,2,0,2,0,2,1,2,0,3,3,2,6,2,3,2,3,2,0,2,9,2,16,6,
   2,2,4,2,16,53,1,271,43,5,99,13,14,3,14,2,14,2,36,11,173,57,28,14,43,5,8,8,1,15,5,155,983,5,16,4,
   12,4,118,5,94,7,11,5,0,16,11,5,55,9,9,7,39,9,29,3,1,79,339,13,13,3,12,4,8,8,45,2,6,9,13,5,8,8,8,
   8,146,2,54,38,9,1031,42719,33,4153,7,221,3,5761,15,7472,3104,541,1507,4938,6,4191,712017,239]

/-- Printable characters: general category L, M, N, P or S. -/
def printables : CodeSet :=
  printablesA ++ printablesB ++ printablesC ++ printablesD ++ printablesE ++ printablesF

def uppersA : CodeSet :=
  ofRuns 0
  [192,22,1,2,6,1,34,54,2,3,14,2,3,44,2,2,1,1,2,2,2,4,1,1,2,0,1,2,1,1,2,2,1,3,3,1,2,1,1,2,2,1,4,1,
   1,2,1,1,2,2,2,2,1,1,2,0,1,3,0,1,2,1,1,2,2,1,2,0,1,2,1,1,4,0,1,8,0,1,3,0,1,3,0,1,3,14,2,3,16,2,3,
   0,1,3,0,1,2,2,1,2,56,2,8,1,1,2,1,1,3,0,1,2,3,1,2,6,2,290,2,2,4,0,1,9,0,1,7,0,1,2,2,1,2,0,1,2,1,
   1,2,16,1,2,8,1,36,0,1,3,2,1,4,22,2,6,0,1,3,0,1,2,1,1,3,50,1,49,32,2,10,52,2,2,1,1,2,10,2,3,94,2,
   3,37,1,2890,37,1,2,0,1,6,0,1,723,85,1,2203,42,1,3,2,1,321,148,2,10,96,2,10,7,1,9,5,1,11,7,1,9,7,
   1,9,5,1,12,6,2,9,7,1,73,3,1,13,3,1,13,3,1,13,4,1,12,3,1,263,0,1,5,0,1,4,2,1,3,2,1,3,0,1,4,4,1,7,
   4,2,2,3,1,3,3,1,11,1,1,6,0,1,62,0,1,2685,47,1,49,0,1,2,2,1,3,4,2,2,3,1,2,0,1,3,0,1,9,2,1,2,96,2,
   9,2,2,5,0,1,31054,44,2,20,26,2,136,12,2,4,60,2,11,2,2,2,1,1,2,6,2,5,2,2,3,2,2,4,18,2,2,4,1,2,4,
   1,2,12,2,2,3,1,2,0,1,7,0,1]

def uppersB : CodeSet :=
  ofRuns 0
  [42966,2,2,29,0,1,22316,25,1,1222,39,1,137,35,1,157,10,1,2,14,1,2,6,1,2,1,1,1771,50,1,3054,31,1,
   21889,31,1,26017,25,1,27,25,1,27,25,1,27,0,1,2,1,1,3,0,1,3,1,1,3,3,1,2,7,1,27,25,1,27,1,1,2,3,1,
   3,7,1,2,6,1,28,1,1,2,3,1,2,4,1,2,0,1,4,6,1,28,25,1,27,25,1,27,25,1,27,25,1,27,25,1,27,25,1,31,
   24,1,34,24,1,34,24,1,34,24,1,34,24,1,34,0,1,4406,33,1]

/-- Upper-case letters: general category Lu. -/
def uppers : CodeSet :=
  uppersA ++ uppersB

end CodeSet

namespace Rune

def isAsciiDigit (c : Char) : Bool :=
  '0' ≤ c && c ≤ '9'

def isAsciiLower (c : Char) : Bool :=
  'a' ≤ c && c ≤ 'z'

def isAsciiUpper (c : Char) : Bool :=
  'A' ≤ c && c ≤ 'Z'

def isAscii (c : Char) : Bool :=
  c.toNat < 0x80

def isLetter (c : Char) : Bool :=
  if isAscii c then isAsciiLower c || isAsciiUpper c else CodeSet.letters.contains c.toNat

def isUpper (c : Char) : Bool :=
  if isAscii c then isAsciiUpper c else CodeSet.uppers.contains c.toNat

def isLower (c : Char) : Bool :=
  if isAscii c then isAsciiLower c else CodeSet.lowers.contains c.toNat

def isDigit (c : Char) : Bool :=
  if isAscii c then isAsciiDigit c else CodeSet.digits.contains c.toNat

def isPrintable (c : Char) : Bool :=
  if isAscii c then ' ' ≤ c && c < '\x7f' else CodeSet.printables.contains c.toNat

def isSpace (c : Char) : Bool :=
  let n := c.toNat
  (9 ≤ n && n ≤ 13) || n == 0x20 || n == 0x85 || n == 0xA0 || n == 0x1680 ||
    (0x2000 ≤ n && n ≤ 0x200A) || n == 0x2028 || n == 0x2029 || n == 0x202F || n == 0x205F ||
    n == 0x3000

end Rune

end Covenant
