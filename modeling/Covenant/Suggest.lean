import Covenant.Text.Case

/-!
# Suggestions for misspelt words

Candidates are ranked by edit distance: the least number of single-byte insertions, deletions and
substitutions that turn one word into the other.  Letter case does not count, and a candidate that
differs in nothing else is not suggested.
-/

namespace Covenant.Suggest

/-- The rest of a row of distances.  `prev` is the row above from the column before, `left` the
distance just computed; `x` is the letter of the row and the list holds the letters of the
columns. -/
def rowTail (x : UInt8) : (columns : Bytes) → (prev : List Nat) → (left : Nat) → List Nat
  | y :: columns, d :: u :: prev, left =>
    let here := min (min (u + 1) (left + 1)) (d + if x = y then 0 else 1)
    here :: rowTail x columns (u :: prev) here
  | _, _, _ => []

def row (columns : Bytes) (prev : List Nat) (x : UInt8) : List Nat :=
  let first := prev.headD 0 + 1
  first :: rowTail x columns prev first

def distance (a b : Bytes) : Nat :=
  (a.foldl (row b) (List.range (b.length + 1))).getLastD 0

/-- The greatest distance at which a candidate is still suggested for a word. -/
def reach (word : Bytes) : Nat :=
  if word.length ≥ 7 then 3 else if word.length ≥ 4 then 2 else 1

def near (word : Bytes) (candidates : List Bytes) : List (Bytes × Nat) :=
  let scored := candidates.map fun c => (c, distance word.lower c.lower)
  scored.filter fun (_, d) => 0 < d && d ≤ reach word

/-- Up to `n` suggestions, closest first; at equal distance the order of the candidates stays. -/
def top (word : Bytes) (candidates : List Bytes) (n : Nat) : List Bytes :=
  if word.isEmpty then []
  else ((near word candidates).mergeSort fun x y => x.2 ≤ y.2).map (·.1) |>.take n

def closest? (word : Bytes) (candidates : List Bytes) : Option Bytes :=
  (top word candidates 1).head?

end Covenant.Suggest
