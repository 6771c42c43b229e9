import Covenant.Version
import Mathlib.Data.List.Lex
import Mathlib.Data.Prod.Lex
import Mathlib.Data.Sum.Order
import Mathlib.Order.WithBot

/-!
# The order of versions

Versions are ordered by their numbers, and releases of the same numbers come after all their
pre-releases.  Pre-release tags are compared part by part: numbers by value and before words, words
by their bytes, and a tag comes before its extensions.  Metadata does not count, so the order is a
total preorder: versions that differ in metadata alone come neither before nor after each other.
-/

namespace Covenant

namespace Version

/-- The place of a part of a pre-release tag.  A numeral counts as a number when it has 64 bits. -/
def partRank (part : Bytes) : ℕ ⊕ₗ List ℕ :=
  match (Numeral.nat? part).filter (· < Nat.pow 2 64) with
  | some n => Sum.inlₗ n
  | none => Sum.inrₗ (part.map UInt8.toNat)

/-- The place of a pre-release tag; the empty one, of a release, is the last. -/
def tagRank (pre : Bytes) : WithTop (List (ℕ ⊕ₗ List ℕ)) :=
  if pre.isEmpty then ⊤ else ((pre.splitOn 46).map partRank : List (ℕ ⊕ₗ List ℕ))

def rank (v : Version) : ℕ ×ₗ ℕ ×ₗ ℕ ×ₗ WithTop (List (ℕ ⊕ₗ List ℕ)) :=
  toLex (v.major, toLex (v.minor, toLex (v.patch, tagRank v.pre)))

instance : Preorder Version :=
  Preorder.lift rank

theorem lt_iff_rank {v w : Version} : v < w ↔ v.rank < w.rank :=
  Iff.rfl

instance : Std.Total fun v w : Version => v ≤ w :=
  ⟨fun v w => le_total v.rank w.rank⟩

theorem tagRank_lt_top_iff {pre : Bytes} : tagRank pre < ⊤ ↔ pre ≠ [] := by
  cases pre with
  | nil | cons b pre => simp [tagRank]

/-- The comparison with a release is that of the order. -/
theorem isBefore_iff_lt {v release : Version} (h : release.pre = []) :
    v.isBefore release = true ↔ v < release := by
  -- the tag of a release comes last, so below it only the presence of a tag counts
  have htag : tagRank release.pre = ⊤ := by rw [h]; rfl
  rw [lt_iff_rank, rank, rank, Prod.Lex.toLex_lt_toLex, Prod.Lex.toLex_lt_toLex,
    Prod.Lex.toLex_lt_toLex, htag, tagRank_lt_top_iff, isBefore]
  split_ifs <;> simp_all

end Version

end Covenant
