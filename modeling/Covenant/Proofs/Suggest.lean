import Covenant.Suggest
import Mathlib.Order.Bounds.Defs
import Mathlib.Order.MinMax

/-!
# Edit distance

The rows of the table that `Suggest.distance` fills hold the distances between the prefixes of two
words.  Its last entry is the least number of edits that turn one word into the other.
-/

namespace Covenant.Suggest

open List

/-! ### Edits -/

/-- One edit: a byte is inserted, deleted or replaced. -/
inductive Edit : Bytes → Bytes → Prop
  | insert (front back : Bytes) (x : UInt8) : Edit (front ++ back) (front ++ x :: back)
  | delete (front back : Bytes) (x : UInt8) : Edit (front ++ x :: back) (front ++ back)
  | replace (front back : Bytes) (x y : UInt8) : Edit (front ++ x :: back) (front ++ y :: back)

/-- The second word comes from the first one by so many edits. -/
inductive Edits : Nat → Bytes → Bytes → Prop
  | refl (a : Bytes) : Edits 0 a a
  | step (h : Edit a b) (hrest : Edits n b c) : Edits (n + 1) a c

theorem Edit.symm (h : Edit a b) : Edit b a := by
  cases h with
  | insert front back x => exact .delete front back x
  | delete front back x => exact .insert front back x
  | replace front back x y => exact .replace front back y x

theorem Edit.cons (h : Edit a b) (x : UInt8) : Edit (x :: a) (x :: b) := by
  cases h with
  | insert front back y => exact .insert (x :: front) back y
  | delete front back y => exact .delete (x :: front) back y
  | replace front back y z => exact .replace (x :: front) back y z

theorem Edit.reverse (h : Edit a b) : Edit a.reverse b.reverse := by
  cases h with
  | insert front back x => simpa using Edit.insert back.reverse front.reverse x
  | delete front back x => simpa using Edit.delete back.reverse front.reverse x
  | replace front back x y => simpa using Edit.replace back.reverse front.reverse x y

theorem Edits.trans (h : Edits n a b) (h' : Edits m b c) : Edits (n + m) a c := by
  induction h with
  | refl => rwa [Nat.zero_add]
  | @step n _ _ _ hedit _ ih =>
    rw [Nat.add_right_comm]
    exact .step hedit (ih h')

theorem Edits.symm (h : Edits n a b) : Edits n b a := by
  induction h with
  | refl a => exact .refl a
  | step hedit _ ih => exact ih.trans (.step hedit.symm (.refl _))

theorem Edits.cons (h : Edits n a b) (x : UInt8) : Edits n (x :: a) (x :: b) := by
  induction h with
  | refl a => exact .refl _
  | step hedit _ ih => exact .step (hedit.cons x) ih

theorem Edits.reverse (h : Edits n a b) : Edits n a.reverse b.reverse := by
  induction h with
  | refl a => exact .refl _
  | step hedit _ ih => exact .step hedit.reverse ih

/-! ### The least number of edits -/

/-- The usual recursion: the first bytes are kept or replaced, or one of them is dropped. -/
def least : Bytes → Bytes → Nat
  | [], b => b.length
  | x :: a, [] => a.length + 1
  | x :: a, y :: b =>
    min (min (least a (y :: b) + 1) (least (x :: a) b + 1)) (least a b + if x = y then 0 else 1)

theorem least_nil_right (a : Bytes) : least a [] = a.length := by
  cases a <;> simp [least]

theorem least_cons_left (x : UInt8) (a b : Bytes) : least (x :: a) b ≤ least a b + 1 := by
  cases b with
  | nil => simp [least_nil_right]
  | cons y b =>
    rw [least]
    exact (Nat.min_le_left _ _).trans (Nat.min_le_left _ _)

theorem least_cons_right (y : UInt8) (a b : Bytes) : least a (y :: b) ≤ least a b + 1 := by
  cases a with
  | nil => simp [least]
  | cons x a =>
    rw [least]
    exact (Nat.min_le_left _ _).trans (Nat.min_le_right _ _)

theorem edits_least (a b : Bytes) : Edits (least a b) a b := by
  fun_induction least a b with
  | case1 b =>
    induction b with
    | nil => exact .refl []
    | cons y b ih => exact .step (.insert [] [] y) (ih.cons y)
  | case2 x a =>
    induction a generalizing x with
    | nil => exact .step (.delete [] [] x) (.refl [])
    | cons y a ih => exact .step (.delete [] (y :: a) x) (ih y)
  | case3 x a y b hdelete hinsert hkeep =>
    have hfirst : Edits (least a b + if x = y then 0 else 1) (x :: a) (y :: b) := by
      split
      · next hxy => exact hxy ▸ hkeep.cons x
      · exact (hkeep.cons x).trans (.step (.replace [] b x y) (.refl _))
    refine min_rec' (Edits · (x :: a) (y :: b)) (min_rec' (Edits · (x :: a) (y :: b)) ?_ ?_) hfirst
    · exact .step (.delete [] a x) hdelete
    · exact hinsert.trans (.step (.insert [] b y) (.refl _))

/-- Below a common first byte, one word stays at most one edit farther than the other. -/
theorem least_cons_le (x : UInt8) (h : ∀ c, least a c ≤ least b c + 1) (c : Bytes) :
    least (x :: a) c ≤ least (x :: b) c + 1 := by
  induction c with
  | nil => simpa [least_nil_right] using h []
  | cons y c ih =>
    have hy := h (y :: c)
    have hc := h c
    rw [least, least]
    omega

theorem least_drop (x : UInt8) (a c : Bytes) : least a c ≤ least (x :: a) c + 1 := by
  induction c with
  | nil => simp [least_nil_right]; omega
  | cons y c ih =>
    have hright := least_cons_right y a c
    rw [least]
    omega

theorem least_replace (x y : UInt8) (a c : Bytes) : least (x :: a) c ≤ least (y :: a) c + 1 := by
  induction c with
  | nil => simp [least_nil_right]
  | cons z c ih =>
    rw [least, least]
    split <;> split <;> omega

theorem least_edit (h : Edit a b) (c : Bytes) : least a c ≤ least b c + 1 := by
  have hfront (front : Bytes) {a b : Bytes} (h : ∀ c, least a c ≤ least b c + 1) :
      ∀ c, least (front ++ a) c ≤ least (front ++ b) c + 1 := by
    induction front with
    | nil => exact h
    | cons x front ih => exact least_cons_le x ih
  cases h with
  | insert front back x => exact hfront front (least_drop x back) c
  | delete front back x => exact hfront front (least_cons_left x back) c
  | replace front back x y => exact hfront front (least_replace x y back) c

theorem least_self (a : Bytes) : least a a = 0 := by
  induction a with
  | nil => simp [least]
  | cons x a ih => simp [least, ih]

theorem least_le (h : Edits n a b) : least a b ≤ n := by
  induction h with
  | refl a => rw [least_self]
  | step hedit _ ih => exact (least_edit hedit _).trans (Nat.add_le_add_right ih 1)

theorem least_reverse (a b : Bytes) : least a.reverse b.reverse = least a b := by
  refine Nat.le_antisymm (least_le (edits_least a b).reverse) (least_le ?_)
  simpa using (edits_least a.reverse b.reverse).reverse

/-! ### Rows of the table -/

/-- The distances of a word, read backwards, from the prefixes of another one: those that end in
front of the columns, with the bytes before them read backwards, too. -/
def line (word before : Bytes) : (columns : Bytes) → List Nat
  | [] => [least word before]
  | y :: columns => least word before :: line word (y :: before) columns

variable (word before columns : Bytes)

theorem line_eq_cons : ∃ rest, line word before columns = least word before :: rest := by
  cases columns <;> exact ⟨_, rfl⟩

theorem line_nil : line [] before columns = range' before.length (columns.length + 1) := by
  induction columns generalizing before with
  | nil => simp [line, least]
  | cons y columns ih => rw [line, ih, length_cons, length_cons, range'_succ (n := _ + 1), least]

theorem getLastD_line (d : Nat) :
    (line word before columns).getLastD d = least word (columns.reverse ++ before) := by
  induction columns generalizing before d with
  | nil => simp [line]
  | cons y columns ih =>
    rw [line, getLastD_cons, ih]
    simp

/-- One row of the table comes from the one above it. -/
theorem rowTail_line (x : UInt8) :
    least (x :: word) before :: rowTail x columns (line word before columns)
      (least (x :: word) before) = line (x :: word) before columns := by
  induction columns generalizing before with
  | nil => simp [rowTail, line]
  | cons y columns ih =>
    obtain ⟨rest, hrest⟩ := line_eq_cons word (y :: before) columns
    have hline := ih (y :: before)
    rw [hrest] at hline
    have hhere : min (min (least word (y :: before) + 1) (least (x :: word) before + 1))
        (least word before + if x = y then 0 else 1) = least (x :: word) (y :: before) := by
      rw [least]
    rw [line, line, hrest, rowTail]
    simp only [hhere, hline]

theorem row_line (x : UInt8) :
    row columns (line word [] columns) x = line (x :: word) [] columns := by
  have hfirst : (line word [] columns).headD 0 + 1 = least (x :: word) [] := by
    obtain ⟨rest, hrest⟩ := line_eq_cons word [] columns
    simp [hrest, least_nil_right]
  rw [← rowTail_line word [] columns x, row, hfirst]

theorem foldl_row (a : Bytes) :
    a.foldl (row columns) (line word [] columns) = line (a.reverse ++ word) [] columns := by
  induction a generalizing word with
  | nil => rfl
  | cons x a ih =>
    rw [foldl_cons, row_line, ih]
    simp

theorem distance_eq_least (a b : Bytes) : distance a b = least a b := by
  have hrange : range (b.length + 1) = line [] [] b := by
    rw [line_nil, range_eq_range']
    rfl
  rw [distance, hrange, foldl_row, getLastD_line, append_nil, append_nil, least_reverse]

/-- **The distance is the least number of edits**, and with it a metric. -/
theorem distance_isLeast (a b : Bytes) :
    IsLeast {n | Edits n a b} (distance a b) ∧ distance a b = least a b ∧
      distance a b = distance b a ∧ (distance a b = 0 ↔ a = b) ∧
      ∀ c, distance a c ≤ distance a b + distance b c := by
  simp only [distance_eq_least]
  refine ⟨⟨edits_least a b, fun n hn => least_le hn⟩, trivial, ?_, ⟨fun h => ?_, ?_⟩, fun c => ?_⟩
  · exact Nat.le_antisymm (least_le (edits_least b a).symm) (least_le (edits_least a b).symm)
  · have hedits := edits_least a b
    rw [h] at hedits
    cases hedits
    rfl
  · rintro rfl
    exact least_self a
  · exact least_le ((edits_least a b).trans (edits_least b c))

example : distance "kitten" "sitting" = 3 := by decide

end Covenant.Suggest
