import Covenant.Store

/-!
# What a key tells apart

The key of a source is the digest of a text that lists the version, the target, the assets and the
source itself.  Zero bytes stand behind the parts and commas between the assets, so the text can be
taken apart again as long as the parts do not hold these bytes themselves.
-/

namespace Covenant

open List Bytes

namespace Bytes

variable {x y : Bytes}

/-! ### Separators -/

theorem cut_append_cons (h : sep ∉ x) (y : Bytes) : cut sep (x ++ sep :: y) = some (x, y) := by
  induction x with
  | nil => simp [cut]
  | cons b x ih =>
    obtain ⟨hb, hx⟩ := not_or.mp (mt mem_cons.mpr h)
    simp [cut, Ne.symm hb, ih hx]

theorem append_cons_inj (hx : sep ∉ x) (hy : sep ∉ y)
    (h : x ++ sep :: z = y ++ sep :: w) : x = y ∧ z = w := by
  have hcut := congrArg (cut sep) h
  rw [cut_append_cons hx, cut_append_cons hy] at hcut
  exact Prod.mk.inj (Option.some.inj hcut)

theorem splitOn_of_notMem (h : sep ∉ x) : splitOn sep x = [x] := by
  induction x with
  | nil => rfl
  | cons b x ih =>
    obtain ⟨hb, hx⟩ := not_or.mp (mt mem_cons.mpr h)
    simp [splitOn, Ne.symm hb, ih hx]

theorem splitOn_append_cons (h : sep ∉ x) (y : Bytes) :
    splitOn sep (x ++ sep :: y) = x :: splitOn sep y := by
  induction x with
  | nil => simp [splitOn]
  | cons b x ih =>
    obtain ⟨hb, hx⟩ := not_or.mp (mt mem_cons.mpr h)
    simp [splitOn, Ne.symm hb, ih hx]

/-- **Pieces that do not hold the separator come back from their join.** -/
theorem splitOn_join (hne : xs ≠ []) (h : ∀ x ∈ xs, sep ∉ x) :
    splitOn sep (join [sep] xs) = xs := by
  induction xs with
  | nil => exact absurd rfl hne
  | cons x xs ih =>
    have hx : sep ∉ x := h x mem_cons_self
    cases xs with
    | nil => exact splitOn_of_notMem hx
    | cons y ys =>
      have hrest := ih (cons_ne_nil y ys) fun z hz => h z (mem_cons_of_mem x hz)
      rw [join, append_assoc, singleton_append, splitOn_append_cons hx, hrest]

/-- **Pieces are told apart by their join, unless they are just one empty piece.** -/
theorem join_inj (hx : ∀ x ∈ xs, sep ∉ x) (hy : ∀ y ∈ ys, sep ∉ y)
    (hxs : xs ≠ [[]]) (hys : ys ≠ [[]]) (h : join [sep] xs = join [sep] ys) : xs = ys := by
  have hsplit := congrArg (splitOn sep) h
  -- no pieces at all have the same join as one empty piece
  cases xs with
  | nil =>
    cases ys with
    | nil => rfl
    | cons y ys =>
      rw [splitOn_join (cons_ne_nil y ys) hy] at hsplit
      exact absurd hsplit.symm hys
  | cons x xs =>
    rw [splitOn_join (cons_ne_nil x xs) hx] at hsplit
    cases ys with
    | nil => exact absurd hsplit hxs
    | cons y ys => rwa [splitOn_join (cons_ne_nil y ys) hy] at hsplit

theorem notMem_join (hb : b ≠ sep) (h : ∀ x ∈ xs, b ∉ x) : b ∉ join [sep] xs := by
  induction xs with
  | nil => exact not_mem_nil
  | cons x xs ih =>
    have hx : b ∉ x := h x mem_cons_self
    cases xs with
    | nil => exact hx
    | cons y ys =>
      have hrest := ih fun z hz => h z (mem_cons_of_mem x hz)
      simp [join, hx, hb, hrest]

/-! ### Order -/

theorem ble_iff_le (s t : Bytes) : ble s t = true ↔ List.le s t := by
  fun_induction ble s t with
  | case1 | case2 => simp
  | case3 a s b t h => simp [List.cons_le_cons_iff, h]
  | case4 a s b t h h' =>
    have hne : a ≠ b := fun he => h (he ▸ h')
    simp [List.cons_le_cons_iff, h, hne]
  | case5 a s b t h h' ih =>
    have hab : a = b := UInt8.le_antisymm (UInt8.not_lt.mp h') (UInt8.not_lt.mp h)
    simp [List.cons_le_cons_iff, hab, ih]

theorem sort_perm (xs : List Bytes) : (sort xs).Perm xs :=
  mergeSort_perm xs ble

theorem pairwise_sort (xs : List Bytes) : (sort xs).Pairwise fun s t => ble s t = true := by
  refine List.pairwise_mergeSort ?_ ?_ xs
  · intro s t u hst htu
    rw [ble_iff_le] at hst htu ⊢
    exact List.le_trans hst htu
  · intro s t
    rw [Bool.or_eq_true, ble_iff_le, ble_iff_le]
    exact List.le_total s t

/-- **Sorting forgets the order.** -/
theorem sort_eq_of_perm (h : xs.Perm ys) : sort xs = sort ys := by
  refine List.Perm.eq_of_pairwise ?_ (pairwise_sort xs) (pairwise_sort ys) ?_
  · intro s t _ _ hst hts
    exact List.le_antisymm ((ble_iff_le s t).mp hst) ((ble_iff_le t s).mp hts)
  · exact (sort_perm xs).trans (h.trans (sort_perm ys).symm)

end Bytes

namespace Store

/-! ### Keys -/

def keyText (version target : Bytes) (assets : List Bytes) (source : Bytes) : Bytes :=
  terminated [version, target, Bytes.join "," (Bytes.sort assets), source]

/-- Names that stay apart in a key: none holds a zero byte or a comma, and they are not just one
empty name. -/
def areSeparable (names : List Bytes) : Bool :=
  names.all (fun n => !n.contains 0 && !n.contains 44) && names != [[]]

section

variable {names : List Bytes} (h : areSeparable names)
include h

theorem notMem_of_areSeparable : ∀ n ∈ names, 0 ∉ n ∧ 44 ∉ n := by
  simpa using (Bool.and_eq_true_iff.mp h).1

theorem ne_of_areSeparable : names ≠ [[]] := by simpa using (Bool.and_eq_true_iff.mp h).2

theorem areSeparable_sort : areSeparable (sort names) := by
  have hall : ∀ n ∈ sort names, 0 ∉ n ∧ 44 ∉ n := fun n hn =>
    notMem_of_areSeparable h n ((sort_perm names).mem_iff.mp hn)
  have hne : sort names ≠ [[]] := by
    intro hs
    have hp := sort_perm names
    rw [hs] at hp
    exact ne_of_areSeparable h (singleton_perm.mp hp).symm
  simpa [areSeparable] using ⟨hall, hne⟩

end

theorem keyText_eq_of_perm (h : assets.Perm assets') (version target source : Bytes) :
    keyText version target assets source = keyText version target assets' source := by
  rw [keyText, keyText, sort_eq_of_perm h]

/-- **The text of a key tells apart targets without zero bytes, separable assets up to their order,
and all sources.** -/
theorem keyText_eq_iff {version target target' : Bytes}
    {source source' : Bytes} (hv : 0 ∉ version) (ht : 0 ∉ target) (ht' : 0 ∉ target')
    (ha : areSeparable assets) (ha' : areSeparable assets') :
    keyText version target assets source = keyText version target' assets' source' ↔
      target = target' ∧ assets.Perm assets' ∧ source = source' := by
  constructor
  · intro h
    have hs := areSeparable_sort ha
    have hs' := areSeparable_sort ha'
    have hj : 0 ∉ join [44] (sort assets) :=
      notMem_join (by decide) fun n hn => (notMem_of_areSeparable hs n hn).1
    have hj' : 0 ∉ join [44] (sort assets') :=
      notMem_join (by decide) fun n hn => (notMem_of_areSeparable hs' n hn).1
    simp only [keyText, terminated, flatMap_cons, flatMap_nil, append_assoc,
      singleton_append, append_nil] at h
    -- the parts come off from the left, each up to its zero byte
    obtain ⟨-, h⟩ := append_cons_inj hv hv h
    obtain ⟨htarget, h⟩ := append_cons_inj ht ht' h
    obtain ⟨hjoin, h⟩ := append_cons_inj hj hj' h
    have hsort := join_inj (fun n hn => (notMem_of_areSeparable hs n hn).2)
        (fun n hn => (notMem_of_areSeparable hs' n hn).2)
        (ne_of_areSeparable hs) (ne_of_areSeparable hs') hjoin
    refine ⟨htarget, ?_, append_cancel_right h⟩
    exact (sort_perm assets).symm.trans (hsort ▸ sort_perm assets')
  · rintro ⟨rfl, hperm, rfl⟩
    exact keyText_eq_of_perm hperm version target source

end Store

end Covenant
