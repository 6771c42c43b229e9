import Covenant.Store

/-!
# The entries of a store

Seen from outside, a store holds outputs under keys.  Getting and making way never bring in an
entry, and a put brings in the one that it is given.
-/

namespace Covenant

open List

namespace Store

variable {s s' : Store} {key file output text : Bytes}

def entries (s : Store) : List (Bytes × Bytes) :=
  s.rows.map fun r => (r.key, r.output)

theorem entries_eq_nil (h : s.rows = []) : s.entries = [] := by rw [entries, h, map_nil]

/-! ### No operation makes up an entry -/

theorem entries_filter_subset (p : Row → Bool) :
    { s with rows := s.rows.filter p }.entries ⊆ s.entries :=
  map_subset _ filter_sublist.subset

theorem entries_get_subset : (s.get now key).2.entries ⊆ s.entries := by
  unfold get
  split
  · exact Subset.refl _
  · split
    · exact Subset.refl _
    · split
      · -- an entry that is found changes its time of use only
        have hrow : ∀ r : Row, (fun r => (r.key, r.output))
            (if r.key = key then { r with used := now } else r) = (r.key, r.output) := by
          intro r
          split <;> rfl
        simp only [entries, map_map, Function.comp_def, hrow]
        exact Subset.refl _
      · exact entries_filter_subset _

theorem mem_entries_of_get (h : (s.get now key).1 = .ok (some text)) : (key, text) ∈ s.entries := by
  unfold get at h
  split at h
  · cases h
  · split at h
    · cases h
    · next r hr =>
      split at h
      · have hk : r.key = key := by simpa using find?_some hr
        have ho : r.output = text := by simpa using h
        exact mem_map.mpr ⟨r, mem_of_find?_eq_some hr, by rw [hk, ho]⟩
      · cases h

theorem makeWay_cases (h : s.makeWay size = .ok s') :
    s' = s ∨ s' = { s with rows := s.rows.filter fun r => !s.victims.contains r.key } := by
  unfold makeWay at h
  split at h
  · unfold prune at h
    split at h
    · exact .inl (Except.ok.inj h).symm
    · split at h
      · cases h
      · exact .inr (Except.ok.inj h).symm
  · split at h
    · cases h
    · exact .inl (Except.ok.inj h).symm

theorem entries_makeWay_subset (h : s.makeWay size = .ok s') : s'.entries ⊆ s.entries := by
  rcases makeWay_cases h with rfl | rfl
  · exact Subset.refl _
  · exact entries_filter_subset _

theorem entries_insert_subset (row : Row) :
    (s.insert row).entries ⊆ (row.key, row.output) :: s.entries := by
  intro e he
  obtain ⟨r, hr, rfl⟩ := mem_map.mp he
  unfold insert at hr
  split at hr
  · rcases mem_append.mp hr with hold | hnew
    · exact mem_cons_of_mem _ (mem_map_of_mem hold)
    · rw [mem_singleton.mp hnew]
      exact mem_cons_self
  · obtain ⟨old, hold, rfl⟩ := mem_map.mp hr
    split
    · exact mem_cons_self
    · exact mem_cons_of_mem _ (mem_map_of_mem hold)

theorem mem_entries_write (h : s.write now key file output = .ok s')
    (he : e ∈ s'.entries) : e ∈ s.entries ∨ e = (key, output) ∧ output ≠ [] := by
  unfold write at h
  split at h
  · cases h
  · split at h
    · cases h
    · next hne =>
      cases h
      rcases mem_cons.mp (entries_insert_subset _ he) with hnew | hold
      · exact .inr ⟨hnew, by simpa using hne⟩
      · exact .inl hold

theorem put_snd : (s.put now size key file output).2 =
      ((((s.makeWay size).toOption.getD s).write now key file output).toOption.getD
        ((s.makeWay size).toOption.getD s)) := by
  unfold put
  cases s.makeWay size <;> simp only [Except.toOption, Option.getD] <;> split <;> simp_all

/-- **What is there after a put was there before, or was put and is not empty.** -/
theorem mem_entries_put (he : e ∈ (s.put now size key file output).2.entries) :
    e ∈ s.entries ∨ e = (key, output) ∧ output ≠ [] := by
  have hprune : ((s.makeWay size).toOption.getD s).entries ⊆ s.entries := by
    cases hp : s.makeWay size with
    | error _ => exact Subset.refl _
    | ok s' => exact entries_makeWay_subset hp
  rw [put_snd] at he
  cases hw : ((s.makeWay size).toOption.getD s).write now key file output with
  | error _ =>
    rw [hw] at he
    exact .inl (hprune he)
  | ok s' =>
    rw [hw] at he
    exact (mem_entries_write hw he).imp_left fun hold => hprune hold

/-! ### What was put is found -/

theorem row?_insert (s : Store) (row : Row) :
    ∃ r, (s.insert row).row? row.key = some r ∧ r.output = row.output ∧ r.intact = row.intact := by
  unfold insert
  split
  · next hnone =>
    refine ⟨row, ?_, rfl, rfl⟩
    have hrows : s.rows.find? (fun r => r.key = row.key) = none := hnone
    simp [row?, hrows]
  · next old hsome =>
    refine ⟨{ row with created := old.created }, ?_, rfl, rfl⟩
    have hfound : s.rows.find? (fun r => r.key = row.key) = some old := hsome
    have hkey : old.key = row.key := by simpa using find?_some hfound
    -- replacing rows by others of the same key does not change which row is found
    have hsame : ∀ r : Row, ((if r.key = row.key then
        { row with created := old.created } else r).key = row.key) = (r.key = row.key) := by
      intro r
      split <;> simp_all
    simp only [row?, find?_map, Function.comp_def, hsame, hfound, Option.map_some, hkey, if_true]

theorem isOpen_makeWay (ho : s.isOpen) : ((s.makeWay size).toOption.getD s).isOpen := by
  cases hp : s.makeWay size with
  | error _ => exact ho
  | ok s' => rcases makeWay_cases hp with rfl | rfl <;> exact ho

/-- **What was put into an open store is found.** -/
theorem get_put (ho : s.isOpen) (hne : output ≠ []) :
    ((s.put now size key file output).2.get now' key).1 = .ok (some output) := by
  have hop : ((s.makeWay size).toOption.getD s).isOpen := isOpen_makeWay ho
  have hempty : output.isEmpty = false := by simpa using hne
  rw [put_snd]
  generalize (s.makeWay size).toOption.getD s = t at hop
  let row : Row := { key, file, output, created := now, used := now }
  have hw : t.write now key file output = .ok (t.insert row) := by simp [write, hop, hempty, row]
  have hi : (t.insert row).isOpen := by
    unfold insert
    split <;> exact hop
  obtain ⟨r, hr, hro, hri⟩ := row?_insert t row
  simp only [hw, Except.toOption, Option.getD_some, get, hi, hr, hri, hro, row]
  rfl

end Store

end Covenant
