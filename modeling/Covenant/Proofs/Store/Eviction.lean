import Covenant.Proofs.Store.Entries
import Mathlib

/-!
# A store is a map with eviction

A store of outputs forgets, but it never mixes up.  What it finds under a key is the last output
that was put there and could be kept; an empty output cannot, and leaves the entry before it in
place.
-/

namespace Covenant.Store

open List

/-- An operation on a store. -/
inductive Op where
  | put (size : Except Cause Int) (key file output : Bytes)
  | get (key : Bytes)
  | clear

def Op.on (s : Store) (now : Nat) : Op → Store
  | put size key file output => (s.put now size key file output).2
  | get key => (s.get now key).2
  | clear => s.clear.toOption.getD s

def after (s : Store) (ops : List (Nat × Op)) : Store :=
  ops.foldl (fun s (now, op) => op.on s now) s

/-- What is under the keys after an operation, if no entry ever makes way. -/
def Op.note (held : Bytes → Option Bytes) : Op → Bytes → Option Bytes
  | put _ key _ output => fun k => if k = key ∧ output ≠ [] then some output else held k
  | get _ => held
  | clear => fun _ => none

/-- The last output that was put under a key since the store was cleared, empty ones left out. -/
def latest (ops : List (Nat × Op)) : Bytes → Option Bytes :=
  ops.foldl (fun held (_, op) => op.note held) fun _ => none

/-- The store is open, every key has one entry, which can be read, and the share that makes way is a
percentage. -/
structure Sane (s : Store) : Prop where
  isOpen : s.isOpen
  nodup : (s.rows.map Row.key).Nodup
  intact : ∀ r ∈ s.rows, r.intact
  share : 1 ≤ s.share ∧ s.share ≤ 100

variable {s t : Store} {key file output : Bytes}

/-! ### One operation -/

theorem Sane.of_rows {rows : List Row} (h : s.Sane) (hnodup : (rows.map Row.key).Nodup)
    (hintact : ∀ r ∈ rows, r.intact) : { s with rows }.Sane :=
  ⟨h.isOpen, hnodup, hintact, h.share⟩

theorem Sane.filter (h : s.Sane) (p : Row → Bool) : { s with rows := s.rows.filter p }.Sane :=
  h.of_rows (h.nodup.sublist (filter_sublist.map _)) fun r hr =>
    h.intact r (mem_filter.mp hr).1

theorem Sane.makeWay (h : s.Sane) : ((s.makeWay size).toOption.getD s).Sane := by
  cases hp : s.makeWay size with
  | error _ => exact h
  | ok s' =>
    rcases makeWay_cases hp with rfl | rfl
    · exact h
    · exact h.filter _

theorem Sane.mapRows (h : s.Sane) (f : Row → Row) (hkey : ∀ r, (f r).key = r.key)
    (hintact : ∀ r, r.intact → (f r).intact) : { s with rows := s.rows.map f }.Sane := by
  refine h.of_rows ?_ ?_
  · rw [map_map]
    simpa only [Function.comp_def, hkey] using h.nodup
  · intro r hr
    obtain ⟨r', hr', rfl⟩ := mem_map.mp hr
    exact hintact r' (h.intact r' hr')

theorem Sane.insert (h : s.Sane) (row : Row) (hrow : row.intact) : (s.insert row).Sane := by
  unfold Store.insert
  split
  · next hnone =>
    refine h.of_rows ?_ fun r hr => ?_
    · have hfresh : ∀ r ∈ s.rows, r.key ≠ row.key := by simpa [row?] using hnone
      rw [map_append, nodup_append]
      exact ⟨h.nodup, by simp, by simpa using hfresh⟩
    · rcases mem_append.mp hr with hr | hr
      · exact h.intact r hr
      · rwa [mem_singleton.mp hr]
  · next old hold =>
    refine h.mapRows _ (fun r => ?_) fun r hr => ?_
    · split
      · next heq => exact heq.symm
      · rfl
    · split
      · exact hrow
      · exact hr

theorem put_eq (h : s.Sane) (hne : output ≠ []) :
    (s.put now size key file output).2 = ((s.makeWay size).toOption.getD s).insert
        { key, file, output, created := now, used := now } := by
  have hempty : output.isEmpty = false := by simpa using hne
  have hopen : ((s.makeWay size).toOption.getD s).isOpen := h.makeWay.isOpen
  rw [put_snd]
  generalize (s.makeWay size).toOption.getD s = t at hopen
  simp [write, hopen, hempty, Except.toOption]

theorem put_nil (h : s.Sane) :
    (s.put now size key file []).2 = (s.makeWay size).toOption.getD s := by
  have hopen : ((s.makeWay size).toOption.getD s).isOpen := h.makeWay.isOpen
  rw [put_snd]
  generalize (s.makeWay size).toOption.getD s = t at hopen
  simp [write, hopen, Except.toOption]

theorem write_mem_put_nil (h : s.Sane) : .write .emptyOutput ∈ (s.put now size key file []).1 := by
  have hopen : ((s.makeWay size).toOption.getD s).isOpen := h.makeWay.isOpen
  unfold put
  cases hp : s.makeWay size with
  | error e => simp [write, h.isOpen]
  | ok s' =>
    have hopen' : s'.isOpen := by simpa [hp, Except.toOption] using hopen
    simp [write, hopen']

theorem Sane.put (h : s.Sane) : (s.put now size key file output).2.Sane := by
  by_cases hne : output = []
  · rw [hne, put_nil h]
    exact h.makeWay
  · rw [put_eq h hne]
    exact h.makeWay.insert _ rfl

theorem Sane.get (h : s.Sane) : (s.get now key).2.Sane := by
  unfold Store.get
  split
  · exact h
  · split
    · exact h
    · split
      · exact h.mapRows _ (fun r => by split <;> rfl) fun r hr => by split <;> exact hr
      · exact h.filter _

theorem Sane.on (h : s.Sane) (op : Op) : (op.on s now).Sane := by
  cases op with
  | put => exact h.put
  | get => exact h.get
  | clear =>
    rw [Op.on, clear, if_pos h.isOpen]
    exact h.of_rows .nil (by simp)

/-! ### Finding -/

theorem get_of_mem (h : s.Sane) {text : Bytes} (hmem : (key, text) ∈ s.entries) :
    (s.get now key).1 = .ok (some text) := by
  obtain ⟨r, hr, hrow⟩ := mem_map.mp hmem
  obtain ⟨rfl, rfl⟩ := Prod.mk.inj hrow
  have hfind : s.row? r.key = some r := by
    obtain ⟨r', hr'⟩ : ∃ r', s.row? r.key = some r' := by
      simpa [row?, ← Option.isSome_iff_exists] using ⟨r, hr, rfl⟩
    have hkey : r'.key = r.key := by simpa using find?_some hr'
    rw [hr', inj_on_of_nodup_map h.nodup (mem_of_find?_eq_some hr') hr hkey]
  simp [Store.get, h.isOpen, hfind, h.intact r hr]

theorem get_eq (h : s.Sane) : (s.get now key).1 = .ok none ∨
    ∃ text, (key, text) ∈ s.entries ∧ (s.get now key).1 = .ok (some text) := by
  rcases hget : (s.get now key).1 with e | _ | text
  · simp only [Store.get, h.isOpen, Bool.not_true, Bool.false_eq_true, if_false] at hget
    split at hget
    · cases hget
    · split at hget <;> cases hget
  · exact .inl rfl
  · exact .inr ⟨text, mem_entries_of_get hget, rfl⟩

def Within (s : Store) (held : Bytes → Option Bytes) : Prop :=
  ∀ e ∈ s.entries, held e.1 = some e.2

theorem Within.on {held : Bytes → Option Bytes} (hs : s.Sane) (h : s.Within held) (op : Op) :
    (op.on s now).Within (op.note held) := by
  intro e he
  cases op with
  | get key => exact h e (entries_get_subset he)
  | clear =>
    rw [Op.on, clear, if_pos hs.isOpen] at he
    cases he
  | put size key file output =>
    rw [Op.note]
    by_cases hne : output = []
    · rcases mem_entries_put he with hold | ⟨-, hne'⟩
      · simpa [hne] using h e hold
      · exact absurd hne hne'
    · by_cases hkey : e.1 = key
      · -- the entry that was put is found, so it is the only one under its key
        have hput : (s.put now size key file output).2.Sane := hs.put
        have hfound : ((s.put now size key file output).2.get now key).1 = .ok (some output) :=
          get_put hs.isOpen hne
        have hmem : (key, e.2) ∈ (s.put now size key file output).2.entries := hkey ▸ he
        rw [get_of_mem hput hmem] at hfound
        simpa [hkey, hne] using Option.some.inj (Except.ok.inj hfound).symm
      · rcases mem_entries_put he with hold | ⟨rfl, -⟩
        · simpa [hkey] using h e hold
        · exact absurd rfl hkey

theorem after_invariant (ops : List (Nat × Op)) {held : Bytes → Option Bytes} (hs : s.Sane)
    (h : s.Within held) : (s.after ops).Sane ∧
      (s.after ops).Within (ops.foldl (fun held (_, op) => op.note held) held) := by
  induction ops generalizing s held with
  | nil => exact ⟨hs, h⟩
  | cons e ops ih => exact ih (hs.on e.2) (h.on hs e.2)

/-! ### Making way -/

theorem older_iff : older r u ↔ r.used < u.used ∨ r.used = u.used ∧ r.created ≤ u.created := by
  unfold older
  split <;> simp_all

def queue (s : Store) : List Row :=
  s.rows.mergeSort older

theorem pairwise_queue (s : Store) : s.queue.Pairwise fun r u => older r u := by
  refine pairwise_mergeSort (fun a b c hab hbc => ?_) (fun a b => ?_) s.rows
  · rw [older_iff] at *
    omega
  · rw [Bool.or_eq_true, older_iff, older_iff]
    omega

theorem quota_le (h : s.Sane) : s.quota ≤ s.rows.length := by
  unfold quota
  split
  · exact Nat.zero_le _
  · next hne =>
    have hpos : 0 < s.rows.length := length_pos_iff.mpr (by simpa using hne)
    have hdiv : s.rows.length * s.share / 100 ≤ s.rows.length :=
      Nat.div_le_of_le_mul (by rw [Nat.mul_comm]; exact Nat.mul_le_mul_right _ h.share.2)
    omega

/-- What stays is what stands behind in the queue. -/
theorem mem_of_full (h : s.Sane) :
    (s.rows.filter fun r => !s.victims.contains r.key).Perm (s.queue.drop s.quota) := by
  have hperm : s.queue.Perm s.rows := mergeSort_perm _ _
  refine (hperm.symm.filter _).trans (List.Perm.of_eq ?_)
  have hnodup : ((s.queue.take s.quota ++ s.queue.drop s.quota).map Row.key).Nodup := by
    rw [take_append_drop]
    exact (hperm.map _).nodup_iff.mpr h.nodup
  rw [map_append, nodup_append] at hnodup
  conv_lhs => rw [← take_append_drop s.quota s.queue]
  rw [filter_append, filter_eq_nil_iff.mpr, nil_append, filter_eq_self.mpr]
  · intro r hr
    have : r.key ∉ s.victims := fun hmem => hnodup.2.2 _ hmem _ (mem_map_of_mem hr) rfl
    simpa using this
  · intro r hr
    have : r.key ∈ s.victims := mem_map_of_mem hr
    simpa using this

/-- The number of entries that make way for a put: none unless the limit is reached. -/
def evicted (s : Store) (n : Int) : Nat :=
  if 0 < s.maxSize ∧ s.maxSize ≤ n ∧ s.rows ≠ [] then max (s.rows.length * s.share / 100) 1 else 0

theorem makeWay_ok (h : s.Sane) (n : Int) : ∃ t, s.makeWay (.ok n) = .ok t ∧
    t.rows.Sublist s.rows ∧ t.rows.length + s.evicted n = s.rows.length ∧
    ∀ r ∈ s.rows, r ∉ t.rows → ∀ u ∈ t.rows,
      r.used < u.used ∨ r.used = u.used ∧ r.created ≤ u.created := by
  by_cases hfull : s.isFull n
  · refine ⟨{ s with rows := s.rows.filter fun r => !s.victims.contains r.key },
      by simp [makeWay, prune, hfull, h.isOpen], filter_sublist, ?_, ?_⟩
    · have hlen := (mem_of_full h).length_eq
      have hquota : s.evicted n = s.quota := by
        simp only [isFull, Bool.and_eq_true, decide_eq_true_eq] at hfull
        simp only [evicted, quota, hfull, true_and, ne_eq, List.isEmpty_iff]
        split <;> simp_all
      rw [length_drop, queue, length_mergeSort] at hlen
      have := quota_le h
      simp only [hquota]
      omega
    · intro r hr hgone u hu
      rw [← older_iff]
      have hr : r ∈ s.queue.take s.quota ++ s.queue.drop s.quota := by
        rw [take_append_drop]
        exact (mergeSort_perm _ _).mem_iff.mpr hr
      have hpairs := s.pairwise_queue
      rw [← take_append_drop s.quota s.queue, pairwise_append] at hpairs
      rcases mem_append.mp hr with hr | hr
      · exact hpairs.2.2 r hr u ((mem_of_full h).mem_iff.mp hu)
      · exact absurd ((mem_of_full h).mem_iff.mpr hr) hgone
  · refine ⟨s, by simp [makeWay, prune, hfull], .refl _, ?_, fun r hr hgone => absurd hr hgone⟩
    have : s.evicted n = 0 := by
      unfold evicted
      simp only [isFull, Bool.and_eq_true, decide_eq_true_eq, not_and] at hfull
      split
      · next hc => exact absurd hc.2.1 (hfull hc.1)
      · rfl
    omega

/-! ### Runs -/

/-- **A store is a map with eviction.**  After any run of operations on a new store: what is found
under a key is the last output kept there; what was put without a write error is found; a put makes
its share of the entries give way when the limit is reached, those used and made the longest ago,
and none otherwise; the sums are those of what can be found; and a put that cannot make way still
keeps its output. -/
theorem after_laws (s₀ : Store) (ops : List (Nat × Op)) (hrows : s₀.rows = []) (hopen : s₀.isOpen)
    (hshare : 1 ≤ s₀.share ∧ s₀.share ≤ 100) :
    let s := s₀.after ops
    (∀ now key, (s.get now key).1 = .ok none ∨
      ∃ text, latest ops key = some text ∧ (s.get now key).1 = .ok (some text)) ∧
    (∀ now size key file output now', (∀ c, .write c ∉ (s.put now size key file output).1) →
      ((s.put now size key file output).2.get now' key).1 = .ok (some output)) ∧
    (∀ now n key file output, ∃ t, s.makeWay (.ok n) = .ok t ∧
      (s.put now (.ok n) key file output).2 = (if output = [] then t else
        t.insert { key, file, output, created := now, used := now }) ∧
      t.rows.Sublist s.rows ∧ t.rows.length + s.evicted n = s.rows.length ∧
      ∀ r ∈ s.rows, r ∉ t.rows → ∀ u ∈ t.rows,
        r.used < u.used ∨ r.used = u.used ∧ r.created ≤ u.created) ∧
    (∃ live : List (Bytes × Bytes), (live.map Prod.fst).Nodup ∧
      (∀ key text, (key, text) ∈ live ↔ ∀ now, (s.get now key).1 = .ok (some text)) ∧
      ∃ sums, s.stats = .ok sums ∧ sums.entries = live.length ∧
        sums.outputBytes = (live.map fun e => e.2.length).sum) ∧
    ∀ now c key file output, 0 < s.maxSize → output ≠ [] →
      s.put now (.error c) key file output =
        ([.prune c], s.insert { key, file, output, created := now, used := now }) := by
  have hsane : s₀.Sane := ⟨hopen, by simp [hrows], by simp [hrows], hshare⟩
  intro s
  obtain ⟨hs, hwithin⟩ : s.Sane ∧ s.Within (latest ops) :=
    after_invariant ops hsane fun e he => by rw [entries_eq_nil hrows] at he; cases he
  refine ⟨fun now key => ?_, fun now size key file output now' hwrite => ?_,
    fun now n key file output => ?_, ?_, fun now c key file output hmax hne => ?_⟩
  · refine (get_eq hs).imp_right ?_
    rintro ⟨text, hmem, hget⟩
    exact ⟨text, hwithin _ hmem, hget⟩
  · refine get_put hs.isOpen fun hnil => hwrite .emptyOutput ?_
    rw [hnil]
    exact write_mem_put_nil hs
  · obtain ⟨t, ht, hsub, hlen, hold⟩ := makeWay_ok hs n
    refine ⟨t, ht, ?_, hsub, hlen, hold⟩
    split
    · next hnil => rw [hnil, put_nil hs, ht]; rfl
    · next hne => rw [put_eq hs hne, ht]; rfl
  · refine ⟨s.entries, ?_, fun key text => ⟨fun hmem now => get_of_mem hs hmem, fun hget =>
      mem_entries_of_get (hget 0)⟩, _, by rw [stats, if_pos hs.isOpen], ?_, ?_⟩
    · simpa [entries, List.map_map, Function.comp_def] using hs.nodup
    · simp [entries]
    · simp [entries, List.map_map, Function.comp_def, List.sum]
  · simp [put, makeWay, hmax, write, hs.isOpen, hne]

/-- Three outputs under two keys, and then room is made for a third one, although the file of the
store cannot be measured once. -/
theorem after_laws_threeKeys :
    let s₀ : Store := { maxSize := 1 }
    let ops : List (Nat × Op) := [(1, .put (.ok 0) "a" [] "x"), (2, .put (.ok 0) "b" [] "y"),
      (3, .put (.error (.unmeasured "stat failed")) "a" [] "z"), (4, .get "b"),
      (5, .put (.ok 1) "c" [] "w")]
    (s₀.rows = [] ∧ 1 ≤ s₀.share ∧ s₀.share ≤ 100) ∧
      latest ops "a" = some (Bytes.ofString "z") ∧
      ∀ now key, ((s₀.after ops).get now key).1 = .ok none ∨
        ∃ text, latest ops key = some text ∧ ((s₀.after ops).get now key).1 = .ok (some text) := by
  intro s₀ ops
  exact ⟨by decide, by decide, (after_laws s₀ ops rfl rfl (by decide)).1⟩

/-- An empty output cannot be kept, and the output before it is found in its place. -/
theorem get_after_empty :
    let ops : List (Nat × Op) := [(0, .put (.ok 0) "k" [] "a"), (0, .put (.ok 0) "k" [] [])]
    let s := ({} : Store).after ops
    (s.get 0 "k").1 = .ok (some (Bytes.ofString "a")) ∧ Bytes.ofString "a" ≠ [] := by
  decide

end Covenant.Store
