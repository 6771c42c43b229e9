import Covenant.Proofs.Build.Roots
import Covenant.Proofs.Store.Key
import Mathlib.Data.List.TakeWhile

/-!
# Places of paths

Where a path leads can be read off its text and the working directory, whatever is on the disk.

* `Disk.eq_placeOf_of_locate` : a path that is looked up leads there.
* `Disk.placeOf_clean` : cleaning a path does not change where it leads.
-/

namespace Covenant

open List

namespace Path

theorem slash_notMem_splitOn (s : Bytes) : ∀ part ∈ s.splitOn 47, 47 ∉ part := by
  fun_induction Bytes.splitOn 47 s with
  | case1 => simp
  | case2 rest ih => simpa using ih
  | case3 b rest hb hnil ih => simpa using Ne.symm hb
  | case4 b rest hb piece pieces hrest ih =>
    rw [hrest] at ih
    simp only [mem_cons, forall_eq_or_imp] at ih ⊢
    exact ⟨by simp [Ne.symm hb, ih.1], ih.2⟩

/-- A text that is more than points, and so part of a name when it ends one. -/
def IsEnding (ext : Bytes) : Prop :=
  47 ∉ ext ∧ ext ≠ [] ∧ ext ≠ here ∧ ext ≠ up

theorem IsEnding.append (h : IsEnding ext) (name : Bytes) :
    name ++ ext ≠ [] ∧ name ++ ext ≠ here ∧ name ++ ext ≠ up := by
  obtain ⟨-, hnil, hhere, hup⟩ := h
  have hup' : up = [46, 46] := by decide
  rw [hup'] at hup ⊢
  refine ⟨by simp [hnil], ?_, ?_⟩
  · intro h
    rcases append_eq_singleton_iff.mp h with ⟨-, h⟩ | ⟨-, h⟩ <;> contradiction
  · intro h
    rcases name with _ | ⟨_, _ | ⟨_, _ | _⟩⟩
    · exact hup h
    · exact hhere (List.cons.inj h).2
    · exact hnil (List.cons.inj (List.cons.inj h).2).2
    · simp at h

theorem isAbsolute_ofSteps (hqs : ∀ q ∈ qs, 47 ∉ q ∧ q ≠ []) (rooted : Bool) :
    isAbsolute (ofSteps rooted qs) = rooted := by
  cases rooted with
  | true => rfl
  | false =>
    cases qs with
    | nil => rfl
    | cons q qs =>
      obtain ⟨hq, hne⟩ := hqs q mem_cons_self
      obtain ⟨b, rest, rfl⟩ := exists_cons_of_ne_nil hne
      have hb : b ≠ 47 := fun he => hq (he ▸ mem_cons_self)
      cases qs <;> simp [ofSteps, Bytes.join, isAbsolute, hb]

theorem parts_ofSteps (hqs : ∀ q ∈ qs, 47 ∉ q ∧ q ≠ [] ∧ q ≠ here) (rooted : Bool) :
    parts (ofSteps rooted qs) = qs := by
  have hkeep : qs.filter (fun part => part ≠ [] ∧ part ≠ here) = qs :=
    filter_eq_self.2 fun q hq => by simpa using (hqs q hq).2
  have hslash : Bytes.ofString "/" = [47] := by decide
  by_cases hnil : qs = []
  · rw [hnil]
    cases rooted <;> decide
  · have hsplit := Bytes.splitOn_join hnil fun q hq => (hqs q hq).1
    cases rooted <;> simpa [ofSteps, parts, hnil, hslash, Bytes.splitOn, hsplit] using hkeep

theorem mem_steps (h : q ∈ steps p) : 47 ∉ q ∧ q ≠ [] ∧ q ≠ here := by
  obtain ⟨hne, hhere⟩ := ne_of_mem_steps h
  rcases mem_reduce h with h | h
  · cases h
  · exact ⟨slash_notMem_splitOn _ q (mem_filter.mp h).1, hne, hhere⟩

end Path

namespace Disk

variable {d : Disk} {p : Bytes}

/-- The place a path leads to, by its text alone. -/
def placeOf (d : Disk) (p : Bytes) : Place :=
  (p.splitOn 47).foldl step (if Path.isAbsolute p then [] else d.cwd)

theorem eq_foldl_of_walk {names : List Bytes} (h : d.walk place names = .ok q) :
    q = names.foldl step place := by
  induction names generalizing place with
  | nil => cases h; rfl
  | cons name names ih =>
    rw [walk] at h
    split at h
    · cases h
    · cases h
    · exact ih h

theorem eq_placeOf_of_locate (h : d.locate p = .ok place) : place = d.placeOf p := by
  rw [locate] at h
  split at h
  · cases h
  · exact eq_foldl_of_walk h

theorem foldl_step_filter (place : Place) (names : List Bytes) :
    (names.filter fun name => name ≠ [] ∧ name ≠ Path.here).foldl step place =
      names.foldl step place := by
  induction names generalizing place with
  | nil => rfl
  | cons name names ih =>
    by_cases hname : name ≠ [] ∧ name ≠ Path.here
    · rw [filter_cons_of_pos (by simpa using hname), foldl_cons, foldl_cons, ih]
    · have hstay : step place name = place :=
        if_pos (by simpa only [List.isEmpty_iff, not_and_or, not_not] using hname)
      rw [filter_cons_of_neg (by simpa using hname), ih, foldl_cons, hstay]

/-- Taking `..` and the name before it away does not change where the parts lead. -/
theorem foldl_step_reduce (hrooted : rooted = true → place = []) (parts done : List Bytes)
    (hdone : ∀ part ∈ done, part ≠ [] ∧ part ≠ Path.here)
    (hparts : ∀ part ∈ parts, part ≠ [] ∧ part ≠ Path.here) :
    (Path.reduce rooted done parts).foldl step place =
      parts.foldl step (done.reverse.foldl step place) := by
  fun_induction Path.reduce rooted done parts with
  | case1 done => rfl
  | case2 rest ih =>
    have hrest := fun part hp => hparts part (mem_cons_of_mem _ hp)
    cases hr : rooted with
    | false =>
      rw [hr] at ih
      exact ih (by decide) hrest
    | true =>
      rw [hr] at ih
      have hstay : step place Path.up = place := by rw [hrooted hr]; decide
      simpa [hstay] using ih hdone hrest
  | case3 rest below ih =>
    have hrest := fun part hp => hparts part (mem_cons_of_mem _ hp)
    rw [ih (forall_mem_cons.2 ⟨by decide, hdone⟩) hrest]
    simp
  | case4 rest top below htop ih =>
    have hrest := fun part hp => hparts part (mem_cons_of_mem _ hp)
    obtain ⟨⟨hnil, hhere⟩, hbelow⟩ := forall_mem_cons.1 hdone
    have hback : ∀ q, step (step q top) Path.up = q := by
      intro q
      have hdown : step q top = q ++ [top] := by simp [step, hnil, hhere, htop]
      have hup : step (q ++ [top]) Path.up = (q ++ [top]).dropLast := rfl
      rw [hdown, hup, dropLast_concat]
    rw [ih hbelow hrest]
    simp [hback]
  | case5 done part rest hpart ih =>
    obtain ⟨hproper, hrest⟩ := forall_mem_cons.1 hparts
    rw [ih (forall_mem_cons.2 ⟨hproper, hdone⟩) hrest]
    simp

theorem placeOf_eq_foldl (d : Disk) (p : Bytes) :
    d.placeOf p = (Path.parts p).foldl step (if Path.isAbsolute p then [] else d.cwd) :=
  (foldl_step_filter _ _).symm

theorem placeOf_clean (d : Disk) (p : Bytes) : d.placeOf (Path.clean p) = d.placeOf p := by
  have hsteps : ∀ q ∈ Path.steps p, 47 ∉ q ∧ q ≠ [] ∧ q ≠ Path.here := fun q => Path.mem_steps
  have habs := Path.isAbsolute_ofSteps (fun q hq => ⟨(hsteps q hq).1, (hsteps q hq).2.1⟩)
    (Path.isAbsolute p)
  have hparts := Path.parts_ofSteps hsteps (Path.isAbsolute p)
  rw [placeOf_eq_foldl, placeOf_eq_foldl, Path.clean, hparts, habs, Path.steps,
    foldl_step_reduce (by simp +contextual) _ _ (by simp)
      (fun part hp => by simpa using (mem_filter.1 hp).2)]
  rfl

end Disk

end Covenant
