import Covenant.Config
import Mathlib

/-!
# Profiles

A profile changes three settings of a configuration.  To apply it again changes nothing, the order
of profiles does not matter for the set of assets, and a valid configuration stays valid.
-/

namespace Covenant.Config

open List

variable {c d e : Config}

def profile? (c : Config) (name : Bytes) : Option Profile :=
  c.profiles.bind (·.lookup name)

/-- The configuration after a profile was asked for, whether there is one or not. -/
def after (c : Config) (name : Bytes) : Config :=
  (c.withProfile name).toOption.getD c

theorem withProfile_eq_ok_iff :
    c.withProfile name = .ok d ↔ ∃ p, c.profile? name = some p ∧ d = c.apply p := by
  unfold withProfile profile?
  cases c.profiles with
  | none => simp
  | some ps => cases hp : ps.lookup name <;> simp [hp, eq_comm]

/-! ### Assets -/

theorem foldl_assets (as names : List Bytes) :
    names.foldl (fun as a => if as.contains a then as else as ++ [a]) as =
      as ++ (names.filter fun a => !as.contains a).eraseDups := by
  induction names generalizing as with
  | nil => simp
  | cons a names ih =>
    rw [foldl_cons, ih]
    by_cases ha : as.contains a
    · rw [if_pos ha, filter_cons_of_neg (by simpa using ha)]
    · have hfresh : (fun b => !(as ++ [a]).contains b) = fun b => !b == a && !as.contains b := by
        funext b
        by_cases hb : b = a <;> simp [hb]
      rw [if_neg ha, filter_cons_of_pos (by simpa using ha), eraseDups_cons, filter_filter, hfresh,
        append_assoc, singleton_append]

theorem assets_apply (c : Config) (p : Profile) : (c.apply p).assets =
    c.assets ++ (p.assets.filter fun a => !c.assets.contains a).eraseDups :=
  foldl_assets _ _

theorem mem_assets_apply {a : Bytes} : a ∈ (c.apply p).assets ↔ a ∈ c.assets ∨ a ∈ p.assets := by
  rw [assets_apply, mem_append, mem_eraseDups, mem_filter]
  by_cases ha : a ∈ c.assets <;> simp [ha]

/-- The second configuration is the first one with the profile over it. -/
structure Overlays (c : Config) (p : Profile) (d : Config) : Prop where
  frame : d = { c with target := d.target, outDir := d.outDir, assets := d.assets }
  target : d.target = if p.target = [] then c.target else p.target
  outDir : d.outDir = if p.outDir = [] then c.outDir else Path.resolve c.baseDir p.outDir
  assets : d.assets = c.assets ++ (p.assets.filter fun a => !c.assets.contains a).eraseDups

theorem overlays_apply (c : Config) (p : Profile) : Overlays c p (c.apply p) where
  frame := rfl
  target := by simp [apply, addAssets]
  outDir := by simp [apply, addAssets]
  assets := assets_apply c p

theorem apply_apply (c : Config) (p : Profile) : (c.apply p).apply p = c.apply p := by
  have hfirst := overlays_apply c p
  have hsecond := overlays_apply (c.apply p) p
  have hassets : ((c.apply p).apply p).assets = (c.apply p).assets := by
    have hnone : (p.assets.filter fun a => !(c.apply p).assets.contains a) = [] :=
      filter_eq_nil_iff.2 fun a ha => by simpa using mem_assets_apply.2 (.inr ha)
    rw [assets_apply (c.apply p), hnone, eraseDups_nil, append_nil]
  have htarget : ((c.apply p).apply p).target = (c.apply p).target := by
    rw [hsecond.target, hfirst.target]
    split <;> rfl
  have houtDir : ((c.apply p).apply p).outDir = (c.apply p).outDir := by
    rw [hsecond.outDir, hfirst.outDir]
    split <;> rfl
  rw [hsecond.frame, htarget, houtDir, hassets]

/-! ### Validity -/

theorem isVersion_of_profileProblems (h : c.profileProblems = []) (hp : c.profile? name = some p)
    (hne : p.target ≠ []) : isVersion p.target = true := by
  obtain ⟨ps, hps, hlookup⟩ := Option.bind_eq_some_iff.1 hp
  obtain ⟨front, back, rfl, -⟩ := lookup_eq_some_iff.1 hlookup
  simp only [profileProblems, hps, Option.getD_some] at h
  have hlength := congrArg List.length h
  rw [length_mergeSort, length_map, length_nil, length_eq_zero_iff] at hlength
  have hbad := filter_eq_nil_iff.1 hlength (name, p) (by simp)
  simpa [hne] using hbad

theorem problems_apply (h : c.problems = []) (hp : c.profile? name = some p) :
    (c.apply p).problems = [] := by
  have hover := overlays_apply c p
  have htarget : isVersion c.target = true ∧ c.profileProblems = [] := by
    simp only [problems, append_eq_nil_iff, ite_eq_left_iff, cons_ne_nil] at h
    exact ⟨by simpa using h.1.1.1.1.1.1, h.2⟩
  have hversion : isVersion (c.apply p).target = true := by
    rw [hover.target]
    split
    · exact htarget.1
    · next hne => exact isVersion_of_profileProblems htarget.2 hp hne
  have hprofiles : (c.apply p).profileProblems = c.profileProblems := by
    rw [hover.frame]
    rfl
  rw [problems, if_pos htarget.1, nil_append] at h
  rw [problems, if_pos hversion, nil_append, hprofiles, hover.frame]
  exact h

theorem problems_foldlM {names : List Bytes} (h : c.problems = [])
    (hd : names.foldlM withProfile c = .ok d) : d.problems = [] := by
  induction names generalizing c with
  | nil =>
    cases hd
    exact h
  | cons name names ih =>
    rw [foldlM_cons] at hd
    cases hc : c.withProfile name with
    | error e =>
      rw [hc] at hd
      cases hd
    | ok c' =>
      rw [hc] at hd
      obtain ⟨p, hp, rfl⟩ := withProfile_eq_ok_iff.1 hc
      exact ih (problems_apply h hp) hd

/-- **A profile is laid over the configuration or leaves it alone.**  It succeeds when there is such
a profile; again, it changes nothing; after another one, it leads to the same assets; and a valid
configuration stays valid under any profiles in a row. -/
theorem withProfile_laws (c : Config) (name : Bytes) :
    ((∃ d, c.withProfile name = .ok d) ↔ ∃ p, c.profile? name = some p) ∧
    (∀ e, c.withProfile name = .error e → c.after name = c) ∧
    (∀ d, c.withProfile name = .ok d →
      c.after name = d ∧ (∃ p, c.profile? name = some p ∧ Overlays c p d) ∧
      d.withProfile name = .ok d ∧
      ∀ name' e, d.withProfile name' = .ok e →
        ∃ d' e', c.withProfile name' = .ok d' ∧ d'.withProfile name = .ok e' ∧
          ∀ a, a ∈ e.assets ↔ a ∈ e'.assets) ∧
    (c.problems = [] → ∀ (names : List Bytes) (d : Config),
      names.foldlM withProfile c = .ok d → d.problems = []) := by
  refine ⟨?_, fun e he => by rw [after, he]; rfl, fun d hd => ?_,
    fun h names d => problems_foldlM h⟩
  · simp only [withProfile_eq_ok_iff]
    rw [exists_comm]
    simp
  obtain ⟨p, hp, rfl⟩ := withProfile_eq_ok_iff.1 hd
  refine ⟨by rw [after, hd]; rfl, ⟨p, hp, overlays_apply c p⟩,
    withProfile_eq_ok_iff.2 ⟨p, hp, (apply_apply c p).symm⟩, fun name' e he => ?_⟩
  obtain ⟨q, hq, rfl⟩ := withProfile_eq_ok_iff.1 he
  refine ⟨c.apply q, (c.apply q).apply p, withProfile_eq_ok_iff.2 ⟨q, hq, rfl⟩,
    withProfile_eq_ok_iff.2 ⟨p, hp, rfl⟩, fun a => ?_⟩
  simp only [mem_assets_apply]
  tauto

end Covenant.Config
