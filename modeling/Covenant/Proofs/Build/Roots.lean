import Covenant.Build.Layout
import Mathlib.Data.Finset.Max
import Mathlib.Data.List.Induction
import Mathlib.Order.Basic

/-!
# Outputs below the deepest root

An output keeps the way from the deepest root around its source down to the source's directory.
The roots around a directory are the starts of one list of names, so the deepest one has the
fewest names left over.  The layout compares the texts of the ways instead, and the text `.` of
the empty way is as long as a name of one byte.
-/

namespace Covenant

open List

namespace Path

theorem mem_reduce {done parts : List Bytes}
    (h : part ∈ reduce rooted done parts) : part ∈ done ∨ part ∈ parts := by
  fun_induction reduce rooted done parts with
  | case1 done => exact .inl (mem_reverse.mp h)
  | case2 rest ih | case3 rest below ih | case4 rest top below htop ih
  | case5 done part rest hpart ih => grind

theorem ne_of_mem_steps (h : part ∈ steps p) : part ≠ [] ∧ part ≠ here := by
  rcases mem_reduce h with hdone | hpart
  · cases hdone
  · exact of_decide_eq_true (mem_filter.mp hpart).2

/-- The way `rest` leads from the root down to the path, which is of its kind. -/
def Leads (root p : Bytes) (rest : List Bytes) : Prop :=
  isAbsolute root = isAbsolute p ∧ steps p = steps root ++ rest ∧ rest.head? ≠ some up

def Holds (root p : Bytes) : Prop :=
  ∃ rest, Leads root p rest

theorem below?_eq_some_iff :
    below? root p = some way ↔ ∃ rest, Leads root p rest ∧ ofSteps false rest = way := by
  constructor
  · intro h
    unfold below? at h
    split at h
    · cases h
    · next hkind =>
      split at h
      · next hstart =>
        obtain ⟨rest, hrest⟩ := isPrefixOf_iff_prefix.mp hstart
        rw [← hrest, drop_left] at h
        simp only at h
        split at h
        · cases h
        · next hup =>
          exact ⟨rest, ⟨not_not.mp hkind, hrest.symm, by simpa using hup⟩, Option.some.inj h⟩
      · cases h
  · rintro ⟨rest, ⟨hkind, hsteps, hup⟩, rfl⟩
    simp [below?, hkind, hsteps, hup]

namespace Leads

theorem ne (h : Leads root p rest) : ∀ part ∈ rest, part ≠ [] ∧ part ≠ here := by
  intro part hpart
  refine ne_of_mem_steps (p := p) ?_
  rw [h.2.1]
  exact mem_append_right _ hpart

theorem length (h : Leads root p rest) : (steps root).length + rest.length = (steps p).length := by
  rw [h.2.1, length_append]

/-- Of two ways down to one path, the longer one ends in the shorter one. -/
theorem exists_append (h : Leads root p rest) (h' : Leads root' p rest')
    (hle : rest'.length ≤ rest.length) : ∃ more, rest = more ++ rest' :=
  (suffix_of_suffix_length_le ⟨steps root', h'.2.1.symm⟩ ⟨steps root, h.2.1.symm⟩ hle).imp
    fun _ => Eq.symm

end Leads

/-! ### Lengths of ways -/

theorem length_join_pos (hx : x ≠ []) : 0 < (Bytes.join "/" (x :: xs)).length := by
  have := length_pos_iff.mpr hx
  cases xs <;> simp only [Bytes.join, length_append] <;> omega

theorem length_join_append (hys : ys ≠ []) (hxs : xs ≠ []) :
    (Bytes.join "/" ys).length < (Bytes.join "/" (xs ++ ys)).length := by
  have hslash : (Bytes.ofString "/").length = 1 := by decide
  induction xs with
  | nil => exact absurd rfl hxs
  | cons x xs ih =>
    have hcons : (Bytes.join "/" (x :: (xs ++ ys))).length =
        x.length + 1 + (Bytes.join "/" (xs ++ ys)).length := by
      cases hrest : xs ++ ys with
      | nil => exact absurd (append_eq_nil_iff.mp hrest).2 hys
      | cons y rest => simp only [Bytes.join, length_append, hslash]
    rw [cons_append, hcons]
    by_cases hnil : xs = []
    · subst hnil
      simp only [nil_append]
      omega
    · have := ih hnil
      omega

/-- **A longer way has a longer text, unless it is one byte and the other way is empty.** -/
theorem length_ofSteps_append (hxs : xs ≠ [])
    (hne : ∀ x ∈ xs, x ≠ []) (htie : ¬(ys = [] ∧ ∃ b, xs = [[b]])) :
    (ofSteps false ys).length < (ofSteps false (xs ++ ys)).length := by
  have happ : xs ++ ys ≠ [] := by simp [hxs]
  have htext : ofSteps false (xs ++ ys) = Bytes.join "/" (xs ++ ys) := by simp [ofSteps, happ]
  rw [htext]
  by_cases hys : ys = []
  · subst hys
    rw [append_nil]
    have hhere : (ofSteps false []).length = 1 := by decide
    rw [hhere]
    rcases xs with _ | ⟨x, _ | ⟨y, rest⟩⟩
    · exact absurd rfl hxs
    · rcases x with _ | ⟨b, _ | _⟩
      · exact absurd rfl (hne [] mem_cons_self)
      · exact absurd ⟨rfl, b, rfl⟩ htie
      · simp [Bytes.join]
    · have hslash : (Bytes.ofString "/").length = 1 := by decide
      have hy : 0 < (Bytes.join "/" (y :: rest)).length := length_join_pos (hne y (by simp))
      simp only [Bytes.join, length_append, hslash] at *
      omega
  · have htext' : ofSteps false ys = Bytes.join "/" ys := by simp [ofSteps, hys]
    rw [htext']
    exact length_join_append hys hxs

end Path

namespace Layout

open Path

variable {l : Layout}

/-! ### The first of the shortest ways -/

/-- The first of the shortest texts that `way?` gives for the roots. -/
def IsFirst (way? : Bytes → Option Bytes) (roots : List Bytes) (way : Bytes) : Prop :=
  ∃ before root after, roots = before ++ root :: after ∧ way? root = some way ∧
    (∀ r ∈ before, ∀ w, way? r = some w → way.length < w.length) ∧
    ∀ r ∈ after, ∀ w, way? r = some w → way.length ≤ w.length

theorem foldl_shorter (way? : Bytes → Option Bytes) (roots : List Bytes) :
    (roots.filterMap way?).foldl shorter none = none ∧ (∀ r ∈ roots, way? r = none) ∨
      ∃ way, (roots.filterMap way?).foldl shorter none = some way ∧ IsFirst way? roots way := by
  induction roots using reverseRecOn with
  | nil => exact .inl ⟨rfl, by simp⟩
  | append_singleton roots r ih =>
    cases hr : way? r with
    | none =>
      rcases ih with ⟨hnone, hall⟩ | ⟨way, hsome, before, root, after, hs, hroot, hb, ha⟩
      · exact .inl ⟨by simp [hr, hnone], by grind⟩
      · exact .inr ⟨way, by simp [hr, hsome], before, root, after ++ [r], by simp [hs], hroot,
          hb, by grind⟩
    | some w =>
      rcases ih with ⟨hnone, hall⟩ | ⟨way, hsome, before, root, after, hs, hroot, hb, ha⟩
      · exact .inr ⟨w, by simp [hr, hnone, shorter], roots, r, [], by simp, hr, by grind, by simp⟩
      · by_cases hlt : w.length < way.length
        · refine .inr ⟨w, by simp [hr, hsome, shorter, hlt], roots, r, [], rfl, hr, ?_, by simp⟩
          intro r' hmem v hv
          rcases mem_append.mp (hs ▸ hmem) with hmem | hmem
          · exact hlt.trans (hb r' hmem v hv)
          · rcases mem_cons.mp hmem with rfl | hmem
            · rw [hroot] at hv
              exact Option.some.inj hv ▸ hlt
            · exact hlt.trans_le (ha r' hmem v hv)
        · exact .inr ⟨way, by simp [hr, hsome, shorter, hlt], before, root, after ++ [r],
            by simp [hs], hroot, hb, by grind⟩

/-! ### The deepest root -/

def Deepest (l : Layout) (source root : Bytes) : Prop :=
  root ∈ l.roots ∧ Holds root (directory source) ∧
    ∀ r ∈ l.roots, Holds r (directory source) → (steps r).length ≤ (steps root).length

/-- The directory of the source is a root, its name has one byte, and the root right above it comes
before it. -/
def Shadowed (l : Layout) (source : Bytes) : Prop :=
  ∃ before root after, l.roots = before ++ root :: after ∧
    (∃ b, Leads root (directory source) [[b]]) ∧
    (∀ r ∈ before, ¬Leads r (directory source) []) ∧ ∃ r ∈ after, Leads r (directory source) []

/-- The directory of the source is a root, its name has one byte, and so is the directory right
above it. -/
def Tied (l : Layout) (source : Bytes) : Prop :=
  (∃ r ∈ l.roots, Leads r (directory source) []) ∧
    ∃ r ∈ l.roots, ∃ b, Leads r (directory source) [[b]]

theorem Shadowed.tied (h : l.Shadowed source) : l.Tied source := by
  obtain ⟨before, root, after, hroots, hname, -, r, hr, hself⟩ := h
  exact ⟨⟨r, by simp [hroots, hr], hself⟩, root, by simp [hroots], hname⟩

theorem Deepest.congr {roots : List Bytes} (h : l.Deepest source root)
    (hroots : ∀ r, r ∈ roots ↔ r ∈ l.roots) : { l with roots }.Deepest source root :=
  ⟨(hroots root).mpr h.1, h.2.1, fun r hr => h.2.2 r ((hroots r).mp hr)⟩

theorem exists_deepest (h : ∃ r ∈ l.roots, Holds r (directory source)) :
    ∃ root, l.Deepest source root := by
  classical
  obtain ⟨r, hr, hholds⟩ := h
  obtain ⟨root, hroot, hmax⟩ := (l.roots.toFinset.filter
    (Holds · (directory source))).exists_max_image (fun r => (steps r).length) ⟨r, by simp [*]⟩
  simp only [Finset.mem_filter, mem_toFinset] at hroot hmax
  exact ⟨root, hroot.1, hroot.2, fun r hr hholds => hmax r ⟨hr, hholds⟩⟩

theorem Deepest.exists_append (h : l.Deepest source root)
    (hrest : Leads root (directory source) rest) (hr : r ∈ l.roots)
    (hway : Leads r (directory source) way) : ∃ more, way = more ++ rest := by
  refine hway.exists_append hrest ?_
  have := h.2.2 r hr ⟨way, hway⟩
  have := hrest.length
  have := hway.length
  omega

theorem wayDown_of_outside (h : ∀ r ∈ l.roots, ¬Holds r (directory source)) :
    l.wayDown source = here := by
  have hnone : ∀ r ∈ l.roots, below? r (directory source) = none := by
    intro r hr
    by_contra hsome
    obtain ⟨way, hway⟩ := Option.ne_none_iff_exists'.mp hsome
    obtain ⟨rest, hrest, -⟩ := below?_eq_some_iff.mp hway
    exact h r hr ⟨rest, hrest⟩
  rw [wayDown, filterMap_eq_nil_iff.mpr hnone]
  rfl

/-- What is taken is the first of the shortest ways. -/
theorem exists_wayDown (h : ∃ r ∈ l.roots, Holds r (directory source)) :
    IsFirst (below? · (directory source)) l.roots (l.wayDown source) := by
  obtain ⟨r, hr, rest, hrest⟩ := h
  rcases foldl_shorter (below? · (directory source)) l.roots with ⟨-, hall⟩ | ⟨way, hway, hfirst⟩
  · have := below?_eq_some_iff.mpr ⟨rest, hrest, rfl⟩
    rw [hall r hr] at this
    cases this
  · rw [wayDown, hway]
    exact hfirst

theorem wayDown_of_deepest (h : l.Deepest source root)
    (hrest : Leads root (directory source) rest) (hshadow : ¬l.Shadowed source) :
    l.wayDown source = ofSteps false rest := by
  obtain ⟨before, r, after, hroots, hway, hb, ha⟩ := exists_wayDown ⟨root, h.1, h.2.1⟩
  obtain ⟨way, hlead, htext⟩ := below?_eq_some_iff.mp hway
  obtain ⟨more, rfl⟩ := h.exists_append hrest (by simp [hroots]) hlead
  by_cases hmore : more = []
  · rw [← htext, hmore, nil_append]
  exfalso
  have hbelow : ∀ {r'}, Leads r' (directory source) rest →
      below? r' (directory source) = some (ofSteps false rest) :=
    fun hr' => below?_eq_some_iff.mpr ⟨rest, hr', rfl⟩
  -- the way taken is not longer than that of the deepest root, wherever that one stands
  have hmem : root ∈ before ∨ root = r ∨ root ∈ after := by simpa [hroots] using h.1
  have hle : (l.wayDown source).length ≤ (ofSteps false rest).length := by
    rcases hmem with hmem | rfl | hmem
    · exact (hb root hmem _ (hbelow hrest)).le
    · exact (congrArg List.length (Option.some.inj ((hbelow hrest).symm.trans hway))).ge
    · exact ha root hmem _ (hbelow hrest)
  by_cases htie : rest = [] ∧ ∃ b, more = [[b]]
  · obtain ⟨rfl, b, rfl⟩ := htie
    have hone : (l.wayDown source).length = 1 := by rw [← htext]; rfl
    have hself : ∀ r' ∈ before, ¬Leads r' (directory source) [] := by
      intro r' hr' hlead'
      have : (l.wayDown source).length < 1 := hb r' hr' _ (hbelow hlead')
      omega
    rcases hmem with hmem | rfl | hmem
    · exact hself root hmem hrest
    · simpa using hlead.length.trans hrest.length.symm
    · exact hshadow ⟨before, r, after, hroots, ⟨b, hlead⟩, hself, root, hmem, hrest⟩
  · have hne := hlead.ne
    have := length_ofSteps_append hmore (fun x hx => (hne x (by simp [hx])).1) htie
    rw [htext] at this
    omega

theorem eq_nil_of_ofSteps_eq_here (hne : ∀ part ∈ rest, part ≠ [] ∧ part ≠ here)
    (h : ofSteps false rest = here) : rest = [] := by
  rcases rest with _ | ⟨x, _ | ⟨y, more⟩⟩
  · rfl
  · exact absurd h (hne x (by simp)).2
  · have hlt : (ofSteps false more).length < (ofSteps false ([x, y] ++ more)).length :=
      length_ofSteps_append (by simp) (fun z hz => (hne z (by simp at hz ⊢; tauto)).1) (by simp)
    have hlen : (ofSteps false ([x, y] ++ more)).length = 1 := congrArg List.length h
    have hpos : 0 < (ofSteps false more).length := by
      cases more with
      | nil => decide
      | cons z _ => exact length_join_pos (hne z (by simp)).1
    omega

theorem wayDown_of_shadowed (h : l.Shadowed source) : l.wayDown source ≠ here := by
  obtain ⟨before, a, after, hroots, ⟨b, ha⟩, hself, -⟩ := h
  obtain ⟨before', r, after', hroots', hway, hb, -⟩ :=
    exists_wayDown (l := l) ⟨a, by simp [hroots], _, ha⟩
  intro hhere
  obtain ⟨way, hlead, htext⟩ := below?_eq_some_iff.mp hway
  obtain rfl := eq_nil_of_ofSteps_eq_here hlead.ne (htext.trans hhere)
  have hne : r ≠ a := by
    rintro rfl
    simpa using hlead.length.trans ha.length.symm
  -- the root that was taken is the directory itself, so the one above it stands before it
  have hmem : a ∈ before' := by
    rcases append_eq_append_iff.mp (hroots.symm.trans hroots') with
      ⟨c, hc, hc'⟩ | ⟨c, hc, hc'⟩ <;> cases c <;> grind
  have := hb a hmem _ (below?_eq_some_iff.mpr ⟨_, ha, rfl⟩)
  rw [hhere] at this
  exact absurd this (by simp [ofSteps, Bytes.join, here]; decide)

/-- **The output of a source keeps the way down from the deepest root around it, unless that root
is shadowed by the one above it; where no root has such a rival, neither the order nor the number
of the roots matters.** -/
theorem wayDown_deepest (l : Layout) (source : Bytes) :
    ((∀ root ∈ l.roots, ¬Holds root (directory source)) → l.wayDown source = here) ∧
    (∀ root rest, l.Deepest source root → Leads root (directory source) rest →
      (l.wayDown source = ofSteps false rest ↔ ¬l.Shadowed source)) ∧
    (¬l.Tied source → ∀ roots, (∀ r, r ∈ roots ↔ r ∈ l.roots) →
      { l with roots }.outputPath source = l.outputPath source) := by
  refine ⟨wayDown_of_outside, fun root rest h hrest => ⟨?_, wayDown_of_deepest h hrest⟩, ?_⟩
  · intro hway hshadow
    obtain ⟨⟨r, hr, hself⟩, -⟩ := hshadow.tied
    obtain ⟨more, hmore⟩ := h.exists_append hrest hr hself
    obtain ⟨-, rfl⟩ := append_eq_nil_iff.mp hmore.symm
    exact wayDown_of_shadowed hshadow hway
  · intro htied roots hroots
    have hway : { l with roots }.wayDown source = l.wayDown source := by
      by_cases h : ∃ r ∈ l.roots, Holds r (directory source)
      · obtain ⟨root, hroot⟩ := exists_deepest h
        obtain ⟨rest, hrest⟩ := hroot.2.1
        have htied' : ¬{ l with roots }.Tied source := by simpa [Tied, hroots] using htied
        rw [wayDown_of_deepest hroot hrest (mt Shadowed.tied htied),
          wayDown_of_deepest (hroot.congr hroots) hrest (mt Shadowed.tied htied')]
      · simp only [not_exists, not_and] at h
        rw [wayDown_of_outside h, wayDown_of_outside fun r hr => h r ((hroots r).mp hr)]
    simp only [outputPath, hway]
    rfl

/-- A source in `a/b` goes to `build`, or to `build/b` when the root `a` is named first. -/
theorem outputPath_oneByte :
    let paths (roots : List Bytes) :=
      { outDir := "build", roots : Layout }.outputPath "a/b/token.stx"
    paths ["a", "a/b"] = "build/b/token.clar" ∧ paths ["a/b", "a"] = "build/token.clar" := by
  decide

end Layout

end Covenant
