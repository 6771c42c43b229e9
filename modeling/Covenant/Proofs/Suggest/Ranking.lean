import Covenant.Diagnostic
import Mathlib

/-!
# The order of suggestions

`Suggest.top` names the candidates within reach by their distance, and those at one distance by
their place among the candidates.  The hint for a decorator is the first of them.
-/

namespace Covenant

open List
open Bytes (ofString)

namespace Suggest

/-- The distance of the candidate at a place, whatever the case of letters. -/
def gap (word : Bytes) (cs : List Bytes) (i : Nat) : Nat :=
  distance word.lower (cs.getD i []).lower

/-- The candidate at the place differs from the word and is within its reach. -/
def IsNear (word : Bytes) (cs : List Bytes) (i : Nat) : Prop :=
  i < cs.length ∧ 1 ≤ gap word cs i ∧ gap word cs i ≤ reach word

/-- The candidate at the first place is closer, or as close and named earlier. -/
def Before (word : Bytes) (cs : List Bytes) (i j : Nat) : Prop :=
  gap word cs i < gap word cs j ∨ gap word cs i = gap word cs j ∧ i < j

/-- All places of candidates within reach, in the order of suggestions. -/
structure IsRanking (word : Bytes) (cs : List Bytes) (places : List Nat) : Prop where
  mem_iff (i : Nat) : i ∈ places ↔ IsNear word cs i
  ordered : places.Pairwise (Before word cs)

theorem Before.ne (h : Before word cs i j) : i ≠ j := by
  rintro rfl
  simp [Before] at h

theorem IsRanking.unique (hp : IsRanking word cs ps) (hq : IsRanking word cs qs) : ps = qs := by
  have hperm : ps.Perm qs := (perm_ext_iff_of_nodup (hp.ordered.imp Before.ne)
    (hq.ordered.imp Before.ne)).2 fun i => (hp.mem_iff i).trans (hq.mem_iff i).symm
  refine hperm.eq_of_pairwise (fun i j _ _ hij hji => ?_) hp.ordered hq.ordered
  unfold Before at hij hji
  omega

/-! ### The stable sort -/

/-- The places of the candidates within reach, as they come. -/
def nearPlaces (word : Bytes) (cs : List Bytes) : List Nat :=
  (range cs.length).filter fun i => 0 < gap word cs i && gap word cs i ≤ reach word

theorem near_eq_map (word : Bytes) (cs : List Bytes) :
    near word cs = (nearPlaces word cs).map fun i => (cs.getD i [], gap word cs i) := by
  have hplaces : cs.map (fun c => (c, distance word.lower c.lower)) =
      (range cs.length).map fun i => (cs.getD i [], gap word cs i) := by
    refine ext_getElem (by simp) fun i hi _ => ?_
    have hi : i < cs.length := by simpa using hi
    simp [gap, hi]
  simp only [near, hplaces, filter_map, nearPlaces]
  rfl

def byGap (word : Bytes) (cs : List Bytes) (i j : Nat) : Bool :=
  gap word cs i ≤ gap word cs j

def ranking (word : Bytes) (cs : List Bytes) : List Nat :=
  (nearPlaces word cs).mergeSort (byGap word cs)

theorem isRanking_ranking (word : Bytes) (cs : List Bytes) :
    IsRanking word cs (ranking word cs) where
  mem_iff i := by simp [ranking, nearPlaces, IsNear, Nat.succ_le_iff]
  ordered := by
    have trans (i j k : Nat) (hij : byGap word cs i j) (hjk : byGap word cs j k) :
        byGap word cs i k := by
      simp only [byGap, decide_eq_true_eq] at hij hjk ⊢
      exact hij.trans hjk
    have total (i j : Nat) : byGap word cs i j || byGap word cs j i := by
      simpa [byGap] using Nat.le_total _ _
    have hplaces : (nearPlaces word cs).Pairwise (· < ·) := pairwise_lt_range.filter _
    have hnodup : (ranking word cs).Nodup :=
      (mergeSort_perm _ _).nodup_iff.2 (hplaces.imp Nat.ne_of_lt)
    refine pairwise_iff_forall_sublist.2 fun {i j} hij => ?_
    have hle : gap word cs i ≤ gap word cs j := by
      simpa [byGap] using pairwise_iff_forall_sublist.1 (pairwise_mergeSort trans total _) hij
    refine hle.lt_or_eq.imp_right fun heq => ⟨heq, ?_⟩
    -- were the two places in the other order, the sort would have kept it
    by_contra hlt
    have hmem {k : Nat} (hk : k ∈ [i, j]) : k ∈ nearPlaces word cs :=
      mem_mergeSort.1 (hij.subset hk)
    have hne : i ≠ j := pairwise_iff_forall_sublist.1 hnodup hij
    have hfront : [j, i] <+ nearPlaces word cs := by
      refine sublist_of_subperm_of_pairwise (subperm_of_subset (by simp [hne.symm]) ?_)
        (pairwise_pair.2 (by omega)) hplaces
      simp [cons_subset, hmem]
    have hji := pair_sublist_mergeSort trans total (by simp [byGap, heq]) hfront
    have hindex : (ranking word cs).Pairwise fun a b =>
        idxOf a (ranking word cs) < idxOf b (ranking word cs) :=
      pairwise_iff_getElem.2 fun a b ha hb hab => by simpa [hnodup.idxOf_getElem] using hab
    exact Nat.lt_asymm (pairwise_iff_forall_sublist.1 hindex hij)
      (pairwise_iff_forall_sublist.1 hindex hji)

/-! ### Suggestions -/

theorem top_eq (hword : word ≠ []) (n : Nat) :
    top word cs n = ((ranking word cs).take n).map (cs.getD · []) := by
  rw [top, if_neg (by simpa using hword), near_eq_map, ranking,
    ← map_mergeSort (r := byGap word cs)]
  · simp [map_take, Function.comp_def]
  · simp [byGap]

theorem closest?_eq (hword : word ≠ []) :
    closest? word cs = (ranking word cs).head?.map (cs.getD · []) := by
  rw [closest?, top_eq hword, head?_map, head?_take, if_neg Nat.one_ne_zero]

/-- No candidate that differs from the word is closer than the first one in the ranking. -/
theorem IsRanking.head_le (h : IsRanking word cs (i :: ps)) (hj : j < cs.length)
    (hne : gap word cs j ≠ 0) : gap word cs i ≤ gap word cs j := by
  obtain ⟨-, -, hreach⟩ := (h.mem_iff i).1 mem_cons_self
  by_cases hnear : gap word cs j ≤ reach word
  · have hmem := (h.mem_iff j).2 ⟨hj, Nat.pos_of_ne_zero hne, hnear⟩
    obtain rfl | hmem := mem_cons.1 hmem
    · exact Nat.le_refl _
    · have hbefore := rel_of_pairwise_cons h.ordered hmem
      unfold Before at hbefore
      omega
  · omega

end Suggest

namespace Diagnostic

open Suggest

theorem hints_unknownDecorator {name : Bytes} (hname : name ≠ [])
    (h : IsRanking name knownDecorators ps) (pos : Pos) :
    (ofFault ⟨.unknownDecorator name, pos⟩).hints = (ps.head?.map fun i =>
      "Did you mean `@" ++ knownDecorators.getD i [] ++ "`?").toList := by
  obtain rfl := h.unique (isRanking_ranking name knownDecorators)
  change decoratorHint name = _
  rw [decoratorHint, closest?_eq hname]
  cases hhead : (ranking name knownDecorators).head? with
  | none => rfl
  | some i =>
    have hi := ((h.mem_iff i).1 (mem_of_head? hhead)).1
    have hnonempty : ∀ i < 5, (knownDecorators.getD i []).isEmpty = false := by decide
    simp only [Option.map_some, hnonempty i hi]
    rfl

/-- **Suggestions are the nearest candidates.**  Exactly one list has the places of all candidates
within reach in their order; the suggestions are its first entries.  The hint for a decorator is
there when a known one is within reach, and names one as close as any that differs. -/
theorem suggestions_nearest (word : Bytes) (hword : word ≠ []) (cs : List Bytes) :
    (∃ ps, IsRanking word cs ps ∧ (∀ qs, IsRanking word cs qs → qs = ps) ∧
      (∀ n, top word cs n = (ps.take n).map (cs.getD · [])) ∧
      closest? word cs = ps.head?.map (cs.getD · []) ∧
      ∀ n, ∀ i ∈ ps.take n, ∀ j ∈ ps.drop n, gap word cs i ≤ gap word cs j) ∧
    ∀ pos, ((ofFault ⟨.unknownDecorator word, pos⟩).hints = [] ↔
        ∀ i, ¬ IsNear word knownDecorators i) ∧
      ∀ hint ∈ (ofFault ⟨.unknownDecorator word, pos⟩).hints, ∃ d ∈ knownDecorators,
        hint = "Did you mean `@" ++ d ++ "`?" ∧ distance word.lower d.lower ≠ 0 ∧
        ∀ e ∈ knownDecorators, distance word.lower e.lower ≠ 0 →
          distance word.lower d.lower ≤ distance word.lower e.lower := by
  have hranking := isRanking_ranking word cs
  refine ⟨⟨_, hranking, fun qs hqs => hqs.unique hranking, top_eq hword, closest?_eq hword,
    fun n i hi j hj => ?_⟩, fun pos => ?_⟩
  · have hsplit := hranking.ordered
    rw [← take_append_drop n (ranking word cs)] at hsplit
    have hbefore := (pairwise_append.1 hsplit).2.2 i hi j hj
    unfold Before at hbefore
    omega
  have hknown := isRanking_ranking word knownDecorators
  rw [hints_unknownDecorator hword hknown]
  generalize ranking word knownDecorators = ps at hknown
  cases ps with
  | nil =>
    refine ⟨iff_of_true rfl fun i hi => ?_, fun _ hhint => absurd hhint not_mem_nil⟩
    exact not_mem_nil ((hknown.mem_iff i).2 hi)
  | cons i ps =>
    have hi := (hknown.mem_iff i).1 mem_cons_self
    refine ⟨iff_of_false (cons_ne_nil _ _) fun h => h i hi, forall_mem_singleton.2 ?_⟩
    have hmem : knownDecorators.getD i [] ∈ knownDecorators := by
      rw [getD_eq_getElem _ _ hi.1]
      exact getElem_mem _
    refine ⟨_, hmem, rfl, Nat.ne_of_gt hi.2.1, fun e he hne => ?_⟩
    obtain ⟨j, hj, rfl⟩ := getElem_of_mem he
    have hle := hknown.head_le hj (by rwa [gap, getD_eq_getElem _ _ hj])
    rwa [gap, gap, getD_eq_getElem _ _ hj] at hle

/-- Of two candidates at one distance the earlier comes first; one that differs in case only is
left out. -/
theorem suggestions_nearest_tie : ∃ ps, IsRanking "Mat" ["MAT", "map", "man"] ps ∧
    (ps.take 2).map (List.getD [ofString "MAT", "map", "man"] · []) = [ofString "map", "man"] := by
  obtain ⟨⟨ps, hps, -, htop, -⟩, -⟩ :=
    suggestions_nearest "Mat" (by decide) ["MAT", "map", "man"]
  exact ⟨ps, hps, (htop 2).symm.trans (by cbv)⟩

end Diagnostic

end Covenant
