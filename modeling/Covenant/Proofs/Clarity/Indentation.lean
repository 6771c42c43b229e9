import Covenant.Proofs.Clarity.Reading

/-!
# Indentation

A form that is printed deeper has the same text, but for more blanks behind each line feed, as long
as its atoms hold none.
-/

namespace Covenant

open List

/-- The text with the blanks of `k` more levels behind each line feed. -/
def Bytes.shifted (k : Nat) (s : Bytes) : Bytes :=
  s.flatMap fun b => if b = 10 then b :: List.replicate (2 * k) 32 else [b]

theorem Bytes.shifted_append (k : Nat) (s t : Bytes) :
    shifted k (s ++ t) = shifted k s ++ shifted k t :=
  flatMap_append

theorem Bytes.shifted_eq (h : 10 ∉ s) : shifted k s = s := by
  induction s with
  | nil => rfl
  | cons b s ih =>
    obtain ⟨hb, hs⟩ := not_or.1 (mt mem_cons.2 h)
    rw [shifted, flatMap_cons, if_neg (Ne.symm hb), ← shifted, ih hs]
    rfl

theorem Quoted.newline_notMem_glyph (g : Glyph) : 10 ∉ glyph g := by
  have hhex (width n : Nat) : 10 ∉ hex width n := by
    induction width generalizing n with
    | zero => exact not_mem_nil
    | succ width ih =>
      have hdigit : ∀ d < 16, 10 ≠ hexDigit d := by decide
      simp [hex, ih, hdigit (n % 16) (Nat.mod_lt _ (by decide))]
  have hchar {c : Char} (hc : c ≠ '\n') : 10 ∉ Bytes.ofChar c := fun h =>
    hc (Bytes.eq_of_mem_ofChar h (by decide))
  have hescape (s : String) (hs : 10 ∉ Bytes.ofString s) {t : Bytes} (ht : 10 ∉ t) :
      10 ∉ Bytes.ofString s ++ t := by simp [hs, ht]
  cases g with
  | stray b => exact hescape _ (by decide) (hhex _ _)
  | char c =>
    rw [glyph]
    split
    · next h => exact hescape _ (by decide) (hchar (by rintro rfl; simp at h))
    split
    · next h => exact hchar (by rintro rfl; exact absurd h (by decide))
    split
    · next e h =>
      refine hescape _ (by decide) (hchar ?_)
      rintro rfl
      unfold shortEscape at h
      split at h <;> cases h
    split
    · exact hescape _ (by decide) (hhex _ _)
    split <;> exact hescape _ (by decide) (hhex _ _)

theorem Quoted.newline_notMem_encode (s : Bytes) : 10 ∉ encode s := by
  have hglyphs : 10 ∉ s.glyphs.flatMap glyph := fun h => by
    obtain ⟨g, -, hg⟩ := mem_flatMap.1 h
    exact newline_notMem_glyph g hg
  simp only [encode, mem_append, hglyphs, or_false]
  decide

namespace Form

/-- Printed deeper, the form is the same text with more blanks behind each line feed. -/
def Shifts (f : Form) : Prop :=
  ∀ d k, f.print (d + k) = (f.print d).shifted k

theorem shifted_indent (d k : Nat) :
    Bytes.shifted k (Bytes.ofString "\n" ++ indent d) = Bytes.ofString "\n" ++ indent (d + k) := by
  have hindent (n : Nat) : indent n = List.replicate (2 * n) 32 := by
    induction n with
    | zero => rfl
    | succ n ih =>
      rw [indent, Bytes.replicate, replicate_succ, flatten_cons, ← Bytes.replicate, ← indent, ih]
      rfl
  have hline : Bytes.shifted k (Bytes.ofString "\n") = 10 :: List.replicate (2 * k) 32 :=
    append_nil _
  rw [hindent, hindent, Bytes.shifted_append, hline,
    Bytes.shifted_eq (s := replicate _ _) (by simp),
    cons_append, replicate_append_replicate, Nat.mul_add, Nat.add_comm]
  rfl

theorem Shifts.list {items : List (Gap × Form)} (h : ∀ i ∈ items, i.2.Shifts) :
    (Form.list items).Shifts := by
  intro d k
  have hitems : printItems (d + k) items = (printItems d items).shifted k := by
    induction items with
    | nil => rfl
    | cons i items ih =>
      obtain ⟨gap, f⟩ := i
      have hf : f.Shifts := h _ (.head _)
      have ih := ih fun i hi => h i (.tail _ hi)
      have hdeeper : d + k + 1 = d + 1 + k := by omega
      have hblank : Bytes.shifted k (Bytes.ofString " ") = Bytes.ofString " " := rfl
      cases gap with
      | glued => rw [printItems, printItems, Bytes.shifted_append, ih, hf]
      | space =>
        rw [printItems, printItems, Bytes.shifted_append, Bytes.shifted_append, ih, hf, hblank]
      | line =>
        rw [printItems, printItems, Bytes.shifted_append, Bytes.shifted_append, ih, hdeeper, hf,
          shifted_indent]
      | aligned =>
        rw [printItems, printItems, Bytes.shifted_append, Bytes.shifted_append,
          Bytes.shifted_append,
          ih, hf, shifted_indent, hblank]
  rw [print, print, hitems, Bytes.shifted_append, Bytes.shifted_append]
  rfl

end Form

end Covenant
