import Covenant.Proofs.Program.Sound
import Mathlib.Data.List.TakeWhile
import Mathlib.Tactic.Ring

/-!
# Numbers out of range

The numerals of a source are runs of digits, and fractions with digits on both sides of the point.
They are refused for their size only: an integer beyond 64 bits, and a fraction that is nearer to
the next power of two than to the greatest finite number.
-/

namespace Covenant

open List TokenKind

/-! ### Quotients out of range -/

namespace Binary64

def halfUnit : Nat :=
  2 ^ 970

/-- Half a unit behind the greatest finite number; from here on, the nearest number is infinite. -/
def overflow : Nat :=
  (2 ^ 54 - 1) * halfUnit

theorem scale_ofNat (num den k : Nat) : scale num den (k : Int) = (num, den * 2 ^ k) := by
  rfl

theorem scale_unit (num den : Nat) (he : e = 971) :
    scale num den e = (num, den * (halfUnit * 2)) := by
  obtain ⟨k, hk⟩ : ∃ k : Nat, k = 970 := ⟨_, rfl⟩
  have hunit : halfUnit = 2 ^ k := by rw [hk, halfUnit]
  rw [show e = (k + 1 : Nat) by omega, scale_ofNat, hunit, Nat.pow_succ]

theorem le_of_exponentFor {num den : Nat} (hnum : num ≠ 0) (h : 972 ≤ exponentFor num den) :
    den * (2 ^ 54 * halfUnit) ≤ num := by
  rw [exponentFor] at h
  dsimp only at h
  generalize he : max ((num.log2 : Int) - den.log2 - 53) minExponent = e at h
  have hmin : minExponent = -1074 := rfl
  by_cases hlarge : 972 ≤ e
  · -- the numerator has at least 1025 binary digits more
    have hlog : den.log2 + 1 + (54 + 970) ≤ num.log2 := by omega
    calc den * (2 ^ 54 * halfUnit) ≤ 2 ^ (den.log2 + 1) * (2 ^ 54 * halfUnit) :=
          Nat.mul_le_mul_right _ (Nat.le_of_lt Nat.lt_log2_self)
      _ = 2 ^ (den.log2 + 1 + (54 + 970)) := by
        rw [Nat.pow_add 2 (den.log2 + 1) (54 + 970), Nat.pow_add 2 54 970, halfUnit]
      _ ≤ 2 ^ num.log2 := Nat.pow_le_pow_right (by decide) hlog
      _ ≤ num := Nat.log2_self_le hnum
  · split at h
    · next hq =>
      rw [scale_unit _ _ (by omega)] at hq
      calc den * (2 ^ 54 * halfUnit) = 2 ^ 53 * (den * (halfUnit * 2)) := by ring
        _ ≤ num := Nat.mul_le_of_le_div _ _ _ hq
    · omega

theorem le_of_roundHalfEven (h : roundHalfEven n d = 2 ^ 53) : (2 ^ 54 - 1) * d ≤ 2 * n := by
  rw [roundHalfEven] at h
  have hn := Nat.div_add_mod n d
  split at h
  · next hr =>
    have hq : n / d = 2 ^ 53 - 1 := by omega
    rw [hq] at hn
    omega
  · rw [h] at hn
    omega

theorem overflow_le_of_ofRatio {negative : Bool} {num den : Nat}
    (h : ofRatio negative num den = none) : overflow * den ≤ num := by
  have hmax : maxExponent = 971 := rfl
  rw [ofRatio] at h
  split at h
  · cases h
  next hnum =>
  by_cases he : 972 ≤ exponentFor num den
  · calc overflow * den ≤ den * (2 ^ 54 * halfUnit) := by
          rw [overflow, Nat.mul_comm]
          exact Nat.mul_le_mul_left _ (Nat.mul_le_mul_right _ (by decide))
      _ ≤ num := le_of_exponentFor hnum he
  · dsimp only at h
    split at h
    · next hq =>
      split at h
      · rw [scale_unit _ _ (by omega)] at hq
        have htwice : 2 * (overflow * den) ≤ 2 * num :=
          calc 2 * (overflow * den) = (2 ^ 54 - 1) * (den * (halfUnit * 2)) := by
                rw [overflow]
                ring
            _ ≤ 2 * num := le_of_roundHalfEven hq
        omega
      · cases h
    · split at h
      · omega
      · cases h

end Binary64

/-! ### Digits -/

def Bytes.IsFraction (w : Bytes) : Prop :=
  ∃ whole part : Bytes, whole.isNumeral = true ∧ part.isNumeral = true ∧ w = whole ++ 46 :: part

namespace Numeral

def IsDigit (b : UInt8) : Prop :=
  48 ≤ b ∧ b ≤ 57

variable {w : Bytes}

theorem forall_isDigit (h : w.isNumeral = true) : w ≠ [] ∧ ∀ b ∈ w, IsDigit b := by
  rw [Bytes.isNumeral, Bool.and_eq_true, all_eq_true] at h
  refine ⟨by simpa using h.1, fun b hb => ?_⟩
  have hb := h.2 b hb
  rw [Bool.and_eq_true, decide_eq_true_eq, decide_eq_true_eq] at hb
  exact hb

theorem digit?_of_isDigit (h : IsDigit b) : digit? b = some (b.toNat - 48) :=
  if_pos h

theorem ne_of_isDigit (h : IsDigit b) (hc : c < 48 ∨ 57 < c) : b ≠ c := by
  rintro rfl
  obtain ⟨h, h'⟩ := h
  obtain hc | hc := hc
  · exact absurd h (UInt8.not_le.2 hc)
  · exact absurd h' (UInt8.not_le.2 hc)

theorem exists_nat? (h : w.isNumeral = true) : ∃ n, nat? w = some n := by
  obtain ⟨hne, hdigits⟩ := forall_isDigit h
  have hfold (n : Nat) : ∃ m, w.foldl (fun n b => n.bind fun n => (digit? b).map (10 * n + ·))
      (some n) = some m := by
    clear h hne
    induction w generalizing n with
    | nil => exact ⟨n, rfl⟩
    | cons b w ih =>
      obtain ⟨hb, hw⟩ := forall_mem_cons.1 hdigits
      rw [foldl_cons, Option.bind_some, digit?_of_isDigit hb]
      exact ih hw _
  rw [nat?, if_neg (by simpa using hne)]
  exact hfold 0

theorem lt_of_int64? (h : w.isNumeral = true) (hnone : int64? w = none) :
    ∃ n, nat? w = some n ∧ Int64.maxValue.toInt < n := by
  obtain ⟨n, hn⟩ := exists_nat? h
  refine ⟨n, hn, ?_⟩
  have hint : int? w = some (n : Int) := by
    rw [int?, sign_of_isNumeral h]
    simp [hn]
  rw [int64?, hint, Option.bind_some] at hnone
  split at hnone
  · cases hnone
  · next hrange =>
    have hmin : Int64.minValue.toInt ≤ n := Int.le_trans (by decide) (Int.natCast_nonneg n)
    exact Int.not_le.1 fun hle => hrange ⟨hmin, hle⟩

/-! ### Fractions -/

theorem digits_append (h : ∀ b ∈ w, IsDigit b) (ds : Digits) (rest : Bytes) :
    ∃ ds' : Digits, digits 10 digit? ds (w ++ rest) = digits 10 digit? ds' rest ∧
      ds'.point = ds.point ∧ (ds.any = true ∨ w ≠ [] → ds'.any = true) := by
  induction w generalizing ds with
  | nil => exact ⟨ds, rfl, rfl, fun h => h.resolve_right (fun h => h rfl)⟩
  | cons b w ih =>
    obtain ⟨hb, hw⟩ := forall_mem_cons.1 h
    rw [cons_append, digits, if_neg (ne_of_isDigit hb (.inr (by decide))),
      if_neg (ne_of_isDigit hb (.inl (by decide))), digit?_of_isDigit hb]
    obtain ⟨ds', hds, hpoint, hany⟩ := ih hw
      { ds with
        value := 10 * ds.value + (b.toNat - 48), any := true
        behind := if ds.point then ds.behind + 1 else ds.behind }
    exact ⟨ds', hds, hpoint, fun _ => hany (.inl rfl)⟩

theorem digits_fraction (h : w.IsFraction) :
    ∃ ds : Digits, digits 10 digit? {} w = (ds, []) ∧ ds.any = true := by
  obtain ⟨whole, part, hwhole, hpart, rfl⟩ := h
  obtain ⟨hne, hwhole⟩ := forall_isDigit hwhole
  obtain ⟨ds, hds, hpoint, hany⟩ := digits_append hwhole {} (46 :: part)
  obtain ⟨ds', hds', -, hany'⟩ :=
    digits_append (forall_isDigit hpart).2 { ds with point := true } []
  refine ⟨ds', ?_, hany' (.inl (hany (.inr hne)))⟩
  rw [hds, digits, if_neg (by decide), if_pos rfl, hpoint]
  rw [append_nil] at hds'
  exact hds'

theorem underscoresFit_digits (h : ∀ b ∈ w, IsDigit b) (last : Last)
    (hlast : last ≠ .underscore) (rest : Bytes) (hrest : ∀ last, last ≠ .underscore →
      underscoresFit (fun b => (digit? b).isSome) last rest = true) :
    underscoresFit (fun b => (digit? b).isSome) last (w ++ rest) = true := by
  induction w generalizing last with
  | nil => exact hrest last hlast
  | cons b w ih =>
    obtain ⟨hb, hw⟩ := forall_mem_cons.1 h
    rw [cons_append, underscoresFit, digit?_of_isDigit hb]
    exact ih hw .digit (by decide)

theorem underscoresFit_fraction (h : w.IsFraction) :
    underscoresFit (fun b => (digit? b).isSome) .start w = true := by
  obtain ⟨whole, part, hwhole, hpart, rfl⟩ := h
  have hnil : ∀ last, last ≠ .underscore →
      underscoresFit (fun b => (digit? b).isSome) last [] = true := by
    intro last hlast
    simpa [underscoresFit] using hlast
  refine underscoresFit_digits (forall_isDigit hwhole).2 .start (by decide) _ fun last hlast => ?_
  have hpoint : (digit? 46).isSome = false := by decide
  rw [underscoresFit, hpoint, if_neg (by decide), if_neg (by decide)]
  have hfit := underscoresFit_digits (forall_isDigit hpart).2 .other (by decide) [] hnil
  rw [append_nil] at hfit
  simp [hfit, hlast]

theorem binary64?_fraction (h : w.IsFraction) : binary64? w = decimal? false w := by
  obtain ⟨whole, part, hwhole, hpart, rfl⟩ := h
  obtain ⟨hne, hdigits⟩ := forall_isDigit hwhole
  obtain ⟨b, whole, rfl⟩ := exists_cons_of_ne_nil hne
  obtain ⟨hb, hmore⟩ := forall_mem_cons.1 hdigits
  have hsign : sign (b :: (whole ++ 46 :: part)) = (false, b :: (whole ++ 46 :: part)) :=
    sign.eq_3 _ (fun _ h => ne_of_isDigit hb (.inl (by decide)) (List.cons.inj h).1)
      (fun _ h => ne_of_isDigit hb (.inl (by decide)) (List.cons.inj h).1)
  have hsmall : small (b :: (whole ++ 46 :: part)) = b :: small (whole ++ 46 :: part) := by
    rw [small, map_cons, if_neg]
    · rfl
    · exact fun h => absurd (UInt8.le_trans h.1 hb.2) (by decide)
  have hword {c : UInt8} {w : Bytes} (hc : 57 < c) :
      small (b :: (whole ++ 46 :: part)) ≠ c :: w := by
    rw [hsmall]
    exact fun h => ne_of_isDigit hb (.inr hc) (List.cons.inj h).1
  rw [cons_append, binary64?, hsign]
  dsimp only
  rw [if_neg, if_neg]
  · split
    · next x y more heq =>
      have hx : x ∈ whole ∨ x = 46 := by
        cases whole with
        | nil => exact .inr (List.cons.inj (List.cons.inj heq).2).1.symm
        | cons c whole => exact .inl ((List.cons.inj (List.cons.inj heq).2).1 ▸ mem_cons_self)
      rw [if_neg]
      rintro (rfl | rfl)
      · exact hx.elim (fun h => ne_of_isDigit (hmore _ h) (.inr (by decide)) rfl) (by decide)
      · exact hx.elim (fun h => ne_of_isDigit (hmore _ h) (.inr (by decide)) rfl) (by decide)
    · rfl
  · exact hword (by decide)
  · exact not_or.2 ⟨hword (by decide), hword (by decide)⟩

theorem overflow_le_of_binary64? (h : w.IsFraction) (hnone : binary64? w = none) :
    ∃ ds, digits 10 digit? {} w = (ds, []) ∧ Binary64.overflow * 10 ^ ds.behind ≤ ds.value := by
  obtain ⟨ds, hds, hany⟩ := digits_fraction h
  refine ⟨ds, hds, ?_⟩
  rw [binary64?_fraction h, decimal?, hds, underscoresFit_fraction h] at hnone
  have hassemble : (if (!ds.any || !true) = true then none else assemble false 10 1 ds 0) = none :=
    hnone
  rw [hany, if_neg (by decide), assemble] at hassemble
  have hpower : (0 : Int) - (1 : Nat) * ds.behind = -(ds.behind : Int) := by omega
  rw [hpower] at hassemble
  split at hassemble
  · next hle =>
    have hbehind : ds.behind = 0 := by omega
    have hbound := Binary64.overflow_le_of_ofRatio hassemble
    rw [hbehind] at hbound ⊢
    simpa using hbound
  · have hbound := Binary64.overflow_le_of_ofRatio hassemble
    rw [Int.neg_neg, Int.toNat_natCast] at hbound
    exact hbound

end Numeral

/-! ### Number tokens -/

def Token.IsWritten (t : Token) : Prop :=
  (t.kind = .int → t.literal.isNumeral = true) ∧ (t.kind = .float → t.literal.IsFraction)

/-- The value of a number token is out of range: an integer beyond 64 bits, or a fraction that no
finite number is near to. -/
def Token.IsTooLarge (t : Token) : Prop :=
  (t.kind = .int ∧ ∃ n, Numeral.nat? t.literal = some n ∧ Int64.maxValue.toInt < n) ∨
    (t.kind = .float ∧ ∃ ds, Numeral.digits 10 Numeral.digit? {} t.literal = (ds, []) ∧
      Binary64.overflow * 10 ^ ds.behind ≤ ds.value)

namespace Scanner

theorem isNumeral_of_forall (hne : gs ≠ []) (h : ∀ g ∈ gs, isDigit g = true) :
    (Bytes.ofGlyphs gs).isNumeral = true := by
  obtain ⟨g, gs, rfl⟩ := exists_cons_of_ne_nil hne
  have hrun : (Bytes.ofGlyphs ((g :: gs).takeWhile isDigit)).isNumeral = true :=
    isNumeral_digits (h g mem_cons_self)
  rwa [takeWhile_eq_self_iff.2 h] at hrun

variable {s : Scanner}

theorem number_cases {rest : List Glyph} (hs : s.rest = g :: rest)
    (hg : isDigit g = true) : (∀ g ∈ s.number.1, isDigit g = true) ∨
      (Bytes.ofGlyphs s.number.1).IsFraction := by
  obtain ⟨s₁, hspan, -⟩ := span_eq isDigit s
  have hwhole : ∀ g ∈ s.rest.takeWhile isDigit, isDigit g = true := all_eq_true.1 all_takeWhile
  rw [number, hspan]
  dsimp only
  split
  · next h more hrest =>
    split
    · next hh =>
      obtain ⟨s₂, hspan', -⟩ := span_eq isDigit s₁.advance
      rw [hspan', rest_advance, hrest, tail_cons]
      have hpart : (Bytes.ofGlyphs ((h :: more).takeWhile isDigit)).isNumeral = true :=
        isNumeral_digits hh
      refine .inr ⟨_, _, isNumeral_of_forall ?_ hwhole, hpart, ?_⟩
      · rw [hs, takeWhile_cons_of_pos hg]
        exact cons_ne_nil _ _
      · rw [Bytes.ofGlyphs, flatMap_append, flatMap_cons]
        rfl
    · exact .inl hwhole
  · exact .inl hwhole

theorem kind_ne_float {next : Option Glyph} {two : Bool}
    (h : symbol c next = some (k, two)) : k ≠ .float := by
  unfold symbol at h
  dsimp only at h
  split at h <;> (repeat' split at h) <;> cases h <;> decide

theorem ofWord_ne_float (w : Bytes) : ofWord w ≠ .float := by
  obtain h | h := ofWord_mem w
  · rw [h]
    decide
  · intro hw
    rw [hw] at h
    revert h
    decide

theorem isFraction_token : s.token.1.kind = .float → s.token.1.literal.IsFraction := by
  rw [token]
  split
  · exact noConfusion
  next g rest hs =>
  split
  · exact noConfusion
  split
  · next h => exact fun hk => absurd hk (kind_ne_float h)
  split
  · rw [string]
    split <;> exact noConfusion
  split
  · split
    · exact noConfusion
    · rw [string]
      split <;> exact noConfusion
  split
  · split
    · split <;> exact noConfusion
    · exact noConfusion
  split
  · exact fun hk => absurd hk (ofWord_ne_float _)
  split
  · next hg =>
    have hnumber := number_cases hs hg
    generalize s.number = n at hnumber
    dsimp only at hnumber ⊢
    split
    · next hpoint =>
      refine fun _ => hnumber.resolve_left fun hdigits => ?_
      have hdot := hdigits _ (contains_iff_mem.1 hpoint)
      revert hdot
      decide
    · exact noConfusion
  · exact noConfusion

theorem isFraction_of_mem_tokensWithin (h : t ∈ tokensWithin fuel s) :
    t.kind = .float → t.literal.IsFraction := by
  have hnext (s : Scanner) : s.next.1.kind = .float → s.next.1.literal.IsFraction := by
    rw [next]
    split
    · exact isFraction_token
    · exact noConfusion
  induction fuel generalizing s with
  | zero => cases h
  | succ fuel ih =>
    rw [tokensWithin] at h
    dsimp only at h
    split at h
    · obtain rfl := mem_singleton.1 h
      exact hnext s
    · obtain rfl | h := mem_cons.1 h
      · exact hnext s
      · exact ih h

end Scanner

theorem Token.isWritten_of_mem_scan {source : Bytes} (h : t ∈ scan source) : t.IsWritten := by
  refine ⟨fun hk => ?_, Scanner.isFraction_of_mem_tokensWithin h⟩
  have hsound := isSound_of_mem_scan h
  rw [isSound, hk] at hsound
  exact hsound

end Covenant
