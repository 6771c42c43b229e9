import Covenant.Config.Size
import Covenant.Proofs.Compile.Integers

/-!
# What is read as a size

Of the text in front of a unit only a sign and the digits behind it are read, and the rest is passed
over.  The number has to fit into 64 bits, but nothing is asked of its product with the unit.
-/

namespace Covenant

open List

theorem Bytes.stripSuffix_append (front p : Bytes) : stripSuffix (front ++ p) p = front := by
  rw [stripSuffix, reverse_append, stripPrefix?_eq_some.2 rfl]
  exact reverse_reverse front

/-- A last character of ASCII that is no white space stays when a text is trimmed. -/
theorem Bytes.exists_trim_concat {b : UInt8} (hb : b.toNat < 0x80)
    (hspace : Rune.isSpace (Char.ofNat b.toNat) = false) (s : Bytes) :
    ∃ t, (s ++ [b]).trim = t ++ [b] := by
  have hglyph : Glyph.isSpace (.char (Char.ofNat b.toNat)) = false := hspace
  have hcontinues : ∀ x, [b].head? = some x → isContinuation x = false := by
    rintro x ⟨⟩
    rw [← Bool.not_eq_true, isContinuation_iff]
    omega
  have hlast : (s ++ [b]).glyphs = s.glyphs ++ [.char (Char.ofNat b.toNat)] := by
    rw [glyphs_append hcontinues, glyphs_cons_of_lt hb]
    rfl
  obtain ⟨front, hfront⟩ : ∃ front, dropWhile Glyph.isSpace (s ++ [b]).glyphs =
      front ++ [.char (Char.ofNat b.toNat)] := by
    rw [hlast, dropWhile_append]
    split
    · exact ⟨[], by rw [dropWhile_cons, hglyph]; rfl⟩
    · exact ⟨_, rfl⟩
  refine ⟨ofGlyphs front, ?_⟩
  rw [trim, hfront, reverse_append, reverse_singleton, singleton_append, dropWhile_cons, hglyph]
  simp only [Bool.false_eq_true, if_false, reverse_cons, reverse_reverse, ofGlyphs, flatMap_append,
    flatMap_singleton, bytes_char_of_lt hb]

namespace Size

open Numeral (digit? forall_isDigit IsDigit ne_of_isDigit value)

/-! ### Signs and digits -/

def signs : List Bytes :=
  [[], [43], [45]]

theorem isDigit_iff {b : UInt8} : (digit? b).isSome = true ↔ IsDigit b := by
  unfold digit? IsDigit
  split <;> simp_all

/-- The number that a sign and digits stand for. -/
def amount (sign d : Bytes) : Int :=
  if sign = [45] then -value d else value d

/-- The text has a sign, digits, and more that goes on with no digit. -/
structure Starts (text sign d rest : Bytes) : Prop where
  eq : text = sign ++ d ++ rest
  sign : sign ∈ signs
  digits : d.isNumeral = true
  rest : ∀ b ∈ rest.head?, ¬IsDigit b

namespace Starts

variable {text sign d rest : Bytes}

theorem sign_eq (h : Starts text sign d rest) :
    Numeral.sign text = (decide (sign = [45]), d ++ rest) := by
  obtain ⟨rfl, hsign, hd, -⟩ := h
  obtain ⟨hne, hdigits⟩ := forall_isDigit hd
  obtain ⟨b, d, rfl⟩ := exists_cons_of_ne_nil hne
  have hb := hdigits b (.head _)
  simp only [signs, mem_cons, not_mem_nil, or_false] at hsign
  obtain rfl | rfl | rfl := hsign
  · have hplus := ne_of_isDigit hb (c := 43) (by decide)
    have hminus := ne_of_isDigit hb (c := 45) (by decide)
    simp [Numeral.sign, hplus, hminus]
  · rfl
  · rfl

theorem takeWhile_eq (h : Starts text sign d rest) :
    (d ++ rest).takeWhile (fun b => (digit? b).isSome) = d := by
  obtain ⟨-, -, hd, hrest⟩ := h
  have hdigits := (forall_isDigit hd).2
  rw [takeWhile_append_of_pos fun b hb => isDigit_iff.2 (hdigits b hb)]
  cases rest with
  | nil => simp
  | cons b rest => rw [takeWhile_cons, if_neg (mt isDigit_iff.1 (hrest b rfl)), append_nil]

theorem leading?_eq (h : Starts text sign d rest) :
    leading? text = if -2 ^ 63 ≤ amount sign d ∧ amount sign d < 2 ^ 63 then
      some (Int64.ofInt (amount sign d)) else none := by
  have hmin : Int64.minValue.toInt = -2 ^ 63 := by decide
  have hmax : Int64.maxValue.toInt = 2 ^ 63 - 1 := by decide
  have hint : Numeral.int? (if decide (sign = [45]) = true then 45 :: d else d) =
      some (amount sign d) := by
    by_cases hs : sign = [45]
    · simp [hs, Numeral.int?, Numeral.sign, Numeral.nat?_eq h.digits, amount]
    · simp [hs, Numeral.int?, Numeral.sign_of_isNumeral h.digits, Numeral.nat?_eq h.digits, amount]
  rw [leading?, h.sign_eq]
  simp only [h.takeWhile_eq, Numeral.int64?, hint, Option.bind_some, hmin, hmax, Int.le_sub_one_iff]

end Starts

theorem amount_nil (d : Bytes) : amount [] d = value d :=
  if_neg (by decide)

theorem exists_starts {text : Bytes} {n : Int64} (h : leading? text = some n) :
    ∃ sign d rest, Starts text sign d rest := by
  let r := (Numeral.sign text).2
  let d := r.takeWhile fun b => (digit? b).isSome
  obtain ⟨sign, hsign, htext⟩ : ∃ sign ∈ signs, text = sign ++ r := by
    unfold r Numeral.sign
    split
    · exact ⟨[43], by simp [signs], rfl⟩
    · exact ⟨[45], by simp [signs], rfl⟩
    · exact ⟨[], by simp [signs], rfl⟩
  have hne : d ≠ [] := by
    intro hnil
    have hd : r.takeWhile (fun b => (digit? b).isSome) = [] := hnil
    simp only [leading?, show (Numeral.sign text).2 = r from rfl, hd] at h
    split at h <;> cases h
  have hdigits : ∀ b ∈ d, IsDigit b := fun b hb => isDigit_iff.1 (all_eq_true.1 all_takeWhile b hb)
  refine ⟨sign, d, r.dropWhile fun b => (digit? b).isSome, ?_, hsign, ?_, fun b hb => ?_⟩
  · rw [append_assoc, takeWhile_append_dropWhile, ← htext]
  · rw [Bytes.isNumeral, Bool.and_eq_true, all_eq_true]
    exact ⟨by simpa using hne, fun b hb => by simpa [IsDigit] using hdigits b hb⟩
  · have hnot := head?_dropWhile_not (fun b => (digit? b).isSome) r
    rw [Option.mem_def.1 hb] at hnot
    rw [← isDigit_iff, Bool.not_eq_true]
    exact hnot

/-! ### Units -/

/-- The text in which the number is looked for, and the factor of the unit behind it. -/
def numberOf (s : Bytes) : Bytes × Int64 :=
  match units.find? fun u => s.upper.trim.hasSuffix u.1 with
  | some (u, factor) => ((s.upper.trim.stripSuffix u).trim, factor)
  | none => (s.upper.trim, 1)

/-- The text is made of the digits and a unit in small or capital letters, or of the digits alone,
with white space around them. -/
def Written (s d : Bytes) (factor : Int64) : Prop :=
  s.upper.trim = d ∧ factor = 1 ∨
    ∃ front u, (u, factor) ∈ units ∧ s.upper.trim = front ++ u ∧ front.trim = d

variable {s d : Bytes}

theorem units_eq : units =
    [([71, 66], 1073741824), ([77, 66], 1048576), ([75, 66], 1024), ([66], 1)] := by
  decide

theorem notMem_of_isNumeral {b : UInt8} (hd : d.isNumeral = true) (hb : 57 < b) : b ∉ d :=
  fun hmem => ne_of_isDigit ((forall_isDigit hd).2 b hmem) (.inr hb) rfl

/-- The unit that is found is the one that was written, unless a letter stands before it. -/
theorem find?_units {front u : Bytes} (hu : (u, factor) ∈ units)
    (hfront : ∀ b ∈ front.getLast?, b ∉ Bytes.ofString "GKM") :
    units.find? (fun v => (front ++ u).hasSuffix v.1) = some (u, factor) := by
  have hletters : Bytes.ofString "GKM" = [71, 75, 77] := by decide
  rw [← head?_reverse, hletters] at hfront
  rw [units_eq] at hu ⊢
  simp only [mem_cons, Prod.mk.injEq, not_mem_nil, or_false] at hu hfront
  simp only [Bytes.hasSuffix, reverse_append]
  generalize front.reverse = r at hfront
  obtain ⟨rfl, rfl⟩ | ⟨rfl, rfl⟩ | ⟨rfl, rfl⟩ | ⟨rfl, rfl⟩ := hu <;> cases r with
  | nil => simp [Bytes.stripPrefix?]
  | cons b r =>
    have hb := hfront b rfl
    simp only [not_or] at hb
    simp [Bytes.stripPrefix?, Ne.symm hb.1, Ne.symm hb.2.1, Ne.symm hb.2.2]

theorem numberOf_of_written (hd : d.isNumeral = true) (h : Written s d factor) :
    numberOf s = (d, factor) := by
  obtain ⟨htext, rfl⟩ | ⟨front, u, hu, htext, hfront⟩ := h
  · have hnone : units.find? (fun u => d.hasSuffix u.1) = none := by
      have hne := reverse_ne_nil_iff.2 (forall_isDigit hd).1
      obtain ⟨b, r, hr⟩ := exists_cons_of_ne_nil hne
      have hb : b ≠ 66 := by
        rintro rfl
        exact notMem_of_isNumeral hd (by decide) (mem_reverse.1 (hr ▸ mem_cons_self))
      simp [units_eq, Bytes.hasSuffix, hr, Bytes.stripPrefix?, Ne.symm hb]
    rw [numberOf, htext, hnone]
  · have hletters : (Bytes.ofString "GKM").all (fun b => b.toNat < 0x80 &&
        !Rune.isSpace (Char.ofNat b.toNat) && 57 < b) = true := by decide
    have hfind := @find?_units factor front u hu fun b hb hletter => by
      have hall := all_eq_true.1 hletters b hletter
      simp only [Bool.and_eq_true, decide_eq_true_eq, Bool.not_eq_true'] at hall
      obtain ⟨before, rfl⟩ := getLast?_eq_some_iff.1 hb
      -- the letter would end the digits, too
      obtain ⟨t, ht⟩ := Bytes.exists_trim_concat hall.1.1 hall.1.2 before
      exact notMem_of_isNumeral hd hall.2 (by rw [← hfront, ht]; simp)
    rw [numberOf, htext, hfind]
    simp only [Bytes.stripSuffix_append, hfront]

theorem toInt_factor (h : Written s d factor) : 0 < factor.toInt := by
  have hall : units.all (fun u => 0 < u.2.toInt) = true := by decide
  obtain ⟨-, rfl⟩ | ⟨front, u, hu, -⟩ := h
  · decide
  · simpa using all_eq_true.1 hall _ hu

/-! ### Sizes -/

theorem parse_of_leading (hs : s ≠ []) : (∀ m, leading? (numberOf s).1 = some m →
    parse s = .ok (m * (numberOf s).2)) ∧
      (leading? (numberOf s).1 = none → ∃ e, parse s = .error e) := by
  rw [parse, if_neg (by simpa using hs), numberOf]
  simp only
  cases units.find? fun u => s.upper.trim.hasSuffix u.1 with
  | some u => exact ⟨fun m hm => by simp only [hm], fun hm => ⟨_, by simp only [hm]; rfl⟩⟩
  | none =>
    exact ⟨fun m hm => by simp only [hm, Int64.mul_one], fun hm => ⟨_, by simp only [hm]; rfl⟩⟩

theorem parse_of_written (hd : d.isNumeral = true) (h : Written s d factor) :
    ((value d : Int) < 2 ^ 63 → parse s = .ok (Int64.ofInt (value d) * factor)) ∧
      (2 ^ 63 ≤ (value d : Int) → ∃ e, parse s = .error e) := by
  have hnumber := numberOf_of_written hd h
  have hs : s ≠ [] := by
    rintro rfl
    have hnil : numberOf [] = ([], 1) := by decide
    exact (forall_isDigit hd).1 (Prod.mk.inj (hnumber.symm.trans hnil)).1
  have hleading := Starts.leading?_eq ⟨(append_nil d).symm, .head _, hd, by simp⟩
  obtain ⟨hok, herror⟩ := parse_of_leading hs
  rw [hnumber, hleading, amount_nil] at hok herror
  exact ⟨fun hsmall => hok _ (if_pos ⟨by omega, hsmall⟩),
    fun hlarge => herror (if_neg (by omega))⟩

/-- **What is read as a size**: nothing at all, and a text where a number that fits into 64 bits
starts before the unit.  Whatever stands between the number and the unit is passed over.  When
nothing does, the text is read exactly if its numeral fits. -/
theorem exists_parse_iff (s : Bytes) :
    ((∃ n, parse s = .ok n) ↔ s = [] ∨ ∃ sign d rest, Starts (numberOf s).1 sign d rest ∧
      -2 ^ 63 ≤ amount sign d ∧ amount sign d < 2 ^ 63) ∧
    ∀ d factor, d.isNumeral = true → Written s d factor →
      ((∃ n, parse s = .ok n) ↔ (value d : Int) < 2 ^ 63) := by
  refine ⟨?_, fun d factor hd h => ?_⟩
  · by_cases hs : s = []
    · exact ⟨fun _ => .inl hs, fun _ => ⟨0, hs ▸ rfl⟩⟩
    obtain ⟨hok, herror⟩ := parse_of_leading hs
    refine ⟨?_, ?_⟩
    · rintro ⟨n, hn⟩
      cases hm : leading? (numberOf s).1 with
      | none =>
        obtain ⟨e, he⟩ := herror hm
        cases hn.symm.trans he
      | some m =>
        obtain ⟨sign, d, rest, hstarts⟩ := exists_starts hm
        refine .inr ⟨sign, d, rest, hstarts, ?_⟩
        by_contra hnot
        rw [hstarts.leading?_eq, if_neg hnot] at hm
        cases hm
    · rintro (hnil | ⟨sign, d, rest, hstarts, hrange⟩)
      · exact absurd hnil hs
      · exact ⟨_, hok _ (by rw [hstarts.leading?_eq, if_pos hrange])⟩
  · obtain ⟨hok, herror⟩ := parse_of_written hd h
    refine ⟨?_, fun hsmall => ⟨_, hok hsmall⟩⟩
    rintro ⟨n, hn⟩
    by_contra hlarge
    obtain ⟨e, he⟩ := herror (not_lt.1 hlarge)
    cases hn.symm.trans he

theorem parse_fraction : parse "1.5MB" = .ok 1048576 ∧ (numberOf "1.5MB").1 = "1.5" := by
  decide

/-- **The size that a numeral and a unit stand for** is exact when it fits into 64 bits.  It is
refused when already the numeral does not fit, and wraps around otherwise. -/
theorem parse_written (hd : d.isNumeral = true) (h : Written s d factor) :
    let size := value d * factor.toInt
    (size < 2 ^ 63 → ∃ n, parse s = .ok n ∧ n.toInt = size) ∧
      (2 ^ 63 ≤ (value d : Int) → ∃ e, parse s = .error e) ∧
      ((value d : Int) < 2 ^ 63 → 2 ^ 63 ≤ size →
        ∃ n, parse s = .ok n ∧ n.toInt = size.bmod (2 ^ 64) ∧ n.toInt < size) := by
  intro size
  have hle : (value d : Int) ≤ size :=
    le_mul_of_one_le_right (Int.natCast_nonneg _) (toInt_factor h)
  obtain ⟨hok, herror⟩ := parse_of_written hd h
  have hwrapped : (Int64.ofInt (value d) * factor).toInt = size.bmod (2 ^ 64) := by
    rw [Int64.toInt_mul, Int64.toInt_ofInt]
    exact Int.bmod_mul_bmod
  refine ⟨fun hfits => ⟨_, hok (by omega), ?_⟩, herror, fun hsmall hlarge => ?_⟩
  · exact hwrapped.trans (Int.bmod_eq_of_le (by omega) (by omega))
  · exact ⟨_, hok hsmall, hwrapped, lt_of_lt_of_le (Int64.toInt_lt _) hlarge⟩

theorem parse_written_kilobytes : Written " 9007199254740991 kB" "9007199254740991" 1024 ∧
    ∃ n, parse " 9007199254740991 kB" = .ok n ∧
      n.toInt = value "9007199254740991" * (1024 : Int64).toInt := by
  have hwritten : Written " 9007199254740991 kB" "9007199254740991" 1024 :=
    .inr ⟨"9007199254740991 ", "KB", by decide, by decide, by decide⟩
  exact ⟨hwritten, (parse_written (by decide) hwritten).1 (by decide)⟩

theorem parse_wraps : Written "17179869184GB" "17179869184" 1073741824 ∧
    parse "17179869184GB" = .ok 0 ∧
    (0 : Int64).toInt ≠ value "17179869184" * (1073741824 : Int64).toInt :=
  ⟨.inr ⟨"17179869184", "GB", by decide, by decide, by decide⟩,
    by decide, by decide⟩

end Size

end Covenant
