import Covenant.Clarity.Name
import Covenant.Clarity.Value
import Covenant.Proofs.Clarity.Reading
import Covenant.Proofs.Number.Numeral

/-!
# Atoms of code

The words that code is made of are atoms: names and addresses of the source language, names broken
at their humps, and numbers.
-/

namespace Covenant

open List Bytes Scanner

open SExpr (isAtomByte isAtom)

/-! ### Characters -/

theorem isAtomByte_of_le {b : UInt8} (h : 0x80 ≤ b.toNat) : isAtomByte b = true := by
  have hall : ∀ n < 256, 0x80 ≤ n → isAtomByte (UInt8.ofNat n) = true := by decide +kernel
  simpa only [UInt8.ofNat_toNat] using hall b.toNat b.toNat_lt h

def isAtomChar (c : Char) : Bool :=
  0x80 ≤ c.toNat || isAtomByte (UInt8.ofNat c.toNat)

variable {w : Bytes}

theorem all_isAtomByte_ofChar (h : isAtomChar c = true) : (ofChar c).all isAtomByte = true := by
  obtain ⟨hlt, he⟩ | ⟨-, b, bs, he, hb, hbs⟩ := ofChar_cases c
  · have hbyte : isAtomByte (UInt8.ofNat c.toNat) = true := by
      simpa [isAtomChar, Nat.not_le.2 hlt] using h
    simpa [he] using hbyte
  · rw [he, all_cons, isAtomByte_of_le (by omega), Bool.true_and, all_eq_true]
    exact fun b hb => isAtomByte_of_le (hbs b hb).1

theorem isAtomChar_of_ascii {p : Char → Bool} (hc : p c = true)
    (h : ∀ n < 0x80, p (Char.ofNat n) = true → isAtomByte (UInt8.ofNat n) = true) :
    isAtomChar c = true := by
  rw [isAtomChar, Bool.or_eq_true, decide_eq_true_eq]
  by_cases hlt : c.toNat < 0x80
  · exact .inr (h _ hlt (by rwa [Char.ofNat_toNat]))
  · exact .inl (Nat.not_lt.1 hlt)

theorem isAtomChar_of_isNamePart (h : isNamePart (.char c) = true) : isAtomChar c = true :=
  isAtomChar_of_ascii (p := fun c => isNamePart (.char c)) h (by decide)

theorem isAtomChar_of_isContractPart (h : isContractPart (.char c) = true) : isAtomChar c = true :=
  isAtomChar_of_ascii (p := fun c => isContractPart (.char c)) h (by decide)

/-! ### Names and addresses -/

theorem all_isAtomByte_of_glyphs (h : ∀ g ∈ w.glyphs, ∃ c, g = .char c ∧ isAtomChar c = true) :
    w.all isAtomByte = true := by
  rw [← ofGlyphs_glyphs w, all_eq_true]
  intro b hb
  obtain ⟨g, hg, hbg⟩ := mem_flatMap.1 hb
  obtain ⟨c, rfl, hc⟩ := h g hg
  exact all_eq_true.1 (all_isAtomByte_ofChar hc) b hbg

theorem Bytes.exists_glyphs_of_isName (h : w.isName = true) :
    w.glyphs ≠ [] ∧ ∀ g ∈ w.glyphs, ∃ c, g = .char c ∧ isNamePart (.char c) = true := by
  rw [isName] at h
  split at h
  · cases h
  · next g gs hglyphs =>
    rw [Bool.and_eq_true, Bool.and_eq_true, all_eq_true] at h
    have hall := forall_mem_cons.2 ⟨by rw [isNamePart, h.1.1, Bool.true_or], h.1.2⟩
    rw [hglyphs]
    refine ⟨by simp, fun x hx => ?_⟩
    obtain ⟨c, rfl⟩ := exists_char_of_isNamePart (hall x hx)
    exact ⟨c, rfl, hall _ hx⟩

theorem Bytes.isNamePart_of_mem (h : w.isName = true) (hb : b ∈ w)
    (hlt : b.toNat < 0x80) : isNamePart (.char (Char.ofNat b.toNat)) = true := by
  obtain ⟨-, hall⟩ := exists_glyphs_of_isName h
  rw [← ofGlyphs_glyphs w] at hb
  obtain ⟨g, hg, hbg⟩ := mem_flatMap.1 hb
  obtain ⟨c, rfl, hc⟩ := hall g hg
  rwa [← eq_of_mem_ofChar hbg hlt]

theorem Bytes.isNumeral_of_isName (h : w.isName = true) : w.isNumeral = false := by
  have hstart : ∀ n < 0x80, isNameStart (.char (Char.ofNat n)) = true →
      ¬ (48 ≤ n ∧ n ≤ 57) := by decide
  rw [isName] at h
  split at h
  · cases h
  · next g gs hglyphs =>
    rw [Bool.and_eq_true, Bool.and_eq_true] at h
    have hg : isNameStart g = true := h.1.1
    obtain ⟨c, rfl⟩ := exists_char_of_isNamePart
      (show isNamePart g = true by rw [isNamePart, hg, Bool.true_or])
    have hw : w = ofChar c ++ ofGlyphs gs := by
      rw [← ofGlyphs_glyphs w, hglyphs]
      rfl
    rw [isNumeral, Bool.and_eq_false_iff]
    right
    rw [all_eq_false, hw]
    obtain ⟨hlt, he⟩ | ⟨-, b, bs, he, hb, -⟩ := ofChar_cases c
    · refine ⟨UInt8.ofNat c.toNat, by simp [he], ?_⟩
      have hdigit := hstart c.toNat hlt (by rwa [Char.ofNat_toNat])
      simp only [Bool.and_eq_true, decide_eq_true_eq, UInt8.le_iff_toNat_le,
        toNat_ofNat_of_lt (show c.toNat < 256 by omega)]
      exact hdigit
    · refine ⟨b, by simp [he], ?_⟩
      simp only [Bool.and_eq_true, decide_eq_true_eq, UInt8.le_iff_toNat_le]
      intro hdigit
      have : b.toNat ≤ 57 := hdigit.2
      omega

theorem Bytes.ne_nil_of_glyphs (h : w.glyphs ≠ []) : w ≠ [] := by
  rintro rfl
  exact h rfl

theorem isAtom_of_ne_nil (hne : w ≠ []) (hall : w.all isAtomByte = true) : isAtom w = true := by
  simpa [isAtom, hall] using hne

theorem Bytes.isAtom_of_isName (h : w.isName = true) : isAtom w = true := by
  obtain ⟨hne, hall⟩ := exists_glyphs_of_isName h
  refine isAtom_of_ne_nil (ne_nil_of_glyphs hne) (all_isAtomByte_of_glyphs fun g hg => ?_)
  obtain ⟨c, rfl, hc⟩ := hall g hg
  exact ⟨c, rfl, isAtomChar_of_isNamePart hc⟩

theorem all_of_isAtom (h : isAtom w = true) : w.all isAtomByte = true := by
  rw [isAtom, Bool.and_eq_true] at h
  exact h.2

theorem isAtom_append {v : Bytes} (hv : v.all isAtomByte = true) (hw : isAtom w = true) :
    isAtom (v ++ w) = true := by
  simp only [isAtom, Bool.and_eq_true, Bool.not_eq_true', isEmpty_eq_false_iff] at hw ⊢
  refine ⟨by simp [hw.1], ?_⟩
  rw [all_append, hv, hw.2]
  rfl

theorem Bytes.exists_glyphs_of_isAddress (h : w.isAddress = true) :
    w.glyphs ≠ [] ∧ ∀ g ∈ w.glyphs, ∃ c, g = .char c ∧ isAtomChar c = true := by
  have hpart {g : Glyph} (hg : isContractPart g = true) :
      ∃ c, g = .char c ∧ isAtomChar c = true := by
    obtain ⟨c, rfl⟩ := exists_char_of_isContractPart hg
    exact ⟨c, rfl, isAtomChar_of_isContractPart hg⟩
  rw [isAddress] at h
  split at h
  case h_2 => cases h
  next k g gs hglyphs =>
  rw [Bool.and_eq_true, Bool.and_eq_true] at h
  obtain ⟨⟨hk, hg⟩, hsuffix⟩ := h
  have hk : isAtomChar k = true := by
    simp only [Bool.or_eq_true, beq_iff_eq] at hk
    obtain ((rfl | rfl) | rfl) | rfl := hk <;> rfl
  rw [hglyphs]
  refine ⟨by simp, ?_⟩
  rw [← takeWhile_append_dropWhile (p := isAddressPart) (l := gs)]
  simp only [forall_mem_cons, forall_mem_append]
  refine ⟨⟨_, rfl, by rfl⟩, ⟨_, rfl, hk⟩, hpart (isContractPart_of_isAddressPart hg), ?_, ?_⟩
  · intro x hx
    have hx : isAddressPart x = true := all_eq_true.1 all_takeWhile x hx
    exact hpart (isContractPart_of_isAddressPart hx)
  · obtain hnil | ⟨contract, hcontract, hall⟩ := isContractSuffix_cases hsuffix
    · rw [hnil]
      exact forall_mem_nil _
    · rw [hcontract]
      exact forall_mem_cons.2 ⟨⟨_, rfl, by rfl⟩, fun x hx =>
        hpart (all_eq_true.1 hall x hx)⟩

theorem Bytes.isAtom_of_isAddress (h : w.isAddress = true) : isAtom (ofString "'" ++ w) = true := by
  obtain ⟨hne, hall⟩ := exists_glyphs_of_isAddress h
  exact isAtom_append (by decide)
    (isAtom_of_ne_nil (ne_nil_of_glyphs hne) (all_isAtomByte_of_glyphs hall))

/-! ### Names broken at their humps -/

theorem le_apply_lowerings (hn : 0x80 ≤ n) : 0x60 ≤ CodeShift.apply CodeShift.lowerings n := by
  have hall : ∀ s ∈ CodeShift.lowerings, 0x60 ≤ (s.run.lo : Int) + s.delta := by decide +kernel
  unfold CodeShift.apply
  split
  · next s hs =>
    have hlo : s.run.lo ≤ n := by
      have := find?_some hs
      simp only [CodeRun.contains, Bool.and_eq_true, decide_eq_true_eq] at this
      exact this.1.1
    have := hall s (mem_of_find?_eq_some hs)
    omega
  · omega

theorem isAtomChar_ofNat (h : 0x60 ≤ n) : isAtomChar (Char.ofNat n) = true := by
  have hall : ∀ n < 0x80, 0x60 ≤ n → isAtomByte (UInt8.ofNat n) = true := by decide
  by_cases hv : n.isValidChar
  · have hn : (Char.ofNat n).toNat = n := val_toNat_ofNat hv
    rw [isAtomChar, hn, Bool.or_eq_true, decide_eq_true_eq]
    by_cases hlt : n < 0x80
    · exact .inr (hall n hlt h)
    · exact .inl (Nat.not_lt.1 hlt)
  · rw [Char.ofNat, dif_neg hv]
    rfl

theorem isAtomChar_toLower (h : isAtomChar c = true) : isAtomChar (Rune.toLower c) = true := by
  rw [Rune.toLower]
  split
  · split
    · next hupper =>
      have hc : 65 ≤ c.toNat := by
        simp only [Rune.isAsciiUpper, Bool.and_eq_true, decide_eq_true_eq] at hupper
        exact hupper.1
      exact isAtomChar_ofNat (by omega)
    · exact h
  · next hascii =>
    have hc : 0x80 ≤ c.toNat := by simpa [Rune.isAscii] using hascii
    exact isAtomChar_ofNat (le_apply_lowerings hc)

theorem hyphenated.all_go {prev : Option Char} (h : ∀ c ∈ cs, isAtomChar c = true) :
    (go prev cs).all isAtomByte = true := by
  have hhyphen (hump : Bool) : (if hump then ofString "-" else []).all isAtomByte = true := by
    cases hump <;> decide
  induction cs generalizing prev with
  | nil => rfl
  | cons c cs ih =>
    obtain ⟨hc, hcs⟩ := forall_mem_cons.1 h
    unfold go
    split
    · simp only [all_append, ih hcs, all_isAtomByte_ofChar (isAtomChar_toLower hc), Bool.and_true]
      exact hhyphen _
    · rw [all_append, all_isAtomByte_ofChar hc, ih hcs]
      rfl

theorem Bytes.ofChar_ne_nil (c : Char) : ofChar c ≠ [] := by
  obtain ⟨-, he⟩ | ⟨-, b, bs, he, -⟩ := ofChar_cases c <;> simp [he]

theorem isAtom_hyphenated (h : w.isName = true) : isAtom (hyphenated w) = true := by
  obtain ⟨hne, hall⟩ := exists_glyphs_of_isName h
  refine isAtom_of_ne_nil ?_ (hyphenated.all_go ?_)
  · rw [hyphenated]
    cases hglyphs : w.glyphs with
    | nil => exact absurd hglyphs hne
    | cons g gs =>
      rw [map_cons, hyphenated.go]
      split <;> simp [ofChar_ne_nil]
  · simp only [forall_mem_map]
    intro g hg
    obtain ⟨c, rfl, hc⟩ := hall g hg
    exact isAtomChar_of_isNamePart hc

/-! ### Numbers -/

theorem Bytes.isAtom_of_isNumeral (h : w.isNumeral = true) : isAtom w = true := by
  have hdigit : ∀ n < 256, (48 ≤ UInt8.ofNat n && UInt8.ofNat n ≤ 57) = true →
      isAtomByte (UInt8.ofNat n) = true := by decide +kernel
  rw [isNumeral, Bool.and_eq_true, all_eq_true] at h
  refine isAtom_of_ne_nil (by simpa using h.1) (all_eq_true.2 fun b hb => ?_)
  simpa only [UInt8.ofNat_toNat] using hdigit b.toNat b.toNat_lt (by simpa using h.2 b hb)

theorem isAtom_ofInt (i : Int) : isAtom (ofInt i) = true := by
  rw [ofInt_eq]
  split
  · exact isAtom_of_isNumeral (isNumeral_ofNat _)
  · exact isAtom_append rfl (isAtom_of_isNumeral (isNumeral_ofNat _))

namespace Decimal

theorem lt_of_mem_digitsOf (h : d ∈ digitsOf n) : d < 10 := by
  obtain ⟨c, hc, rfl⟩ := mem_map.1 h
  have hdigit := Nat.isDigit_of_mem_toDigits (by decide) (by decide) hc
  simp only [Char.isDigit, Bool.and_eq_true, decide_eq_true_eq, UInt32.le_iff_toNat_le] at hdigit
  have hle : c.toNat ≤ 57 := hdigit.2
  omega

theorem lt_of_mem_ofBinary {negative : Bool}
    (h : d ∈ (ofBinary negative significand exponent).digits) : d < 10 := by
  rw [ofBinary] at h
  split at h
  · cases h
  · simp only [ofDigits, mem_reverse] at h
    exact lt_of_mem_digitsOf (mem_reverse.1 (dropWhile_subset _ h))

theorem isAtomByte_digitByte (h : d < 10) : isAtomByte (digitByte d) = true := by
  have hall : ∀ d < 10, isAtomByte (digitByte d) = true := by decide
  exact hall d h

theorem all_positional {d : Decimal} (h : ∀ x ∈ d.digits, x < 10) :
    d.positional.all isAtomByte = true := by
  have hmap {ds : List Nat} (hds : ds ⊆ d.digits) : (ds.map digitByte).all isAtomByte = true := by
    rw [all_map, all_eq_true]
    exact fun x hx => isAtomByte_digitByte (h x (hds hx))
  have hzeros (n : Nat) : (replicate n (48 : UInt8)).all isAtomByte = true := by
    rw [all_eq_true]
    intro b hb
    rw [eq_of_mem_replicate hb]
    decide
  have hsign : d.sign.all isAtomByte = true := by
    rw [sign]
    split <;> decide
  have hdot : (ofString ".").all isAtomByte = true := by decide
  have hwhole := hmap (take_subset d.point.toNat d.digits)
  have hfraction := hmap (drop_subset d.point.toNat d.digits)
  simp only [positional, all_append, Bool.and_eq_true]
  refine ⟨⟨hsign, ?_⟩, ?_⟩
  · split
    · rw [all_append, hwhole, hzeros]
      rfl
    · decide
  · split
    · rfl
    · rw [all_append, hdot, all_append, hzeros, hfraction]
      rfl

end Decimal

theorem isAtom_floatText (v : Binary64) : isAtom (floatText v) = true := by
  have hall : (v.write Decimal.positional).all isAtomByte = true := by
    cases v with
    | finite s m e => exact Decimal.all_positional fun _ => Decimal.lt_of_mem_ofBinary
    | infinite s => cases s <;> decide
    | nan => decide
  rw [floatText]
  split
  · next hdot =>
    refine isAtom_of_ne_nil ?_ hall
    intro hnil
    simp [hnil] at hdot
  · exact isAtom_append hall rfl

end Covenant
