import Covenant.Number.Numeral
import Covenant.Proofs.Token.Lexeme

/-!
# Numerals

A numeral is its last digit behind the numeral of the rest; so what is written is made of digits,
and is read back as the same number.
-/

namespace Covenant

open List
open Bytes (ofNat)

theorem encode_digitChar (h : d < 10) :
    String.utf8EncodeChar d.digitChar = [UInt8.ofNat (48 + d)] := by
  have hall : ∀ d < 10, String.utf8EncodeChar d.digitChar = [UInt8.ofNat (48 + d)] := by decide
  exact hall d h

theorem Bytes.ofString_eq (s : String) : ofString s = s.toList.flatMap String.utf8EncodeChar := by
  rw [ofString, ← s.utf8Encode_toList, utf8Encode]
  simp

theorem Bytes.ofNat_eq (n : Nat) : ofNat n = if n < 10 then [UInt8.ofNat (48 + n)]
      else ofNat (n / 10) ++ [UInt8.ofNat (48 + n % 10)] := by
  have hdigits (n : Nat) :
      ofNat n = (Nat.toDigits 10 n).flatMap String.utf8EncodeChar := by
    rw [ofNat, ofString_eq]
    simp [Nat.repr]
  rw [hdigits, hdigits, Nat.toDigits_eq_if (by decide)]
  split
  · next h => rw [flatMap_singleton, encode_digitChar h]
  · rw [flatMap_append, flatMap_singleton, encode_digitChar (Nat.mod_lt n (by decide))]

theorem Bytes.isNumeral_ofNat (n : Nat) : (ofNat n).isNumeral = true := by
  have hdigit : ∀ d < 10, (48 ≤ UInt8.ofNat (48 + d) && UInt8.ofNat (48 + d) ≤ 57) = true := by
    decide
  induction n using Nat.strongRecOn with
  | ind n ih =>
    rw [ofNat_eq]
    split
    · next h => simpa [isNumeral] using hdigit n h
    · next h =>
      have hrest := ih (n / 10) (by omega)
      have hlast := hdigit (n % 10) (by omega)
      simp only [isNumeral, Bool.and_eq_true, Bool.not_eq_true', all_append] at hrest ⊢
      refine ⟨by simp, hrest.2, by simpa using hlast⟩

theorem Numeral.digit?_ofNat : ∀ d < 10, digit? (UInt8.ofNat (48 + d)) = some d := by decide

theorem Numeral.nat?_ofNat (n : Nat) : nat? (ofNat n) = some n := by
  have hfold : (ofNat n).foldl (fun n b => n.bind fun n => (digit? b).map (10 * n + ·))
      (some 0) = some n := by
    induction n using Nat.strongRecOn with
    | ind n ih =>
      rw [Bytes.ofNat_eq]
      split
      · next h =>
        simp only [foldl_cons, foldl_nil, Option.bind_some, digit?_ofNat n h,
          Option.map_some, Nat.mul_zero, Nat.zero_add]
      · next h =>
        rw [foldl_append, ih (n / 10) (by omega)]
        simp only [foldl_cons, foldl_nil, Option.bind_some,
          digit?_ofNat (n % 10) (by omega), Option.map_some, Nat.div_add_mod]
  have hne : (ofNat n).isEmpty = false := by
    have := Bytes.isNumeral_ofNat n
    rw [Bytes.isNumeral, Bool.and_eq_true] at this
    simpa using this.1
  rw [nat?, hne]
  exact hfold

theorem Bytes.ofInt_eq (i : Int) :
    ofInt i = if 0 ≤ i then ofNat i.toNat else ofString "-" ++ ofNat (-i).toNat := by
  rw [ofInt, Int.toString_eq_repr, Int.repr_eq_if]
  split
  · rfl
  · simp [ofNat, ofString_eq]

end Covenant
