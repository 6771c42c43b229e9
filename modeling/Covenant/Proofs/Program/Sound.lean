import Covenant.Program.Build
import Covenant.Proofs.Program.Parts
import Covenant.Proofs.Token.Lexeme

/-!
# Sound parts

What holds of every part of a program that is built from a source: its names are names of the
source language, its operators are those of the language, a minus sign is part of a number, keys
differ, and every call is of the kind that its callee and the known assets ask for.
-/

namespace Covenant

def Expr.isNumber : Expr → Bool
  | .literal _ _ (.int _) | .literal _ _ (.float _) => true
  | _ => false

/-- What holds of a part of a program that was built with the given assets. -/
def Node.Sound (assets : List Bytes) : Node → Prop
  | .expr (.ident n) => n.name.isName = true
  | .expr (.literal _ _ (.int v)) => v ≠ Int64.minValue
  | .expr (.principal _ address) => address.isAddress = true
  | .expr (.tuple _ fields) => (fields.map Prod.fst).Nodup
  | .expr (.binary _ op _ _) => op ∈ BinOp.all
  | .expr (.unary _ op e) => (op = .not ∨ op = .neg) ∧ (op = .neg → e.isNumber = false)
  | .expr (.call p f args) => callOf assets f p args = .call p f args
  | .expr (.contractCall _ contract function _) =>
    function.isName = true ∧ isAssetOperation assets contract.name function = false ∧
      namesContract contract.name = true
  | .expr (.assetCall _ asset function _) =>
    function.isName = true ∧ isAssetOperation assets asset.name function = true
  | .type (.tuple _ fields) => (∀ f ∈ fields, f.1.isName = true) ∧ (fields.map Prod.fst).Nodup
  | _ => True

/-! ### Operators and numbers -/

variable {t : Token} {level : Level}

theorem Token.literal_of_isOperator (hs : t.isSound = true)
    (hk : t.kind.isOperator = true) : t.literal = t.kind.name := by
  unfold isSound at hs
  split at hs
  · next h => rw [h] at hk; cases hk
  · next h => rw [h] at hk; cases hk
  · next h => rw [h] at hk; cases hk
  · rw [hk] at hs
    simpa using hs

theorem Level.isOperator_of_mem (h : k ∈ level.operators) : k.isOperator = true := by
  rw [TokenKind.isOperator, Bool.or_eq_true, List.any_eq_true]
  exact .inr ⟨level, by cases level <;> decide, List.contains_iff_mem.2 h⟩

theorem BinOp.ofText_name_mem_all (h : k ∈ level.operators) : ofText k.name ∈ BinOp.all := by
  have hall : ∀ level : Level, ∀ k ∈ level.operators, ofText k.name ∈ BinOp.all := by
    rintro (_ | _ | _ | _ | _ | _ | _ | _ | _ | _) <;> decide
  exact hall level k h

theorem BinOp.ofText_mem_all (hs : t.isSound = true)
    (h : t.kind ∈ level.operators) : ofText t.literal ∈ BinOp.all := by
  rw [Token.literal_of_isOperator hs (Level.isOperator_of_mem h)]
  exact ofText_name_mem_all h

theorem UnOp.ofText_literal (hs : t.isSound = true) (h : t.kind = .bang ∨ t.kind = .minus) :
    (t.kind = .bang ∧ ofText t.literal = .not) ∨
      (t.kind = .minus ∧ ofText t.literal = .neg) := by
  obtain hk | hk := h
  · rw [Token.literal_of_isOperator hs (by rw [hk]; rfl), hk]
    exact .inl ⟨rfl, by decide⟩
  · rw [Token.literal_of_isOperator hs (by rw [hk]; rfl), hk]
    exact .inr ⟨rfl, by decide⟩

theorem Numeral.sign_of_isNumeral {s : Bytes} (hs : s.isNumeral = true) : sign s = (false, s) := by
  unfold sign
  split
  · simp [Bytes.isNumeral] at hs
  · simp [Bytes.isNumeral] at hs
  · rfl

theorem Numeral.toInt_nonneg {s : Bytes} (hs : s.isNumeral = true)
    (h : int64? s = some v) : 0 ≤ v.toInt := by
  obtain ⟨i, hi, hv⟩ := Option.bind_eq_some_iff.1 h
  split at hv
  · next hrange =>
    cases hv
    have hn : 0 ≤ i := by
      rw [int?, sign_of_isNumeral hs] at hi
      cases hnat : nat? s with
      | none => simp [hnat] at hi
      | some n =>
        obtain rfl : (n : Int) = i := by simpa [hnat] using hi
        exact Int.natCast_nonneg n
    rw [Int64.toInt_ofInt_of_le (by exact hrange.1) (by exact Int.lt_of_le_sub_one hrange.2)]
    exact hn
  · cases hv

theorem neg_ne_minValue (h : v ≠ Int64.minValue) : -v ≠ Int64.minValue := by
  intro hneg
  have hneg' : - -v = -Int64.minValue := congrArg (- ·) hneg
  rw [Int64.neg_neg] at hneg'
  exact h hneg'

end Covenant
