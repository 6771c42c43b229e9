import Covenant.Proofs.Text.Encoding
import Covenant.Token.Scan
import Covenant.Tree

/-!
# Texts of tokens

A token that was scanned has a text of its kind: an identifier is a name and no keyword, an integer
is made of digits, a principal is an address, and an operator is written as its kind says.
-/

namespace Covenant

open List Bytes
open TokenKind (ofWord)

/-! ### Classes of texts -/

/-- A name: a letter or underscore, then letters, underscores and digits; and no keyword. -/
def Bytes.isName (w : Bytes) : Bool :=
  match w.glyphs with
  | [] => false
  | g :: gs =>
    Scanner.isNameStart g && gs.all Scanner.isNamePart && TokenKind.ofWord w == .ident

def Bytes.isNumeral (w : Bytes) : Bool :=
  !w.isEmpty && w.all fun b => 48 ≤ b && b ≤ 57

/-- The rest of an address: nothing, or a point and the name of a contract. -/
def Bytes.isContractSuffix : List Glyph → Bool
  | [] => true
  | .char '.' :: contract => contract.all Scanner.isContractPart
  | _ => false

/-- The address of a principal: `S`, the letter of a network, more digits and capitals, and perhaps
the name of a contract. -/
def Bytes.isAddress (w : Bytes) : Bool :=
  match w.glyphs with
  | .char 'S' :: .char k :: g :: gs =>
    (k == 'P' || k == 'M' || k == 'T' || k == 'N') && Scanner.isAddressPart g &&
      isContractSuffix (gs.dropWhile Scanner.isAddressPart)
  | _ => false

/-- The kinds of the operators: their text is the name of the kind. -/
def TokenKind.isOperator (k : TokenKind) : Bool :=
  k == .bang || Level.all.any (·.operators.contains k)

def Token.isSound (t : Token) : Bool :=
  match t.kind with
  | .ident => t.literal.isName
  | .int => t.literal.isNumeral
  | .principal => t.literal.isAddress
  | k => !k.isOperator || t.literal == k.name

def Token.SameText (t u : Token) : Prop :=
  t.kind = u.kind ∧ t.literal = u.literal

/-! ### Characters of names, numerals and addresses -/

namespace Scanner

theorem exists_char_of_isNamePart (h : isNamePart g = true) : ∃ c, g = .char c := by
  cases g with
  | char c => exact ⟨c, rfl⟩
  | stray b =>
    have : isNamePart (.stray b) = false := by
      simp only [isNamePart, isNameStart, isDigit, Glyph.rune]
      rw [show Glyph.is (.stray b) '_' = false from rfl]
      decide +kernel
    simp [this] at h

theorem exists_char_of_isContractPart (h : isContractPart g = true) : ∃ c, g = .char c := by
  cases g with
  | char c => exact ⟨c, rfl⟩
  | stray b =>
    have : isContractPart (.stray b) = false := by
      simp only [isContractPart, isDigit, Glyph.rune]
      rw [show Glyph.is (.stray b) '_' = false from rfl,
        show Glyph.is (.stray b) '-' = false from rfl]
      decide
    simp [this] at h

theorem isContractPart_of_isAddressPart (h : isAddressPart g = true) : isContractPart g = true := by
  simp only [isAddressPart, Bool.or_eq_true] at h
  simp only [isContractPart, Bool.or_eq_true]
  exact .inl (.inl (.inl h))

end Scanner

theorem Bytes.glyphs_ofGlyphs (h : ∀ g ∈ gs, ∃ c, g = .char c) (s : Bytes) :
    (ofGlyphs gs ++ s).glyphs = gs ++ s.glyphs := by
  induction gs with
  | nil => rfl
  | cons g gs ih =>
    obtain ⟨⟨c, rfl⟩, hgs⟩ := forall_mem_cons.1 h
    rw [ofGlyphs, flatMap_cons, append_assoc]
    refine (glyphs_ofChar_append c _).trans ?_
    rw [← ofGlyphs, ih hgs, cons_append]

/-! ### Runs -/

theorem TokenKind.ofWord_mem (w : Bytes) : ofWord w = .ident ∨
    ofWord w ∈ keywords.map Prod.snd := by
  rw [ofWord]
  split
  · next found => exact .inr (mem_map_of_mem (mem_of_find?_eq_some found))
  · exact .inl rfl

namespace Scanner

theorem spanFrom_spec (p : Glyph → Bool) (gs : List Glyph) (pos : Pos) :
    (spanFrom p gs pos).1 = gs.takeWhile p ∧ (spanFrom p gs pos).2.rest = gs.dropWhile p := by
  induction gs generalizing pos with
  | nil => exact ⟨rfl, rfl⟩
  | cons g gs ih =>
    rw [spanFrom]
    split
    · next hg =>
      rw [takeWhile_cons_of_pos hg, dropWhile_cons_of_pos hg]
      exact ⟨congrArg _ (ih _).1, (ih _).2⟩
    · next hg =>
      rw [takeWhile_cons_of_neg hg, dropWhile_cons_of_neg hg]
      exact ⟨rfl, rfl⟩

theorem span_eq (p : Glyph → Bool) (s : Scanner) :
    ∃ s', s.span p = (s.rest.takeWhile p, s') ∧ s'.rest = s.rest.dropWhile p := by
  obtain ⟨hrun, hrest⟩ := spanFrom_spec p s.rest s.pos
  exact ⟨_, Prod.ext hrun rfl, hrest⟩

theorem rest_advance (s : Scanner) : s.advance.rest = s.rest.tail := by
  rw [advance]
  split <;> simp_all

theorem number_fst (s : Scanner) :
    s.number.1 = s.rest.takeWhile isDigit ∨ .char '.' ∈ s.number.1 := by
  obtain ⟨s₁, hspan, -⟩ := span_eq isDigit s
  rw [number, hspan]
  dsimp only
  split
  · split
    · exact .inr (mem_append_right _ mem_cons_self)
    · exact .inl rfl
  · exact .inl rfl

theorem principal_fst (s : Scanner) :
    ∃ suffix, s.principal.1 = s.rest.takeWhile isAddressPart ++ suffix ∧
      isContractSuffix suffix = true := by
  obtain ⟨s₁, hspan, -⟩ := span_eq isAddressPart s
  rw [principal, hspan]
  dsimp only
  split
  · obtain ⟨s₂, hspan₂, -⟩ := span_eq isContractPart s₁.advance
    rw [hspan₂]
    exact ⟨_, rfl, all_takeWhile⟩
  · exact ⟨[], (append_nil _).symm, rfl⟩

/-! ### Tokens of a source -/

theorem exists_char_of_mem_takeWhile (hp : ∀ g, p g = true → ∃ c, g = .char c) (gs : List Glyph) :
    ∀ g ∈ gs.takeWhile p, ∃ c, g = .char c := fun g hg =>
  hp g (all_eq_true.1 all_takeWhile g hg)

theorem isName_word (hg : isNameStart g = true)
    (hw : ofWord (ofGlyphs ((g :: gs).takeWhile isNamePart)) = .ident) :
    (ofGlyphs ((g :: gs).takeWhile isNamePart)).isName = true := by
  have hpart : isNamePart g = true := by rw [isNamePart, hg, Bool.true_or]
  have hglyphs := glyphs_ofGlyphs
    (exists_char_of_mem_takeWhile (fun _ => exists_char_of_isNamePart) (g :: gs)) []
  rw [append_nil] at hglyphs
  rw [isName, hglyphs, hw, takeWhile_cons_of_pos hpart]
  simp [glyphs, glyphsFrom, hg, all_takeWhile]

theorem bytes_of_isDigit (hg : isDigit g = true) :
    ∃ b : UInt8, g.bytes = [b] ∧ (48 ≤ b && b ≤ 57) = true := by
  obtain ⟨c, rfl⟩ : ∃ c, g = .char c :=
    exists_char_of_isNamePart (by rw [isNamePart, hg, Bool.or_true])
  have hc : 48 ≤ c.toNat ∧ c.toNat ≤ 57 := by
    simpa [isDigit, Rune.isAsciiDigit, Glyph.rune, Char.le_def, UInt32.le_iff_toNat_le] using hg
  obtain ⟨-, he⟩ | ⟨hge, -⟩ := ofChar_cases c
  · refine ⟨_, he, ?_⟩
    simp only [Bool.and_eq_true, decide_eq_true_eq, UInt8.le_iff_toNat_le,
      toNat_ofNat_of_lt (show c.toNat < 256 by omega), UInt8.reduceToNat]
    exact hc
  · omega

theorem isNumeral_digits (hg : isDigit g = true) :
    (ofGlyphs ((g :: gs).takeWhile isDigit)).isNumeral = true := by
  have hall : ∀ b ∈ ofGlyphs ((g :: gs).takeWhile isDigit), (48 ≤ b && b ≤ 57) = true := by
    intro b hb
    obtain ⟨x, hx, hbx⟩ := mem_flatMap.1 hb
    obtain ⟨b', hb', h⟩ := bytes_of_isDigit (all_eq_true.1 all_takeWhile x hx)
    obtain rfl : b = b' := by simpa [hb'] using hbx
    exact h
  have hne : ofGlyphs ((g :: gs).takeWhile isDigit) ≠ [] := by
    obtain ⟨b, hb, -⟩ := bytes_of_isDigit hg
    rw [takeWhile_cons_of_pos hg, ofGlyphs, flatMap_cons, hb]
    exact cons_ne_nil _ _
  rw [isNumeral, all_eq_true.2 hall, Bool.and_true, Bool.not_eq_true', isEmpty_eq_false_iff]
  exact hne

theorem isContractSuffix_cases {suffix : List Glyph} (h : isContractSuffix suffix = true) :
    suffix = [] ∨ ∃ contract, suffix = .char '.' :: contract ∧
      contract.all isContractPart = true := by
  unfold isContractSuffix at h
  split at h
  · exact .inl rfl
  · exact .inr ⟨_, rfl, h⟩
  · cases h

theorem isAddress_principal {s : Scanner} (h : s.opensPrincipal = true) :
    (ofGlyphs s.advance.principal.1).isAddress = true := by
  rw [opensPrincipal] at h
  split at h
  case h_2 => cases h
  next q k g more hs =>
  simp only [Bool.and_eq_true] at h
  obtain ⟨⟨hk, hg⟩, -⟩ := h
  have hkpart : isAddressPart (.char k) = true := by
    simp only [Bool.or_eq_true, beq_iff_eq] at hk
    obtain ((rfl | rfl) | rfl) | rfl := hk <;> decide
  obtain ⟨suffix, hrun, hsuffix⟩ := principal_fst s.advance
  rw [rest_advance, hs, tail_cons, takeWhile_cons_of_pos rfl,
    takeWhile_cons_of_pos hkpart, takeWhile_cons_of_pos hg] at hrun
  have haddress : ∀ x ∈ more.takeWhile isAddressPart, isAddressPart x = true :=
    all_eq_true.1 all_takeWhile
  have hdrop : suffix.dropWhile isAddressPart = suffix := by
    obtain rfl | ⟨contract, rfl, -⟩ := isContractSuffix_cases hsuffix
    · rfl
    · exact dropWhile_cons_of_neg (by decide)
  have hchar {x : Glyph} (hx : isAddressPart x = true) : ∃ c, x = .char c :=
    exists_char_of_isContractPart (isContractPart_of_isAddressPart hx)
  have hchars : ∀ x ∈ s.advance.principal.1, ∃ c, x = .char c := by
    rw [hrun]
    simp only [cons_append, forall_mem_cons, forall_mem_append]
    refine ⟨⟨_, rfl⟩, ⟨_, rfl⟩, hchar hg, fun x hx => hchar (haddress x hx), ?_⟩
    obtain rfl | ⟨contract, rfl, hall⟩ := isContractSuffix_cases hsuffix
    · nofun
    · exact forall_mem_cons.2 ⟨⟨_, rfl⟩, fun x hx =>
        exists_char_of_isContractPart (all_eq_true.1 hall x hx)⟩
  have hglyphs := glyphs_ofGlyphs hchars []
  rw [append_nil, hrun] at hglyphs
  rw [isAddress, hrun, hglyphs]
  simp only [cons_append, hk, hg, Bool.true_and]
  rw [glyphs, glyphsFrom, append_nil, dropWhile_append_of_pos haddress, hdrop]
  exact hsuffix

theorem isSound_symbol {next : Option Glyph} {two : Bool} (pos : Pos)
    (h : symbol c next = some (k, two)) : Token.isSound ⟨k, k.name, pos⟩ = true := by
  unfold symbol at h
  dsimp only at h
  split at h <;> (repeat' split at h) <;> cases h <;> simp [Token.isSound]

theorem isSound_string (quote : Char) (s : Scanner) : (s.string quote).1.isSound = true := by
  rw [string]
  split <;> rfl

theorem isSound_word (hg : isNameStart g = true) (pos : Pos) :
    let word := ofGlyphs ((g :: gs).takeWhile isNamePart)
    Token.isSound ⟨ofWord word, word, pos⟩ = true := by
  intro word
  have hname : ofWord word = .ident → word.isName = true := isName_word hg
  have hkind := TokenKind.ofWord_mem word
  generalize ofWord word = k at hname hkind
  obtain rfl | hk := hkind
  · exact hname rfl
  · simp only [TokenKind.keywords, map_cons, map_nil, mem_cons, not_mem_nil, or_false] at hk
    obtain rfl | rfl | rfl | rfl | rfl | rfl | rfl | rfl | rfl | rfl | rfl | rfl | rfl | rfl | rfl |
      rfl | rfl | rfl | rfl | rfl | rfl := hk <;> rfl

theorem isSound_token (s : Scanner) : s.token.1.isSound = true := by
  rw [token]
  split
  · rfl
  next g rest hs =>
  split
  · rfl
  split
  · next h => exact isSound_symbol _ h
  split
  · exact isSound_string _ _
  split
  · split
    · next h => exact isAddress_principal h
    · exact isSound_string _ _
  split
  · split
    · split <;> rfl
    · rfl
  split
  · next hg =>
    obtain ⟨s', hspan, -⟩ := span_eq isNamePart s
    rw [hspan, hs]
    exact isSound_word hg s.pos
  split
  · next hg =>
    have hnumber := number_fst s
    generalize s.number = n at hnumber
    obtain ⟨run, s'⟩ := n
    dsimp only at hnumber ⊢
    split
    · rfl
    · next hpoint =>
      obtain rfl | hpoint' := hnumber
      · rw [hs]
        exact isNumeral_digits hg
      · exact absurd (contains_iff_mem.2 hpoint') hpoint
  · rfl

theorem isSound_next (s : Scanner) : s.next.1.isSound = true := by
  rw [next]
  split
  · exact isSound_token _
  · rfl

theorem isSound_of_mem_tokensWithin (h : t ∈ tokensWithin fuel s) : t.isSound = true := by
  induction fuel generalizing s with
  | zero => cases h
  | succ fuel ih =>
    rw [tokensWithin] at h
    dsimp only at h
    split at h
    · obtain rfl := mem_singleton.1 h
      exact isSound_next s
    · obtain rfl | h := mem_cons.1 h
      · exact isSound_next s
      · exact ih h

end Scanner

/-- Every token of a source has a text of its kind. -/
theorem Token.isSound_of_mem_scan {source : Bytes} (h : t ∈ scan source) : t.isSound = true :=
  Scanner.isSound_of_mem_tokensWithin h

end Covenant
