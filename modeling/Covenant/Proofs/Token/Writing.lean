import Covenant.Proofs.Text.Escaping
import Covenant.Proofs.Token.Append

/-!
# Writing tokens

The text of a token in a source: a string stands between double quotes with its quotes, backslashes
and line ends escaped, a principal stands behind a single quote, and all else is written as it is.
Tokens that are written with blanks between them are scanned back.
-/

namespace Covenant

open List hiding beq_eq_decide
open Bytes Scanner TokenKind

open Glyph (is rune)

/-! ### Texts of tokens -/

def escapeByte (b : UInt8) : Bytes :=
  if b = 34 then [92, 34] else if b = 92 then [92, 92] else if b = 10 then [92, 110] else [b]

def escape (s : Bytes) : Bytes :=
  s.flatMap escapeByte

def TokenKind.symbols : List TokenKind :=
  [assign, plus, minus, bang, asterisk, slash, percent, less, greater, lessEq, greaterEq, equal,
   notEqual, and, or, bitAnd, bitOr, bitXor, shiftLeft, shiftRight, question, arrow, comma,
   semicolon, colon, dot, lparen, rparen, lbrace, rbrace, lbracket, rbracket]

namespace Token

def text (t : Token) : Bytes :=
  match t.kind with
  | .string => "\"" ++ escape t.literal ++ "\""
  | .principal => "'" ++ t.literal
  | _ => t.literal

def writeAll (ts : List Token) : Bytes :=
  Bytes.join " " (ts.map text)

def isWritable (t : Token) : Bool :=
  match t.kind with
  | .ident => t.literal.isName
  | .int => t.literal.isNumeral
  | .principal => t.literal.isAddress
  | .string => !t.literal.contains 0
  | k => (TokenKind.symbols.contains k && t.literal == k.name) ||
      TokenKind.keywords.any fun (w, k') => k' == k && t.literal == Bytes.ofString w

def symbol (k : TokenKind) : Token :=
  ⟨k, k.name, {}⟩

def word (w : Bytes) : Token :=
  ⟨.ident, w, {}⟩

def keyword (w : String) : Token :=
  ⟨TokenKind.ofWord w, w, {}⟩

end Token

open Token (symbol)

def commas : List (List Token) → List Token
  | [] => []
  | ws :: wss => ws ++ wss.flatMap (symbol .comma :: ·)

def parens (ws : List Token) : List Token :=
  symbol .lparen :: (ws ++ [symbol .rparen])

/-! ### Blanks -/

def isSetOff (rest : List Glyph) : Prop :=
  ∀ g, rest.head? = some g → g = .char ' '

theorem isSetOff_nil : isSetOff [] :=
  nofun

theorem isSetOff_blank (gs : List Glyph) : isSetOff (.char ' ' :: gs) := by
  rintro g ⟨⟩
  rfl

theorem isSetOff.head_eq {rest : List Glyph} (h : isSetOff rest) :
    rest.head? = none ∨ rest.head? = some (.char ' ') := by
  cases rest with
  | nil => exact .inl rfl
  | cons g gs => exact .inr (congrArg some (h g rfl))

namespace Scanner

def Avoids (p : Glyph → Bool) (gs : List Glyph) : Prop :=
  ∀ g, gs.head? = some g → p g = false

theorem Avoids.span_eq {run rest : List Glyph} (hrun : ∀ g ∈ run, p g = true)
    (hrest : Avoids p rest) (pos : Pos) :
    ∃ pos', (⟨run ++ rest, pos⟩ : Scanner).span p = (run, ⟨rest, pos'⟩) := by
  obtain ⟨⟨more, pos'⟩, hspan, hmore⟩ := Scanner.span_eq p ⟨run ++ rest, pos⟩
  have hstop : rest.takeWhile p = [] ∧ rest.dropWhile p = rest := by
    cases rest with
    | nil => exact ⟨rfl, rfl⟩
    | cons g gs =>
      have hg : ¬ p g = true := by rw [hrest g rfl]; decide
      exact ⟨takeWhile_cons_of_neg hg, dropWhile_cons_of_neg hg⟩
  rw [takeWhile_append_of_pos hrun, hstop.1, append_nil] at hspan
  rw [dropWhile_append_of_pos hrun, hstop.2] at hmore
  exact ⟨pos', hmore ▸ hspan⟩

variable {rest : List Glyph}

theorem avoids_of_isSetOff (h : isSetOff rest) (hp : p (.char ' ') = false) : Avoids p rest :=
  fun g hg => h g hg ▸ hp

theorem next_blank (gs : List Glyph) (pos : Pos) :
    (⟨.char ' ' :: gs, pos⟩ : Scanner).next = (⟨gs, pos.enter gs.head?⟩ : Scanner).next := by
  rfl

theorem skipTrivia_of_token {pos : Pos} (hg : isBlank g = false)
    (hslash : g = .char '/' → isSetOff rest) :
    (⟨g :: rest, pos⟩ : Scanner).skipTrivia = .ready ⟨g :: rest, pos⟩ := by
  unfold skipTrivia
  unfold skip
  split
  · cases ‹Mode.blank = Mode.block _›
  · cases ‹_ :: _ = []›
  · next heq =>
    obtain ⟨rfl, rfl⟩ := cons.inj heq
    cases hslash rfl _ rfl
  · next heq =>
    obtain ⟨rfl, rfl⟩ := cons.inj heq
    cases hslash rfl _ rfl
  · next heq =>
    obtain ⟨rfl, rfl⟩ := cons.inj heq
    rw [hg]
    rfl
  all_goals cases ‹Mode.blank = _›

/-! ### Symbols -/

/-- The kind is spelled as its name says: by a character that starts no other symbol before a
blank, or by two characters. -/
def isSpelled (k : TokenKind) : Bool :=
  match (Bytes.ofString k.name).glyphs with
  | [.char c] => c != '\x00' && !isBlank (.char c) && symbol c none == some (k, false) &&
      symbol c (some (.char ' ')) == some (k, false)
  | [.char c, g] => c != '\x00' && c != '/' && !isBlank (.char c) &&
      symbol c (some g) == some (k, true)
  | _ => false

theorem isSpelled_of_mem (h : k ∈ symbols) : isSpelled k = true := by
  have hall : symbols.all isSpelled = true := by decide
  exact all_eq_true.1 hall k h

theorem next_symbol (hk : k ∈ symbols) (hrest : isSetOff rest) (pos : Pos) :
    ∃ pos', (⟨(ofString k.name).glyphs ++ rest, pos⟩ : Scanner).next =
      (⟨k, k.name, pos⟩, ⟨rest, pos'⟩) := by
  have h := isSpelled_of_mem hk
  unfold isSpelled at h
  split at h
  · next c hglyphs =>
    simp only [Bool.and_eq_true, bne_iff_ne, ne_eq, Bool.not_eq_true', beq_iff_eq] at h
    obtain ⟨⟨⟨hnul, hblank⟩, hnone⟩, hspace⟩ := h
    have hsymbol : symbol c rest.head? = some (k, false) := by
      obtain hhead | hhead := hrest.head_eq <;> rw [hhead] <;> assumption
    rw [hglyphs, singleton_append, next, skipTrivia_of_token hblank fun _ => hrest]
    simp only [token, is, beq_iff_eq, Glyph.char.injEq, hnul, if_false, rune, hsymbol]
    exact ⟨_, rfl⟩
  · next c g hglyphs =>
    simp only [Bool.and_eq_true, bne_iff_ne, ne_eq, Bool.not_eq_true', beq_iff_eq] at h
    obtain ⟨⟨⟨hnul, hslash⟩, hblank⟩, hsymbol⟩ := h
    have hslash : Glyph.char c = .char '/' → isSetOff (g :: rest) := fun h =>
      absurd (Glyph.char.inj h) hslash
    rw [hglyphs, cons_append, singleton_append, next, skipTrivia_of_token hblank hslash]
    simp only [token, is, beq_iff_eq, Glyph.char.injEq, hnul, if_false, rune, head?_cons, hsymbol]
    exact ⟨_, rfl⟩
  · cases h

/-! ### Words and numerals -/

/-- Blanks, and the characters that start symbols, strings, principals and decorators. -/
def marks : List Char :=
  ['=', '!', '<', '>', '&', '|', '^', '+', '-', '*', '/', '%', '?', ',', ';', ':', '.', '(', ')',
   '\x7b', '\x7d', '[', ']', '\x22', '\x27', '@', '\x00', ' ', '\t', '\n', '\r']

theorem symbol_of_not_mem (h : c ∉ marks) (next : Option Glyph) : symbol c next = none := by
  unfold symbol
  split <;> first | exact absurd (by decide) h | rfl

theorem next_of_not_mem (h : c ∉ marks) (gs : List Glyph) (pos : Pos) :
    (⟨.char c :: gs, pos⟩ : Scanner).next = if isNameStart (.char c) then
        let (run, s') := (⟨.char c :: gs, pos⟩ : Scanner).span isNamePart
        (⟨ofWord (ofGlyphs run), ofGlyphs run, pos⟩, s')
      else if isDigit (.char c) then let (run, s') := (⟨.char c :: gs, pos⟩ : Scanner).number
        (⟨if run.contains (.char '.') then .float else .int, ofGlyphs run, pos⟩, s')
      else (⟨.illegal, ofChar c, pos⟩, (⟨.char c :: gs, pos⟩ : Scanner).advance) := by
  have hne {d : Char} (hd : d ∈ marks) : (Glyph.char c).is d = false := by
    rw [is, beq_eq_false_iff_ne]
    rintro ⟨⟩
    exact h hd
  have hblank : isBlank (.char c) = false := by
    rw [isBlank, hne (by decide), hne (by decide), hne (by decide), hne (by decide)]
    rfl
  have hslash : Glyph.char c = .char '/' → isSetOff gs := by
    rintro ⟨⟩
    exact absurd (by decide) h
  rw [next, skipTrivia_of_token hblank hslash]
  simp only [token, hne (d := '\x00') (by decide), rune, symbol_of_not_mem h,
    hne (d := '\x22') (by decide), hne (d := '\x27') (by decide), hne (d := '@') (by decide),
    Bool.false_eq_true, if_false]

theorem not_mem_marks_of_isNamePart (h : isNamePart (.char c) = true) : c ∉ marks := by
  have hall : (marks.any fun c => isNamePart (.char c)) = false := by decide
  exact fun hc => any_eq_false.1 hall c hc h

/-- A letter or underscore, then letters, underscores and digits. -/
def isWord (w : Bytes) : Bool :=
  match w.glyphs with
  | [] => false
  | g :: gs => isNameStart g && gs.all isNamePart

theorem isWord_cases (h : isWord w = true) :
    ∃ c gs, w.glyphs = .char c :: gs ∧ isNameStart (.char c) = true ∧ c ∉ marks ∧
      ∀ g ∈ w.glyphs, isNamePart g = true := by
  unfold isWord at h
  split at h
  · cases h
  next g gs hglyphs =>
  rw [Bool.and_eq_true, all_eq_true] at h
  have hpart : isNamePart g = true := by rw [isNamePart, h.1, Bool.true_or]
  obtain ⟨c, rfl⟩ := exists_char_of_isNamePart hpart
  refine ⟨c, gs, hglyphs, h.1, not_mem_marks_of_isNamePart hpart, ?_⟩
  rw [hglyphs]
  exact forall_mem_cons.2 ⟨hpart, h.2⟩

theorem next_word (hw : isWord w = true) (hrest : Avoids isNamePart rest) (pos : Pos) :
    ∃ pos', (⟨w.glyphs ++ rest, pos⟩ : Scanner).next = (⟨ofWord w, w, pos⟩, ⟨rest, pos'⟩) := by
  obtain ⟨c, gs, hglyphs, hstart, hmarks, hall⟩ := isWord_cases hw
  obtain ⟨pos', hspan⟩ := hrest.span_eq hall pos
  refine ⟨pos', ?_⟩
  rw [hglyphs, cons_append] at hspan ⊢
  rw [next_of_not_mem hmarks, if_pos hstart, hspan, ← hglyphs]
  simp only [ofGlyphs_glyphs]

end Scanner

theorem Bytes.isDigit_of_isNumeral {w : Bytes} (h : w.isNumeral = true) :
    ∃ c gs, w.glyphs = .char c :: gs ∧ ∀ g ∈ w.glyphs, isDigit g = true := by
  have hdigit : ∀ n < 256, 48 ≤ n → n ≤ 57 → isDigit (.char (Char.ofNat n)) = true := by
    decide +kernel
  rw [isNumeral, Bool.and_eq_true] at h
  obtain ⟨hne, hall⟩ := h
  have hglyphs : ∀ g ∈ w.glyphs, isDigit g = true := by
    clear hne
    induction w with
    | nil => exact forall_mem_nil _
    | cons b w ih =>
      rw [all_cons, Bool.and_eq_true, Bool.and_eq_true, decide_eq_true_eq, decide_eq_true_eq,
        UInt8.le_iff_toNat_le, UInt8.le_iff_toNat_le] at hall
      obtain ⟨⟨hl, hu⟩, hw⟩ := hall
      simp only [UInt8.reduceToNat] at hl hu
      rw [glyphs_cons_of_lt (by omega)]
      exact forall_mem_cons.2 ⟨hdigit _ b.toNat_lt hl hu, ih hw⟩
  cases w with
  | nil => simp at hne
  | cons b w =>
    rw [all_cons, Bool.and_eq_true, Bool.and_eq_true, decide_eq_true_eq, decide_eq_true_eq,
      UInt8.le_iff_toNat_le, UInt8.le_iff_toNat_le] at hall
    simp only [UInt8.reduceToNat] at hall
    exact ⟨_, _, glyphs_cons_of_lt (by omega) w, hglyphs⟩

namespace Scanner

variable {rest : List Glyph} {w : Bytes} {gs : List Glyph}

theorem next_numeral (hw : w.isNumeral = true)
    (hrest : Avoids isDigit rest) (hpoint : startsWith fraction rest = false) (pos : Pos) :
    ∃ pos', (⟨w.glyphs ++ rest, pos⟩ : Scanner).next = (⟨.int, w, pos⟩, ⟨rest, pos'⟩) := by
  obtain ⟨c, gs, hglyphs, hdigits⟩ := isDigit_of_isNumeral hw
  have hc := hdigits _ (by rw [hglyphs]; exact .head _)
  have hpart : isNamePart (.char c) = true := by rw [isNamePart, hc, Bool.or_true]
  obtain ⟨pos', hspan⟩ := hrest.span_eq hdigits pos
  have hstart : isNameStart (.char c) = false := by
    have hall : ∀ n < 58, 48 ≤ n → isNameStart (.char (Char.ofNat n)) = false := by decide
    have hrange : 48 ≤ c.toNat ∧ c.toNat ≤ 57 := by
      simpa [isDigit, Rune.isAsciiDigit, rune, Char.le_def, UInt32.le_iff_toNat_le] using hc
    have := hall c.toNat (by omega) hrange.1
    rwa [Char.ofNat_toNat] at this
  have hnumber : (⟨w.glyphs ++ rest, pos⟩ : Scanner).number = (w.glyphs, ⟨rest, pos'⟩) := by
    rw [number_eq, hspan]
    exact if_neg (Bool.eq_false_iff.1 hpoint)
  have hwhole : w.glyphs.contains (.char '.') = false := by
    rw [Bool.eq_false_iff]
    intro hmem
    have hdigit := hdigits _ (contains_iff_mem.1 hmem)
    revert hdigit
    decide
  refine ⟨pos', ?_⟩
  rw [hglyphs, cons_append] at hnumber ⊢
  rw [next_of_not_mem (not_mem_marks_of_isNamePart hpart), hstart, hc, hnumber, ← hglyphs]
  simp only [Bool.false_eq_true, if_false, if_true, hwhole, ofGlyphs_glyphs]

/-! ### Quotes -/

def quotes : List Char :=
  ['\x22', '\x27']

theorem forall_quotes {P : Char → Prop} (hdouble : P '\x22') (hsingle : P '\x27') :
    ∀ quote ∈ quotes, P quote :=
  forall_mem_cons.2 ⟨hdouble, forall_mem_singleton.2 hsingle⟩

theorem ne_backslash_of_mem_quotes (h : quote ∈ quotes) : quote ≠ '\x5c' := by
  rintro rfl
  exact absurd h (by decide)

theorem next_quote_eq (hquote : quote ∈ quotes) (gs : List Glyph) (pos : Pos) :
    (⟨.char quote :: gs, pos⟩ : Scanner).next =
      if quote = '\x27' ∧ opensPrincipal ⟨.char quote :: gs, pos⟩ = true then
        (⟨.principal, ofGlyphs (principal ⟨gs, pos.enter gs.head?⟩).1, pos⟩,
          (principal ⟨gs, pos.enter gs.head?⟩).2) else string quote ⟨.char quote :: gs, pos⟩ := by
  have hmarks : ∀ q ∈ quotes, isBlank (.char q) = false ∧ Glyph.char q ≠ .char '/' :=
    forall_quotes (by decide) (by decide)
  obtain ⟨hblank, hslash⟩ := hmarks quote hquote
  simp only [quotes, mem_cons, not_mem_nil, or_false] at hquote
  obtain rfl | rfl := hquote
  · rfl
  · simp only [true_and]
    rfl

/-! ### Principals -/

theorem startsWith_address_iff :
    startsWith address gs = true ↔ ∃ k g more, gs = .char 'S' :: .char k :: g :: more ∧
      (k == 'P' || k == 'M' || k == 'T' || k == 'N') = true ∧ isAddressPart g = true := by
  constructor
  · intro h
    match gs with
    | [] | [_] | [_, _] => simp [address, startsWith] at h
    | a :: b :: g :: more =>
      simp only [address, startsWith, is, Bool.and_eq_true, Bool.or_eq_true, beq_iff_eq] at h
      obtain ⟨rfl, hb, hg, -⟩ := h
      obtain ((rfl | rfl) | rfl) | rfl := hb <;> exact ⟨_, g, more, rfl, rfl, hg⟩
  · rintro ⟨k, g, more, rfl, hk, hg⟩
    have hchar (c : Char) : (Glyph.char k).is c = (k == c) := by
      simp [is, beq_eq_decide]
    simp only [address, startsWith, hchar, hk, hg]
    rfl

theorem isAddress_iff : w.isAddress = true ↔ startsWith address w.glyphs = true ∧
    isContractSuffix (w.glyphs.dropWhile isAddressPart) = true := by
  have hdrop {k : Char} {g : Glyph} (hk : (k == 'P' || k == 'M' || k == 'T' || k == 'N') = true)
      (hg : isAddressPart g = true) (more : List Glyph) :
      (Glyph.char 'S' :: .char k :: g :: more).dropWhile isAddressPart =
        more.dropWhile isAddressPart := by
    have hkpart : isAddressPart (.char k) = true := by
      simp only [Bool.or_eq_true, beq_iff_eq] at hk
      obtain ((rfl | rfl) | rfl) | rfl := hk <;> decide
    rw [dropWhile_cons_of_pos rfl, dropWhile_cons_of_pos hkpart, dropWhile_cons_of_pos hg]
  rw [startsWith_address_iff, isAddress]
  constructor
  · intro h
    split at h
    · next k g more hglyphs =>
      rw [Bool.and_eq_true, Bool.and_eq_true] at h
      exact ⟨⟨k, g, more, hglyphs, h.1.1, h.1.2⟩, by rw [hglyphs, hdrop h.1.1 h.1.2]; exact h.2⟩
    · cases h
  · rintro ⟨⟨k, g, more, hglyphs, hk, hg⟩, hsuffix⟩
    rw [hglyphs, hdrop hk hg] at hsuffix
    simp only [hglyphs, hk, hg, hsuffix, Bool.and_self]

theorem principal_eq (hw : w.isAddress = true)
    (hrest : Avoids isContractPart rest) (hpoint : Avoids (·.is '.') rest) (pos : Pos) :
    ∃ pos', (⟨w.glyphs ++ rest, pos⟩ : Scanner).principal = (w.glyphs, ⟨rest, pos'⟩) := by
  have hsuffix := (isAddress_iff.1 hw).2
  have haddress : ∀ x ∈ w.glyphs.takeWhile isAddressPart, isAddressPart x = true :=
    all_eq_true.1 all_takeWhile
  rw [← takeWhile_append_dropWhile (p := isAddressPart) (l := w.glyphs)]
  generalize w.glyphs.takeWhile isAddressPart = run at haddress
  obtain hnil | ⟨contract, hcontract, hall⟩ := isContractSuffix_cases hsuffix
  · have hstop : Avoids isAddressPart rest := fun x hx => by
      rw [Bool.eq_false_iff]
      exact fun h => Bool.eq_false_iff.1 (hrest x hx) (isContractPart_of_isAddressPart h)
    obtain ⟨pos', hspan⟩ := hstop.span_eq haddress pos
    refine ⟨pos', ?_⟩
    have hat : at? ⟨rest, pos'⟩ '.' = false := by
      rw [at?, beq_eq_false_iff_ne]
      exact fun h => absurd (hpoint _ h) (by decide)
    rw [hnil, append_nil, principal, hspan]
    simp [hat]
  · have hstop : Avoids isAddressPart (.char '.' :: (contract ++ rest)) := by
      rintro _ ⟨⟩
      decide
    obtain ⟨pos₁, hspan⟩ := hstop.span_eq haddress pos
    obtain ⟨pos', hspan₂⟩ := hrest.span_eq (all_eq_true.1 hall)
      (pos₁.enter (contract ++ rest).head?)
    refine ⟨pos', ?_⟩
    rw [hcontract, append_assoc, cons_append, principal, hspan]
    change (run ++ .char '.' :: (span isContractPart ⟨contract ++ rest, _⟩).1,
      (span isContractPart ⟨contract ++ rest, _⟩).2) = _
    rw [hspan₂]

theorem next_principal (hw : w.isAddress = true) (hrest : isSetOff rest) (pos : Pos) :
    ∃ pos', (⟨.char '\x27' :: (w.glyphs ++ rest), pos⟩ : Scanner).next =
      (⟨.principal, w, pos⟩, ⟨rest, pos'⟩) := by
  obtain ⟨pos', hprincipal⟩ := principal_eq hw (avoids_of_isSetOff hrest rfl)
    (avoids_of_isSetOff hrest rfl) (pos.enter (w.glyphs ++ rest).head?)
  have hstart : startsWith address (w.glyphs ++ rest) = true := by
    obtain ⟨k, g, more, hglyphs, h⟩ := startsWith_address_iff.1 (isAddress_iff.1 hw).1
    exact startsWith_address_iff.2 ⟨k, g, more ++ rest, by rw [hglyphs]; rfl, h⟩
  have hopens : (⟨.char '\x27' :: (w.glyphs ++ rest), pos⟩ : Scanner).opensPrincipal = true := by
    have hquote : at? ⟨rest, pos'⟩ '\x27' = false := by
      obtain hhead | hhead := hrest.head_eq <;> simp [at?, hhead]
    rw [opensPrincipal_eq, advance, hprincipal, hquote, tail_cons, hstart]
    rfl
  refine ⟨pos', ?_⟩
  rw [next_quote_eq (by decide), if_pos ⟨rfl, hopens⟩, hprincipal, ofGlyphs_glyphs]

/-! ### Strings -/

/-- The characters that do not stand for themselves between the quotes. -/
def specials (quote : Char) : List Glyph :=
  [.char quote, .char '\x00', .char '\n', .char '\x5c']

/-- The glyphs are read as the given contents, up to a quote with the given glyphs behind. -/
def ReadsString (quote : Char) (gs : List Glyph) (contents : Bytes) (rest : List Glyph) : Prop :=
  ∀ pos, ∃ pos', stringBody quote gs pos = (some contents, ⟨.char quote :: rest, pos'⟩)

namespace ReadsString

variable {quote : Char} {gs rest : List Glyph} {contents : Bytes}

theorem closed (quote : Char) (rest : List Glyph) :
    ReadsString quote (.char quote :: rest) [] rest := by
  intro pos
  refine ⟨pos, ?_⟩
  unfold stringBody
  exact if_pos (beq_self_eq_true _)

theorem plain (h : ReadsString quote gs contents rest) (hg : g ∉ specials quote) :
    ReadsString quote (g :: gs) (g.bytes ++ contents) rest := by
  intro pos
  obtain ⟨pos', hbody⟩ := h (pos.enter gs.head?)
  have hne {c : Char} (hc : .char c ∈ specials quote) : g.is c = false := by
    rw [is, beq_eq_false_iff_ne]
    rintro rfl
    exact hg hc
  refine ⟨pos', ?_⟩
  unfold stringBody
  simp only [hne (List.Mem.head _), hne (c := '\x00') (by simp [specials]),
    hne (c := '\n') (by simp [specials]), hne (c := '\x5c') (by simp [specials]), hbody,
    Bool.false_eq_true, Bool.or_self, if_false, Option.map_some]

theorem escaped (hquote : quote ∈ quotes) (h : ReadsString quote gs contents rest) (e : Glyph) :
    ReadsString quote (.char '\x5c' :: e :: gs) (escaped e ++ contents) rest := by
  intro pos
  obtain ⟨pos', hbody⟩ := h ((pos.enter (some e)).enter gs.head?)
  have hne : is (.char '\x5c') quote = false := by
    rw [is, beq_eq_false_iff_ne]
    rintro ⟨⟩
    exact ne_backslash_of_mem_quotes hquote rfl
  refine ⟨pos', ?_⟩
  unfold stringBody
  simp only [hne, hbody]
  rfl

end ReadsString

theorem string_eq (h : ReadsString quote gs contents rest) (pos : Pos) :
    ∃ pos', string quote ⟨.char quote :: gs, pos⟩ = (⟨.string, contents, pos⟩, ⟨rest, pos'⟩) := by
  obtain ⟨pos', hbody⟩ := h (pos.enter gs.head?)
  refine ⟨pos'.enter rest.head?, ?_⟩
  rw [string, advance]
  simp only [hbody]
  rfl

def escapable (quote : Char) : List Glyph :=
  [.char '\n', .char '\t', .char '\x5c', .char quote]

/-- The bytes stand for the byte `b` of ASCII between the quotes: they are just that byte, or they
escape it. -/
def spells (quote : Char) (w : Bytes) (b : UInt8) : Bool :=
  match w with
  | [x] => x == b && !(specials quote).contains (.char (Char.ofNat b.toNat))
  | [92, x] => decide (x.toNat < 0x80) && escaped (.char (Char.ofNat x.toNat)) == [b] &&
      (escapable quote).contains (.char (Char.ofNat b.toNat))
  | _ => false

/-- Replaced byte by byte, a text can stand between the quotes. -/
structure IsQuoting (quote : Char) (f : UInt8 → Bytes) : Prop extends Bytes.IsEscaping f where
  spells_low : ∀ b, b.toNat < 0x80 → b ≠ 0 → spells quote (f b) b = true

namespace IsQuoting

variable {quote : Char} {f : UInt8 → Bytes} (hquote : quote ∈ quotes) (hf : IsQuoting quote f)

include hquote hf

theorem escapeWith_cases (hg : g ≠ .char '\x00') : g.escapeWith f = [g] ∧ g ∉ specials quote ∨
      ∃ e, g.escapeWith f = [.char '\x5c', e] ∧ escaped e = g.bytes ∧ g ∈ escapable quote := by
  cases g with
  | stray b => exact .inl ⟨rfl, by simp [specials]⟩
  | char c =>
    by_cases hc : c.toNat < 0x80
    · obtain ⟨b, hb, rfl⟩ : ∃ b : UInt8, b.toNat < 0x80 ∧ c = Char.ofNat b.toNat := by
        refine ⟨UInt8.ofNat c.toNat, ?_⟩
        rw [toNat_ofNat_of_lt (by omega), Char.ofNat_toNat]
        exact ⟨hc, rfl⟩
      have hspells := hf.spells_low b hb fun h => hg (by rw [h]; rfl)
      rw [Glyph.escapeWith_of_lt f hb, bytes_char_of_lt hb]
      unfold spells at hspells
      split at hspells
      · next x hx =>
        rw [Bool.and_eq_true, beq_iff_eq, Bool.not_eq_true', ← Bool.not_eq_true,
          contains_iff_mem] at hspells
        obtain ⟨rfl, hplain⟩ := hspells
        exact .inl ⟨by rw [hx, glyphs_cons_of_lt hb]; rfl, hplain⟩
      · next x hx =>
        rw [Bool.and_eq_true, Bool.and_eq_true, decide_eq_true_eq, beq_iff_eq,
          contains_iff_mem] at hspells
        obtain ⟨⟨hlt, hescaped⟩, hmem⟩ := hspells
        refine .inr ⟨_, ?_, hescaped, hmem⟩
        rw [hx, glyphs_cons_of_lt (by decide), glyphs_cons_of_lt hlt]
        rfl
      · cases hspells
    · have hall : ∀ q ∈ quotes, ∀ g ∈ specials q, g.rune.toNat < 0x80 :=
        forall_quotes (by decide) (by decide)
      exact .inl ⟨if_neg hc, fun hmem => hc (hall quote hquote _ hmem)⟩

theorem readsString (hs : 0 ∉ s) (rest : List Glyph) :
    ReadsString quote (glyphs (s.flatMap f) ++ .char quote :: rest) s rest := by
  have hreads : ∀ gs : List Glyph, .char '\x00' ∉ gs →
      ReadsString quote (gs.flatMap (Glyph.escapeWith f) ++ .char quote :: rest)
        (ofGlyphs gs) rest := by
    intro gs hgs
    induction gs with
    | nil => exact .closed quote rest
    | cons g gs ih =>
      obtain ⟨hg, hgs⟩ := ne_and_not_mem_of_not_mem_cons hgs
      rw [flatMap_cons, append_assoc, ofGlyphs, flatMap_cons]
      obtain ⟨hself, hplain⟩ | ⟨e, hpair, hbytes, -⟩ := hf.escapeWith_cases hquote hg.symm
      · rw [hself]
        exact (ih hgs).plain hplain
      · rw [hpair, ← hbytes]
        exact (ih hgs).escaped hquote e
  have h := hreads s.glyphs (nul_notMem_glyphs hs)
  rwa [ofGlyphs_glyphs, ← glyphs_flatMap hf.toIsEscaping] at h

end IsQuoting

end Scanner

theorem isQuoting_escapeByte : Scanner.IsQuoting '\x22' escapeByte where
  high b hb := by
    have hne {c : UInt8} (hc : c.toNat < 0x80) : b ≠ c := by
      rintro rfl
      omega
    rw [escapeByte, if_neg (hne (by decide)), if_neg (hne (by decide)), if_neg (hne (by decide))]
  low := by
    have hall : ∀ n < 0x80, escapeByte (UInt8.ofNat n) ≠ [] ∧
        (escapeByte (UInt8.ofNat n)).all (·.toNat < 0x80) = true := by decide
    exact forall_ascii fun n hn => ⟨(hall n hn).1, by simpa using (hall n hn).2⟩
  spells_low := forall_ascii (by decide)

namespace Scanner

/-! ### Tokens -/

variable {t : Token}

theorem next_text (ht : t.isWritable = true) {rest : List Glyph} (hrest : isSetOff rest)
    (pos : Pos) :
    ∃ pos', (⟨t.text.glyphs ++ rest, pos⟩ : Scanner).next =
      (⟨t.kind, t.literal, pos⟩, ⟨rest, pos'⟩) := by
  obtain ⟨k, w, p⟩ := t
  unfold Token.isWritable at ht
  dsimp only at ht ⊢
  split at ht
  · obtain ⟨hword, hkind⟩ : isWord w = true ∧ ofWord w = .ident := by
      rw [isName] at ht
      rw [isWord]
      split at ht
      · cases ht
      · next hglyphs => simpa [hglyphs] using ht
    have h := next_word hword (avoids_of_isSetOff hrest (by decide)) pos
    rwa [hkind] at h
  · refine next_numeral ht (avoids_of_isSetOff hrest rfl) ?_ pos
    cases rest with
    | nil => rfl
    | cons g rest =>
      obtain rfl := hrest g rfl
      rfl
  · exact next_principal ht hrest pos
  · have hglyphs : (Token.text ⟨.string, w, p⟩).glyphs ++ rest =
        .char '\x22' :: ((escape w).glyphs ++ .char '\x22' :: rest) := by
      have hquote : ∀ b, (ofString "\"").head? = some b → isContinuation b = false := by
        rintro _ ⟨⟩
        decide
      rw [Token.text, glyphs_append hquote]
      change glyphs (34 :: escape w) ++ [.char '\x22'] ++ rest = _
      simp only [cons_append, append_assoc, nil_append]
      rfl
    obtain ⟨pos', hstring⟩ :=
      string_eq (isQuoting_escapeByte.readsString (by decide) (by simpa using ht) rest) pos
    refine ⟨pos', ?_⟩
    rw [hglyphs, next_quote_eq (by decide), if_neg (by simp)]
    exact hstring
  · next k' h₁ h₂ h₃ h₄ =>
    rw [Bool.or_eq_true] at ht
    have htext : Token.text ⟨k, w, p⟩ = w := by
      unfold Token.text
      split
      · exact absurd ‹_› h₄
      · exact absurd ‹_› h₃
      · rfl
    rw [htext]
    obtain ht | ht := ht
    · rw [Bool.and_eq_true, contains_iff_mem, beq_iff_eq] at ht
      obtain ⟨hk, rfl⟩ := ht
      exact next_symbol hk hrest pos
    · obtain ⟨⟨kw, k''⟩, hmem, hkw⟩ := any_eq_true.1 ht
      simp only [Bool.and_eq_true, beq_iff_eq] at hkw
      obtain ⟨rfl, rfl⟩ := hkw
      have hall : keywords.all (fun (w, k) => isWord w && ofWord w == k) = true := by decide
      have hkeyword := all_eq_true.1 hall _ hmem
      rw [Bool.and_eq_true, beq_iff_eq] at hkeyword
      have h := next_word hkeyword.1 (avoids_of_isSetOff hrest (by decide)) pos
      rwa [hkeyword.2] at h

theorem tokensWithin_of_next {s s' : Scanner} (h : s.next = (t, s'))
    (ht : t.kind ≠ .eof) (fuel : Nat) : tokensWithin (fuel + 1) s = t :: tokensWithin fuel s' := by
  rw [tokensWithin, h]
  simp only [ht, if_false]

theorem kind_ne_eof (ht : t.isWritable = true) : t.kind ≠ .eof := by
  intro hk
  simp [Token.isWritable, hk, symbols, keywords] at ht

end Scanner

namespace Token

def spaced (ts : List Token) : List Glyph :=
  ts.flatMap fun t => .char ' ' :: t.text.glyphs

theorem isSetOff_spaced (ts : List Token) : isSetOff (spaced ts) := by
  cases ts with
  | nil => exact isSetOff_nil
  | cons t ts => exact isSetOff_blank _

theorem length_le_spaced (ts : List Token) : ts.length ≤ (spaced ts).length := by
  induction ts with
  | nil => exact Nat.zero_le _
  | cons t ts ih =>
    rw [spaced, flatMap_cons, ← spaced, length_cons, length_append, length_cons]
    omega

theorem glyphs_writeAll (t : Token) (ts : List Token) :
    (writeAll (t :: ts)).glyphs = t.text.glyphs ++ spaced ts := by
  have hblank (s : Bytes) :
      ∀ b, (ofString " " ++ s).head? = some b → isContinuation b = false := by
    rintro _ ⟨⟩
    decide
  induction ts generalizing t with
  | nil => exact (append_nil _).symm
  | cons u ts ih =>
    rw [writeAll, map_cons, map_cons, join, append_assoc,
      glyphs_append (hblank _), spaced, flatMap_cons, cons_append, ← spaced, ← ih u]
    rfl

theorem glyphs_text_ne_nil {t : Token} (ht : t.isWritable = true) : t.text.glyphs ≠ [] := by
  intro hnil
  obtain ⟨pos', hnext⟩ := next_text ht isSetOff_nil {}
  rw [hnil] at hnext
  have hkind : eof = t.kind := congrArg (fun x => x.1.kind) hnext
  exact kind_ne_eof ht hkind.symm

variable {ts : List Token}

theorem forall₂_tokensWithin (hts : ∀ t ∈ ts, t.isWritable = true)
    (hfuel : ts.length < fuel) (pos : Pos) :
    Forall₂ SameText (tokensWithin fuel ⟨spaced ts, pos⟩) (ts ++ [⟨.eof, [], {}⟩]) := by
  induction ts generalizing fuel pos with
  | nil =>
    cases fuel with
    | zero => cases hfuel
    | succ fuel => exact .cons ⟨rfl, rfl⟩ .nil
  | cons t ts ih =>
    obtain ⟨ht, hts⟩ := forall_mem_cons.1 hts
    cases fuel with
    | zero => cases hfuel
    | succ fuel =>
      obtain ⟨pos', hnext⟩ := next_text ht (isSetOff_spaced ts)
        (pos.enter (t.text.glyphs ++ spaced ts).head?)
      rw [← next_blank] at hnext
      rw [spaced, flatMap_cons, cons_append, ← spaced, tokensWithin_of_next hnext (kind_ne_eof ht)]
      exact .cons ⟨rfl, rfl⟩ (ih hts (by simpa using hfuel) pos')

/-- **Tokens that are written with blanks between them are scanned back**, and the end of input
behind them. -/
theorem scan_writeAll (h : ∀ u ∈ t :: ts, u.isWritable = true) :
    Forall₂ SameText (scan (writeAll (t :: ts))) (t :: ts ++ [⟨.eof, [], {}⟩]) := by
  obtain ⟨ht, hts⟩ := forall_mem_cons.1 h
  have hlength : ts.length < (t.text.glyphs ++ spaced ts).length := by
    have := length_le_spaced ts
    have := length_pos_iff.2 (glyphs_text_ne_nil ht)
    rw [length_append]
    omega
  obtain ⟨pos', hnext⟩ := next_text ht (isSetOff_spaced ts)
    (Pos.enter ⟨1, 0⟩ (t.text.glyphs ++ spaced ts).head?)
  rw [scan, ofBytes, tokens, glyphs_writeAll, tokensWithin_of_next hnext (kind_ne_eof ht)]
  exact .cons ⟨rfl, rfl⟩ (forall₂_tokensWithin hts hlength pos')

end Token

end Covenant
