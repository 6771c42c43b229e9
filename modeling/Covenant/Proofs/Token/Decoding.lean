import Covenant.Proofs.Token.Quotation

/-!
# What strings stand for

A pair of a backslash and `n`, `t`, a backslash or a quote denotes one character; any other pair and
every glyph that stands alone are kept as they are.  The scanner follows this piece by piece, but
of a glyph behind a backslash that denotes nothing it keeps the first byte only.  So the contents
of a string are those that its text stands for, and valid UTF-8 in a valid source, exactly when no
such glyph has several bytes.
-/

namespace Covenant

open List Bytes

/-! ### Texts in UTF-8 -/

namespace Bytes

variable {s : Bytes}

theorem isUtf8_iff : s.isUtf8 = true ↔ ∀ g ∈ s.glyphs, ∃ c, g = .char c := by
  rw [isUtf8, all_eq_true]
  refine forall₂_congr fun g _ => ?_
  cases g <;> simp

theorem isUtf8_append (hs : s.isUtf8 = true) (t : Bytes) : (s ++ t).isUtf8 = t.isUtf8 := by
  have hglyphs := glyphs_ofGlyphs (isUtf8_iff.1 hs) t
  rw [ofGlyphs_glyphs] at hglyphs
  rw [Bool.eq_iff_iff, isUtf8_iff, isUtf8_iff, hglyphs, forall_mem_append]
  exact and_iff_right (isUtf8_iff.1 hs)

theorem isUtf8_ofChar (c : Char) : (ofChar c).isUtf8 = true := by
  have hglyphs := glyphs_ofChar_append c []
  rw [append_nil] at hglyphs
  rw [isUtf8, hglyphs]
  rfl

theorem isUtf8_lead {b : UInt8} (hb : 0x80 ≤ b.toNat)
    (hs : ∀ x, s.head? = some x → isContinuation x = false) : isUtf8 (b :: s) = false := by
  have hread : Glyph.read b [] = (.stray b, 0) := by
    rw [Glyph.read]
    simp only [Nat.not_lt.2 hb, if_false]
    split_ifs <;> rfl
  have hlead : glyphs [b] = [.stray b] := by
    rw [glyphs, glyphsFrom, hread]
    rfl
  have hglyphs : glyphs (b :: s) = .stray b :: s.glyphs := by
    rw [← singleton_append, glyphs_append hs, hlead]
    rfl
  rw [isUtf8, hglyphs]
  rfl

theorem head_ofChar (h : (ofChar c).head? = some x) : isContinuation x = false := by
  rw [Bool.eq_false_iff, ne_eq, isContinuation_iff]
  obtain ⟨hlt, he⟩ | ⟨-, b, bs, he, hb, -⟩ := ofChar_cases c
  · rw [he] at h
    cases h
    rw [toNat_ofNat_of_lt (by omega)]
    omega
  · rw [he] at h
    cases h
    omega

end Bytes

/-! ### Pieces -/

namespace StringPiece

/-- The character that a backslash and the glyph behind it denote. -/
def denoted? : Glyph → Option Char
  | .char 'n' => some '\n'
  | .char 't' => some '\t'
  | .char '\x5c' => some '\x5c'
  | .char '\x22' => some '\x22'
  | .char '\x27' => some '\x27'
  | _ => none

/-- What the piece stands for: the character that it denotes, or itself. -/
def meaning : StringPiece → Bytes
  | plain g => g.bytes
  | pair g =>
    match denoted? g with
    | some c => Bytes.ofChar c
    | none => Bytes.ofChar '\x5c' ++ g.bytes

def decode (inner : Bytes) : Bytes :=
  (split inner.glyphs).flatMap meaning

def isWide : StringPiece → Bool
  | plain _ => false
  | pair g => 1 < g.bytes.length

theorem escaped_eq (g : Glyph) : Scanner.escaped g =
      match denoted? g with
      | some c => ofChar c
      | none => ofChar '\x5c' ++ g.bytes.take 1 := by
  fun_cases denoted? g with
  | case6 h₁ h₂ h₃ h₄ h₅ =>
    rw [Scanner.escaped]
    · rfl
    all_goals assumption
  | case1 | case2 | case3 | case4 | case5 => rfl

theorem length_bytes_of_denoted (h : denoted? g = some c) : g.bytes.length = 1 := by
  fun_cases denoted? g with
  | case6 h₁ h₂ h₃ h₄ h₅ =>
    rw [denoted?] at h
    · cases h
    all_goals assumption
  | case1 | case2 | case3 | case4 | case5 => rfl

theorem meaning_pair_of_wide (h : (pair g).isWide = true) :
    (pair g).meaning = ofChar '\x5c' ++ g.bytes ∧
      (pair g).taken = ofChar '\x5c' ++ g.bytes.take 1 := by
  have hlength : 1 < g.bytes.length := of_decide_eq_true h
  have hnone : denoted? g = none := by
    refine Option.eq_none_iff_forall_ne_some.2 fun c hc => ?_
    have := length_bytes_of_denoted hc
    omega
  rw [meaning, taken, escaped_eq, hnone]
  exact ⟨rfl, rfl⟩

theorem taken_eq (p : StringPiece) :
    p.taken = if p.isWide then p.meaning.take 2 else p.meaning := by
  split
  · next h =>
    cases p with
    | plain g => cases h
    | pair g =>
      obtain ⟨hmeaning, htaken⟩ := meaning_pair_of_wide h
      rw [hmeaning, htaken]
      rfl
  · next h =>
    cases p with
    | plain g => rfl
    | pair g =>
      have hlength : g.bytes.length ≤ 1 := by simpa [isWide] using h
      rw [taken, escaped_eq, meaning, take_of_length_le hlength]

theorem length_taken_le (p : StringPiece) : p.taken.length ≤ p.meaning.length := by
  rw [taken_eq]
  split
  · exact length_take_le' ..
  · exact Nat.le_refl _

variable {p : StringPiece} {ps : List StringPiece}

theorem length_taken_lt (h : p.isWide = true) : p.taken.length < p.meaning.length := by
  cases p with
  | plain g => cases h
  | pair g =>
    have hlength : 1 < g.bytes.length := of_decide_eq_true h
    obtain ⟨hmeaning, htaken⟩ := meaning_pair_of_wide h
    rw [hmeaning, htaken, length_append, length_append, length_take]
    omega

theorem length_flatMap_taken_le (ps : List StringPiece) :
    (ps.flatMap taken).length ≤ (ps.flatMap meaning).length := by
  induction ps with
  | nil => exact Nat.le_refl _
  | cons p ps ih =>
    rw [flatMap_cons, flatMap_cons, length_append, length_append]
    exact Nat.add_le_add (length_taken_le p) ih

/-- Where no pair is wide, what is taken is what the pieces stand for; and only there, since a wide
pair loses bytes. -/
theorem flatMap_taken_eq_iff (ps : List StringPiece) :
    ps.flatMap taken = ps.flatMap meaning ↔ ∀ p ∈ ps, p.isWide = false := by
  induction ps with
  | nil => exact iff_of_true rfl (forall_mem_nil _)
  | cons p ps ih =>
    rw [flatMap_cons, flatMap_cons, forall_mem_cons]
    by_cases hp : p.isWide = true
    · refine iff_of_false (fun heq => ?_) (fun h => by rw [hp] at h; cases h.1)
      have hrest := length_flatMap_taken_le ps
      have hlength := congrArg List.length heq
      rw [length_append, length_append] at hlength
      have := length_taken_lt hp
      omega
    · rw [taken_eq, if_neg hp, append_cancel_left_eq, ih]
      exact (and_iff_right (Bool.eq_false_iff.2 hp)).symm

/-! ### Validity -/

def IsText : StringPiece → Prop
  | plain g => ∃ c, g = .char c
  | pair g => ∃ c, g = .char c

theorem isText_of_mem_split (h : ∀ g ∈ gs, ∃ c, g = .char c) (hp : p ∈ split gs) : p.IsText := by
  rw [← flatMap_glyphs_split gs] at h
  have hglyphs : ∀ g ∈ p.glyphs, ∃ c, g = .char c := fun g hg => h g (mem_flatMap.2 ⟨p, hp, hg⟩)
  cases p with
  | plain g => exact hglyphs g (.head _)
  | pair g => exact hglyphs g (.tail _ (.head _))

theorem IsText.head_taken (h : p.IsText) :
    ∃ b bs, p.taken = b :: bs ∧ isContinuation b = false := by
  have hchar (c : Char) : ∃ b bs, ofChar c = b :: bs ∧ isContinuation b = false := by
    obtain ⟨b, bs, hc⟩ := exists_cons_of_ne_nil (Glyph.bytes_ne_nil (.char c))
    have hc : ofChar c = b :: bs := hc
    exact ⟨b, bs, hc, head_ofChar (by rw [hc]; rfl)⟩
  cases p with
  | plain g =>
    obtain ⟨c, rfl⟩ := h
    exact hchar c
  | pair g =>
    rw [taken, escaped_eq]
    split
    · exact hchar _
    · exact ⟨92, _, rfl, rfl⟩

theorem IsText.isUtf8_taken (h : p.IsText) (hp : p.isWide = false) : p.taken.isUtf8 = true := by
  rw [taken_eq, if_neg (by simp [hp])]
  cases p with
  | plain g =>
    obtain ⟨c, rfl⟩ := h
    exact isUtf8_ofChar c
  | pair g =>
    obtain ⟨c, rfl⟩ := h
    rw [meaning]
    split
    · exact isUtf8_ofChar _
    · exact isUtf8_ofChar c

theorem head_flatMap_taken (h : ∀ p ∈ ps, p.IsText) :
    ∀ x, (ps.flatMap taken).head? = some x → isContinuation x = false := by
  cases ps with
  | nil => exact nofun
  | cons p ps =>
    obtain ⟨b, bs, hb, hcont⟩ := (h p (.head _)).head_taken
    rw [flatMap_cons, hb]
    rintro _ ⟨⟩
    exact hcont

theorem IsText.isUtf8_taken_append (h : p.IsText) (hp : p.isWide = true)
    {s : Bytes} (hs : ∀ x, s.head? = some x → isContinuation x = false) :
    isUtf8 (p.taken ++ s) = false := by
  cases p with
  | plain g => cases hp
  | pair g =>
    obtain ⟨c, rfl⟩ := h
    have hlength : 1 < (ofChar c).length := of_decide_eq_true hp
    obtain ⟨-, he⟩ | ⟨-, b, bs, he, hb, -⟩ := ofChar_cases c
    · rw [he] at hlength
      exact absurd hlength (by simp)
    · have htake : (Glyph.char c).bytes.take 1 = [b] := by
        rw [Glyph.bytes, he]
        rfl
      rw [(meaning_pair_of_wide hp).2, htake, append_assoc, isUtf8_append (isUtf8_ofChar _)]
      exact isUtf8_lead (by omega) hs

/-- What is taken for pieces of characters is valid exactly when none of them is a wide pair. -/
theorem isUtf8_flatMap_taken (h : ∀ p ∈ ps, p.IsText) :
    isUtf8 (ps.flatMap taken) = true ↔ ∀ p ∈ ps, p.isWide = false := by
  induction ps with
  | nil => exact iff_of_true rfl (forall_mem_nil _)
  | cons p ps ih =>
    obtain ⟨hp, hps⟩ := forall_mem_cons.1 h
    rw [flatMap_cons, forall_mem_cons]
    by_cases hwide : p.isWide = true
    · rw [hp.isUtf8_taken_append hwide (head_flatMap_taken hps), hwide]
      simp
    · have hwide := Bool.eq_false_iff.2 hwide
      rw [isUtf8_append (hp.isUtf8_taken hwide), ih hps]
      exact (and_iff_right hwide).symm

end StringPiece

/-! ### Strings of a source -/

namespace Token

open StringPiece (split decode)

theorem IsQuoted.glyphs_eq {t : Token} {source before inner behind : Bytes}
    (h : t.IsQuoted source before quote inner behind) :
    source.glyphs =
      before.glyphs ++ .char quote :: (inner.glyphs ++ .char quote :: behind.glyphs) := by
  have hquote (s : Bytes) :
      ∀ x, (ofChar quote ++ s).head? = some x → isContinuation x = false := by
    intro x hx
    obtain ⟨b, bs, hc⟩ := exists_cons_of_ne_nil (Glyph.bytes_ne_nil (.char quote))
    have hc : ofChar quote = b :: bs := hc
    rw [hc] at hx
    exact head_ofChar (by rw [hc]; exact hx)
  rw [h.source_eq, glyphs_append (hquote _), glyphs_ofChar_append,
    glyphs_append (hquote _), glyphs_ofChar_append]

/-- **The contents of strings, piece by piece.**  A string token holds what the text between its
quotes stands for, but of a backslash and a character of several bytes only the backslash and the
first byte.  So it holds just what the text stands for, and valid UTF-8 in a valid source, exactly
when no character of several bytes stands behind a backslash. -/
theorem string_decodes {source : Bytes} {t : Token} (ht : t ∈ Token.scan source)
    (hkind : t.kind = .string) :
    ∃ before quote inner behind, t.IsQuoted source before quote inner behind ∧
      t.literal = (split inner.glyphs).flatMap
        (fun p => if p.isWide then p.meaning.take 2 else p.meaning) ∧
      (t.literal = decode inner ↔ ∀ p ∈ split inner.glyphs, p.isWide = false) ∧
      (source.isUtf8 = true →
        (t.literal.isUtf8 = true ↔ ∀ p ∈ split inner.glyphs, p.isWide = false)) := by
  obtain ⟨before, quote, inner, behind, hquoted, hencodes⟩ := exists_isQuoted ht hkind
  have hliteral := hencodes.pieces.2
  refine ⟨before, quote, inner, behind, hquoted, ?_, ?_, fun hsource => ?_⟩
  · rw [hliteral]
    exact flatMap_congr fun p _ => p.taken_eq
  · rw [hliteral]
    exact StringPiece.flatMap_taken_eq_iff _
  · rw [hliteral]
    refine StringPiece.isUtf8_flatMap_taken fun p hp =>
      StringPiece.isText_of_mem_split (fun g hg => ?_) hp
    refine Bytes.isUtf8_iff.1 hsource g ?_
    rw [hquoted.glyphs_eq]
    simp [hg]

/-- An unknown escape of a single byte is kept, and characters of several bytes stand alone. -/
theorem string_decodes_unknown :
    (⟨.string, "é\n\\q'", ⟨1, 1⟩⟩ : Token) ∈ Token.scan "\"é\\n\\q\\'\"" ∧
      ∃ before quote inner behind,
        (⟨.string, "é\n\\q'", ⟨1, 1⟩⟩ : Token).IsQuoted "\"é\\n\\q\\'\"" before quote inner
          behind ∧
        Bytes.ofString "é\n\\q'" = (split inner.glyphs).flatMap
          (fun p => if p.isWide then p.meaning.take 2 else p.meaning) ∧
        (Bytes.ofString "é\n\\q'" = decode inner ↔
          ∀ p ∈ split inner.glyphs, p.isWide = false) ∧
        (Bytes.isUtf8 "\"é\\n\\q\\'\"" = true →
          (Bytes.isUtf8 "é\n\\q'" = true ↔ ∀ p ∈ split inner.glyphs, p.isWide = false)) := by
  have ht : (⟨.string, "é\n\\q'", ⟨1, 1⟩⟩ : Token) ∈ Token.scan "\"é\\n\\q\\'\"" := by
    decide
  exact ⟨ht, string_decodes ht rfl⟩

/-- **A character of several bytes behind a backslash is cut.**  The source is valid UTF-8, and its
string should hold the backslash and the character, but holds the first byte of it only. -/
theorem string_cut :
    Bytes.isUtf8 "\"\\é\"" = true ∧ decode "\\é" = Bytes.ofString "\\é" ∧
      Token.scan "\"\\é\"" = [⟨.string, [0x5C, 0xC3], ⟨1, 1⟩⟩, ⟨.eof, [], ⟨1, 4⟩⟩] ∧
      Bytes.isUtf8 [0x5C, 0xC3] = false := by
  decide

end Token

end Covenant
