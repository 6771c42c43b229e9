import Covenant.Text.Glyph

/-!
# Reading and writing characters

What `Glyph.read` can do is said once: it takes exactly the encoding of a character
(`Glyph.read_ofChar`, `Glyph.read_cases`), or else one stray byte.  So a byte that continues no
encoding starts a new glyph, and a text read in two pieces has the same glyphs.
-/

namespace Covenant

open List Bytes

theorem Bytes.stripPrefix?_eq_some {s p r : Bytes} : stripPrefix? s p = some r ↔ s = p ++ r := by
  fun_induction stripPrefix? s p with
  | case1 s | case2 => simp
  | case3 b s p ih => simpa using ih
  | case4 b s a p hab => simp [Ne.symm hab]

/-! ### Encodings of single characters -/

theorem val_toNat_ofNat (h : n < 0xD800 ∨ (0xDFFF < n ∧ n < 0x110000)) :
    (Char.ofNat n).val.toNat = n := by
  rw [Char.ofNat, dif_pos h]
  rfl

theorem ofNat_eq_of_toNat (h : n = b.toNat) : UInt8.ofNat n = b := by
  rw [h, UInt8.ofNat_toNat]

theorem toNat_ofNat_of_lt (h : n < 256) : (UInt8.ofNat n).toNat = n := by
  rw [UInt8.toNat_ofNat', Nat.mod_eq_of_lt h]

theorem Bytes.ofChar_cases (c : Char) : (c.toNat < 0x80 ∧ ofChar c = [UInt8.ofNat c.toNat]) ∨
      (0x80 ≤ c.toNat ∧ ∃ b bs, ofChar c = b :: bs ∧ 0xC0 ≤ b.toNat ∧
        ∀ x ∈ bs, 0x80 ≤ x.toNat ∧ x.toNat < 0xC0) := by
  have hv := c.valid
  change (c.val.toNat < 0x80 ∧ _ = [UInt8.ofNat c.val.toNat]) ∨ (0x80 ≤ c.val.toNat ∧ _)
  rw [ofChar, String.utf8EncodeChar]
  generalize c.val.toNat = v at *
  split
  · exact .inl ⟨by omega, rfl⟩
  · refine .inr ⟨by omega, ?_⟩
    split
    · exact ⟨_, _, rfl, by simp; omega, by simp; omega⟩
    · split
      · exact ⟨_, _, rfl, by simp; omega, by simp; omega⟩
      · exact ⟨_, _, rfl, by simp; omega, by simp; omega⟩

theorem Bytes.eq_of_mem_ofChar (h : b ∈ ofChar c)
    (hb : b.toNat < 0x80) : c = Char.ofNat b.toNat := by
  obtain ⟨hc, he⟩ | ⟨-, b', bs, he, hb', hbs⟩ := ofChar_cases c
  · obtain rfl : b = UInt8.ofNat c.toNat := by simpa [he] using h
    rw [toNat_ofNat_of_lt (by omega)]
    exact (Char.ofNat_toNat c).symm
  · rw [he, mem_cons] at h
    obtain rfl | h := h
    · omega
    · have := hbs b h
      omega

namespace Glyph

theorem continues_iff {lo hi b : UInt8} :
    continues lo hi b = true ↔ lo.toNat ≤ b.toNat ∧ b.toNat ≤ hi.toNat := by
  simp [continues, UInt8.le_iff_toNat_le]

/-- The encoding of a character is read as that character, whatever follows. -/
theorem read_ofChar (c : Char) (rest : Bytes) :
    ∃ b bs, ofChar c = b :: bs ∧ read b (bs ++ rest) = (.char c, bs.length) := by
  have hv : c.val.toNat < 0xD800 ∨ (0xDFFF < c.val.toNat ∧ c.val.toNat < 0x110000) := c.valid
  have hc : ∀ n, n = c.val.toNat → Char.ofNat n = c := by
    rintro n rfl
    exact Char.ofNat_toNat c
  rw [ofChar, String.utf8EncodeChar]
  generalize c.val.toNat = v at *
  -- one case for each length of the encoding
  split
  · refine ⟨_, _, rfl, ?_⟩
    have hb := toNat_ofNat_of_lt (n := v) (by omega)
    unfold read
    simp only [hb]
    rw [if_pos (by omega), hc v rfl]
    rfl
  split
  · refine ⟨_, _, rfl, ?_⟩
    have hb := toNat_ofNat_of_lt (n := v / 64 % 32 + 192) (by omega)
    have hb₁ := toNat_ofNat_of_lt (n := v % 64 + 128) (by omega)
    unfold read
    simp only [hb, cons_append, nil_append, continues_iff, payload, hb₁]
    rw [if_neg (by omega), if_pos (by omega), if_pos (by simp; omega), hc _ (by omega)]
    rfl
  split
  · refine ⟨_, _, rfl, ?_⟩
    have hb := toNat_ofNat_of_lt (n := v / 4096 % 16 + 224) (by omega)
    have hb₁ := toNat_ofNat_of_lt (n := v / 64 % 64 + 128) (by omega)
    have hb₂ := toNat_ofNat_of_lt (n := v % 64 + 128) (by omega)
    unfold read
    simp only [hb, cons_append, nil_append, Bool.and_eq_true, continues_iff, payload, hb₁, hb₂]
    rw [if_neg (by omega), if_neg (by omega), if_pos (by omega),
      if_pos (by split <;> split <;> simp <;> omega), hc _ (by omega)]
    rfl
  · refine ⟨_, _, rfl, ?_⟩
    have hb := toNat_ofNat_of_lt (n := v / 262144 % 8 + 240) (by omega)
    have hb₁ := toNat_ofNat_of_lt (n := v / 4096 % 64 + 128) (by omega)
    have hb₂ := toNat_ofNat_of_lt (n := v / 64 % 64 + 128) (by omega)
    have hb₃ := toNat_ofNat_of_lt (n := v % 64 + 128) (by omega)
    unfold read
    simp only [hb, cons_append, nil_append, Bool.and_eq_true, continues_iff, payload, hb₁, hb₂, hb₃]
    rw [if_neg (by omega), if_neg (by omega), if_neg (by omega), if_pos (by omega),
      if_pos (by split <;> split <;> simp <;> omega), hc _ (by omega)]
    rfl

/-- What is read is a stray byte above ASCII, or a character whose encoding stands there. -/
theorem read_cases (b : UInt8) (rest : Bytes) : (0x80 ≤ b.toNat ∧ read b rest = (.stray b, 0)) ∨
      ∃ c bs tail, rest = bs ++ tail ∧ ofChar c = b :: bs ∧ read b rest = (.char c, bs.length) := by
  have hb := b.toNat_lt
  -- the encoding of the character whose number was put together gives back the bytes
  fun_cases read b rest
  case case1 n hn =>
    refine .inr ⟨_, [], rest, rfl, ?_, rfl⟩
    simp only [ofChar, String.utf8EncodeChar]
    rw [val_toNat_ofNat (by omega), if_pos (by omega), ofNat_eq_of_toNat rfl]
  case case2 n h₀ h₁ b₁ tail h =>
    obtain ⟨hl₁, hu₁⟩ := continues_iff.1 h
    simp only [UInt8.reduceToNat] at hl₁ hu₁
    have hp : payload b₁ = b₁.toNat % 64 := rfl
    refine .inr ⟨_, [b₁], tail, rfl, ?_, rfl⟩
    simp only [ofChar, String.utf8EncodeChar]
    rw [val_toNat_ofNat (by omega), if_neg (by omega), if_pos (by omega),
      ofNat_eq_of_toNat (b := b) (by omega), ofNat_eq_of_toNat (b := b₁) (by omega)]
  case case5 n h₀ h₁ h₂ b₁ b₂ tail lo hi h =>
    simp only [Bool.and_eq_true, continues_iff, UInt8.reduceToNat] at h
    obtain ⟨⟨hl₁, hu₁⟩, hl₂, hu₂⟩ := h
    have hlo : 128 ≤ lo.toNat ∧ (n = 224 → lo.toNat = 160) := by simp only [lo]; split <;> simp_all
    have hhi : hi.toNat ≤ 191 ∧ (n = 237 → hi.toNat = 159) := by simp only [hi]; split <;> simp_all
    have hp₁ : payload b₁ = b₁.toNat % 64 := rfl
    have hp₂ : payload b₂ = b₂.toNat % 64 := rfl
    refine .inr ⟨_, [b₁, b₂], tail, rfl, ?_, rfl⟩
    simp only [ofChar, String.utf8EncodeChar]
    rw [val_toNat_ofNat (by omega), if_neg (by omega), if_neg (by omega), if_pos (by omega),
      ofNat_eq_of_toNat (b := b) (by omega), ofNat_eq_of_toNat (b := b₁) (by omega),
      ofNat_eq_of_toNat (b := b₂) (by omega)]
  case case8 n h₀ h₁ h₂ h₃ b₁ b₂ b₃ tail lo hi h =>
    simp only [Bool.and_eq_true, continues_iff, UInt8.reduceToNat] at h
    obtain ⟨⟨⟨hl₁, hu₁⟩, hl₂, hu₂⟩, hl₃, hu₃⟩ := h
    have hlo : 128 ≤ lo.toNat ∧ (n = 240 → lo.toNat = 144) := by simp only [lo]; split <;> simp_all
    have hhi : hi.toNat ≤ 191 ∧ (n = 244 → hi.toNat = 143) := by simp only [hi]; split <;> simp_all
    have hp₁ : payload b₁ = b₁.toNat % 64 := rfl
    have hp₂ : payload b₂ = b₂.toNat % 64 := rfl
    have hp₃ : payload b₃ = b₃.toNat % 64 := rfl
    refine .inr ⟨_, [b₁, b₂, b₃], tail, rfl, ?_, rfl⟩
    simp only [ofChar, String.utf8EncodeChar]
    rw [val_toNat_ofNat (by omega), if_neg (by omega), if_neg (by omega), if_neg (by omega),
      ofNat_eq_of_toNat (b := b) (by omega), ofNat_eq_of_toNat (b := b₁) (by omega),
      ofNat_eq_of_toNat (b := b₂) (by omega), ofNat_eq_of_toNat (b := b₃) (by omega)]
  all_goals exact .inl ⟨by omega, rfl⟩

end Glyph

/-! ### Where glyphs start -/

def isContinuation (b : UInt8) : Bool :=
  Glyph.continues 0x80 0xBF b

theorem isContinuation_iff : isContinuation b = true ↔ 0x80 ≤ b.toNat ∧ b.toNat < 0xC0 := by
  rw [isContinuation, Glyph.continues_iff]
  simp only [UInt8.reduceToNat]
  omega

theorem isContinuation_of_ofChar (h : ofChar c = b :: bs) : ∀ x ∈ bs, isContinuation x = true := by
  intro x hx
  obtain ⟨-, hc⟩ | ⟨-, b', bs', hc, -, hall⟩ := ofChar_cases c
  · obtain ⟨-, rfl⟩ : b = _ ∧ bs = [] := by simpa [hc] using h.symm
    cases hx
  · obtain ⟨rfl, rfl⟩ : b' = b ∧ bs' = bs := by simpa [hc] using h
    exact isContinuation_iff.2 (hall x hx)

theorem Glyph.bytes_read (b : UInt8) (rest : Bytes) :
    (read b rest).1.bytes = b :: rest.take (read b rest).2 := by
  obtain ⟨-, h⟩ | ⟨c, bs, tail, rfl, hc, h⟩ := read_cases b rest
  · rw [h]
    rfl
  · rw [h]
    simp [bytes, hc]

theorem Glyph.read_congr {b : UInt8} {s t : Bytes}
    (h : s.takeWhile isContinuation = t.takeWhile isContinuation) : read b s = read b t := by
  -- an encoding that stands in one of the texts stands in the other
  have key : ∀ {s t : Bytes} {c : Char} {bs tail : Bytes},
      s.takeWhile isContinuation = t.takeWhile isContinuation → s = bs ++ tail →
        ofChar c = b :: bs → read b t = (.char c, bs.length) := by
    rintro s t c bs tail h rfl hc
    have hbs : (bs ++ tail).takeWhile isContinuation = bs ++ tail.takeWhile isContinuation :=
      takeWhile_append_of_pos (isContinuation_of_ofChar hc)
    obtain ⟨u, hu⟩ : ∃ u, t = bs ++ u := by
      have ht := takeWhile_append_dropWhile (p := isContinuation) (l := t)
      rw [← h, hbs, append_assoc] at ht
      exact ⟨_, ht.symm⟩
    obtain ⟨b', bs', hc', hr⟩ := read_ofChar c u
    obtain ⟨rfl, rfl⟩ : b' = b ∧ bs' = bs := by simpa [hc'] using hc
    rw [hu, hr]
  obtain ⟨-, hs⟩ | ⟨c, bs, tail, hs, hc, hr⟩ := read_cases b s
  · obtain ⟨-, ht⟩ | ⟨c, bs, tail, ht, hc, -⟩ := read_cases b t
    · rw [hs, ht]
    · have := key h.symm ht hc
      rw [hs] at this
      cases this
  · rw [hr, key h hs hc]

namespace Bytes

theorem ofGlyphs_glyphsFrom (skip : Nat) (s : Bytes) :
    ofGlyphs (glyphsFrom skip s) = s.drop skip := by
  fun_induction glyphsFrom skip s with
  | case1 skip => simp [ofGlyphs]
  | case2 skip b rest ih => simpa using ih
  | case3 b rest g n h ih =>
    have hg := Glyph.bytes_read b rest
    rw [h] at hg
    rw [ofGlyphs, flatMap_cons, hg]
    change _ ++ ofGlyphs _ = _
    rw [ih]
    simp

/-- The glyphs of a text have its bytes. -/
theorem ofGlyphs_glyphs (s : Bytes) : ofGlyphs s.glyphs = s :=
  ofGlyphs_glyphsFrom 0 s

theorem glyphsFrom_append (n : Nat) {s t : Bytes} (hn : n ≤ s.length)
    (ht : ∀ b, t.head? = some b → isContinuation b = false) :
    glyphsFrom n (s ++ t) = glyphsFrom n s ++ glyphs t := by
  fun_induction glyphsFrom n s with
  | case1 n =>
    obtain rfl : n = 0 := by simpa using hn
    rfl
  | case2 n b rest ih => exact ih (by simpa using hn)
  | case3 b rest g n h ih =>
    have hstop : t.takeWhile isContinuation = [] := by
      cases t with
      | nil => rfl
      | cons x t => simp [ht x rfl]
    have hread : Glyph.read b (rest ++ t) = Glyph.read b rest := by
      refine Glyph.read_congr ?_
      rw [takeWhile_append, hstop, append_nil]
      split
      · next hall => exact ((List.takeWhile_prefix _).eq_of_length hall).symm
      · rfl
    have hle : n ≤ rest.length := by
      obtain ⟨-, hr⟩ | ⟨c, bs, tail, rfl, -, hr⟩ := Glyph.read_cases b rest
      · cases h.symm.trans hr
        omega
      · cases h.symm.trans hr
        simp
    rw [cons_append, glyphsFrom, hread, h, cons_append]
    exact congrArg _ (ih hle)

/-- Texts are read one after the other when the second one does not start with a byte that only
continues an encoding. -/
theorem glyphs_append {s t : Bytes} (ht : ∀ b, t.head? = some b → isContinuation b = false) :
    (s ++ t).glyphs = s.glyphs ++ t.glyphs :=
  glyphsFrom_append 0 (by omega) ht

theorem glyphsFrom_length_append (s t : Bytes) : glyphsFrom s.length (s ++ t) = glyphs t := by
  induction s with
  | nil => rfl
  | cons b s ih => exact ih

/-- The encoding of a character is read as that character. -/
theorem glyphs_ofChar_append (c : Char) (s : Bytes) :
    (ofChar c ++ s).glyphs = .char c :: s.glyphs := by
  obtain ⟨b, bs, hc, hr⟩ := Glyph.read_ofChar c s
  rw [hc, cons_append, glyphs, glyphsFrom, hr]
  exact congrArg _ (glyphsFrom_length_append bs s)

end Bytes

end Covenant
