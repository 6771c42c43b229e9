import Covenant.Proofs.Text.Encoding

/-!
# Texts with escaped bytes

A text is escaped byte by byte: bytes of ASCII may be replaced by others of ASCII, and all others
are kept.  The encoding of a character is then never torn apart, and so the glyphs of the escaped
text are those of the text itself, each replaced on its own.
-/

namespace Covenant

open List

namespace Bytes

theorem glyphs_cons_of_lt {b : UInt8} (h : b.toNat < 0x80) (s : Bytes) :
    glyphs (b :: s) = .char (Char.ofNat b.toNat) :: s.glyphs := by
  have hread : Glyph.read b s = (.char (Char.ofNat b.toNat), 0) := by
    unfold Glyph.read
    simp only [h, if_true]
  rw [glyphs, glyphsFrom, hread]
  rfl

theorem glyphs_append_of_lt (h : ∀ b ∈ w, b.toNat < 0x80) (s : Bytes) :
    (w ++ s).glyphs = w.glyphs ++ s.glyphs := by
  induction w with
  | nil => rfl
  | cons b w ih =>
    obtain ⟨hb, hw⟩ := forall_mem_cons.1 h
    rw [cons_append, glyphs_cons_of_lt hb, glyphs_cons_of_lt hb, ih hw, cons_append]

theorem bytes_char_of_lt {b : UInt8} (h : b.toNat < 0x80) :
    (Glyph.char (Char.ofNat b.toNat)).bytes = [b] := by
  have hbytes := ofGlyphs_glyphs [b]
  rw [glyphs_cons_of_lt h] at hbytes
  exact (append_nil _).symm.trans hbytes

theorem forall_ascii {P : UInt8 → Prop} (h : ∀ n < 0x80, P (UInt8.ofNat n)) :
    ∀ b : UInt8, b.toNat < 0x80 → P b := by
  intro b hb
  have hP := h b.toNat hb
  rwa [UInt8.ofNat_toNat] at hP

theorem nul_notMem_glyphs {s : Bytes} (hs : 0 ∉ s) : .char '\x00' ∉ s.glyphs := by
  intro hmem
  apply hs
  rw [← ofGlyphs_glyphs s, ofGlyphs, mem_flatMap]
  exact ⟨_, hmem, by decide⟩

/-- The replacement of bytes keeps to ASCII. -/
structure IsEscaping (f : UInt8 → Bytes) : Prop where
  high : ∀ b, 0x80 ≤ b.toNat → f b = [b]
  low : ∀ b, b.toNat < 0x80 → f b ≠ [] ∧ ∀ x ∈ f b, x.toNat < 0x80

end Bytes

/-- What a glyph is replaced by, when bytes of ASCII are replaced. -/
def Glyph.escapeWith (f : UInt8 → Bytes) : Glyph → List Glyph
  | char c => if c.toNat < 0x80 then (f (.ofNat c.toNat)).glyphs else [char c]
  | stray b => [stray b]

theorem Glyph.escapeWith_of_lt (f : UInt8 → Bytes) {b : UInt8} (h : b.toNat < 0x80) :
    escapeWith f (.char (Char.ofNat b.toNat)) = (f b).glyphs := by
  have hchar : (Char.ofNat b.toNat).toNat = b.toNat := val_toNat_ofNat (.inl (by omega))
  rw [escapeWith, hchar, if_pos h, UInt8.ofNat_toNat]

theorem Glyph.escapeWith_of_le (f : UInt8 → Bytes)
    (hc : Bytes.ofChar c = b :: bs) (h : 0x80 ≤ b.toNat) : escapeWith f (.char c) = [.char c] := by
  refine if_neg fun hlt => ?_
  obtain ⟨-, he⟩ | ⟨hge, -⟩ := Bytes.ofChar_cases c
  · have hb := (List.cons.inj (hc.symm.trans he)).1
    rw [hb, toNat_ofNat_of_lt (by omega)] at h
    omega
  · omega

namespace Bytes.IsEscaping

theorem flatMap_of_le (hf : IsEscaping f) {s : Bytes} (hs : ∀ b ∈ s, 0x80 ≤ b.toNat) :
    s.flatMap f = s := by
  induction s with
  | nil => rfl
  | cons b s ih =>
    obtain ⟨hb, hs⟩ := forall_mem_cons.1 hs
    rw [flatMap_cons, hf.high b hb, ih hs, singleton_append]

theorem takeWhile_flatMap (hf : IsEscaping f) (s : Bytes) :
    (s.flatMap f).takeWhile isContinuation = s.takeWhile isContinuation := by
  have hcont {x : UInt8} (hx : x.toNat < 0x80) : ¬ isContinuation x = true := by
    rw [isContinuation_iff]
    omega
  induction s with
  | nil => rfl
  | cons b s ih =>
    rw [flatMap_cons]
    by_cases hb : 0x80 ≤ b.toNat
    · rw [hf.high b hb, singleton_append, takeWhile_cons, takeWhile_cons, ih]
    · obtain ⟨hne, hlow⟩ := hf.low b (Nat.not_le.1 hb)
      obtain ⟨x, w, hw⟩ := exists_cons_of_ne_nil hne
      rw [hw, cons_append, takeWhile_cons_of_neg (hcont (hlow x (by simp [hw]))),
        takeWhile_cons_of_neg (hcont (Nat.not_le.1 hb))]

end Bytes.IsEscaping

/-- The glyphs of an escaped text. -/
theorem Bytes.glyphs_flatMap {f : UInt8 → Bytes} (hf : IsEscaping f) : ∀ s : Bytes,
    glyphs (s.flatMap f) = s.glyphs.flatMap (Glyph.escapeWith f)
  | [] => rfl
  | b :: s => by
    by_cases hb : b.toNat < 0x80
    · rw [flatMap_cons, glyphs_append_of_lt (hf.low b hb).2, glyphs_flatMap hf s,
        glyphs_cons_of_lt hb, flatMap_cons, Glyph.escapeWith_of_lt f hb]
    · have hge : 0x80 ≤ b.toNat := Nat.not_lt.1 hb
      rw [flatMap_cons, hf.high b hge, singleton_append]
      obtain ⟨-, hread⟩ | ⟨c, bs, tail, rfl, hc, -⟩ := Glyph.read_cases b s
      · have hread' : Glyph.read b (s.flatMap f) = (.stray b, 0) := by
          rw [Glyph.read_congr (hf.takeWhile_flatMap s), hread]
        have hs : glyphs (b :: s) = .stray b :: glyphs s := by
          rw [glyphs, glyphsFrom, hread]
          rfl
        rw [hs, flatMap_cons, Glyph.escapeWith, ← glyphs_flatMap hf s, glyphs, glyphsFrom, hread']
        rfl
      · have hbs : ∀ x ∈ bs, 0x80 ≤ x.toNat := fun x hx =>
          (isContinuation_iff.1 (isContinuation_of_ofChar hc x hx)).1
        rw [flatMap_append, hf.flatMap_of_le hbs, ← cons_append, ← cons_append,
          ← hc, glyphs_ofChar_append, glyphs_ofChar_append, flatMap_cons,
          Glyph.escapeWith_of_le f hc hge, glyphs_flatMap hf tail,
          singleton_append]
termination_by s => s.length

end Covenant
