import Covenant.Proofs.Token.Spaced

/-!
# Strings between quotes

A string is written between quotes with its line feeds, tabs, backslashes and quotes escaped, and
all other bytes as they are, whether they are valid UTF-8 or not.  It is scanned as one token with
the same bytes.  Between single quotes there is one exception: a text that starts as an address is
read as a principal, unless all of it is an address.
-/

namespace Covenant

open List

namespace Scanner

variable {b : Bytes} {gs rest : List Glyph}

/-! ### Writing strings -/

/-- A byte between the quotes: a line feed, a tab, a backslash and the quote itself are escaped. -/
def writeByte (quote : Char) (b : UInt8) : Bytes :=
  if b = 10 then [92, 110]
  else if b = 9 then [92, 116]
  else if b = 92 ∨ b.toNat = quote.toNat then [92, b]
  else [b]

theorem isQuoting_writeByte (hquote : quote ∈ quotes) : IsQuoting quote (writeByte quote) where
  high b hb := by
    have hne {c : UInt8} (hc : c.toNat < 0x80) : b ≠ c := by
      rintro rfl
      omega
    have hlow : ∀ q ∈ quotes, q.toNat < 0x80 := forall_quotes (by decide) (by decide)
    have hquote := hlow quote hquote
    rw [writeByte, if_neg (hne (by decide)), if_neg (hne (by decide)),
      if_neg (not_or.2 ⟨hne (by decide), by omega⟩)]
  low := by
    have hall := forall_quotes (P := fun q => ∀ n < 0x80, writeByte q (UInt8.ofNat n) ≠ [] ∧
      (writeByte q (UInt8.ofNat n)).all (·.toNat < 0x80) = true)
      (by decide) (by decide) quote hquote
    exact Bytes.forall_ascii fun n hn => ⟨(hall n hn).1, by simpa using (hall n hn).2⟩
  spells_low := Bytes.forall_ascii <| forall_quotes (P := fun q => ∀ n < 0x80,
    UInt8.ofNat n ≠ 0 → spells q (writeByte q (UInt8.ofNat n)) (UInt8.ofNat n) = true)
    (by decide) (by decide) quote hquote

/-! ### Strings and principals -/

section

variable (hquote : quote ∈ quotes) (hf : IsQuoting quote f)

include hquote hf

theorem IsQuoting.escapeWith_eq (hg : g ≠ .char '\x00') (h : g ∉ escapable quote) :
    g.escapeWith f = [g] := by
  obtain ⟨hself, -⟩ | ⟨e, -, -, hmem⟩ := hf.escapeWith_cases hquote hg
  · exact hself
  · exact absurd hmem h

theorem IsQuoting.startsWith_eq
    (hps : ∀ p ∈ ps, ∀ g ∈ escapable quote, p g = false) (hgs : .char '\x00' ∉ gs) :
    startsWith ps (gs.flatMap (Glyph.escapeWith f) ++ .char quote :: rest) = startsWith ps gs := by
  induction ps generalizing gs with
  | nil => simp only [startsWith]
  | cons p ps ih =>
    obtain ⟨hp, hps⟩ := forall_mem_cons.1 hps
    cases gs with
    | nil =>
      have hp := hp (.char quote) (by simp [escapable])
      simp only [flatMap_nil, nil_append, startsWith, hp, Bool.false_and]
    | cons g gs =>
      obtain ⟨hg, hgs⟩ := ne_and_not_mem_of_not_mem_cons hgs
      rw [flatMap_cons, startsWith]
      obtain ⟨hself, -⟩ | ⟨e, hpair, -, hmem⟩ := hf.escapeWith_cases hquote hg.symm
      · rw [hself, singleton_append, cons_append, startsWith, ih hps hgs]
      · have hbackslash := hp (.char '\x5c') (by simp [escapable])
        rw [hpair, cons_append, cons_append, startsWith, hbackslash, hp g hmem,
          Bool.false_and, Bool.false_and]

theorem IsQuoting.eq_of_append {run more : List Glyph} (hgs : .char '\x00' ∉ gs)
    (hrun : ∀ x ∈ run, x ∉ specials quote)
    (h : gs.flatMap (Glyph.escapeWith f) ++ .char quote :: rest = run ++ .char quote :: more) :
    run = gs := by
  have hne : Glyph.char '\x5c' ≠ .char quote := by
    rintro ⟨⟩
    exact ne_backslash_of_mem_quotes hquote rfl
  induction gs generalizing run with
  | nil =>
    cases run with
    | nil => rfl
    | cons x run =>
      obtain ⟨rfl, -⟩ := List.cons.inj h
      exact absurd (by simp [specials]) (hrun _ mem_cons_self)
  | cons g gs ih =>
    obtain ⟨hg, hgs⟩ := ne_and_not_mem_of_not_mem_cons hgs
    rw [flatMap_cons, append_assoc] at h
    obtain ⟨hself, hplain⟩ | ⟨e, hpair, -, -⟩ := hf.escapeWith_cases hquote hg.symm
    · rw [hself, singleton_append] at h
      cases run with
      | nil =>
        obtain ⟨rfl, -⟩ := List.cons.inj h
        exact absurd (by simp [specials]) hplain
      | cons x run =>
        obtain ⟨rfl, hbehind⟩ := List.cons.inj h
        rw [ih hgs (forall_mem_cons.1 hrun).2 hbehind]
    · rw [hpair, cons_append] at h
      cases run with
      | nil => exact absurd (List.cons.inj h).1 hne
      | cons x run =>
        obtain ⟨rfl, -⟩ := List.cons.inj h
        exact absurd (by simp [specials]) (hrun _ mem_cons_self)

end

theorem notMem_of_addressGlyph (hg : isContractPart g = true ∨ g = .char '.') :
    g ≠ .char '\x00' ∧ g ∉ specials '\x27' ∧ g ∉ escapable '\x27' := by
  have hall : ∀ g ∈ .char '\x00' :: (specials '\x27' ++ escapable '\x27'),
      isContractPart g = false ∧ g ≠ .char '.' := by decide
  have hne : ∀ x ∈ .char '\x00' :: (specials '\x27' ++ escapable '\x27'), g ≠ x := by
    rintro x hx rfl
    obtain ⟨hpart, hpoint⟩ := hall g hx
    obtain hg | hg := hg
    · exact Bool.eq_false_iff.1 hpart hg
    · exact hpoint hg
  exact ⟨hne _ (by simp), fun hmem => hne g (by simp [hmem]) rfl,
    fun hmem => hne g (by simp [hmem]) rfl⟩

theorem parts_of_isAddress (h : b.isAddress = true) :
    ∀ g ∈ b.glyphs, isContractPart g = true ∨ g = .char '.' := by
  have hstop (p : Glyph → Bool) : Avoids p [] := nofun
  obtain ⟨pos', hprincipal⟩ := principal_eq h (hstop _) (hstop _) {}
  have hparts := principal_parts ⟨b.glyphs ++ [], {}⟩
  rwa [hprincipal] at hparts

theorem at?_principal_quoted (hf : IsQuoting '\x27' f) (hb : 0 ∉ b)
    (hstart : startsWith address b.glyphs = true) (rest : List Glyph) (pos : Pos) :
    (principal ⟨Bytes.glyphs (b.flatMap f) ++ .char '\x27' :: rest, pos⟩).2.at? '\x27' =
      b.isAddress := by
  have hnul := Bytes.nul_notMem_glyphs hb
  rw [Bytes.glyphs_flatMap hf.toIsEscaping, Bool.eq_iff_iff]
  constructor
  · intro hquote
    obtain ⟨s, hs⟩ : ∃ s : Scanner, s =
        ⟨b.glyphs.flatMap (Glyph.escapeWith f) ++ .char '\x27' :: rest, pos⟩ := ⟨_, rfl⟩
    rw [← hs] at hquote
    obtain ⟨more, hmore⟩ := head?_eq_some_iff.1 (eq_of_beq hquote)
    have hrest : b.glyphs.flatMap (Glyph.escapeWith f) ++ .char '\x27' :: rest =
        s.principal.1 ++ .char '\x27' :: more := by
      rw [← hmore, ← rest_principal, hs]
    have hrun := hf.eq_of_append (by decide) hnul
      (fun x hx => (notMem_of_addressGlyph (principal_parts s x hx)).2.1) hrest
    obtain ⟨suffix, hparts, hsuffix⟩ := principal_fst s
    rw [hrun] at hparts
    have hdrop : b.glyphs.dropWhile isAddressPart = suffix := by
      rw [hparts, dropWhile_append_of_pos (all_eq_true.1 all_takeWhile)]
      obtain rfl | ⟨contract, rfl, -⟩ := isContractSuffix_cases hsuffix
      · rfl
      · exact dropWhile_cons_of_neg (by decide)
    exact isAddress_iff.2 ⟨hstart, hdrop ▸ hsuffix⟩
  · intro haddress
    have hself : b.glyphs.flatMap (Glyph.escapeWith f) = b.glyphs := by
      have hone : ∀ g ∈ b.glyphs, g.escapeWith f = [g] := fun g hg =>
        have hparts := notMem_of_addressGlyph (parts_of_isAddress haddress g hg)
        hf.escapeWith_eq (by decide) hparts.1 hparts.2.2
      rw [flatMap_congr hone, flatMap_singleton']
    have hstop {p : Glyph → Bool} (hp : p (.char '\x27') = false) :
        Avoids p (.char '\x27' :: rest) := by
      rintro _ ⟨⟩
      exact hp
    obtain ⟨pos', hprincipal⟩ := principal_eq haddress (hstop rfl) (hstop rfl) pos
    rw [hself, hprincipal]
    exact beq_self_eq_true _

/-- A text between single quotes is read as a principal when it starts as an address, and is no
address itself. -/
theorem opensPrincipal_quoted (hf : IsQuoting '\x27' f) (hb : 0 ∉ b) (rest : List Glyph)
    (pos : Pos) :
    opensPrincipal ⟨.char '\x27' :: (Bytes.glyphs (b.flatMap f) ++ .char '\x27' :: rest), pos⟩ =
      (startsWith address b.glyphs && !b.isAddress) := by
  have hstart : startsWith address (Bytes.glyphs (b.flatMap f) ++ .char '\x27' :: rest) =
      startsWith address b.glyphs := by
    rw [Bytes.glyphs_flatMap hf.toIsEscaping]
    exact hf.startsWith_eq (by decide) (by decide) (Bytes.nul_notMem_glyphs hb)
  rw [opensPrincipal_eq, tail_cons, hstart, advance]
  cases hopens : startsWith address b.glyphs with
  | false => rfl
  | true => rw [at?_principal_quoted hf hb hopens]

/-- A string between double quotes, and one between single quotes that starts no principal. -/
theorem next_quoted (hquote : quote ∈ quotes) (hf : IsQuoting quote f) (hb : 0 ∉ b)
    (hstring : quote = '\x27' → startsWith address b.glyphs = true → b.isAddress = true)
    (rest : List Glyph) (pos : Pos) :
    ∃ pos', (⟨.char quote :: (Bytes.glyphs (b.flatMap f) ++ .char quote :: rest), pos⟩ :
      Scanner).next = (⟨.string, b, pos⟩, ⟨rest, pos'⟩) := by
  obtain ⟨pos', hread⟩ := string_eq (hf.readsString hquote hb rest) pos
  refine ⟨pos', ?_⟩
  rw [next_quote_eq hquote, if_neg, hread]
  rintro ⟨rfl, hopens⟩
  rw [opensPrincipal_quoted hf hb, Bool.and_eq_true, Bool.not_eq_true'] at hopens
  exact Bool.eq_false_iff.1 hopens.2 (hstring rfl hopens.1)

theorem kind_next_quoted (hf : IsQuoting '\x27' f) (hb : 0 ∉ b)
    (hstart : startsWith address b.glyphs = true) (haddress : b.isAddress = false)
    (rest : List Glyph) (pos : Pos) :
    (⟨.char '\x27' :: (Bytes.glyphs (b.flatMap f) ++ .char '\x27' :: rest), pos⟩ :
      Scanner).next.1.kind = .principal := by
  have hopens := opensPrincipal_quoted hf hb rest pos
  rw [hstart, haddress] at hopens
  rw [next_quote_eq (by decide), if_pos ⟨rfl, hopens⟩]

end Scanner

end Covenant
