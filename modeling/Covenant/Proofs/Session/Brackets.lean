import Covenant.Proofs.Token.Segmentation
import Covenant.Session.Pending
import Covenant.Tree.Parse

/-!
# Brackets of an unfinished input

Whether an input needs another line is told by its bytes, and the program is read from its tokens.
The two count the same brackets as long as the test passes over what the scanner passes over.  It
does so for double-quoted strings, line comments, principals and white space.  Strings in single
quotes, block comments and text that is no token are read as code, and so they must hold neither
brackets nor double quotes nor two slashes in a row.
-/

namespace Covenant

open List Bytes

namespace Pending

/-! ### Text that does not count -/

def marks : Bytes :=
  [0x22, 0x7B, 0x5B, 0x28, 0x7D, 0x5D, 0x29]

/-- The text holds no mark, and starts no line comment when `behind` follows it. -/
def IsCalm (s behind : Bytes) : Prop :=
  (∀ b ∈ s, b ∉ marks) ∧ ¬[0x2F, 0x2F] <:+: s ++ behind.take 1

theorem balance_code_cons (h : b = 0x2F → rest.head? ≠ some 0x2F) :
    balance .code (b :: rest) = if b = 0x22 then balance .string rest
      else if b = 0x7B ∨ b = 0x5B ∨ b = 0x28 then balance .code rest + 1
      else if b = 0x7D ∨ b = 0x5D ∨ b = 0x29 then balance .code rest - 1
      else balance .code rest := by
  rw [balance]
  rintro more rfl rfl
  exact h rfl rfl

theorem balance_code_of_notMem (hb : b ∉ marks)
    (h : b = 0x2F → rest.head? ≠ some 0x2F) : balance .code (b :: rest) = balance .code rest := by
  simp only [marks, mem_cons, not_mem_nil, or_false, not_or] at hb
  rw [balance_code_cons h, if_neg hb.1, if_neg (by tauto), if_neg (by tauto)]

theorem balance_calm (behind : Bytes) (h : IsCalm s behind) :
    balance .code (s ++ behind) = balance .code behind := by
  induction s with
  | nil => rfl
  | cons b s ih =>
    obtain ⟨hmarks, hslashes⟩ := h
    rw [forall_mem_cons] at hmarks
    have hhead : b = 0x2F → (s ++ behind).head? ≠ some 0x2F := by
      rintro rfl hnext
      apply hslashes
      cases s with
      | nil =>
        obtain ⟨more, rfl⟩ := head?_eq_some_iff.1 hnext
        exact infix_refl _
      | cons b' s =>
        obtain rfl : b' = 0x2F := by simpa using hnext
        exact ⟨[], s ++ behind.take 1, rfl⟩
    have hcalm : IsCalm s behind := ⟨hmarks.2, fun hinfix => hslashes (infix_cons hinfix)⟩
    rw [cons_append, balance_code_of_notMem hmarks.1 hhead, ih hcalm]

theorem isCalm_of_forall (h : ∀ b ∈ s, b ∉ 0x2F :: marks) (behind : Bytes) : IsCalm s behind := by
  refine ⟨fun b hb hmark => h b hb (mem_cons_of_mem _ hmark), fun hinfix => ?_⟩
  obtain ⟨before, after, heq⟩ := hinfix
  -- the first of two slashes in a row stands in `s`, as at most one byte follows
  have hlength := congrArg List.length heq
  simp only [length_append, length_cons, length_nil, length_take] at hlength
  have hget : (s ++ behind.take 1)[before.length]? = some 0x2F := by
    rw [← heq]
    simp
  rw [getElem?_append_left (by omega)] at hget
  exact h _ (mem_of_getElem? hget) mem_cons_self

theorem balance_string (h : ∀ b ∈ s, b ≠ 0x5C ∧ b ≠ 0x22) (rest : Bytes) :
    balance .string (s ++ rest) = balance .string rest := by
  induction s with
  | nil => rfl
  | cons b s ih =>
    obtain ⟨⟨hslash, hquote⟩, hs⟩ := forall_mem_cons.1 h
    rw [cons_append, balance, if_neg hslash, if_neg hquote, ih hs]

theorem balance_comment (h : ∀ b ∈ s, b ≠ 10) (rest : Bytes) :
    balance .comment (s ++ rest) = balance .comment rest := by
  induction s with
  | nil => rfl
  | cons b s ih =>
    obtain ⟨hb, hs⟩ := forall_mem_cons.1 h
    rw [cons_append, balance, if_neg hb, ih hs]

/-! ### White space at the ends -/

theorem balance_quiet (h : ∀ b ∈ s, b ∉ 0x2F :: marks) (at₀ : Context) : balance at₀ s = 0 := by
  induction s generalizing at₀ with
  | nil => cases at₀ <;> rfl
  | cons b s ih =>
    obtain ⟨hb, hs⟩ := forall_mem_cons.1 h
    cases at₀ with
    | code =>
      have hcalm := balance_calm [] (isCalm_of_forall h [])
      rwa [append_nil] at hcalm
    | string =>
      rw [balance]
      split
      · exact ih hs _
      · split <;> exact ih hs _
    | escape => exact ih hs _
    | comment =>
      rw [balance]
      split <;> exact ih hs _

theorem balance_append_quiet (h : ∀ b ∈ t, b ∉ 0x2F :: marks) (at₀ : Context)
    (s : Bytes) : balance at₀ (s ++ t) = balance at₀ s := by
  have hhead {b : UInt8} {rest : Bytes} (hx : ∀ more, b = 0x2F → rest = 0x2F :: more → False) :
      b = 0x2F → (rest ++ t).head? ≠ some 0x2F := by
    rintro hb hnext
    cases rest with
    | nil => exact h _ (mem_of_head? hnext) mem_cons_self
    | cons b' rest => exact hx rest hb (by simpa using hnext)
  fun_induction balance at₀ s with
  | case1 at₀ => exact balance_quiet h at₀
  | case2 | case3 | case4 | case5 | case6 | case7 | case8 => simp_all [balance]
  | case9 rest hx ih => rw [cons_append, balance_code_cons (hhead hx), if_pos rfl, ih]
  | case10 b rest hx hquote hopen ih =>
    rw [cons_append, balance_code_cons (hhead hx), if_neg hquote, if_pos hopen, ih]
  | case11 b rest hx hquote hopen hclose ih =>
    rw [cons_append, balance_code_cons (hhead hx), if_neg hquote, if_neg hopen, if_pos hclose, ih]
  | case12 b rest hx hquote hopen hclose ih =>
    rw [cons_append, balance_code_cons (hhead hx), if_neg hquote, if_neg hopen, if_neg hclose, ih]

end Pending

/-! ### Glyphs of a source -/

def Glyph.IsRead (g : Glyph) : Prop :=
  ∀ b, g = .stray b → 0x80 ≤ b.toNat

theorem Glyph.eq_char_of_mem {g : Glyph} (hg : g.IsRead) (hb : b ∈ g.bytes)
    (hlt : b.toNat < 0x80) : g = .char (Char.ofNat b.toNat) := by
  cases g with
  | char c => rw [eq_of_mem_ofChar hb hlt]
  | stray b' =>
    obtain rfl : b = b' := mem_singleton.1 hb
    exact absurd hlt (Nat.not_lt.2 (hg b rfl))

theorem Bytes.isRead_of_mem_glyphsFrom (hg : g ∈ glyphsFrom skip s) : g.IsRead := by
  fun_induction glyphsFrom skip s with
  | case1 => cases hg
  | case2 skip b rest ih => exact ih hg
  | case3 b rest g' n hread ih =>
    rw [mem_cons] at hg
    obtain rfl | hg := hg
    · obtain ⟨hb, hstray⟩ | ⟨c, bs, tail, -, -, hchar⟩ := Glyph.read_cases b rest
      · rintro b' rfl
        rw [hstray] at hread
        cases hread
        exact hb
      · rintro b' rfl
        rw [hchar] at hread
        cases hread
    · exact ih hg

theorem Bytes.forall_ofGlyphs (hgs : ∀ g ∈ gs, g.IsRead) (bs : Bytes)
    (hbs : ∀ b ∈ bs, b.toNat < 0x80 ∧ .char (Char.ofNat b.toNat) ∉ gs) :
    ∀ b ∈ ofGlyphs gs, b ∉ bs := by
  intro b hb hmem
  obtain ⟨g, hg, hbytes⟩ := mem_flatMap.1 hb
  obtain ⟨hlt, hchar⟩ := hbs b hmem
  rw [← Glyph.eq_char_of_mem (hgs g hg) hbytes hlt] at hchar
  exact hchar hg

namespace Pending

theorem quiet_of_forall {p : Glyph → Bool}
    (hp : (0x2F :: marks).all fun b => !p (.char (Char.ofNat b.toNat)))
    (hgs : ∀ g ∈ gs, g.IsRead ∧ p g = true) : ∀ b ∈ ofGlyphs gs, b ∉ 0x2F :: marks := by
  have hascii : (0x2F :: marks).all (·.toNat < 0x80) := by decide
  refine forall_ofGlyphs (fun g hg => (hgs g hg).1) _
    fun b hb => ⟨by simpa using all_eq_true.1 hascii b hb, fun hmem => ?_⟩
  have hfalse := all_eq_true.1 hp b hb
  rw [(hgs _ hmem).2] at hfalse
  cases hfalse

theorem balance_trim (s : Bytes) : balance .code s.trim = balance .code s := by
  have hspace : (0x2F :: marks).all fun b => !Glyph.isSpace (.char (Char.ofNat b.toNat)) := by
    decide
  have hquiet {gs : List Glyph} (hsub : gs ⊆ s.glyphs) (hgs : ∀ g ∈ gs, g.isSpace = true) :
      ∀ b ∈ ofGlyphs gs, b ∉ 0x2F :: marks :=
    quiet_of_forall hspace fun g hg => ⟨isRead_of_mem_glyphsFrom (hsub hg), hgs g hg⟩
  let front := s.glyphs.dropWhile Glyph.isSpace
  let kept := (front.reverse.dropWhile Glyph.isSpace).reverse
  let back := (front.reverse.takeWhile Glyph.isSpace).reverse
  have hfront : front = kept ++ back := by
    rw [← reverse_append, takeWhile_append_dropWhile, reverse_reverse]
  have hs : s = ofGlyphs (s.glyphs.takeWhile Glyph.isSpace) ++
      (ofGlyphs kept ++ ofGlyphs back) := by
    rw [ofGlyphs, ofGlyphs, ofGlyphs, ← flatMap_append,
      ← flatMap_append, ← hfront, takeWhile_append_dropWhile]
    exact (ofGlyphs_glyphs s).symm
  have hstart := hquiet (takeWhile_subset _) (all_eq_true.1 all_takeWhile)
  have hend : ∀ b ∈ ofGlyphs back, b ∉ 0x2F :: marks := by
    refine hquiet (fun g hg => ?_) fun g hg => ?_
    · have hmem := takeWhile_subset _ (mem_reverse.1 hg)
      exact dropWhile_subset _ (mem_reverse.1 hmem)
    · exact all_eq_true.1 all_takeWhile g (mem_reverse.1 hg)
  calc balance .code s.trim
    _ = balance .code (ofGlyphs kept ++ ofGlyphs back) :=
      (balance_append_quiet hend .code _).symm
    _ = balance .code s := by
      conv_rhs => rw [hs]
      exact (balance_calm _ (isCalm_of_forall hstart _)).symm

/-! ### Gaps -/

def blockComment (body : List Glyph) : List Glyph :=
  .char '/' :: .char '*' :: body ++ [.char '*', .char '/']

/-- The block comments of a gap are calm, each before what follows it. -/
def IsPlainGap (gap behind : List Glyph) : Prop :=
  ∀ before body after, gap = before ++ blockComment body ++ after → Scanner.IsGap before →
    IsCalm (Bytes.ofGlyphs (blockComment body)) (Bytes.ofGlyphs (after ++ behind))

theorem IsPlainGap.drop (hgs : Scanner.IsGap gs) (h : IsPlainGap (gs ++ hs) behind) :
    IsPlainGap hs behind := by
  rintro before body after rfl hbefore
  exact h (gs ++ before) body after (by simp only [append_assoc]) (hgs.append hbefore)

theorem balance_lineComment (hread : ∀ g ∈ body, g.IsRead) (hbody : Scanner.IsLineBody body)
    (rest : Bytes) :
    balance .code (ofGlyphs (.char '/' :: .char '/' :: body) ++ rest) = balance .comment rest := by
  have hlines : ∀ b ∈ ofGlyphs body, b ≠ 10 := by
    intro b hb hlf
    refine forall_ofGlyphs hread [10] ?_ b hb (mem_singleton.2 hlf)
    rintro b hb
    rw [mem_singleton.1 hb]
    exact ⟨by decide, hbody.1⟩
  exact balance_comment hlines rest

theorem balance_gap (h : Scanner.IsGap gap) (behind : List Glyph) (hread : ∀ g ∈ gap, g.IsRead)
    (hplain : IsPlainGap gap behind) :
    balance .code (ofGlyphs (gap ++ behind)) = balance .code (ofGlyphs behind) := by
  induction h with
  | nil => rfl
  | @blank g gs hg hgs ih =>
    have hquiet : ∀ g ∈ [.char ' ', .char '\t', .char '\r', .char '\n'], ∀ b ∈ Glyph.bytes g,
        b ∉ 0x2F :: marks := by decide +kernel
    have hgap : Scanner.IsGap [g] := .blank hg .nil
    calc balance .code (g.bytes ++ ofGlyphs (gs ++ behind))
      _ = balance .code (ofGlyphs (gs ++ behind)) :=
        balance_calm _ (isCalm_of_forall (hquiet g hg) _)
      _ = balance .code (ofGlyphs behind) :=
        ih (fun g hg => hread g (mem_cons_of_mem _ hg)) (hplain.drop hgap)
  | @line body gs hbody hgs ih =>
    have hsplit : .char '/' :: .char '/' :: body ++ .char '\n' :: gs =
        (.char '/' :: .char '/' :: body ++ [.char '\n']) ++ gs := by simp
    have hgap : Scanner.IsGap (.char '/' :: .char '/' :: body ++ [.char '\n']) :=
      .line hbody .nil
    calc balance .code (ofGlyphs (.char '/' :: .char '/' :: body ++ .char '\n' :: gs ++ behind))
      _ = balance .comment (ofGlyphs (.char '\n' :: gs ++ behind)) := by
        rw [append_assoc, ofGlyphs_append]
        exact balance_lineComment (fun g hg => hread g (by simp [hg])) hbody _
      _ = balance .code (ofGlyphs (gs ++ behind)) := rfl
      _ = balance .code (ofGlyphs behind) :=
        ih (fun g hg => hread g (by simp [hg])) ((hsplit ▸ hplain).drop hgap)
  | @block body gs hbody hgs ih =>
    have hsplit : .char '/' :: .char '*' :: body ++ .char '*' :: .char '/' :: gs =
        blockComment body ++ gs := by simp [blockComment]
    have hgap : Scanner.IsGap (blockComment body) := .block hbody .nil
    rw [hsplit] at hplain hread ⊢
    calc balance .code (ofGlyphs (blockComment body ++ gs ++ behind))
      _ = balance .code (ofGlyphs (gs ++ behind)) := by
        rw [append_assoc, ofGlyphs_append]
        exact balance_calm _ (hplain [] body gs rfl .nil)
      _ = balance .code (ofGlyphs behind) :=
        ih (fun g hg => hread g (mem_append_right _ hg)) (hplain.drop hgap)

/-! ### Tokens -/

def openings : List TokenKind :=
  [.lbrace, .lbracket, .lparen]

def closings : List TokenKind :=
  [.rbrace, .rbracket, .rparen]

/-- The number of opening brackets among the tokens less the number of the closing ones. -/
def surplus (ts : List Token) : Int :=
  (ts.countP (·.kind ∈ openings) : Int) - ts.countP (·.kind ∈ closings)

theorem surplus_cons (t : Token) (ts : List Token) :
    surplus (t :: ts) = surplus [t] + surplus ts := by
  simp only [surplus, countP_cons, countP_nil]
  omega

theorem surplus_of_kind (h : t.kind ∉ openings ++ closings) : surplus [t] = 0 := by
  rw [mem_append, not_or] at h
  simp [surplus, h.1, h.2]

theorem balance_symbol (hk : k ∈ TokenKind.symbols) (pos : Pos)
    (hslash : k = .slash → IsCalm (ofGlyphs k.glyphs) rest) :
    balance .code (ofGlyphs k.glyphs ++ rest) =
      surplus [⟨k, k.name, pos⟩] + balance .code rest := by
  have hcases : ∀ k ∈ TokenKind.symbols,
      (k ∈ openings ∧ k ∉ closings ∧ ofGlyphs k.glyphs ∈ [[0x7B], [0x5B], [0x28]]) ∨
      (k ∈ closings ∧ k ∉ openings ∧ ofGlyphs k.glyphs ∈ [[0x7D], [0x5D], [0x29]]) ∨
      (k ∉ openings ++ closings ∧
        (k = .slash ∨ (ofGlyphs k.glyphs).all (· ∉ 0x2F :: marks))) := by decide
  obtain ⟨hopen, hclose, htext⟩ | ⟨hclose, hopen, htext⟩ | ⟨hneither, hcalm⟩ := hcases k hk
  · have hsurplus : surplus [⟨k, k.name, pos⟩] = 1 := by simp [surplus, hopen, hclose]
    simp only [mem_cons, not_mem_nil, or_false] at htext
    rw [hsurplus]
    obtain h | h | h := htext <;> rw [h] <;>
      exact (balance_code_cons fun h => absurd h (by decide)).trans (Int.add_comm _ _)
  · have hsurplus : surplus [⟨k, k.name, pos⟩] = -1 := by simp [surplus, hopen, hclose]
    simp only [mem_cons, not_mem_nil, or_false] at htext
    rw [hsurplus]
    obtain h | h | h := htext <;> rw [h] <;>
      exact (balance_code_cons fun h => absurd h (by decide)).trans (Int.add_comm _ _)
  · rw [surplus_of_kind hneither, Int.zero_add]
    exact balance_calm _ (hcalm.elim hslash fun h => isCalm_of_forall (by simpa using h) _)

theorem balance_encoded {inner : List Glyph} (h : Scanner.Encodes '\x22' inner body)
    (hread : ∀ g ∈ inner, g.IsRead) (rest : Bytes) :
    balance .string (ofGlyphs inner ++ rest) = balance .string rest := by
  induction h with
  | nil => rfl
  | @glyph g gs body hg _ ih =>
    obtain ⟨hread₁, hread₂⟩ := forall_mem_cons.1 hread
    have hplain : ∀ b ∈ g.bytes, b ≠ 0x5C ∧ b ≠ 0x22 := by
      intro b hb
      constructor <;> rintro rfl <;>
        exact hg (by rw [Glyph.eq_char_of_mem hread₁ hb (by decide)]; decide)
    rw [ofGlyphs, flatMap_cons, append_assoc, balance_string hplain]
    exact ih hread₂
  | @escape g gs body _ ih =>
    obtain ⟨hread₁, hread₂⟩ := forall_mem_cons.1 (forall_mem_cons.1 hread).2
    -- the first byte behind the backslash does not count, and the others are above ASCII
    obtain ⟨b, bs, hbytes, hbs⟩ : ∃ b bs, g.bytes = b :: bs ∧ ∀ b ∈ bs, b ≠ 0x5C ∧ b ≠ 0x22 := by
      cases g with
      | stray b => exact ⟨b, [], rfl, by simp⟩
      | char c =>
        obtain ⟨-, he⟩ | ⟨-, b, bs, he, -, hbs⟩ := ofChar_cases c
        · exact ⟨_, [], he, by simp⟩
        · refine ⟨b, bs, he, fun b hb => ?_⟩
          have hle := hbs b hb
          constructor <;> rintro rfl <;> exact absurd hle (by decide)
    calc balance .string (ofGlyphs (.char '\x5c' :: g :: gs) ++ rest)
      _ = balance .escape (g.bytes ++ (ofGlyphs gs ++ rest)) := by
        rw [← append_assoc]
        rfl
      _ = balance .string (bs ++ (ofGlyphs gs ++ rest)) := by
        rw [hbytes]
        rfl
      _ = balance .string rest := (balance_string hbs _).trans (ih hread₂)

end Pending

open Pending

/-- The lexemes that the test reads otherwise than the scanner are calm: strings in single quotes,
text that is no token, and slashes. -/
structure Segment.IsPlain (x : Segment) (behind : List Glyph) : Prop where
  gap : IsPlainGap x.gap (x.lexeme ++ behind)
  lexeme : x.token.kind ∈ [.illegal, .slash] ∨
      x.token.kind = .string ∧ x.lexeme.head? = some (.char '\x27') →
    IsCalm (Bytes.ofGlyphs x.lexeme) (Bytes.ofGlyphs behind)

theorem Pending.balance_lexeme {t : Token} {text : List Glyph} (h : t.ReadFrom text behind)
    (hread : ∀ g ∈ text, g.IsRead)
    (hplain : t.kind ∈ [.illegal, .slash] ∨ t.kind = .string ∧ text.head? = some (.char '\x27') →
      IsCalm (ofGlyphs text) (ofGlyphs behind)) :
    balance .code (ofGlyphs (text ++ behind)) = surplus [t] + balance .code (ofGlyphs behind) := by
  rw [ofGlyphs_append]
  have hcalm (hkind : t.kind ∉ openings ++ closings)
      (h : IsCalm (ofGlyphs text) (ofGlyphs behind)) :
      balance .code (ofGlyphs text ++ ofGlyphs behind) =
        surplus [t] + balance .code (ofGlyphs behind) := by
    rw [surplus_of_kind hkind, Int.zero_add, balance_calm _ h]
  have hquiet (p : Glyph → Bool)
      (hp : (0x2F :: marks).all fun b => !p (.char (Char.ofNat b.toNat)))
      (hgs : ∀ g ∈ text, p g = true) : IsCalm (ofGlyphs text) (ofGlyphs behind) :=
    isCalm_of_forall (quiet_of_forall hp fun g hg => ⟨hread g hg, hgs g hg⟩) _
  have hwords : ∀ k ∈ TokenKind.words, k ∉ openings ++ closings := by decide
  have hkinds : ∀ k ∈ [.decorator, .int, .float, .string, .principal, .illegal],
      k ∉ openings ++ closings := by decide
  cases h with
  | word hg hgs _ =>
    refine hcalm (hwords _ (TokenKind.ofWord_mem_words _))
      (hquiet Scanner.isNamePart (by decide) (forall_mem_cons.2 ⟨?_, hgs⟩))
    rw [Scanner.isNamePart, hg, Bool.true_or]
  | decorator hg hgs _ =>
    refine hcalm (hkinds _ (by simp))
      (hquiet (fun g => g.is '@' || Scanner.isNamePart g) (by decide) ?_)
    simp only [forall_mem_cons, Bool.or_eq_true, Scanner.isNamePart, hg, true_or, or_true]
    exact ⟨.inl rfl, trivial, fun g hg => .inr (by simpa [Scanner.isNamePart] using hgs g hg)⟩
  | int _ hdigits _ _ =>
    exact hcalm (hkinds _ (by simp)) (hquiet Scanner.isDigit (by decide) hdigits)
  | float hwhole hplaces _ =>
    refine hcalm (hkinds _ (by simp))
      (hquiet (fun g => g.is '.' || Scanner.isDigit g) (by decide) ?_)
    intro g hg
    obtain hg | rfl | hg := by simpa using hg
    · simp [hwhole.2 g hg]
    · rfl
    · simp [hplaces.2 g hg]
  | symbol hk _ => exact balance_symbol hk _ fun hslash => hplain (.inl (by simp [hslash]))
  | @string quote inner body _ _ hquote hbody =>
    obtain rfl | rfl := hquote
    · have hinner : ∀ g ∈ inner, g.IsRead := fun g hg => hread g (by simp [hg])
      rw [surplus_of_kind (hkinds _ (by simp)), Int.zero_add, ofGlyphs_append, append_assoc]
      exact balance_encoded hbody hinner _
    · exact hcalm (hkinds _ (by simp)) (hplain (.inr ⟨rfl, rfl⟩))
  | principal _ hparts _ =>
    refine hcalm (hkinds _ (by simp)) (hquiet
      (fun g => g.is '\x27' || g.is '.' || Scanner.isContractPart g) (by decide) ?_)
    refine forall_mem_cons.2 ⟨rfl, fun g hg => ?_⟩
    obtain hpart | rfl := hparts g hg
    · simp [hpart]
    · rfl
  | openString _ _ _ | openComment _ _ | stray _ _ _ _ _ _ =>
    exact hcalm (hkinds _ (by simp)) (hplain (.inl (by simp)))

theorem Segment.balance_glyphs {x : Segment} (hx : x.IsFaithful behind)
    (hplain : x.IsPlain behind) (hread : ∀ g ∈ x.glyphs, g.IsRead) :
    balance .code (ofGlyphs (x.glyphs ++ behind)) =
      surplus [x.token] + balance .code (ofGlyphs behind) := by
  rw [glyphs, append_assoc,
    balance_gap hx.gap _ (fun g hg => hread g (mem_append_left _ hg)) hplain.gap]
  exact balance_lexeme hx.readFrom (fun g hg => hread g (mem_append_right _ hg)) hplain.lexeme

theorem Segment.balance_flatMap (hread : ∀ g ∈ xs.flatMap glyphs, g.IsRead)
    (h : ∀ before x after, xs = before ++ x :: after →
      x.IsFaithful (after.flatMap glyphs ++ behind) ∧
      x.IsPlain (after.flatMap glyphs ++ behind)) :
    balance .code (ofGlyphs (xs.flatMap glyphs ++ behind)) =
      surplus (xs.map token) + balance .code (ofGlyphs behind) := by
  induction xs with
  | nil => exact (Int.zero_add _).symm
  | cons x xs ih =>
    obtain ⟨hfaithful, hplain⟩ := h [] x xs rfl
    rw [flatMap_cons] at hread ⊢
    rw [append_assoc, balance_glyphs hfaithful hplain fun g hg => hread g (by simp [hg]),
      ih (fun g hg => hread g (mem_append_right _ hg))
        fun before y after hsplit => h (x :: before) y after (by rw [hsplit, cons_append]),
      map_cons, surplus_cons _ (xs.map token), Int.add_assoc]

/-- The scanner reaches the end, and what the test misreads is calm. -/
structure Segmentation.IsPlain {gs : List Glyph} (c : Segmentation gs) : Prop where
  segment : ∀ before x after, c.segments = before ++ x :: after →
    x.IsPlain (after.flatMap Segment.glyphs ++ c.last)
  last : IsPlainGap c.last []
  rest : c.rest = []

namespace Pending

theorem balance_lastGap (h : Scanner.IsLastGap last) (hread : ∀ g ∈ last, g.IsRead)
    (hplain : IsPlainGap last []) : balance .code (ofGlyphs last) = 0 := by
  obtain ⟨gap, comment, rfl, hgap, hcomment⟩ := h
  have hplain : IsPlainGap gap comment := by
    rintro before body after rfl hbefore
    have hcalm := hplain before body (after ++ comment) (by simp only [append_assoc]) hbefore
    rwa [append_nil] at hcalm
  rw [balance_gap hgap comment (fun g hg => hread g (mem_append_left _ hg)) hplain]
  obtain rfl | ⟨body, rfl, hbody⟩ := hcomment
  · rfl
  · have hline := balance_lineComment (fun g hg => hread g (by simp [hg])) hbody []
    rwa [append_nil] at hline

theorem balance_segmentation (c : Segmentation input.glyphs) (h : c.IsPlain) :
    balance .code input = surplus (c.segments.map Segment.token) := by
  have hcovers := c.covers
  rw [h.rest, append_nil] at hcovers
  have hread : ∀ g ∈ c.segments.flatMap Segment.glyphs ++ c.last, g.IsRead := by
    rw [← hcovers]
    exact fun g hg => isRead_of_mem_glyphsFrom hg
  have hsegments (before : List Segment) (x : Segment) (after : List Segment)
      (hsplit : c.segments = before ++ x :: after) :
      x.IsFaithful (after.flatMap Segment.glyphs ++ c.last) ∧
        x.IsPlain (after.flatMap Segment.glyphs ++ c.last) := by
    have hfaithful := c.isFaithful before x after hsplit
    rw [h.rest, append_nil] at hfaithful
    exact ⟨hfaithful, h.segment before x after hsplit⟩
  calc balance .code input
    _ = balance .code (ofGlyphs (c.segments.flatMap Segment.glyphs ++ c.last)) := by
      rw [← hcovers, ofGlyphs_glyphs]
    _ = surplus (c.segments.map Segment.token) + balance .code (ofGlyphs c.last) :=
      Segment.balance_flatMap (fun g hg => hread g (mem_append_left _ hg)) hsegments
    _ = surplus (c.segments.map Segment.token) := by
      rw [balance_lastGap c.isLastGap (fun g hg => hread g (mem_append_right _ hg)) h.last,
        Int.add_zero]

end Pending

end Covenant
