import Covenant.Proofs.Token.Writing

/-!
# Texts of gaps and tokens

What the scanner passes is a gap of blanks and comments and the text of a token.  Both are told
here without the scanner: a gap by what it may hold, and the text of a token by its kind and its
literal, and by what may not follow it, since the scanner takes names, numbers and symbols as far
as they go.
-/

namespace Covenant

open List TokenKind
open TokenKind (symbols)
open Glyph (is)

/-! ### Gaps -/

namespace Scanner

def IsLineBody (body : List Glyph) : Prop :=
  .char '\n' ∉ body ∧ .char '\x00' ∉ body

def IsBlockBody (body : List Glyph) : Prop :=
  ¬[.char '*', .char '/'] <:+: body ∧ .char '\x00' ∉ body

/-- Text between tokens: blanks, line comments and closed block comments. -/
inductive IsGap : List Glyph → Prop
  | nil : IsGap []
  | blank {g gs} (hg : g ∈ [.char ' ', .char '\t', .char '\r', .char '\n']) (h : IsGap gs) :
    IsGap (g :: gs)
  | line {body gs} (hbody : IsLineBody body) (h : IsGap gs) :
    IsGap (.char '/' :: .char '/' :: body ++ .char '\n' :: gs)
  | block {body gs} (hbody : IsBlockBody body) (h : IsGap gs) :
    IsGap (.char '/' :: .char '*' :: body ++ .char '*' :: .char '/' :: gs)

/-- The gap behind the last token may end with a line comment whose line does not end. -/
def IsLastGap (gs : List Glyph) : Prop :=
  ∃ gap comment, gs = gap ++ comment ∧ IsGap gap ∧
    (comment = [] ∨ ∃ body, comment = .char '/' :: .char '/' :: body ∧ IsLineBody body)

variable {gs hs : List Glyph} {g : Glyph} {seen : List Glyph}

theorem IsGap.append (h : IsGap gs) (h' : IsGap hs) : IsGap (gs ++ hs) := by
  induction h with
  | nil => exact h'
  | blank hg _ ih => exact .blank hg ih
  | line hbody _ ih => simpa using ih.line hbody
  | block hbody _ ih => simpa using ih.block hbody

theorem IsGap.isLastGap (h : IsGap gs) : IsLastGap gs :=
  ⟨gs, [], (append_nil _).symm, h, .inl rfl⟩

theorem isLastGap_line (h : IsLineBody body) : IsLastGap (.char '/' :: .char '/' :: body) :=
  ⟨[], _, rfl, .nil, .inr ⟨body, rfl, h⟩⟩

theorem IsLastGap.prepend (h : IsLastGap hs) (hgs : IsGap gs) : IsLastGap (gs ++ hs) := by
  obtain ⟨gap, comment, rfl, hgap, hcomment⟩ := h
  exact ⟨gs ++ gap, comment, (append_assoc ..).symm, hgs.append hgap, hcomment⟩

theorem IsGap.nul_notMem (h : IsGap gs) : .char '\x00' ∉ gs := by
  induction h with
  | nil => exact not_mem_nil
  | blank hg _ ih =>
    refine not_mem_cons_of_ne_of_not_mem ?_ ih
    rintro rfl
    exact absurd hg (by decide)
  | line hbody _ ih | block hbody _ ih => simpa using ⟨hbody.2, ih⟩

theorem IsLastGap.nul_notMem (h : IsLastGap gs) : .char '\x00' ∉ gs := by
  obtain ⟨gap, comment, rfl, hgap, hcomment⟩ := h
  have hcomment : .char '\x00' ∉ comment := by
    obtain rfl | ⟨body, rfl, hbody⟩ := hcomment
    · exact not_mem_nil
    · simpa using hbody.2
  rw [mem_append, not_or]
  exact ⟨hgap.nul_notMem, hcomment⟩

theorem isBlank_iff : isBlank g = true ↔ g ∈ [.char ' ', .char '\t', .char '\r', .char '\n'] := by
  simp only [isBlank, is, Bool.or_eq_true, beq_iff_eq, mem_cons, not_mem_nil, or_false]
  tauto

/-! ### Skipping passes a gap -/

def Mode.opening : Mode → List Glyph
  | .blank => []
  | .line => [.char '/', .char '/']
  | .block _ => [.char '/', .char '*']

/-- The text `seen` since then has not left the mode, and neither does it with the first glyph that
follows. -/
def Mode.Holds (seen gs : List Glyph) : Mode → Prop
  | .blank => seen = []
  | .line => IsLineBody seen
  | .block _ => IsBlockBody seen ∧ ¬[.char '*', .char '/'] <:+: seen ++ gs.head?.toList

/-- A text is divided into a gap and the rest; or else a comment without an end comes first in
the rest. -/
def Skipped.Divides (gs : List Glyph) : Skipped → Prop
  | .ready s => ∃ gap, gs = gap ++ s.rest ∧ (IsGap gap ∨ IsLastGap gap ∧ IsStop s.rest)
  | .openComment _ s => ∃ gap body, gs = gap ++ (.char '/' :: .char '*' :: body ++ s.rest) ∧
      IsGap gap ∧ IsBlockBody body ∧ IsStop s.rest

theorem Skipped.Divides.prepend {r : Skipped} (h : r.Divides hs) (hgs : IsGap gs) :
    r.Divides (gs ++ hs) := by
  cases r with
  | ready s =>
    obtain ⟨gap, rfl, hgap⟩ := h
    refine ⟨gs ++ gap, (append_assoc ..).symm, ?_⟩
    exact hgap.imp hgs.append fun h => ⟨h.1.prepend hgs, h.2⟩
  | openComment p s =>
    obtain ⟨gap, body, rfl, hgap, hbody, hstop⟩ := h
    exact ⟨gs ++ gap, body, (append_assoc ..).symm, hgs.append hgap, hbody, hstop⟩

theorem isStop_of_is (h : g.is '\x00' = true) (gs : List Glyph) : IsStop (g :: gs) :=
  .inr ⟨gs, by rw [eq_of_beq h]⟩

theorem IsLineBody.concat (h : IsLineBody seen)
    (hend : ¬g.is '\n' = true) (hnul : ¬g.is '\x00' = true) : IsLineBody (seen ++ [g]) := by
  rw [is, beq_iff_eq] at hend hnul
  simp only [IsLineBody, mem_append, mem_singleton, not_or]
  exact ⟨⟨h.1, Ne.symm hend⟩, h.2, Ne.symm hnul⟩

theorem holds_block_nil (p : Pos) (gs : List Glyph) : (Mode.block p).Holds [] gs := by
  refine ⟨by simp [IsBlockBody], fun hinfix => ?_⟩
  have hle := hinfix.length_le
  cases gs <;> simp at hle

theorem holds_block_concat {rest : List Glyph} (h : (Mode.block p).Holds seen (g :: rest))
    (hclose : ∀ more, g = .char '*' → rest = .char '/' :: more → False)
    (hnul : ¬g.is '\x00' = true) : (Mode.block p).Holds (seen ++ [g]) rest := by
  obtain ⟨⟨-, hseen⟩, hopen⟩ := h
  rw [is, beq_iff_eq] at hnul
  refine ⟨⟨hopen, ?_⟩, ?_⟩
  · simp only [mem_append, mem_singleton, not_or]
    exact ⟨hseen, Ne.symm hnul⟩
  · cases rest with
    | nil => simpa using hopen
    | cons g' rest =>
      simp only [head?_cons, Option.toList_some]
      rw [infix_concat_iff]
      rintro (hsuffix | hinfix)
      · obtain ⟨before, heq⟩ := hsuffix
        rw [← singleton_append, ← append_assoc] at heq
        obtain ⟨heq, hslash⟩ := append_inj' heq rfl
        obtain ⟨-, hstar⟩ := append_inj' heq rfl
        obtain rfl := singleton_inj.1 hslash
        exact hclose rest (singleton_inj.1 hstar).symm rfl
      · exact hopen hinfix

theorem skip_divides (pos : Pos) (h : mode.Holds seen gs) :
    (skip mode gs pos).Divides (mode.opening ++ seen ++ gs) := by
  fun_induction skip mode gs pos generalizing seen with
  | case1 start p => exact ⟨[], seen, by simp [Mode.opening], .nil, h.1, .inl rfl⟩
  | case2 mode p hmode =>
    cases mode with
    | blank =>
      obtain rfl := h
      exact ⟨[], rfl, .inl .nil⟩
    | line => exact ⟨_, rfl, .inr ⟨isLastGap_line h, .inl rfl⟩⟩
    | block start => exact absurd rfl (hmode start)
  | case3 rest p ih =>
    obtain rfl := h
    exact ih (show IsLineBody [] by simp [IsLineBody])
  | case4 rest p ih =>
    obtain rfl := h
    exact ih (holds_block_nil p rest)
  | case5 g rest p _ _ hblank ih =>
    obtain rfl := h
    exact (ih (show Mode.blank.Holds [] rest from rfl)).prepend (.blank (isBlank_iff.1 hblank) .nil)
  | case6 g rest p =>
    obtain rfl := h
    exact ⟨[], rfl, .inl .nil⟩
  | case7 g rest p hend ih =>
    obtain rfl := eq_of_beq hend
    simpa [Mode.opening] using (ih (show Mode.blank.Holds [] rest from rfl)).prepend (.line h .nil)
  | case8 g rest p hend hnul => exact ⟨_, rfl, .inr ⟨isLastGap_line h, isStop_of_is hnul rest⟩⟩
  | case9 g rest p hend hnul ih => simpa using ih (h.concat hend hnul)
  | case10 start rest p ih =>
    simpa [Mode.opening] using (ih (show Mode.blank.Holds [] rest from rfl)).prepend
      (.block h.1 .nil)
  | case11 start g rest p hclose hnul =>
    exact ⟨[], seen, by simp [Mode.opening], .nil, h.1, isStop_of_is hnul rest⟩
  | case12 start g rest p hclose hnul ih => simpa using ih (holds_block_concat h hclose hnul)

/-! ### Texts of tokens -/

/-- The text between two quotes, and the string that it stands for. -/
inductive Encodes (quote : Char) : List Glyph → Bytes → Prop
  | nil : Encodes quote [] []
  | glyph {g gs body} (hg : g ∉ [.char quote, .char '\x00', .char '\n', .char '\x5c'])
    (h : Encodes quote gs body) : Encodes quote (g :: gs) (g.bytes ++ body)
  | escape {g gs body} (h : Encodes quote gs body) :
    Encodes quote (.char '\x5c' :: g :: gs) (escaped g ++ body)

end Scanner

def TokenKind.glyphs (k : TokenKind) : List Glyph :=
  k.name.toList.map .char

open Scanner in
/-- The token is read from the glyphs `text` when `behind` follows them. -/
inductive Token.ReadFrom : Token → (text behind : List Glyph) → Prop
  | word {g gs behind pos} (hg : isNameStart g = true) (hgs : ∀ x ∈ gs, isNamePart x = true)
    (hend : Avoids isNamePart behind) :
    ReadFrom ⟨.ofWord (Bytes.ofGlyphs (g :: gs)), Bytes.ofGlyphs (g :: gs), pos⟩ (g :: gs) behind
  | decorator {g gs behind pos} (hg : isNameStart g = true) (hgs : ∀ x ∈ gs, isNamePart x = true)
    (hend : Avoids isNamePart behind) :
    ReadFrom ⟨.decorator, Bytes.ofGlyphs (.char '@' :: g :: gs), pos⟩ (.char '@' :: g :: gs) behind
  | int {digits behind pos} (hne : digits ≠ []) (hdigits : ∀ x ∈ digits, isDigit x = true)
    (hend : Avoids isDigit behind) (hpoint : startsWith fraction behind = false) :
    ReadFrom ⟨.int, Bytes.ofGlyphs digits, pos⟩ digits behind
  | float {whole places behind pos} (hwhole : whole ≠ [] ∧ ∀ x ∈ whole, isDigit x = true)
    (hplaces : places ≠ [] ∧ ∀ x ∈ places, isDigit x = true) (hend : Avoids isDigit behind) :
    ReadFrom ⟨.float, Bytes.ofGlyphs (whole ++ .char '.' :: places), pos⟩
      (whole ++ .char '.' :: places) behind
  | symbol {k behind pos} (hk : k ∈ TokenKind.symbols)
    (hlongest : ∀ k' ∈ TokenKind.symbols, k'.glyphs <+: k.glyphs ++ behind →
    k'.glyphs.length ≤ k.glyphs.length) :
    ReadFrom ⟨k, k.name, pos⟩ k.glyphs behind
  | string {quote inner body behind pos} (hquote : quote = '\x22' ∨ quote = '\x27')
    (hbody : Encodes quote inner body) :
    ReadFrom ⟨.string, body, pos⟩ (.char quote :: inner ++ [.char quote]) behind
  | principal {address behind pos} (haddress : (Bytes.ofGlyphs address).isAddress = true)
    (hparts : ∀ x ∈ address, isContractPart x = true ∨ x = .char '.')
    (hend : behind.head? ≠ some (.char '\x27')) :
    ReadFrom ⟨.principal, Bytes.ofGlyphs address, pos⟩ (.char '\x27' :: address) behind
  /-- A string breaks off at the end of its line or of the input, perhaps inside an escape. -/
  | openString {quote inner body dangling behind pos} (hquote : quote = '\x22' ∨ quote = '\x27')
    (hbody : Encodes quote inner body)
    (hend : dangling = [] ∧ (IsStop behind ∨ behind.head? = some (.char '\n')) ∨
    dangling = [.char '\x5c'] ∧ behind = []) :
    ReadFrom ⟨.illegal, openString, pos⟩ (.char quote :: inner ++ dangling) behind
  /-- A block comment runs on up to the end of the input. -/
  | openComment {body behind pos} (hbody : IsBlockBody body) (hend : IsStop behind) :
    ReadFrom ⟨.illegal, openComment, pos⟩ (.char '/' :: .char '*' :: body) behind
  /-- A glyph that starts no token. -/
  | stray {g behind pos} (hsymbol : ∀ k ∈ TokenKind.symbols, k.glyphs ≠ [g])
    (hquote : g ≠ .char '\x22' ∧ g ≠ .char '\x27') (hname : isNameStart g = false)
    (hdigit : isDigit g = false) (hnul : g ≠ .char '\x00')
    (hat : g = .char '@' → Avoids isNameStart behind) :
    ReadFrom ⟨.illegal, Bytes.ofChar g.rune, pos⟩ [g] behind

namespace Scanner

/-! ### Runs -/

theorem span_cases (p : Glyph → Bool) (s : Scanner) :
    ∃ run s', s.span p = (run, s') ∧ s.rest = run ++ s'.rest ∧ (∀ g ∈ run, p g = true) ∧
      Avoids p s'.rest := by
  obtain ⟨s', hspan, hrest⟩ := span_eq p s
  refine ⟨_, s', hspan, ?_, all_eq_true.1 all_takeWhile, ?_⟩
  · rw [hrest, takeWhile_append_dropWhile]
  · intro g hg
    have hhead := head?_dropWhile_not p s.rest
    rw [← hrest, hg] at hhead
    exact hhead

variable {g : Glyph} {rest : List Glyph} {s : Scanner} {gs : List Glyph} {k : TokenKind}
    {next : Option Glyph} {quote : Char}

theorem span_cons (hs : s.rest = g :: rest) (hg : p g = true) :
    ∃ run s', s.span p = (g :: run, s') ∧ rest = run ++ s'.rest ∧ (∀ x ∈ run, p x = true) ∧
      Avoids p s'.rest := by
  obtain ⟨run, s', hspan, hrest, hrun, hend⟩ := span_cases p s
  cases run with
  | nil =>
    rw [nil_append] at hrest
    rw [hend g (by rw [← hrest, hs]; rfl)] at hg
    cases hg
  | cons g' run =>
    rw [hs, cons_append] at hrest
    obtain ⟨rfl, htail⟩ := List.cons.inj hrest
    exact ⟨run, s', hspan, htail, (forall_mem_cons.1 hrun).2, hend⟩

theorem rest_eq_of_startsWith_fraction (h : startsWith fraction gs = true) :
    ∃ g rest, gs = .char '.' :: g :: rest ∧ isDigit g = true := by
  match gs with
  | [] | [_] => simp [startsWith, fraction] at h
  | p :: g :: rest =>
    simp only [startsWith, fraction, is, Bool.and_eq_true, beq_iff_eq] at h
    obtain ⟨rfl, hg, -⟩ := h
    exact ⟨g, rest, rfl, hg⟩

theorem point_notMem {digits : List Glyph} (h : ∀ x ∈ digits, isDigit x = true) :
    .char '.' ∉ digits := by
  intro hmem
  cases h _ hmem

theorem readFrom_number (hs : s.rest = g :: rest) (hg : isDigit g = true) (pos : Pos) :
    ∃ text, s.rest = text ++ s.number.2.rest ∧
      Token.ReadFrom ⟨if s.number.1.contains (.char '.') then .float else .int,
        Bytes.ofGlyphs s.number.1, pos⟩ text s.number.2.rest := by
  obtain ⟨whole, s₁, hspan, hrest, hwhole, hend⟩ := span_cons hs hg
  have hwhole : ∀ x ∈ g :: whole, isDigit x = true := forall_mem_cons.2 ⟨hg, hwhole⟩
  rw [number_eq, hspan, hs, hrest]
  split
  · next hfraction =>
    obtain ⟨d, more, hs₁, hd⟩ := rest_eq_of_startsWith_fraction hfraction
    have hadvance : s₁.advance.rest = d :: more := by rw [rest_advance, hs₁, tail_cons]
    obtain ⟨places, s₂, hspan₂, hrest₂, hplaces, hend₂⟩ := span_cons hadvance hd
    rw [hspan₂, hs₁, hrest₂]
    refine ⟨g :: whole ++ .char '.' :: d :: places, by simp, ?_⟩
    rw [if_pos (by simp)]
    exact .float ⟨cons_ne_nil _ _, hwhole⟩
      ⟨cons_ne_nil _ _, forall_mem_cons.2 ⟨hd, hplaces⟩⟩ hend₂
  · next hfraction =>
    refine ⟨g :: whole, rfl, ?_⟩
    rw [if_neg (by simpa using point_notMem hwhole)]
    exact .int (cons_ne_nil _ _) hwhole hend (Bool.eq_false_iff.2 hfraction)

/-! ### Symbols -/

theorem glyphs_symbol (h : symbol c next = some (k, two)) :
    k ∈ symbols ∧ k.glyphs = .char c :: if two then next.toList else [] := by
  unfold symbol at h
  dsimp only at h
  split at h <;> (repeat' split at h) <;> cases h
  all_goals simp_all [symbols, glyphs, name]

theorem all_symbols : symbols.all (fun k =>
    match k.glyphs with
    | [.char c] => (symbol c none).isSome
    | [.char c, .char d] => symbol c (some (.char d)) == some (k, true)
    | _ => false) = true := by
  decide

theorem symbol_eq_none (h : symbol c next = none) : symbol c none = none := by
  unfold symbol at h ⊢
  dsimp only at h ⊢
  split at h <;> (repeat' split at h) <;> cases h
  rfl

theorem glyphs_ne_of_symbol_eq_none (h : symbol g.rune next = none) :
    ∀ k ∈ symbols, k.glyphs ≠ [g] := by
  intro k hk hglyphs
  have hall := all_eq_true.1 all_symbols k hk
  rw [hglyphs] at hall
  cases g with
  | stray b => cases hall
  | char c =>
    have hnone : symbol c none = none := symbol_eq_none h
    have hstarts : (symbol c none).isSome = true := hall
    rw [hnone] at hstarts
    cases hstarts

theorem readFrom_symbol (hs : s.rest = g :: rest) (h : symbol g.rune rest.head? = some (k, two))
    (pos : Pos) : let s' := if two then s.advance.advance else s.advance
    s.rest = k.glyphs ++ s'.rest ∧ Token.ReadFrom ⟨k, k.name, pos⟩ k.glyphs s'.rest := by
  intro s'
  obtain ⟨c, rfl⟩ : ∃ c, g = .char c := by
    cases g with
    | char c => exact ⟨c, rfl⟩
    | stray b => cases h
  have h : symbol c rest.head? = some (k, two) := h
  obtain ⟨hk, hglyphs⟩ := glyphs_symbol h
  have hrest : s.rest = k.glyphs ++ s'.rest := by
    rw [hs, hglyphs]
    cases two with
    | false => simp [s', rest_advance, hs]
    | true =>
      cases rest with
      | nil => cases symbol_none h
      | cons g' rest => simp [s', rest_advance, hs]
  refine ⟨hrest, .symbol hk fun k' hk' hprefix => ?_⟩
  have hall := all_eq_true.1 all_symbols k' hk'
  rw [← hrest, hs] at hprefix
  split at hall
  · next hone =>
    rw [hone, hglyphs]
    exact Nat.le_add_left _ _
  · next c' d' hpair =>
    -- the scanner sees both characters and takes them
    rw [hpair] at hprefix
    obtain ⟨more, hmore⟩ := hprefix
    obtain ⟨hc, rfl⟩ := List.cons.inj hmore
    obtain rfl := Glyph.char.inj hc
    have hboth : symbol c' (some (.char d')) = some (k, two) := h
    rw [eq_of_beq hall] at hboth
    exact Nat.le_of_eq (by rw [(Prod.mk.inj (Option.some.inj hboth)).1])
  · cases hall

/-! ### Strings and principals -/

theorem stringBody_closed {pos : Pos} (h : stringBody quote gs pos = (some body, s)) :
    ∃ inner, gs = inner ++ s.rest ∧ Encodes quote inner body ∧
      s.rest.head? = some (.char quote) := by
  fun_induction stringBody quote gs pos generalizing body s with
  | case1 pos => cases h
  | case2 g rest pos hquote =>
    cases h
    exact ⟨[], rfl, .nil, by rw [eq_of_beq hquote]; rfl⟩
  | case3 g rest pos hquote hend | case4 g pos => cases h
  | case5 g pos hquote hend hescape e rest' body' s' heq ih =>
    obtain ⟨hbody, rfl⟩ := Prod.mk.inj h
    obtain ⟨inner, rfl, rfl⟩ := Option.map_eq_some_iff.1 hbody
    obtain ⟨text, hrest, hencodes, hhead⟩ := ih heq
    obtain rfl := eq_of_beq hescape
    exact ⟨.char '\x5c' :: e :: text, by rw [hrest]; rfl, .escape hencodes, hhead⟩
  | case6 g rest pos hquote hend hescape body' s' heq ih =>
    obtain ⟨hbody, rfl⟩ := Prod.mk.inj h
    obtain ⟨inner, rfl, rfl⟩ := Option.map_eq_some_iff.1 hbody
    obtain ⟨text, hrest, hencodes, hhead⟩ := ih heq
    refine ⟨g :: text, by rw [hrest]; rfl, .glyph ?_ hencodes, hhead⟩
    simp_all [is]

theorem stringBody_open {pos : Pos} (h : stringBody quote gs pos = (none, s)) :
    ∃ inner body dangling, gs = inner ++ dangling ++ s.rest ∧ Encodes quote inner body ∧
      (dangling = [] ∧ (IsStop s.rest ∨ s.rest.head? = some (.char '\n')) ∨
        dangling = [.char '\x5c'] ∧ s.rest = []) := by
  fun_induction stringBody quote gs pos generalizing s with
  | case1 pos =>
    cases h
    exact ⟨[], [], [], rfl, .nil, .inl ⟨rfl, .inl (.inl rfl)⟩⟩
  | case2 g rest pos hquote => cases h
  | case3 g rest pos hquote hend =>
    cases h
    refine ⟨[], [], [], rfl, .nil, .inl ⟨rfl, ?_⟩⟩
    obtain hnul | hend := Bool.or_eq_true .. ▸ hend
    · exact .inl (isStop_of_is hnul rest)
    · exact .inr (by rw [eq_of_beq hend]; rfl)
  | case4 g pos hquote hend hescape =>
    cases h
    obtain rfl := eq_of_beq hescape
    exact ⟨[], [], [_], rfl, .nil, .inr ⟨rfl, rfl⟩⟩
  | case5 g pos hquote hend hescape e rest' body' s' heq ih =>
    obtain ⟨hbody, rfl⟩ := Prod.mk.inj h
    obtain rfl := Option.map_eq_none_iff.1 hbody
    obtain ⟨text, inner, dangling, hrest, hencodes, hstop⟩ := ih heq
    obtain rfl := eq_of_beq hescape
    exact ⟨.char '\x5c' :: e :: text, _, dangling, by rw [hrest]; rfl, .escape hencodes, hstop⟩
  | case6 g rest pos hquote hend hescape body' s' heq ih =>
    obtain ⟨hbody, rfl⟩ := Prod.mk.inj h
    obtain rfl := Option.map_eq_none_iff.1 hbody
    obtain ⟨text, inner, dangling, hrest, hencodes, hstop⟩ := ih heq
    refine ⟨g :: text, _, dangling, by rw [hrest]; rfl, .glyph ?_ hencodes, hstop⟩
    simp_all [is]

theorem readFrom_string
    (hs : s.rest = .char quote :: rest) (hquote : quote = '\x22' ∨ quote = '\x27') :
    ∃ text, s.rest = text ++ (s.string quote).2.rest ∧
      (s.string quote).1.ReadFrom text (s.string quote).2.rest := by
  have hinner : s.advance.rest = rest := by rw [rest_advance, hs, tail_cons]
  rw [string, hinner]
  cases hbody : stringBody quote rest s.advance.pos with
  | mk body s' =>
    cases body with
    | some body =>
      obtain ⟨inner, hrest, hencodes, hhead⟩ := stringBody_closed hbody
      obtain ⟨more, hmore⟩ := head?_eq_some_iff.1 hhead
      refine ⟨.char quote :: inner ++ [.char quote], ?_, .string hquote hencodes⟩
      rw [hs, hrest, rest_advance, hmore]
      simp
    | none =>
      obtain ⟨inner, body, dangling, hrest, hencodes, hend⟩ := stringBody_open hbody
      refine ⟨.char quote :: inner ++ dangling, ?_, .openString hquote hencodes hend⟩
      rw [hs, hrest]
      simp

theorem rest_principal (s : Scanner) : s.rest = s.principal.1 ++ s.principal.2.rest := by
  obtain ⟨address, s₁, hspan, hrest, -, -⟩ := span_cases isAddressPart s
  rw [principal, hspan]
  dsimp only
  split
  · next hpoint =>
    obtain ⟨contract, s₂, hspan₂, hrest₂, -, -⟩ := span_cases isContractPart s₁.advance
    obtain ⟨more, hmore⟩ := head?_eq_some_iff.1 (eq_of_beq hpoint)
    rw [rest_advance, hmore, tail_cons] at hrest₂
    rw [hspan₂, hrest, hmore, hrest₂, append_assoc, cons_append]
  · exact hrest

theorem principal_parts (s : Scanner) :
    ∀ x ∈ s.principal.1, isContractPart x = true ∨ x = .char '.' := by
  obtain ⟨suffix, hrun, hsuffix⟩ := principal_fst s
  rw [hrun]
  refine forall_mem_append.2 ⟨fun x hx => .inl ?_, ?_⟩
  · exact isContractPart_of_isAddressPart (all_eq_true.1 all_takeWhile x hx)
  · obtain rfl | ⟨contract, rfl, hall⟩ := isContractSuffix_cases hsuffix
    · exact fun x hx => absurd hx not_mem_nil
    · exact forall_mem_cons.2 ⟨.inr rfl, fun x hx => .inl (all_eq_true.1 hall x hx)⟩

theorem readFrom_principal (hs : s.rest = .char '\x27' :: rest)
    (h : s.opensPrincipal = true) (pos : Pos) :
    s.rest = .char '\x27' :: s.advance.principal.1 ++ s.advance.principal.2.rest ∧
      Token.ReadFrom ⟨.principal, Bytes.ofGlyphs s.advance.principal.1, pos⟩
        (.char '\x27' :: s.advance.principal.1) s.advance.principal.2.rest := by
  have haddress := isAddress_principal h
  have hprincipal := rest_principal s.advance
  rw [rest_advance, hs, tail_cons] at hprincipal
  rw [opensPrincipal_eq, Bool.and_eq_true, Bool.not_eq_true'] at h
  refine ⟨by rw [hs, cons_append, ← hprincipal],
    .principal haddress s.advance.principal_parts fun hquote => ?_⟩
  rw [at?, hquote] at h
  exact absurd h.2 (by decide)

/-! ### Tokens -/

/-- The input ends here, or a token is read from the glyphs that the scanner passes. -/
theorem token_cases (s : Scanner) : (IsStop s.rest ∧ s.token = (⟨.eof, [], s.pos⟩, s)) ∨
      ∃ text, s.rest = text ++ s.token.2.rest ∧ s.token.1.ReadFrom text s.token.2.rest := by
  rw [token]
  cases hs : s.rest with
  | nil => exact .inl ⟨.inl rfl, rfl⟩
  | cons g rest =>
    dsimp only
    split
    · next hnul => exact .inl ⟨isStop_of_is hnul rest, rfl⟩
    next hnul =>
    refine .inr ?_
    cases hsymbol : symbol g.rune rest.head? with
    | some x => exact ⟨_, hs ▸ readFrom_symbol hs hsymbol s.pos⟩
    | none =>
      dsimp only
      split
      · next hquote =>
        obtain rfl := eq_of_beq hquote
        exact hs ▸ readFrom_string hs (.inl rfl)
      next hdouble =>
      split
      · next hquote =>
        obtain rfl := eq_of_beq hquote
        split
        · next hopens => exact ⟨_, hs ▸ readFrom_principal hs hopens s.pos⟩
        · exact hs ▸ readFrom_string hs (.inr rfl)
      next hsingle =>
      have hstray (hname : isNameStart g = false) (hdigit : isDigit g = false)
          (hat : g = .char '@' → Avoids isNameStart rest) :
          Token.ReadFrom ⟨.illegal, Bytes.ofChar g.rune, s.pos⟩ [g] rest :=
        .stray (glyphs_ne_of_symbol_eq_none hsymbol) ⟨by simpa [is] using hdouble,
          by simpa [is] using hsingle⟩ hname hdigit (by simpa [is] using hnul) hat
      have hadvance : s.advance.rest = rest := by rw [rest_advance, hs, tail_cons]
      split
      · next hat =>
        obtain rfl := eq_of_beq hat
        cases rest with
        | nil =>
          refine ⟨[.char '@'], by rw [hadvance]; rfl, ?_⟩
          rw [hadvance]
          exact hstray (by decide) (by decide) (by rintro - _ ⟨⟩)
        | cons g' rest =>
          dsimp only
          split
          · next hname =>
            have hpart : isNamePart g' = true := by rw [isNamePart, hname, Bool.true_or]
            obtain ⟨run, s', hspan, hrest, hrun, hend⟩ := span_cons hadvance hpart
            rw [hspan, hrest]
            exact ⟨.char '@' :: g' :: run, rfl, .decorator hname hrun hend⟩
          · next hname =>
            refine ⟨[.char '@'], by rw [hadvance]; rfl, ?_⟩
            rw [hadvance]
            refine hstray (by decide) (by decide) ?_
            rintro - _ ⟨⟩
            exact Bool.eq_false_iff.2 hname
      next hat =>
      split
      · next hname =>
        have hpart : isNamePart g = true := by rw [isNamePart, hname, Bool.true_or]
        obtain ⟨run, s', hspan, hrest, hrun, hend⟩ := span_cons hs hpart
        rw [hspan, hrest]
        exact ⟨g :: run, rfl, .word hname hrun hend⟩
      next hname =>
      split
      · next hdigit => exact hs ▸ readFrom_number hs hdigit s.pos
      next hdigit =>
      refine ⟨[g], by rw [hadvance]; rfl, ?_⟩
      rw [hadvance]
      exact hstray (Bool.eq_false_iff.2 hname) (Bool.eq_false_iff.2 hdigit)
        fun hg => absurd (by rw [hg]; rfl) hat

end Scanner

def TokenKind.words : List TokenKind :=
  .ident :: keywords.map Prod.snd

theorem TokenKind.ofWord_mem_words (w : Bytes) : ofWord w ∈ words :=
  mem_cons.2 (ofWord_mem w)

theorem TokenKind.ofWord_ne (hk : k ∉ words) (w : Bytes) : ofWord w ≠ k :=
  ne_of_mem_of_not_mem (ofWord_mem_words w) hk

namespace Token.ReadFrom

variable {t : Token} {text behind : List Glyph}

section

variable (h : t.ReadFrom text behind)

include h

theorem ne_nil : text ≠ [] := by
  cases h with
  | int hne => exact hne
  | symbol hk =>
    have hall : ∀ k ∈ symbols, k.glyphs ≠ [] := by decide
    exact hall _ hk
  | float hwhole => exact append_ne_nil_of_left_ne_nil hwhole.1 _
  | word | decorator | string | principal | openString | openComment | stray =>
    exact cons_ne_nil _ _

theorem kind_ne_eof : t.kind ≠ .eof := by
  cases h with
  | word => exact Scanner.ofWord_ne_eof _
  | symbol hk =>
    rintro rfl
    exact absurd hk (by decide)
  | decorator | int | float | string | principal | openString | openComment | stray =>
    exact noConfusion

theorem literal_eq (hkind : t.kind ∉ [.string, .principal, .illegal]) :
    t.literal = Bytes.ofGlyphs text := by
  cases h with
  | symbol hk =>
    have hall : ∀ k ∈ symbols, Bytes.ofString k.name = Bytes.ofGlyphs k.glyphs := by decide
    exact hall _ hk
  | word | decorator | int | float => rfl
  | string | principal | openString | openComment | stray => simp at hkind

theorem principal_eq (hkind : t.kind = .principal) :
    ∃ address, text = .char '\x27' :: address ∧ t.literal = Bytes.ofGlyphs address := by
  cases h with
  | principal => exact ⟨_, rfl, rfl⟩
  | word => exact absurd hkind (ofWord_ne (by decide) _)
  | symbol hk => exact absurd hkind (ne_of_mem_of_not_mem hk (by decide))
  | decorator | int | float | string | openString | openComment | stray => cases hkind

theorem avoids_namePart (hkind : t.kind ∈ .decorator :: words) :
    Scanner.Avoids Scanner.isNamePart behind := by
  cases h with
  | word _ _ hend | decorator _ _ hend => exact hend
  | symbol hk =>
    have hall : ∀ k ∈ symbols, k ∉ .decorator :: words := by decide
    exact absurd hkind (hall _ hk)
  | int | float | string | principal | openString | openComment | stray =>
    simp [words, keywords] at hkind

theorem avoids_digit (hkind : t.kind = .int ∨ t.kind = .float) :
    Scanner.Avoids Scanner.isDigit behind := by
  cases h with
  | int _ _ hend | float _ _ hend => exact hend
  | word => exact absurd hkind (not_or.2 ⟨ofWord_ne (by decide) _,
      ofWord_ne (by decide) _⟩)
  | symbol hk => exact absurd hkind (not_or.2 ⟨ne_of_mem_of_not_mem hk (by decide),
      ne_of_mem_of_not_mem hk (by decide)⟩)
  | decorator | string | principal | openString | openComment | stray => simp at hkind

theorem not_startsWith_fraction (hkind : t.kind = .int) :
    Scanner.startsWith Scanner.fraction behind = false := by
  cases h with
  | int _ _ _ hpoint => exact hpoint
  | word => exact absurd hkind (ofWord_ne (by decide) _)
  | symbol hk => exact absurd hkind (ne_of_mem_of_not_mem hk (by decide))
  | decorator | float | string | principal | openString | openComment | stray => cases hkind

theorem symbol_longest (hkind : t.kind ∈ symbols) :
    ∀ k ∈ symbols, k.glyphs <+: text ++ behind → k.glyphs.length ≤ text.length := by
  cases h with
  | symbol _ hlongest => exact hlongest
  | word =>
    have hall : ∀ k ∈ words, k ∉ symbols := by decide
    exact absurd hkind (hall _ (ofWord_mem_words _))
  | decorator | int | float | string | principal | openString | openComment | stray =>
    simp [symbols] at hkind

theorem nul_notMem (hlegal : t.kind ≠ .illegal)
    (hkind : t.kind ≠ .string) : .char '\x00' ∉ text := by
  have hdigits {gs : List Glyph} (hgs : ∀ x ∈ gs, Scanner.isDigit x = true) :
      .char '\x00' ∉ gs := fun hmem => absurd (hgs _ hmem) (by decide)
  have hname {g : Glyph} {gs : List Glyph} (hg : Scanner.isNameStart g = true)
      (hgs : ∀ x ∈ gs, Scanner.isNamePart x = true) : .char '\x00' ∉ g :: gs := by
    rintro (_ | ⟨_, hmem⟩)
    · exact absurd hg (by decide)
    · exact absurd (hgs _ hmem) (by decide)
  cases h with
  | word hg hgs => exact hname hg hgs
  | decorator hg hgs => exact not_mem_cons_of_ne_of_not_mem (by decide) (hname hg hgs)
  | int _ hall => exact hdigits hall
  | float hwhole hplaces =>
    simp only [mem_append, mem_cons, not_or]
    exact ⟨hdigits hwhole.2, by decide, hdigits hplaces.2⟩
  | symbol hk =>
    have hall : ∀ k ∈ symbols, .char '\x00' ∉ k.glyphs := by decide
    exact hall _ hk
  | principal _ hparts =>
    refine not_mem_cons_of_ne_of_not_mem (by decide) fun hmem => ?_
    exact absurd (hparts _ hmem) (by decide)
  | string => exact absurd rfl hkind
  | openString | openComment | stray => exact absurd rfl hlegal

end

end Token.ReadFrom

end Covenant
