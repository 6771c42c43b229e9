import Covenant.Proofs.Token.Progress
import Mathlib.Data.List.Forall2

/-!
# Scanning a source with more text behind it

No token runs on over the end of a line.  So text that is appended on a new line leaves the tokens
before it as they are, and is itself scanned as if it stood alone, except for the places: blanks and
a line comment at the end of the first text end with the line.
-/

namespace Covenant

open List hiding beq_eq_decide
open TokenKind

namespace Scanner

/-- Scanning stops here: nothing is left, or a NUL character comes first. -/
def IsStop (gs : List Glyph) : Prop :=
  gs = [] ∨ ∃ more, gs = .char '\x00' :: more

/-- Text that no token runs on into: scanning stops there, or it starts with a line end. -/
def IsBroken (more : List Glyph) : Prop :=
  ∀ g, more.head? = some g → g = .char '\n' ∨ g = .char '\x00'

theorem isBroken_cons (gs : List Glyph) : IsBroken (.char '\n' :: gs) := by
  rintro _ ⟨⟩
  exact .inl rfl

theorem IsStop.isBroken (h : IsStop gs) : IsBroken gs := by
  obtain rfl | ⟨more, rfl⟩ := h
  · rintro _ ⟨⟩
  · rintro _ ⟨⟩
    exact .inr rfl

/-- The second scanner stands before the same glyphs, with `more` behind them. -/
def Extends (more : List Glyph) (s s' : Scanner) : Prop :=
  s'.rest = s.rest ++ more

/-- A token that is legal without the text behind it; or where scanning stops there, with that
text, but not by running on into it. -/
def Stands (more : List Glyph) (x y : Token × Scanner) : Prop :=
  x.1.kind ≠ .illegal ∨
    IsStop more ∧ y.1.kind ≠ .illegal ∧ more.length ≤ y.2.rest.length

/-- A token that stands is the same, and the scanners correspond behind it. -/
def Scans (more : List Glyph) (x y : Token × Scanner) : Prop :=
  Stands more x y → x.1.SameText y.1 ∧ Extends more x.2 y.2

variable {s s' : Scanner}

/-! ### Runs -/

theorem Extends.advance (h : Extends more s s') (hs : s.rest ≠ []) :
    Extends more s.advance s'.advance := by
  rw [Extends, rest_advance, rest_advance, h, tail_append_of_ne_nil hs]

theorem Extends.at? (h : Extends more s s') (hmore : IsBroken more) {c : Char}
    (hc : c ≠ '\n' ∧ c ≠ '\x00') : s'.at? c = s.at? c := by
  rw [Scanner.at?, Scanner.at?, h]
  cases hs : s.rest with
  | cons g gs => rfl
  | nil =>
    cases hhead : more.head? with
    | none => simp [hhead]
    | some g =>
      obtain rfl | rfl := hmore g hhead
      · simpa [hhead] using hc.1.symm
      · simpa [hhead] using hc.2.symm

theorem Extends.span (h : Extends more s s') (hmore : IsBroken more)
    (hp : p (.char '\n') = false ∧ p (.char '\x00') = false) :
    (s'.span p).1 = (s.span p).1 ∧ Extends more (s.span p).2 (s'.span p).2 := by
  obtain ⟨s₁, hs₁, hrest₁⟩ := span_eq p s
  obtain ⟨s₂, hs₂, hrest₂⟩ := span_eq p s'
  have hhead : more.takeWhile p = [] ∧ more.dropWhile p = more := by
    cases more with
    | nil => exact ⟨rfl, rfl⟩
    | cons g gs => obtain rfl | rfl := hmore g rfl <;> simp [hp]
  rw [hs₁, hs₂, Extends, hrest₁, hrest₂, h, takeWhile_append, dropWhile_append, hhead.1,
    hhead.2, append_nil]
  constructor
  · split
    · next hall => exact ((List.takeWhile_prefix p).eq_of_length hall).symm
    · rfl
  · split
    · next hempty => rw [isEmpty_iff.1 hempty, nil_append]
    · rfl

/-- The first glyphs are of the given classes, one after the other. -/
def startsWith : List (Glyph → Bool) → List Glyph → Bool
  | [], _ => true
  | _ :: _, [] => false
  | p :: ps, g :: gs => p g && startsWith ps gs

theorem startsWith_append (hmore : IsBroken more)
    (hps : ∀ p ∈ ps, p (.char '\n') = false ∧ p (.char '\x00') = false) (gs : List Glyph) :
    startsWith ps (gs ++ more) = startsWith ps gs := by
  induction ps generalizing gs with
  | nil => simp only [startsWith]
  | cons p ps ih =>
    obtain ⟨hp, hps⟩ := forall_mem_cons.1 hps
    cases gs with
    | cons g gs => rw [cons_append, startsWith, startsWith, ih hps]
    | nil =>
      cases more with
      | nil => rfl
      | cons g more =>
        obtain rfl | rfl := hmore g rfl <;>
          simp only [nil_append, startsWith, hp, Bool.false_and]

def fraction : List (Glyph → Bool) :=
  [(·.is '.'), isDigit]

theorem number_eq (s : Scanner) : s.number = if startsWith fraction (s.span isDigit).2.rest then
        ((s.span isDigit).1 ++ .char '.' :: ((s.span isDigit).2.advance.span isDigit).1,
          ((s.span isDigit).2.advance.span isDigit).2) else s.span isDigit := by
  unfold number
  generalize s.span isDigit = x
  obtain ⟨whole, s₁⟩ := x
  dsimp only
  split
  · next g gs hs => simp [hs, fraction, startsWith, Glyph.is]
  · next hs =>
    rw [if_neg]
    match hrest : s₁.rest with
    | [] | [_] => simp [fraction, startsWith]
    | g :: g' :: gs =>
      intro hahead
      simp only [fraction, startsWith, Glyph.is, Bool.and_eq_true, beq_iff_eq] at hahead
      exact hs g' gs (by rw [hrest, hahead.1])

theorem Extends.number (h : Extends more s s') (hmore : IsBroken more) :
    s'.number.1 = s.number.1 ∧ Extends more s.number.2 s'.number.2 := by
  obtain ⟨hwhole, hspan⟩ := h.span hmore (p := isDigit) (by decide)
  have hrest := hspan
  rw [number_eq, number_eq, hrest, startsWith_append hmore (by decide)]
  split
  · next hahead =>
    have hne : (s.span isDigit).2.rest ≠ [] := by
      intro hnil
      rw [hnil] at hahead
      cases hahead
    obtain ⟨hfraction, hspan₂⟩ := (hspan.advance hne).span hmore (p := isDigit) (by decide)
    exact ⟨by rw [hwhole, hfraction], hspan₂⟩
  · exact ⟨hwhole, hspan⟩

theorem Extends.principal (h : Extends more s s') (hmore : IsBroken more) :
    s'.principal.1 = s.principal.1 ∧ Extends more s.principal.2 s'.principal.2 := by
  obtain ⟨haddress, hspan⟩ := h.span hmore (p := isAddressPart) (by decide)
  unfold Scanner.principal
  dsimp only
  rw [hspan.at? hmore (by decide), haddress]
  split
  · next hpoint =>
    have hrest : (s.span isAddressPart).2.rest ≠ [] := by
      rintro hnil
      simp [Scanner.at?, hnil] at hpoint
    obtain ⟨hcontract, hspan₂⟩ := (hspan.advance hrest).span hmore (p := isContractPart) (by decide)
    exact ⟨by rw [hcontract], hspan₂⟩
  · exact ⟨rfl, hspan⟩

def address : List (Glyph → Bool) :=
  [(·.is 'S'), fun g => g.is 'P' || g.is 'M' || g.is 'T' || g.is 'N', isAddressPart]

theorem opensPrincipal_eq (s : Scanner) :
    s.opensPrincipal = (startsWith address s.rest.tail && !(s.advance.principal.2.at? '\x27')) := by
  unfold opensPrincipal
  split
  · next k g gs hs =>
    have hchar (c : Char) : (Glyph.char k == .char c) = (k == c) := by
      simp [beq_eq_decide]
    simp [address, startsWith, hs, Glyph.is, hchar]
  · next hs =>
    match hrest : s.rest with
    | [] | [_] | [_, _] | [_, _, _] => simp [address, startsWith]
    | g :: a :: b :: c :: gs =>
      refine (Bool.eq_false_iff.2 fun hahead => ?_).symm
      simp only [address, startsWith, Glyph.is, tail_cons, Bool.and_eq_true, Bool.or_eq_true,
        beq_iff_eq] at hahead
      obtain ⟨⟨rfl, hb, -⟩, -⟩ := hahead
      obtain ((rfl | rfl) | rfl) | rfl := hb <;> exact hs _ _ _ _ hrest

theorem Extends.opensPrincipal (h : Extends more s s') (hmore : IsBroken more) (hs : s.rest ≠ []) :
    s'.opensPrincipal = s.opensPrincipal := by
  rw [opensPrincipal_eq, opensPrincipal_eq,
    ((h.advance hs).principal hmore).2.at? hmore (by decide), h, tail_append_of_ne_nil hs,
    startsWith_append hmore (by decide)]

/-! ### Strings -/

theorem stringBody_append (quote : Char) {pos : Pos} {body : Bytes}
    (h : stringBody quote gs pos = (some body, s)) (more : List Glyph) (pos' : Pos) :
    s.rest ≠ [] ∧
      ∃ s', stringBody quote (gs ++ more) pos' = (some body, s') ∧ Extends more s s' := by
  fun_induction stringBody quote gs pos generalizing body s pos' with
  | case1 pos => cases h
  | case2 g rest pos hquote =>
    cases h
    refine ⟨cons_ne_nil _ _, ⟨g :: rest ++ more, pos'⟩, ?_, rfl⟩
    unfold stringBody
    exact if_pos hquote
  | case3 g rest pos hquote hend | case4 g pos => cases h
  | case5 g pos hquote hend hescape e rest' body' s' heq ih =>
    obtain ⟨hbody, rfl⟩ := Prod.mk.inj h
    obtain ⟨inner, rfl, rfl⟩ := Option.map_eq_some_iff.1 hbody
    obtain ⟨hne, s'', hs'', hextends⟩ :=
      ih heq ((pos'.enter (some e)).enter (rest' ++ more).head?)
    refine ⟨hne, s'', ?_, hextends⟩
    unfold stringBody
    rw [cons_append, cons_append]
    dsimp only
    rw [if_neg hquote, if_neg hend, if_pos hescape, hs'']
    rfl
  | case6 g rest pos hquote hend hescape body' s' heq ih =>
    obtain ⟨hbody, rfl⟩ := Prod.mk.inj h
    obtain ⟨inner, rfl, rfl⟩ := Option.map_eq_some_iff.1 hbody
    obtain ⟨hne, s'', hs'', hextends⟩ := ih heq (pos'.enter (rest ++ more).head?)
    refine ⟨hne, s'', ?_, hextends⟩
    unfold stringBody
    rw [cons_append]
    dsimp only
    rw [if_neg hquote, if_neg hend, if_neg hescape, hs'']
    rfl

theorem length_stringBody_le (quote : Char) (gs : List Glyph) (pos : Pos) :
    (stringBody quote gs pos).2.rest.length ≤ gs.length := by
  obtain ⟨n, hn⟩ := stringBody_forward quote gs pos
  rw [hn, rest_iterate_advance, length_drop]
  exact Nat.sub_le _ _

theorem stringBody_fst_of_append (quote : Char) (gs : List Glyph) (pos : Pos)
    (h : more.length < (stringBody quote (gs ++ more) pos').2.rest.length) :
    (stringBody quote gs pos).1 = (stringBody quote (gs ++ more) pos').1 := by
  fun_induction stringBody quote gs pos generalizing pos' with
  | case1 pos => exact absurd h (Nat.not_lt.2 (length_stringBody_le quote more pos'))
  | case2 g rest pos hquote =>
    rw [cons_append, stringBody.eq_def]
    simp only [if_pos hquote]
  | case3 g rest pos hquote hend =>
    rw [cons_append, stringBody.eq_def]
    simp only [if_neg hquote, if_pos hend]
  | case4 g pos hquote hend hescape =>
    -- the escape would take a glyph of the text behind
    rw [cons_append, nil_append, stringBody.eq_def] at h ⊢
    simp only [if_neg hquote, if_neg hend, if_pos hescape] at h ⊢
    cases more with
    | nil => rfl
    | cons e rest' =>
      have hle := length_stringBody_le quote rest' ((pos'.enter (some e)).enter rest'.head?)
      rw [length_cons] at h
      dsimp only at h
      omega
  | case5 g pos hquote hend hescape e rest' body s heq ih =>
    rw [cons_append, cons_append, stringBody.eq_def] at h ⊢
    simp only [if_neg hquote, if_neg hend, if_pos hescape] at h ⊢
    rw [← ih h, heq]
  | case6 g rest pos hquote hend hescape body s heq ih =>
    rw [cons_append, stringBody.eq_def] at h ⊢
    simp only [if_neg hquote, if_neg hend, if_neg hescape] at h ⊢
    rw [← ih h, heq]

theorem Extends.string (h : Extends more s s') (hs : s.rest ≠ []) (quote : Char) :
    Scans more (s.string quote) (s'.string quote) := by
  have hinner := h.advance hs
  unfold Scanner.string
  dsimp only
  rw [hinner]
  cases hbody : stringBody quote s.advance.rest s.advance.pos with
  | mk body s₁ =>
    cases body with
    | none =>
      rintro (hlegal | ⟨-, hlegal, hlength⟩)
      · exact absurd rfl hlegal
      · refine absurd ?_ hlegal
        cases hbody' : stringBody quote (s.advance.rest ++ more) s'.advance.pos with
        | mk body' s₂ =>
          cases body' with
          | none => rfl
          | some body' =>
            have hpos := length_pos_iff.2 (stringBody_append quote hbody' [] s'.advance.pos).1
            rw [hbody', rest_advance, length_tail] at hlength
            have hbefore : more.length <
                (stringBody quote (s.advance.rest ++ more) s'.advance.pos).2.rest.length := by
              rw [hbody']
              exact Nat.lt_of_le_of_lt hlength (Nat.sub_lt hpos Nat.one_pos)
            have hclosed := stringBody_fst_of_append quote s.advance.rest s.advance.pos hbefore
            rw [hbody, hbody'] at hclosed
            cases hclosed
    | some body =>
      obtain ⟨hne, s₂, hbody', hs₂⟩ := stringBody_append quote hbody more s'.advance.pos
      rw [hbody']
      exact fun _ => ⟨⟨rfl, rfl⟩, hs₂.advance hne⟩

/-! ### Tokens -/

theorem symbol_append (hmore : IsBroken more) (c : Char) (gs : List Glyph) :
    symbol c (gs ++ more).head? = symbol c gs.head? := by
  cases gs with
  | cons g gs => rfl
  | nil =>
    cases more with
    | nil => rfl
    | cons g more => obtain rfl | rfl := hmore g rfl <;> simp [symbol]

theorem symbol_none {two : Bool} (h : symbol c none = some (k, two)) : two = false := by
  unfold symbol at h
  split at h <;> (repeat' split at h) <;> cases h <;> first | rfl | contradiction

theorem Extends.token (h : Extends more s s') (hmore : IsBroken more)
    (hs : s.rest ≠ [] ∨ IsStop more) : Scans more s.token s'.token := by
  have hend : Scans more (⟨.eof, [], s.pos⟩, s) (⟨.eof, [], s'.pos⟩, s') := fun _ => ⟨⟨rfl, rfl⟩, h⟩
  have hrest := h
  rw [Scanner.token, Scanner.token, hrest]
  cases hgs : s.rest with
  | nil =>
    obtain rfl | ⟨gs, rfl⟩ := hs.resolve_left (not_not_intro hgs)
    · exact hend
    · exact hend
  | cons g gs =>
    have hne : s.rest ≠ [] := hgs ▸ cons_ne_nil g gs
    have hadvance := h.advance hne
    dsimp only [cons_append]
    rw [symbol_append hmore]
    split
    · exact hend
    cases hsymbol : symbol g.rune gs.head? with
    | some x =>
      obtain ⟨k, two⟩ := x
      refine fun _ => ⟨⟨rfl, rfl⟩, ?_⟩
      cases two with
      | false => exact hadvance
      | true =>
        refine hadvance.advance fun hnil => ?_
        rw [rest_advance, hgs, tail_cons] at hnil
        subst hnil
        cases symbol_none hsymbol
    | none =>
      dsimp only
      split
      · exact h.string hne _
      split
      · rw [h.opensPrincipal hmore hne]
        split
        · obtain ⟨hrun, hprincipal⟩ := hadvance.principal hmore
          exact fun _ => ⟨⟨rfl, by rw [hrun]⟩, hprincipal⟩
        · exact h.string hne _
      split
      · cases gs with
        | nil =>
          have hname : ∀ g ∈ more.head?, isNameStart g = false := by
            intro g hg
            obtain rfl | rfl := hmore g hg <;> decide
          cases more with
          | nil => exact fun _ => ⟨⟨rfl, rfl⟩, hadvance⟩
          | cons g' more =>
            rw [nil_append]
            dsimp only
            rw [if_neg (Bool.eq_false_iff.1 (hname g' rfl))]
            exact fun _ => ⟨⟨rfl, rfl⟩, hadvance⟩
        | cons g' gs =>
          dsimp only [cons_append]
          split
          · obtain ⟨hrun, hspan⟩ := hadvance.span hmore (p := isNamePart) (by decide)
            exact fun _ => ⟨⟨rfl, by rw [hrun]⟩, hspan⟩
          · exact fun _ => ⟨⟨rfl, rfl⟩, hadvance⟩
      split
      · obtain ⟨hrun, hspan⟩ := h.span hmore (p := isNamePart) (by decide)
        exact fun _ => ⟨⟨by rw [hrun], by rw [hrun]⟩, hspan⟩
      split
      · obtain ⟨hrun, hnumber⟩ := h.number hmore
        exact fun _ => ⟨⟨by rw [hrun], by rw [hrun]⟩, hnumber⟩
      · exact fun _ => ⟨⟨rfl, rfl⟩, hadvance⟩

/-! ### Blanks and comments -/

/-- Modes that differ in places only. -/
inductive Mode.Alike : Mode → Mode → Prop
  | blank : Alike .blank .blank
  | line : Alike .line .line
  | block (p q : Pos) : Alike (.block p) (.block q)

theorem ne_pair_append (hmore : IsBroken more) {g : Glyph} {d : Char}
    (hd : d ≠ '\n' ∧ d ≠ '\x00') (h : ∀ rest, g = .char c → gs = .char d :: rest → False) :
    ∀ rest, g = .char c → gs ++ more = .char d :: rest → False := by
  intro rest hg hgs
  cases gs with
  | cons g' gs => exact h gs hg (by rw [(cons.inj hgs).1])
  | nil =>
    rw [nil_append] at hgs
    obtain hbreak | hnul := hmore (.char d) (by rw [hgs]; rfl)
    · exact hd.1 (Glyph.char.inj hbreak)
    · exact hd.2 (Glyph.char.inj hnul)

def Skipped.scanner : Skipped → Scanner
  | .ready s => s
  | .openComment _ s => s

/-- The same outcome, with `more` behind the glyphs that are left. -/
def Skipped.Extends (more : List Glyph) : Skipped → Skipped → Prop
  | .ready s, .ready s' => Scanner.Extends more s s'
  | .openComment _ s, .openComment _ s' => Scanner.Extends more s s'
  | _, _ => False

def Skipped.Ends : Skipped → Mode → Prop
  | .ready _, m => m = .blank ∨ m = .line
  | .openComment _ _, m => ∃ p, m = .block p

theorem skip_cases {mode mode' : Mode} (hmode : mode.Alike mode') (gs : List Glyph) (pos : Pos)
    (hmore : IsBroken more) (pos' : Pos) :
    ((skip mode gs pos).scanner.rest ≠ [] ∧
        (skip mode gs pos).Extends more (skip mode' (gs ++ more) pos')) ∨
      (skip mode gs pos).scanner.rest = [] ∧ ∃ m q, (skip mode gs pos).Ends m ∧
        skip mode' (gs ++ more) pos' = skip m more q := by
  fun_induction skip mode gs pos generalizing mode' pos' with
  | case1 start p =>
    cases hmode
    exact .inr ⟨rfl, _, pos', ⟨_, rfl⟩, rfl⟩
  | case2 mode p hblock =>
    cases hmode with
    | blank => exact .inr ⟨rfl, _, pos', .inl rfl, rfl⟩
    | line => exact .inr ⟨rfl, _, pos', .inr rfl, rfl⟩
    | block => exact absurd rfl (hblock _)
  | case3 rest p ih =>
    cases hmode
    exact ih .line _
  | case4 rest p ih =>
    cases hmode
    exact ih (.block _ _) _
  | case5 g rest p hline hblock hblank ih =>
    cases hmode
    rw [cons_append, skip, if_pos hblank]
    · exact ih .blank _
    · exact ne_pair_append hmore (by decide) hline
    · exact ne_pair_append hmore (by decide) hblock
  | case6 g rest p hline hblock hblank =>
    cases hmode
    rw [cons_append, skip, if_neg hblank]
    · exact .inl ⟨cons_ne_nil _ _, rfl⟩
    · exact ne_pair_append hmore (by decide) hline
    · exact ne_pair_append hmore (by decide) hblock
  | case7 g rest p hend ih =>
    cases hmode
    rw [cons_append, skip, if_pos hend]
    exact ih .blank _
  | case8 g rest p hend hnul =>
    cases hmode
    rw [cons_append, skip, if_neg hend, if_pos hnul]
    exact .inl ⟨cons_ne_nil _ _, rfl⟩
  | case9 g rest p hend hnul ih =>
    cases hmode
    rw [cons_append, skip, if_neg hend, if_neg hnul]
    exact ih .line _
  | case10 start rest p ih =>
    cases hmode
    exact ih .blank _
  | case11 start g rest p hclose hnul =>
    cases hmode
    rw [cons_append, skip, if_pos hnul]
    · exact .inl ⟨cons_ne_nil _ _, rfl⟩
    · exact ne_pair_append hmore (by decide) hclose
  | case12 start g rest p hclose hnul ih =>
    cases hmode
    rw [cons_append, skip, if_neg hnul]
    · exact ih (.block _ _) _
    · exact ne_pair_append hmore (by decide) hclose

/-! ### Sequences of tokens -/

/-- The next token is the same.  At the end this holds when scanning stops there. -/
theorem Extends.next (h : Extends more s s') (hmore : IsBroken more)
    (hs : s.next.1.kind ≠ .eof ∨ IsStop more) : Scans more s.next s'.next := by
  rw [Scanner.next, skipTrivia] at hs
  rw [Scanner.next, Scanner.next, skipTrivia, skipTrivia, h]
  have hcases := skip_cases .blank s.rest s.pos hmore s'.pos
  generalize skip .blank s.rest s.pos = r at hs hcases
  generalize skip .blank (s.rest ++ more) s'.pos = r' at hcases
  obtain ⟨hne, hextends⟩ | ⟨hnil, m, q, hends, rfl⟩ := hcases
  · cases r with
    | ready s₁ =>
      cases r' with
      | ready s₂ => exact token hextends hmore (.inl hne)
      | openComment => exact hextends.elim
    | openComment =>
      cases r' with
      | ready => exact hextends.elim
      | openComment => exact fun _ => ⟨⟨rfl, rfl⟩, hextends⟩
  · cases r with
    | ready s₁ =>
      have hnil : s₁.rest = [] := hnil
      have heof : s₁.token.1.kind = .eof := by rw [Scanner.token, hnil]
      have hstop : IsStop more := hs.resolve_left (not_not_intro heof)
      have hready : skip m more q = .ready ⟨more, q⟩ := by
        obtain rfl | ⟨gs, rfl⟩ := hstop <;> obtain rfl | rfl := hends <;> rfl
      rw [hready]
      refine token ?_ hmore (.inr hstop)
      rw [Extends, hnil, nil_append]
    | openComment start s₁ =>
      rintro (hlegal | ⟨hstop, hlegal, -⟩)
      · exact absurd rfl hlegal
      · obtain ⟨p, rfl⟩ := hends
        obtain rfl | ⟨gs, rfl⟩ := hstop <;> exact absurd rfl hlegal

theorem symbol_ne_eof {next : Option Glyph} {two : Bool}
    (h : symbol c next = some (k, two)) : k ≠ .eof := by
  unfold symbol at h
  dsimp only at h
  split at h <;> (repeat' split at h) <;> cases h <;> exact noConfusion

theorem kind_string_ne_eof (quote : Char) (s : Scanner) : (s.string quote).1.kind ≠ .eof := by
  rw [string]
  split <;> exact noConfusion

theorem ofWord_ne_eof (w : Bytes) : ofWord w ≠ .eof := by
  have hkeyword : eof ∉ keywords.map Prod.snd := by decide
  intro h
  obtain hw | hw := ofWord_mem w
  · cases h.symm.trans hw
  · exact hkeyword (h ▸ hw)

theorem rest_of_token_eof (h : s.token.1.kind = .eof) : s.rest = [] ∨ .char '\x00' ∈ s.rest := by
  revert h
  rw [token]
  split
  · next hnil => exact fun _ => .inl hnil
  next g rest hs =>
  split
  · next hnul =>
    rw [hs, eq_of_beq hnul]
    exact fun _ => .inr mem_cons_self
  intro h
  refine absurd h ?_
  split
  · next hsymbol => exact symbol_ne_eof hsymbol
  split
  · exact kind_string_ne_eof _ s
  split
  · split
    · exact noConfusion
    · exact kind_string_ne_eof _ s
  split
  · split
    · split <;> exact noConfusion
    · exact noConfusion
  split
  · exact ofWord_ne_eof _
  split
  · dsimp only
    split <;> exact noConfusion
  · exact noConfusion

/-- Behind the last token of a text the next one is the first of the text on the next line. -/
theorem next_append (h : Extends (.char '\n' :: more) s s') (hs : s.next.1.kind = .eof)
    (hnul : .char '\x00' ∉ s.rest) : ∃ q, s'.next = (⟨more, q⟩ : Scanner).next := by
  have hpassed := skip_passed .blank s.rest s.pos
  rw [next, skipTrivia] at hs
  rw [next, skipTrivia, h]
  cases hskip : skip .blank s.rest s.pos with
  | openComment start s₁ =>
    rw [hskip] at hs
    cases hs
  | ready s₁ =>
    rw [hskip] at hs hpassed
    obtain ⟨n, rfl⟩ := hpassed
    have hend : (advance^[n] s).rest = [] := by
      refine (rest_of_token_eof hs).resolve_right fun hmem => hnul ?_
      rw [rest_iterate_advance] at hmem
      exact mem_of_mem_drop hmem
    have hcases := skip_cases .blank s.rest s.pos (isBroken_cons more) s'.pos
    rw [hskip] at hcases
    obtain ⟨hne, -⟩ | ⟨-, m, q, hm, hskip'⟩ := hcases
    · exact absurd hend hne
    · refine ⟨q.enter more.head?, ?_⟩
      rw [hskip', next, skipTrivia]
      obtain rfl | rfl := hm <;> rfl

def after (s : Scanner) (n : Nat) : Scanner :=
  (fun s => s.next.2)^[n] s

theorem after_succ (s : Scanner) (n : Nat) : s.after (n + 1) = s.next.2.after n :=
  rfl

/-- Every token of one of the texts stands: without the text behind it, or with that text and
before it. -/
def AllStand (more : List Glyph) (m n : Nat) (s s' : Scanner) : Prop :=
  (∀ t ∈ tokensWithin m s, t.kind ≠ .illegal) ∨
    (∀ t ∈ tokensWithin n s', t.kind ≠ .illegal) ∧ ∀ i, more.length ≤ (s'.after i).rest.length

theorem next_mem_tokensWithin (n : Nat) (s : Scanner) : s.next.1 ∈ tokensWithin (n + 1) s := by
  rw [tokensWithin]
  dsimp only
  split <;> exact mem_cons_self

theorem AllStand.stands (h : AllStand more (m + 1) (n + 1) s s')
    (hmore : IsStop more) : Stands more s.next s'.next := by
  obtain h | ⟨h, hwithin⟩ := h
  · exact .inl (h _ (next_mem_tokensWithin m s))
  · exact .inr ⟨hmore, h _ (next_mem_tokensWithin n s'), hwithin 1⟩

theorem AllStand.next (h : AllStand more (m + 1) (n + 1) s s')
    (hs : s.next.1.kind ≠ .eof) (hs' : s'.next.1.kind ≠ .eof) :
    AllStand more m n s.next.2 s'.next.2 := by
  rw [AllStand, tokensWithin, tokensWithin] at h
  dsimp only at h
  rw [if_neg hs, if_neg hs'] at h
  exact h.imp (fun h => (forall_mem_cons.1 h).2) fun h =>
    ⟨(forall_mem_cons.1 h.1).2, fun i => h.2 (i + 1)⟩

theorem tokensWithin_extends (h : Extends more s s') (hmore : IsStop more)
    (hm : s.rest.length < m) (hn : s'.rest.length < n) (hstand : AllStand more m n s s') :
    Forall₂ Token.SameText (tokensWithin m s) (tokensWithin n s') := by
  induction m generalizing n s s' with
  | zero => exact absurd hm (Nat.not_lt_zero _)
  | succ m ih =>
    obtain ⟨n, rfl⟩ := Nat.exists_eq_add_one_of_ne_zero (Nat.ne_zero_of_lt hn)
    obtain ⟨htext, hnext⟩ := h.next hmore.isBroken (.inr hmore) (hstand.stands hmore)
    rw [tokensWithin, tokensWithin]
    dsimp only
    by_cases heof : s.next.1.kind = .eof
    · rw [← htext.1, if_pos heof, if_pos heof]
      exact .cons htext .nil
    · have heof' : s'.next.1.kind ≠ .eof := htext.1 ▸ heof
      have hlt := length_next_lt heof
      have hlt' := length_next_lt heof'
      rw [if_neg heof, if_neg heof']
      exact .cons htext (ih hnext (by omega) (by omega) (hstand.next heof heof'))

theorem tokensWithin_append (h : Extends (.char '\n' :: more) s s')
    (hnul : .char '\x00' ∉ s.rest) (hm : s.rest.length < m) (hn : s'.rest.length < n)
    (hts : tokensWithin m s = ts ++ [e]) (hlegal : ∀ t ∈ ts, t.kind ≠ .illegal) :
    ∃ us q k, Forall₂ Token.SameText ts us ∧ more.length < k ∧
      tokensWithin n s' = us ++ tokensWithin k ⟨more, q⟩ := by
  induction m generalizing n s s' ts with
  | zero => exact absurd hm (Nat.not_lt_zero _)
  | succ m ih =>
    obtain ⟨n, rfl⟩ := Nat.exists_eq_add_one_of_ne_zero (Nat.ne_zero_of_lt hn)
    have hlength : s'.rest.length = s.rest.length + (more.length + 1) := by
      rw [h, length_append, length_cons]
    rw [tokensWithin] at hts
    dsimp only at hts
    by_cases heof : s.next.1.kind = .eof
    · rw [if_pos heof] at hts
      obtain ⟨q, hq⟩ := next_append h heof hnul
      obtain ⟨rfl, -⟩ := append_inj' (show [] ++ [s.next.1] = ts ++ [e] from hts) rfl
      refine ⟨[], q, n + 1, .nil, by omega, ?_⟩
      rw [nil_append, tokensWithin, hq, tokensWithin]
    · rw [if_neg heof] at hts
      have hlt := length_next_lt heof
      cases ts with
      | nil =>
        -- the end of input would have to follow
        have hrest : s.next.2.rest.length < m := by omega
        obtain ⟨ts', e', hmore, -⟩ := tokensWithin_eq hrest
        rw [hmore] at hts
        exact absurd (cons.inj hts).2 (append_ne_nil_of_right_ne_nil _ (cons_ne_nil _ _))
      | cons t ts =>
        obtain ⟨rfl, hrest⟩ := cons.inj hts
        obtain ⟨ht, hlegal⟩ := forall_mem_cons.1 hlegal
        obtain ⟨htext, hnext⟩ := h.next (isBroken_cons more) (.inl heof) (.inl ht)
        have hlt' := length_next_lt (htext.1 ▸ heof)
        have hnul' : .char '\x00' ∉ s.next.2.rest := by
          obtain ⟨i, -, -, ⟨j, hj⟩, -⟩ := next_forward heof ht
          rw [hj, rest_iterate_advance, rest_iterate_advance]
          exact fun hmem => hnul (mem_of_mem_drop (mem_of_mem_drop hmem))
        obtain ⟨us, q, k, hus, hk, htokens⟩ :=
          ih (n := n) hnext hnul' (by omega) (by omega) hrest hlegal
        refine ⟨s'.next.1 :: us, q, k, .cons htext hus, hk, ?_⟩
        rw [tokensWithin]
        dsimp only
        rw [← htext.1, if_neg heof, htokens, cons_append]

end Scanner

/-- **Texts on separate lines are scanned one after the other.**  The first has no NUL character,
which would end the input, and neither has an illegal token. -/
theorem Token.scan_append {first second : Bytes}
    (hnul : 0 ∉ first) (hts : scan first = ts ++ [e]) (hlegal : ∀ t ∈ ts, t.kind ≠ .illegal)
    (hlegal' : ∀ t ∈ scan second, t.kind ≠ .illegal) :
    ∃ vs ws, scan (first ++ "\n" ++ second) = vs ++ ws ∧ Forall₂ SameText ts vs ∧
      Forall₂ SameText (scan second) ws := by
  have hglyphs : (first ++ "\n" ++ second).glyphs = first.glyphs ++ .char '\n' ::
      second.glyphs := by
    have hbreak : Bytes.ofString "\n" = Bytes.ofChar '\n' := by decide
    rw [append_assoc, hbreak, Bytes.glyphs_append, Bytes.glyphs_ofChar_append]
    rintro _ ⟨⟩
    decide
  have hnul' : .char '\x00' ∉ first.glyphs := by
    intro hmem
    rw [← Bytes.ofGlyphs_glyphs first] at hnul
    exact hnul (mem_flatMap.2 ⟨_, hmem, by decide⟩)
  have hextends : Scanner.Extends (.char '\n' :: second.glyphs) (.ofBytes first)
      (.ofBytes (first ++ "\n" ++ second)) := hglyphs
  obtain ⟨vs, q, k, hvs, hk, htokens⟩ := Scanner.tokensWithin_append hextends hnul'
    (Nat.lt_succ_self _) (Nat.lt_succ_self _) hts hlegal
  refine ⟨vs, _, htokens, hvs, ?_⟩
  exact Scanner.tokensWithin_extends (append_nil _).symm (.inl rfl) (Nat.lt_succ_self _) hk
    (.inl hlegal')

end Covenant
