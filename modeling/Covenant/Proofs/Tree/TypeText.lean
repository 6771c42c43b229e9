import Covenant.Proofs.Number.Numeral
import Covenant.Proofs.Tree.Acceptance
import Covenant.Proofs.Tree.Append

/-!
# Words of types side by side

A type may be written with gaps between its words, but it needs none: no word of a type runs on into
the one behind it, and where two `>` make a shift the parser cuts it again.
-/

namespace Covenant

open List Bytes

open Scanner (Avoids IsGap Steps isNamePart)
open Token (SameText Split)

/-! ### Words side by side -/

def TokenKind.abuts (k l : TokenKind) : Bool :=
  match k with
  | .less => l != .less && l != .assign
  | .greater => l != .assign
  | .assign => l != .greater && l != .assign
  | _ => k.isMark || l.isMark

variable {w : Token}

theorem Token.head?_plain (hw : w.isPlain = true) :
    ∃ g, w.literal.glyphs.head? = some g ∧ isNamePart g = !w.kind.isMark ∧
      g.is '<' = (w.kind == .less) ∧ g.is '>' = (w.kind == .greater) ∧
      g.is '=' = (w.kind == .assign) := by
  unfold isPlain at hw
  split at hw
  · next hk =>
    have hall : ∀ k ∈ [TokenKind.less, .greater, .assign, .comma, .semicolon, .colon, .lbrace,
        .rbrace, .lparen, .rparen],
        (ofString k.name).glyphs.head?.map (fun g =>
          (isNamePart g, g.is '<', g.is '>', g.is '=')) =
        some (false, k == .less, k == .greater, k == .assign) := by decide
    obtain ⟨g, hg, hparts⟩ := Option.map_eq_some_iff.1 (hall _ (contains_iff_mem.1 hk))
    simp only [Prod.mk.injEq] at hparts
    rw [eq_of_beq hw, hk]
    exact ⟨g, hg, hparts⟩
  · next hk =>
    obtain ⟨c, gs, hglyphs, -, -, hall⟩ := Scanner.isWord_cases (Bool.and_eq_true_iff.1 hw).1
    have hpart := hall _ (by rw [hglyphs]; exact .head _)
    have hne {d : Char} (hd : isNamePart (.char d) = false) : Glyph.is (.char c) d = false := by
      rw [Glyph.is, beq_eq_false_iff_ne]
      rintro ⟨⟩
      rw [hpart] at hd
      cases hd
    have hkind {k : TokenKind} (hm : k.isMark = true) : (w.kind == k) = false := by
      rw [beq_eq_false_iff_ne]
      rintro rfl
      exact hk hm
    refine ⟨.char c, by rw [hglyphs]; rfl, ?_, ?_, ?_, ?_⟩
    · rw [hpart, eq_false_of_ne_true hk]
      rfl
    · rw [hne (by decide), hkind rfl]
    · rw [hne (by decide), hkind rfl]
    · rw [hne (by decide), hkind rfl]

theorem Token.avoids_of_abuts {v : Token} (hw : w.isPlain = true) (h : v.kind.abuts w.kind = true) :
    v.kind = .greater ∧ w.kind = .greater ∨ Avoids v.runsOn w.literal.glyphs := by
  refine or_iff_not_imp_left.2 fun hshift g' hg' => ?_
  obtain ⟨g, hg, hpart, hless, hgreater, hassign⟩ := head?_plain hw
  rw [hg] at hg'
  cases hg'
  unfold runsOn
  split
  · next hk =>
    simp only [hk, TokenKind.abuts, Bool.and_eq_true, bne_iff_ne] at h
    simp [hless, hassign, h]
  · next hk =>
    simp only [hk, TokenKind.abuts, bne_iff_ne] at h
    simp only [hk, true_and] at hshift
    simp [hgreater, hassign, h, hshift]
  · next hk =>
    simp only [hk, TokenKind.abuts, Bool.and_eq_true, bne_iff_ne] at h
    simp [hgreater, hassign, h]
  · next hless' hgreater' hassign' =>
    have hmark : v.kind.isMark = true ∨ w.kind.isMark = true := by
      unfold TokenKind.abuts at h
      split at h
      · next hk => exact absurd hk hless'
      · next hk => exact absurd hk hgreater'
      · next hk => exact absurd hk hassign'
      · exact Bool.or_eq_true_iff.1 h
    obtain hmark | hmark := hmark <;> simp [hpart, hmark]

theorem Token.isSound_of_isPlain (hw : w.isPlain = true) : w.isSound = true := by
  obtain ⟨pos, hnext⟩ := next_plain hw (show Avoids w.runsOn [] from nofun) {}
  have hsound := Scanner.isSound_next ⟨w.literal.glyphs ++ [], {}⟩
  rw [hnext] at hsound
  exact hsound

theorem Token.alike_of_isSound (hws : ∀ w ∈ ws, w.isSound = true)
    (h : Forall₂ SameText hs ws) : Forall₂ (Alike true) hs ws := by
  induction h with
  | nil => exact .nil
  | @cons t w _ _ htw _ ih =>
    obtain ⟨hw, hws⟩ := forall_mem_cons.1 hws
    rw [isSound, ← htw.1, ← htw.2] at hw
    exact .cons ⟨htw.1, fun _ => htw.2, hw⟩ (ih hws)

/-! ### Layouts -/

theorem Token.isPlain_word {w : Bytes} (hw : w.isName = true) : (word w).isPlain = true := by
  unfold isName at hw
  split at hw
  · cases hw
  · next g gs hglyphs =>
    change (Scanner.isWord w && TokenKind.ofWord w == .ident) = true
    rw [Scanner.isWord, hglyphs]
    exact hw

theorem Token.exists_char_of_isPlain (hw : w.isPlain = true) :
    ∀ g ∈ w.literal.glyphs, ∃ c, g = .char c := by
  unfold isPlain at hw
  split at hw
  · next hk =>
    have hall : ∀ k ∈ [TokenKind.less, .greater, .assign, .comma, .semicolon, .colon, .lbrace,
        .rbrace, .lparen, .rparen], ∀ g ∈ (ofString k.name).glyphs,
          g = .char g.rune := by decide
    rw [eq_of_beq hw]
    exact fun g hg => ⟨_, hall _ (contains_iff_mem.1 hk) g hg⟩
  · obtain ⟨c, gs, -, -, -, hall⟩ := Scanner.isWord_cases (Bool.and_eq_true_iff.1 hw).1
    exact fun g hg => Scanner.exists_char_of_isNamePart (hall g hg)

theorem Token.glyphs_append (hw : w.isPlain = true) (s : Bytes) :
    (w.literal ++ s).glyphs = w.literal.glyphs ++ s.glyphs := by
  have happend := glyphs_ofGlyphs (exists_char_of_isPlain hw) s
  rwa [ofGlyphs_glyphs] at happend

theorem Bytes.glyphs_ofString_append (s : String) (t : Bytes) :
    (ofString s ++ t).glyphs = (ofString s).glyphs ++ t.glyphs := by
  have hchars (cs : List Char) (t : Bytes) :
      glyphs (cs.flatMap ofChar ++ t) = cs.map .char ++ t.glyphs := by
    induction cs with
    | nil => rfl
    | cons c cs ih =>
      rw [flatMap_cons, append_assoc]
      exact (glyphs_ofChar_append c _).trans (congrArg _ ih)
  have hs : ofString s = s.toList.flatMap ofChar := ofString_eq s
  have hnil := hchars s.toList []
  rw [append_nil] at hnil
  have hempty : glyphs [] = [] := rfl
  rw [hs, hchars, hnil, hempty, append_nil]

/-- The text is made of the words, each behind a gap that may be empty. -/
def LaidOut (ws : List Token) (gs : List Glyph) : Prop :=
  ∃ ps : List Spaced, (∀ p ∈ ps, IsGap p.gap ∧ p.word.isPlain = true) ∧ ps.map Spaced.word = ws ∧
    Spaced.write ps = gs

def LaidApart (ws : List Token) (gs : List Glyph) : Prop :=
  ∃ ps : List Spaced, Spaced.AreApart ps ∧ ps.map Spaced.word = ws ∧ Spaced.write ps = gs

theorem LaidOut.apart (h : LaidOut ws gs)
    (hws : ws.IsChain fun v w => v.kind.abuts w.kind = true) : LaidApart ws gs := by
  obtain ⟨ps, hps, rfl, rfl⟩ := h
  refine ⟨ps, ⟨fun p hp => (hps p hp).1, fun p hp => (hps p hp).2, ?_⟩, rfl, rfl⟩
  refine (isChain_map Spaced.word |>.1 hws).imp_of_mem_imp fun p q _ hq hpq _ => ?_
  exact Token.avoids_of_abuts (hps q hq).2 hpq

theorem LaidApart.one (hw : w.isPlain = true) : LaidApart [w] w.literal.glyphs :=
  ⟨[⟨[], w⟩], ⟨by simpa using .nil, by simpa using hw, .singleton _⟩, rfl,
    append_nil w.literal.glyphs⟩

theorem LaidApart.append (h : LaidApart ws gs) (h' : LaidApart vs hs)
    (hseam : ∀ w ∈ ws.getLast?, ∀ v ∈ vs.head?, w.kind.abuts v.kind = true) :
    LaidApart (ws ++ vs) (gs ++ hs) := by
  obtain ⟨ps, hps, rfl, rfl⟩ := h
  obtain ⟨qs, hqs, rfl, rfl⟩ := h'
  refine ⟨ps ++ qs, ⟨forall_mem_append.2 ⟨hps.gap, hqs.gap⟩,
    forall_mem_append.2 ⟨hps.word, hqs.word⟩, ?_⟩, map_append, flatMap_append⟩
  refine hps.apart.append hqs.apart fun p hp q hq _ => ?_
  refine Token.avoids_of_abuts (hqs.word q (mem_of_mem_head? hq)) (hseam _ ?_ _ ?_)
  · rw [getLast?_map, hp]
    rfl
  · rw [head?_map, hq]
    rfl

theorem LaidApart.append_blank (h : LaidApart ws gs) (h' : LaidApart (w :: vs) hs) :
    LaidApart (ws ++ w :: vs) (gs ++ .char ' ' :: hs) := by
  obtain ⟨ps, hps, rfl, rfl⟩ := h
  obtain ⟨_ | ⟨q, qs⟩, hqs, hwords, rfl⟩ := h'
  · cases hwords
  rw [map_cons] at hwords
  refine ⟨ps ++ ⟨.char ' ' :: q.gap, q.word⟩ :: qs, ⟨forall_mem_append.2 ⟨hps.gap, ?_⟩,
    forall_mem_append.2 ⟨hps.word, ?_⟩, ?_⟩, ?_, ?_⟩
  · obtain ⟨hq, hqs⟩ := forall_mem_cons.1 hqs.gap
    exact forall_mem_cons.2 ⟨.blank (by decide) hq, hqs⟩
  · obtain ⟨hq, hqs⟩ := forall_mem_cons.1 hqs.word
    exact forall_mem_cons.2 ⟨hq, hqs⟩
  · have hapart :=
      List.IsChain.imp_head (x := q) (y := ⟨.char ' ' :: q.gap, q.word⟩) (fun h => h) hqs.apart
    refine hps.apart.append hapart fun p _ q' hq' hgap => ?_
    cases hq'
    cases hgap
  · rw [map_append, map_cons, ← hwords]
  · simp [Spaced.write, Spaced.glyphs]

/-! ### The words of a type -/

/-- The words stand side by side, and start and end with tokens of the given kinds. -/
structure Runs (starts ends : List TokenKind) (ws : List Token) : Prop where
  chain : ws.IsChain fun v w => v.kind.abuts w.kind = true
  first : ∃ w, ws.head? = some w ∧ w.kind ∈ starts
  last : ∃ w, ws.getLast? = some w ∧ w.kind ∈ ends

theorem Runs.one (ht : t.kind ∈ starts) : Runs starts starts [t] :=
  ⟨.singleton t, ⟨t, rfl, ht⟩, ⟨t, rfl, ht⟩⟩

theorem Runs.mono (h : Runs starts ends ws) (hstarts : starts ⊆ starts') (hends : ends ⊆ ends') :
    Runs starts' ends' ws := by
  obtain ⟨w, hw, hstart⟩ := h.first
  obtain ⟨v, hv, hend⟩ := h.last
  exact ⟨h.chain, ⟨w, hw, hstarts hstart⟩, ⟨v, hv, hends hend⟩⟩

theorem Runs.append (h : Runs starts ends ws) (h' : Runs starts' ends' vs)
    (hseam : ∀ k ∈ ends, ∀ l ∈ starts', k.abuts l = true) : Runs starts ends' (ws ++ vs) := by
  obtain ⟨w, hw, hstart⟩ := h.first
  obtain ⟨w', hw', hend⟩ := h.last
  obtain ⟨v, hv, hstart'⟩ := h'.first
  obtain ⟨v', hv', hend'⟩ := h'.last
  refine ⟨h.chain.append h'.chain fun a ha b hb => ?_, ⟨w, ?_, hstart⟩, ⟨v', ?_, hend'⟩⟩
  · cases hw'.symm.trans ha
    cases hv.symm.trans hb
    exact hseam _ hend _ hstart'
  · rw [head?_append, hw]
    rfl
  · rw [getLast?_append, hv']
    rfl

theorem Runs.cons {kinds : List TokenKind} (h : Runs starts ends ws) (ht : t.kind ∈ kinds)
    (hseam : ∀ k ∈ kinds, ∀ l ∈ starts, k.abuts l = true) : Runs kinds ends (t :: ws) :=
  (one ht).append h hseam

def Phrase.Runs (N : Phrase) (w : List Token) : Prop :=
  match N with
  | .type => Covenant.Runs [.ident, .lbrace] [.ident, .greater, .rbrace] w
  | .typeField => Covenant.Runs [.ident] [.ident, .greater, .rbrace] w
  | .separated close N => close = .greater → N = .type →
      Covenant.Runs [.ident, .lbrace] [.greater] w
  | .tail separators close N => separators = [.comma, .semicolon] → close = .rbrace →
      N = .typeField → Covenant.Runs [.comma, .semicolon, .rbrace] [.rbrace] w
  | .delimited separators close N => separators = [.comma, .semicolon] → close = .rbrace →
      N = .typeField → Covenant.Runs [.ident, .rbrace] [.rbrace] w
  | _ => True

theorem Derives.runs {ts : List Tree} {w : List Token} (h : Derives N ts w) : N.Runs w := by
  have hone {t : Token} {k : TokenKind} (ht : t.kind = k) : t.kind ∈ [k] := mem_singleton.2 ht
  induction h with
  | namedType ht => exact (Covenant.Runs.one (hone ht)).mono (by decide) (by decide)
  | appliedType ht _ hl _ ih =>
    have hbehind := (ih rfl rfl).cons (hone hl) (by decide)
    exact (hbehind.cons (hone ht) (by decide)).mono (by decide) (by decide)
  | tupleType hl _ ih =>
    exact ((ih rfl rfl rfl).cons (hone hl) (by decide)).mono (by decide) (by decide)
  | typeField ht hc _ ih =>
    have hbehind := Covenant.Runs.cons ih (hone hc) (by decide)
    exact hbehind.cons (hone ht) (by decide)
  | last _ ht ih =>
    rintro rfl rfl
    exact Covenant.Runs.append ih (.one (hone ht)) (by decide)
  | comma _ ht _ ih ihmore =>
    rintro rfl rfl
    have hbehind := (ihmore rfl rfl).cons (hone ht) (by decide)
    exact Covenant.Runs.append ih hbehind (by decide)
  | close ht =>
    rintro rfl rfl rfl
    exact (Covenant.Runs.one (hone ht)).mono (by decide) (by decide)
  | closeBehind hs ht =>
    rintro rfl rfl rfl
    exact ((Covenant.Runs.one (hone ht)).cons hs (by decide)).mono (by decide) (by decide)
  | item hs _ _ ih ihmore =>
    rintro rfl rfl rfl
    have hbehind := Covenant.Runs.append ih (ihmore rfl rfl rfl) (by decide)
    exact (hbehind.cons hs (by decide)).mono (by decide) (by decide)
  | empty ht =>
    rintro rfl rfl rfl
    exact (Covenant.Runs.one (hone ht)).mono (by decide) (by decide)
  | first _ _ ih ihmore =>
    rintro rfl rfl rfl
    exact (Covenant.Runs.append ih (ihmore rfl rfl rfl) (by decide)).mono (by decide) (by decide)
  | _ => trivial

/-! ### At the start of a source -/

/-- The cursor stands before the text `behind` of the source: on the last token in front of it, or
on the second half of that token, with the tokens of the text to come and without a fault. -/
def Cursor.StandsBefore (source : Bytes) (behind : List Glyph) (d : Cursor) : Prop :=
  ∃ ts t s y, Token.scan source = ts ++ t :: Scanner.tokens s ∧ s.rest = behind ∧
    (y = t ∨ t.kind = .shiftRight ∧ y = t.right) ∧ d = .on y s.tokens

theorem Scanner.tokens_eq_cons (s : Scanner) : ∃ us, s.tokens = s.next.1 :: us := by
  rw [tokens, tokensWithin]
  dsimp only
  split <;> exact ⟨_, rfl⟩

theorem Scanner.kind_next {s s' : Scanner} (h : s'.rest = s.rest) (hs : s.next.1.kind ≠ .illegal) :
    s'.next.1.kind = s.next.1.kind := by
  have hextends : Extends [] s s' := by rw [Extends, h, append_nil]
  exact (hextends.next (IsStop.isBroken (.inl rfl)) (.inr (.inl rfl)) (.inl hs)).1.1.symm

theorem exists_getLast?_of_forall₂ {α β : Type} {R : α → β → Prop} {as : List α} {bs : List β}
    (h : Forall₂ R as bs) {a : α} (ha : as.getLast? = some a) :
    ∃ b, bs.getLast? = some b ∧ R a b := by
  obtain ⟨as, rfl⟩ := getLast?_eq_some_iff.1 ha
  obtain ⟨bs, b, rfl, -, hab⟩ := exists_concat_of_forall₂ h.flip
  exact ⟨b, getLast?_concat, hab⟩

theorem Cursor.ahead_on (h : ts ≠ []) : (on z ts).ahead = ts := by
  obtain ⟨t, ts, rfl⟩ := exists_cons_of_ne_nil h
  rfl

theorem Token.kind_ne_illegal_of_isPlain (hw : w.isPlain = true) : w.kind ≠ .illegal := by
  intro hk
  unfold isPlain at hw
  rw [hk] at hw
  exact TokenKind.ofWord_ne (by decide) _ (eq_of_beq (Bool.and_eq_true_iff.1 hw).2)

theorem Token.legal_of_alike (h : Forall₂ (Alike true) hs ws) (hws : Legal ws) : Legal hs := by
  induction h with
  | nil => exact nofun
  | cons htw _ ih =>
    obtain ⟨hw, hws⟩ := forall_mem_cons.1 hws
    exact forall_mem_cons.2 ⟨htw.kind ▸ hw, ih hws⟩

theorem Cursor.stands_of_scan
    (hscan : Token.scan source = ts ++ us) (hsplit : Split ts hs) (hus : us ≠ [])
    (hlegal : Legal (hs ++ us.head?.toList)) (z : Token) :
    (on z (ts ++ us)).Stands us z hs ∧
      (on z (ts ++ us)).advance = .ofSource source := by
  refine ⟨⟨ts, rfl, hsplit, hus, hlegal⟩, ?_⟩
  rw [advance_eq_ofTokens rfl (Stands.headD_legal hsplit hus hlegal z),
    ahead_on (append_ne_nil_of_right_ne_nil ts hus), ofSource, hscan]

namespace Spaced

variable {source : Bytes} {s : Scanner}

/-- A source that starts with the words, the last of which does not run on.  Its tokens up to there
can be cut into the words, and the cursor on the first of them is behind one that stands before them
all. -/
theorem stands (h : AreApart ps) (hsource : source.glyphs = write ps ++ s.rest)
    (hlast : ∀ v ∈ (tokens ps).getLast?, Avoids v.runsOn s.rest)
    (hnext : s.next.1.kind ≠ .illegal) :
    ∃ ts s' hs, Token.scan source = ts ++ Scanner.tokens s' ∧ s'.rest = s.rest ∧
      s'.next.1.kind = s.next.1.kind ∧ Split ts hs ∧
      Forall₂ (Token.Alike true) hs (ps.map word) ∧
      ∀ z, (Cursor.on z (ts ++ s'.tokens)).Stands s'.tokens z hs ∧
        (Cursor.on z (ts ++ s'.tokens)).advance = .ofSource source := by
  obtain ⟨ts, s', hsteps, hrest, hts⟩ :=
    (areScanned h s.rest).all hlast (Pos.enter ⟨1, 0⟩ source.glyphs.head?)
  obtain ⟨hs, hwords, hsplit⟩ := split_tokens h hts
  have hplain : ∀ w ∈ ps.map word, w.isPlain = true := forall_mem_map.2 h.word
  have hws := Token.alike_of_isSound (fun w hw => Token.isSound_of_isPlain (hplain w hw)) hwords
  have hscan : Token.scan source = ts ++ s'.tokens := by
    rw [← hsource] at hsteps
    exact hsteps.tokens_eq
  have hkind := Scanner.kind_next hrest hnext
  obtain ⟨us, hus⟩ := s'.tokens_eq_cons
  have hne : s'.tokens ≠ [] := by
    rw [hus]
    exact cons_ne_nil _ _
  have hlegal : Legal (hs ++ s'.tokens.head?.toList) := by
    refine forall_mem_append.2 ⟨Token.legal_of_alike hws fun w hw =>
      Token.kind_ne_illegal_of_isPlain (hplain w hw), ?_⟩
    rw [hus]
    exact forall_mem_singleton.2 (hkind ▸ hnext)
  exact ⟨ts, s', hs, hscan, hrest, hkind, hsplit, hws,
    Cursor.stands_of_scan hscan hsplit hne hlegal⟩

theorem avoids_getLast? (h : ∀ w ∈ (ps.map word).getLast?, Avoids w.runsOn more) :
    ∀ v ∈ (tokens ps).getLast?, Avoids v.runsOn more := by
  intro v hv
  obtain rfl | ⟨ps, q, rfl⟩ := ps.eq_nil_or_concat'
  · cases hv
  obtain rfl | rfl := getLast?_tokens hv
  · exact h _ (by rw [getLast?_map, getLast?_concat]; rfl)
  · exact fun _ _ => rfl

end Spaced

/-- **A type at the start of a source** is read as the grammar says, up to the text behind it. -/
theorem Derives.read {u : Tree} {s : Scanner}
    (hu : Derives .type [u] ws) (h : LaidApart ws gs) (hsource : source.glyphs = gs ++ s.rest)
    (hlast : ∀ w ∈ ws.getLast?, Avoids w.runsOn s.rest) (hnext : s.next.1.kind ≠ .illegal)
    (hclear : ∀ w ∈ ws.getLast?, w.kind = .ident → Grammar.constructor? w.literal ≠ none →
      s.next.1.kind ≠ .less) :
    ∃ u' d, (Grammar.ofSource source).type (.ofSource source) = .ok (u', d) ∧
      Tree.Like (Token.Alike true) u' u ∧ d.StandsBefore source s.rest := by
  obtain ⟨ps, hps, rfl, rfl⟩ := h
  obtain ⟨ts, s', hs, hscan, hrest, hkind, hsplit, hws, hstands⟩ :=
    Spaced.stands hps hsource (Spaced.avoids_getLast? hlast) hnext
  clear hps hsource
  generalize ps.map Spaced.word = ws at *
  obtain ⟨w, hw, hstart⟩ := hu.runs.first
  obtain ⟨ws, rfl⟩ := head?_eq_some_iff.1 hw
  obtain ⟨h, hs, hhw, hbehind, rfl⟩ := forall₂_cons_right_iff.1 hws
  have hgreater : h.kind ≠ .greater := by
    rw [hhw.kind]
    intro hk
    rw [hk] at hstart
    revert hstart
    decide
  obtain ⟨hc, hadvance⟩ := hstands h
  have hbound : (w :: ws).length ≤ (Cursor.ofSource source).bound := by
    have hlt := (hc.advance hgreater).length_lt_bound
    rw [hadvance, hbehind.length_eq] at hlt
    rw [length_cons]
    omega
  obtain ⟨u', hlike, hanswers⟩ := hu.isRead _ hws _ hbound
  have hclear' : Clear (h :: hs) s'.tokens := by
    intro t ht hk hconstructor
    obtain ⟨v, hv, htv⟩ := exists_getLast?_of_forall₂ hws ht
    rw [htv.kind] at hk
    rw [htv.literal (.inl rfl)] at hconstructor
    obtain ⟨us, hus⟩ := s'.tokens_eq_cons
    rw [hus]
    rintro _ ⟨⟩
    rw [hkind]
    exact hclear v hv hk hconstructor
  obtain ⟨_, hd, _, rfl, hnil, -⟩ :=
    hanswers s'.tokens h [] hclear' _ (by rw [append_nil]; exact hc)
  cases hnil
  have hlast' : (h :: hs).getLast? = some ((h :: hs).getLastD h) := by
    rw [getLastD_cons, getLast?_cons, getLastD_eq_getLast?]
  obtain ⟨t, ht, hy⟩ := hsplit.getLast?_eq hlast'
  obtain ⟨ts, rfl⟩ := getLast?_eq_some_iff.1 ht
  refine ⟨u', _, ?_, forall₂_cons.1 hlike |>.1, ts, t, s', _, ?_, hrest, hy, rfl⟩
  · rw [← hadvance]
    exact hd
  · rw [hscan, append_assoc]
    rfl

end Covenant
