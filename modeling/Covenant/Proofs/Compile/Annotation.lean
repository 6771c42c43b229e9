import Covenant.Proofs.Compile.Layout
import Covenant.Proofs.Program.RoundTrip.TypeSource

/-!
# Blanks around the sign of an annotated binding

The blanks in `let x: T = v;` can be left out when the brackets that end the type are an even
number.  When they are odd, the last of them and the sign are scanned as `>=`, which closes no type.
-/

namespace Covenant

open List Spaced

open Covenant.Parser (Proceeds)
open Grammar (closeAngle typeArguments typeRule)
open Scanner (Avoids Gives IsGap)
open Token (SameText symbol)

/-! ### Parsers that fail -/

namespace Parser

/-- The parser fails on every cursor that stands on `z` before `hs`, up to `us`. -/
def Fails {α : Type} (us : List Token) (p : Parser α) (z : Token) (hs : List Token) : Prop :=
  ∀ c, c.Stands us z hs → ∃ f, p c = .error f

variable {α β : Type}

theorem Fails.bind (h : Fails us p z hs) (f : α → Parser β) : Fails us (p >>= f) z hs := by
  intro c hc
  obtain ⟨e, he⟩ := h c hc
  refine ⟨e, ?_⟩
  change (p c >>= fun r => f r.1 r.2) = _
  rw [he]
  rfl

theorem Proceeds.fails (h : Proceeds us p z hs q y hs') (hq : Fails us q y hs') :
    Fails us p z hs := by
  intro c hc
  obtain ⟨d, hd, hstands⟩ := h c hc
  rw [hd]
  exact hq d hstands

theorem fails_closeAngle {u : Token} (hgreater : u.kind ≠ .greater)
    (hshift : u.kind ≠ .shiftRight) : Fails (u :: us) closeAngle z [] := by
  rintro _ ⟨_, rfl, hnil, -, -⟩
  cases hnil
  have hpeek : (Cursor.on z ([] ++ u :: us)).peek.kind ≠ .shiftRight := hshift
  rw [Cursor.closeAngle_eq, if_neg hpeek]
  have hexpect : expect .greater (Cursor.on z ([] ++ u :: us)) =
      failExpecting .greater (Cursor.on z ([] ++ u :: us)) := by
    change (if decide (u.kind = .greater) = true then _ else _ : Parser Token) _ = _
    rw [if_neg (by simpa using hgreater)]
  rw [hexpect]
  exact ⟨_, rfl⟩

end Parser

open Covenant.Parser (Fails)

/-- A type whose last bracket is missing fails, unless what follows goes on with the arguments. -/
theorem Derives.fails_type {u : Tree} {w v z : Token}
    (hu : Derives .type [u] (ws ++ [w])) (hw : w.kind = .greater) (hsound : w.isSound = true)
    (hhs : Forall₂ (Token.Alike true) hs ws) (hdepth : ws.length < depth)
    (hv : v.kind ∉ [TokenKind.greater, .shiftRight, .less, .comma]) :
    Fails (v :: us) (do Parser.advance; typeRule (.ofDepth depth)) z hs := by
  simp only [mem_cons, not_mem_nil, or_false, not_or] at hv
  obtain ⟨hgreater, hshift, hless, hcomma⟩ := hv
  have hwords : Forall₂ (Token.Alike true) (hs ++ [w]) (ws ++ [w]) :=
    rel_append hhs (.cons ⟨rfl, fun _ => rfl, hsound⟩ .nil)
  have hlength : (ws ++ [w]).length ≤ depth := by rwa [length_append]
  have hlast : (ws ++ [w]).getLast? = some w := getLast?_concat
  generalize ws ++ [w] = ws' at hu hwords hlength hlast
  cases hu with
  | @namedType p t ht =>
    obtain rfl : t = w := Option.some.inj hlast
    rw [ht] at hw
    cases hw
  | tupleType _ hkids =>
    obtain ⟨w', hw', hk⟩ := (hkids.runs rfl rfl rfl).last
    rw [getLast?_cons, hw'] at hlast
    obtain rfl : w' = w := Option.some.inj hlast
    rw [mem_singleton.1 hk] at hw
    cases hw
  | @appliedType rule args p t l ts ht hrule hl hargs =>
    obtain ⟨h, _, hh, hbehind, heq⟩ := forall₂_cons_right_iff.1 hwords
    obtain _ | @⟨l', _, hs', _, hl', hargs'⟩ := hbehind
    rw [length_cons, length_cons] at hlength
    obtain ⟨vs, hs', g, hlikes, rfl, -, hproceeds⟩ :=
      hargs.isRead hs' hargs' depth (by omega) rfl rfl
    obtain ⟨rfl, -⟩ : hs = h :: l' :: hs' ∧ [w] = [g] := append_inj' heq rfl
    have hk : h.kind = .ident := hh.kind.trans ht
    have hopen : l'.kind = .less := hl'.kind.trans hl
    rw [← hh.literal (.inl rfl)] at hrule
    have hnext : ∀ t ∈ ([] ++ v :: us).head?, t.kind ≠ .less ∧ t.kind ≠ .comma := by
      rintro _ ⟨⟩
      exact ⟨hless, hcomma⟩
    have hfails : Fails (v :: us) (typeArguments (.ofDepth depth)) l' hs' := by
      intro c hc
      have hbound := hc.length_lt_bound
      have hargs := hargs'.length_eq
      rw [length_append, length_singleton] at hargs
      rw [length_cons] at hbound
      have hitems := hproceeds c.bound (by omega) (v :: us) l' [] hnext
      rw [append_nil] at hitems
      exact (hitems.fails ((Parser.fails_closeAngle hgreater hshift).bind _)) c hc
    have hsteps : Proceeds (v :: us) (do Parser.advance; typeRule (.ofDepth depth)) z
        (h :: l' :: hs') (typeArguments (.ofDepth depth) >>= fun args =>
          if args.length = ts.length then pure (Tree.ofRule rule h args) else Parser.fail
          ⟨.expected (Bytes.ofNat ts.length ++
            " type argument(s) for " ++ h.literal) (Bytes.ofNat args.length), h.pos⟩) l' hs' := by
      refine .advance (by rw [hk]; decide) (.cur ?_)
      rw [if_neg (by rw [hk]; decide), if_pos hk, Grammar.appliedType, hrule]
      exact .ifPeek (by decide) hopen (.advance (by rw [hopen]; decide) (.refl _ _ _))
    exact hsteps.fails (hfails.bind _)

/-! ### Bindings -/

theorem Derives.fails_binding {u : Tree} {w v k x c : Token}
    (hu : Derives .type [u] (ws ++ [w])) (hw : w.kind = .greater) (hsound : w.isSound = true)
    (hhs : Forall₂ (Token.Alike true) hs ws) (hdepth : ws.length + 1 < depth)
    (hv : v.kind ∉ [TokenKind.greater, .shiftRight, .less, .comma])
    (hk : k.kind = .kwLet ∨ k.kind = .kwConst) (hx : x.kind = .ident) (hc : c.kind = .colon) :
    Fails (v :: us) (Grammar.statementRule (.ofDepth depth)) k (x :: c :: hs) := by
  obtain _ | depth := depth
  · omega
  have htype : Fails (v :: us) (do Parser.advance; typeRule (.ofDepth depth)) c hs :=
    hu.fails_type hw hsound hhs (by omega) hv
  have hfails : Fails (v :: us) (Grammar.annotation? (.ofDepth (depth + 1))) x (c :: hs) := by
    have hsteps : Proceeds (v :: us) (Grammar.annotation? (.ofDepth (depth + 1))) x (c :: hs)
        ((do Parser.advance; typeRule (.ofDepth depth)) >>= fun t => pure [t]) c hs :=
      .ifPeek (by decide) hc (.advance (by rw [hc]; decide) (.refl _ _ _))
    exact hsteps.fails (htype.bind _)
  have hbinding (rule : Rule) :
      Fails (v :: us) (Grammar.binding (.ofDepth (depth + 1)) rule []) k (x :: c :: hs) :=
    (Proceeds.cur (.expect (by decide) hx (.refl _ _ _))).fails (hfails.bind _)
  obtain hk | hk := hk
  · refine Proceeds.fails (.cur ?_) (hbinding .variableDecl)
    rw [hk]
    exact .refl _ _ _
  · refine Proceeds.fails (.cur ?_) (hbinding .constantDecl)
    rw [hk]
    exact .refl _ _ _

theorem Tree.parse_of_fails {source : Bytes} {k : Token} (hk : k.kind ≠ .eof)
    (hc : (Cursor.ofSource source).Stands us k hs)
    (h : Fails us (Grammar.ofSource source).statement k hs) :
    ∃ f, parse source = .error f := by
  obtain ⟨f, hf⟩ := h _ hc
  cases hparse : parse source with
  | error f => exact ⟨f, rfl⟩
  | ok t =>
    obtain ⟨p, stmts, d, -, hparses, heof, -⟩ := parses_parse hparse
    obtain ⟨ts, hon, -⟩ := hc
    cases hparses with
    | done =>
      rw [hon] at heof
      exact absurd heof hk
    | step _ _ hstmt =>
      rw [hf] at hstmt
      cases hstmt

/-! ### Texts -/

/-- The binding of a name with a type and a value, and what stands between these two. -/
def annotated (keyword x type sign value : Bytes) : Bytes :=
  keyword ++ (" " ++ (x ++ (": " ++ (type ++ (sign ++ (value ++ ";"))))))

section

variable {keyword x type sign value : Bytes}

def bindingStart (keyword x type : Bytes) : List Glyph :=
  keyword.glyphs ++ .char ' ' :: (x.glyphs ++ .char ':' :: .char ' ' :: type.glyphs)

theorem closers_bindingStart (keyword x type : Bytes) :
    closers (bindingStart keyword x type) = closers type.glyphs := by
  rw [closers, closers, bindingStart, rtakeWhile, rtakeWhile]
  simp only [reverse_append, reverse_cons, append_assoc, length_reverse]
  rw [takeWhile_append]
  split
  · next h =>
    rw [h]
    exact congrArg List.length (append_nil type.glyphs.reverse)
  · rfl

theorem exists_keyword (h : keyword = "let" ∨ keyword = "const") :
    ∃ k : Token, k.literal = keyword ∧ k.isPlain = true ∧
      (k.kind = .kwLet ∨ k.kind = .kwConst) := by
  obtain rfl | rfl := h
  · exact ⟨⟨.kwLet, "let", {}⟩, rfl, by decide, .inl rfl⟩
  · exact ⟨⟨.kwConst, "const", {}⟩, rfl, by decide, .inr rfl⟩

theorem glyphs_annotated (hkeyword : keyword = "let" ∨ keyword = "const") (hx : x.isName = true)
    (hsign : sign = "=" ∨ sign = " = ") : (annotated keyword x type sign value).glyphs =
      bindingStart keyword x type ++ (sign.glyphs ++ (value.glyphs ++ [.char ';'])) := by
  obtain ⟨k, rfl, hk, -⟩ := exists_keyword hkeyword
  have hvalue : (value ++ Bytes.ofString ";").glyphs = value.glyphs ++ [.char ';'] :=
    Bytes.glyphs_append (by rintro _ ⟨⟩; rfl)
  have hrest : (sign ++ (value ++ Bytes.ofString ";")).glyphs =
      sign.glyphs ++ (value.glyphs ++ [.char ';']) := by
    rw [← hvalue]
    obtain rfl | rfl := hsign
    · exact Bytes.glyphs_ofString_append "=" _
    · exact Bytes.glyphs_ofString_append " = " _
  have htype : (type ++ (sign ++ (value ++ Bytes.ofString ";"))).glyphs =
      type.glyphs ++ (sign.glyphs ++ (value.glyphs ++ [.char ';'])) := by
    rw [← hrest]
    refine Bytes.glyphs_append ?_
    obtain rfl | rfl := hsign <;> (rintro _ ⟨⟩; rfl)
  have hname (s : Bytes) : (x ++ s).glyphs = x.glyphs ++ s.glyphs :=
    Token.glyphs_append (Token.isPlain_word hx) s
  rw [annotated, Token.glyphs_append hk, Bytes.glyphs_ofString_append, hname,
    Bytes.glyphs_ofString_append, htype]
  have hblank : (Bytes.ofString " ").glyphs = [.char ' '] := by decide
  have hcolon : (Bytes.ofString ": ").glyphs = [.char ':', .char ' '] := by decide
  rw [hblank, hcolon, bindingStart]
  simp only [append_assoc, cons_append, nil_append]

theorem laidApart_bindingStart (hu : Derives .type [u] ws) (htype : LaidOut ws type.glyphs)
    {k : Token} (hk : k.isPlain = true) (hx : x.isName = true) :
    LaidApart (k :: Token.word x :: symbol .colon :: ws) (bindingStart k.literal x type) := by
  obtain ⟨w, hw, hstart⟩ := hu.runs.first
  obtain ⟨ws, rfl⟩ := head?_eq_some_iff.1 hw
  have hname : LaidApart [Token.word x, symbol .colon] (x.glyphs ++ [.char ':']) :=
    LaidApart.append (.one (Token.isPlain_word hx)) (.one (w := symbol .colon) rfl)
      (by rintro _ ⟨⟩ _ ⟨⟩; rfl)
  have hbehind := hname.append_blank (htype.apart hu.runs.chain)
  have hall := (LaidApart.one hk).append_blank hbehind
  simpa [bindingStart] using hall

end

/-! ### Reading alike -/

namespace Scanner

theorem tokens_congr {s s' : Scanner} (h : s.next = s'.next) : s.tokens = s'.tokens := by
  by_cases heof : s.next.1.kind = .eof
  · have hone {s : Scanner} (hs : s.next.1.kind = .eof) : s.tokens = [s.next.1] := by
      rw [tokens, tokensWithin]
      dsimp only
      rw [if_pos hs]
    rw [hone heof, hone (h ▸ heof), h]
  · have heof' : s'.next.1.kind ≠ .eof := h ▸ heof
    rw [tokens_of_next heof, tokens_of_next heof', h]

theorem tokens_of_rest {s s' : Scanner} (h : s'.rest = s.rest) :
    Forall₂ SameText s.tokens s'.tokens ∨
      (∃ t ∈ s.tokens, t.kind = .illegal) ∧ ∃ t ∈ s'.tokens, t.kind = .illegal := by
  have hextends : Extends [] s s' := by rw [Extends, h, append_nil]
  have hsame (hstand : AllStand [] (s.rest.length + 1) (s'.rest.length + 1) s s') :
      Forall₂ SameText s.tokens s'.tokens :=
    tokensWithin_extends hextends (.inl rfl) (Nat.lt_succ_self _) (Nat.lt_succ_self _) hstand
  by_cases hs : ∀ t ∈ s.tokens, t.kind ≠ .illegal
  · exact .inl (hsame (.inl hs))
  by_cases hs' : ∀ t ∈ s'.tokens, t.kind ≠ .illegal
  · exact .inl (hsame (.inr ⟨hs', fun _ => Nat.zero_le _⟩))
  push Not at hs hs'
  exact .inr ⟨hs, hs'⟩

end Scanner

namespace Tree

/-- Both texts are parsed, into trees that are equal up to places, or both are refused. -/
def ReadAlike (source source' : Bytes) : Prop :=
  (Tree.veil <$> Tree.parse source).toOption = (Tree.veil <$> Tree.parse source').toOption

theorem parse_of_illegal {source : Bytes} (ht : t ∈ Token.scan source)
    (hk : t.kind = .illegal) : ∃ f, parse source = .error f := by
  cases hparse : parse source with
  | error f => exact ⟨f, rfl⟩
  | ok tree =>
    obtain ⟨p, stmts, ts, e, v, -, hscan, he, hts, -⟩ := derives_parse hparse
    rw [hscan] at ht
    obtain ht | ht := mem_append.1 ht
    · exact absurd hk (hts t ht).2
    · rw [mem_singleton.1 ht, he] at hk
      cases hk

theorem readAlike_of_gives {source source' : Bytes} (vs : List Token) {gap : List Glyph}
    (more : List Glyph) (hgap : IsGap gap) (h : Gives source.glyphs vs (gap ++ more))
    (h' : Gives source'.glyphs vs more) : ReadAlike source source' := by
  obtain ⟨ts, ⟨_, pos⟩, hsteps, rfl, hts⟩ := h (Pos.enter ⟨1, 0⟩ source.glyphs.head?)
  obtain ⟨ts', s', hsteps', hrest, hts'⟩ := h' (Pos.enter ⟨1, 0⟩ source'.glyphs.head?)
  obtain ⟨pos', hnext⟩ := Scanner.next_gap hgap more pos
  have hscan : Token.scan source = ts ++ (⟨more, pos'⟩ : Scanner).tokens := by
    rw [← Scanner.tokens_congr hnext]
    exact hsteps.tokens_eq
  have hscan' : Token.scan source' = ts' ++ s'.tokens := hsteps'.tokens_eq
  obtain hmore | ⟨⟨t, ht, hk⟩, t', ht', hk'⟩ := Scanner.tokens_of_rest (s := ⟨more, pos'⟩) hrest
  · have hlexemes :
        (Token.scan source).map Token.lexeme = (Token.scan source').map Token.lexeme := by
      rw [hscan, hscan', map_append, map_append, Token.map_lexeme hts,
        Token.map_lexeme hts', Token.map_lexeme hmore]
    have htrees := congrArg Except.toOption (Options.compile_of_sameTokens {} hlexemes).1
    rwa [toOption_mapError, toOption_mapError] at htrees
  · obtain ⟨f, hf⟩ := parse_of_illegal (hscan ▸ mem_append_right ts ht) hk
    obtain ⟨f', hf'⟩ := parse_of_illegal (hscan' ▸ mem_append_right ts' ht') hk'
    rw [ReadAlike, hf, hf']
    rfl

section

open Spaced (AreApart tokens isLeftOver write)

theorem readAlike_of_not_isLeftOver (hps : AreApart ps)
    (hends : ∃ w, (ps.map word).getLast? = some w ∧ w.kind ∈ [TokenKind.ident, .greater, .rbrace])
    (hleft : ¬ isLeftOver (tokens ps) = true) (hmore : Avoids (symbol .assign).runsOn more)
    (hsource : source.glyphs = write ps ++ .char ' ' :: .char '=' :: .char ' ' :: more)
    (hsource' : source'.glyphs = write ps ++ .char '=' :: more) : ReadAlike source source' := by
  have hblank : IsGap [.char ' '] := .blank (by decide) .nil
  have hassign : (symbol .assign).isPlain = true := by decide
  have hlast : ∀ v ∈ (tokens ps).getLast?, Avoids v.runsOn (.char '=' :: more) := by
    intro v hv
    obtain rfl | ⟨ps, p, rfl⟩ := ps.eq_nil_or_concat'
    · cases hv
    obtain rfl | rfl := getLast?_tokens hv
    · obtain ⟨w, hw, hkind⟩ := hends
      rw [map_append, map_singleton, getLast?_concat] at hw
      cases hw
      have hne : p.word.kind ≠ .greater := by
        intro hk
        refine hleft ?_
        rw [isLeftOver, hv, Option.any_some, hk]
        rfl
      have habuts : p.word.kind.abuts (symbol .assign).kind = true := by
        have hall : ∀ k ∈ [TokenKind.ident, .greater, .rbrace], k ≠ .greater →
            k.abuts .assign = true := by decide
        exact hall _ hkind hne
      obtain ⟨hk, -⟩ | havoids := Token.avoids_of_abuts hassign habuts
      · exact absurd hk hne
      · rintro _ ⟨⟩
        exact havoids _ rfl
    · exact fun _ _ => rfl
  refine readAlike_of_gives (tokens ps ++ [symbol .assign]) more hblank ?_ ?_
  · rw [hsource]
    refine ((areScanned hps _).all fun v _ => v.runsOn_of_gap hblank (by simp) _).trans ?_
    exact Gives.plain hblank hassign ((symbol .assign).runsOn_of_gap hblank (by simp) _)
  · rw [hsource']
    exact ((areScanned hps _).all hlast).trans (Gives.plain .nil hassign hmore)

theorem parse_of_isLeftOver {u : Tree} {k x c : Token} (hps : AreApart ps)
    (hleft : isLeftOver (tokens ps) = true)
    (hsource : source.glyphs = write ps ++ .char '=' :: more)
    (hwords : ps.map word = k :: x :: c :: ws) (hu : Derives .type [u] ws)
    (hk : k.kind = .kwLet ∨ k.kind = .kwConst) (hx : x.kind = .ident) (hc : c.kind = .colon) :
    ∃ f, parse source = .error f := by
  obtain rfl | ⟨ps, p, rfl⟩ := ps.eq_nil_or_concat'
  · cases hleft
  obtain ⟨hps', hgap, hword, -⟩ := hps.of_concat
  -- the last bracket is no half of a shift
  have hp : ¬(p.word.kind = .greater ∧ p.gap = [] ∧ isLeftOver (tokens ps)) := by
    intro hp
    rw [tokens_concat, push, if_pos hp, isLeftOver_concat] at hleft
    cases hleft
  rw [tokens_concat, push, if_neg hp, isLeftOver_concat] at hleft
  have hgreater : p.word.kind = .greater := eq_of_beq hleft
  have hglyphs : p.glyphs = p.gap ++ [.char '>'] := by rw [glyphs, glyphs_of_greater hword hgreater]
  have hlast := hps.avoids hp (.char '=' :: more)
  rw [write, flatMap_append, flatMap_singleton, append_assoc] at hsource
  have hnext : (⟨p.glyphs ++ .char '=' :: more, {}⟩ : Scanner).next.1.kind = .greaterEq := by
    obtain ⟨pos, hskip⟩ := Scanner.next_gap hgap (.char '>' :: .char '=' :: more) {}
    rw [hglyphs, append_assoc, singleton_append, hskip]
    rfl
  obtain ⟨ts, s, hs, -, -, hkind, -, hhs, hstands⟩ :=
    stands (s := ⟨p.glyphs ++ .char '=' :: more, {}⟩) hps' hsource hlast
      (by rw [hnext]; decide)
  rw [hnext] at hkind
  obtain rfl | ⟨ws, w, rfl⟩ := ws.eq_nil_or_concat'
  · obtain ⟨w, hw, -⟩ := hu.runs.first
    cases hw
  obtain ⟨hwords', hw⟩ := append_inj' ((map_append.symm.trans hwords : _ =
    (k :: x :: c :: ws) ++ [w])) rfl
  obtain rfl : p.word = w := singleton_inj.1 hw
  rw [hwords'] at hhs
  obtain _ | @⟨k', _, _, _, hk', _ | @⟨x', _, _, _, hx', _ | @⟨c', _, hs, _, hc', htype⟩⟩⟩ := hhs
  rw [← hk'.kind] at hk
  have hne {kind : TokenKind} (h : kind ∉ [TokenKind.kwLet, .kwConst]) : k'.kind ≠ kind := by
    rintro rfl
    simp [hk] at h
  obtain ⟨hcursor, hadvance⟩ := hstands k'
  have hstart := hcursor.advance (hne (by decide))
  rw [hadvance] at hstart
  have hbound := hstart.length_lt_bound
  have hlength := htype.length_eq
  obtain ⟨us, hus⟩ := s.tokens_eq_cons
  rw [hus, length_cons, length_cons, length_cons] at hbound
  refine parse_of_fails (hne (by decide)) hstart ?_
  rw [hus]
  exact hu.fails_binding hgreater (Token.isSound_of_isPlain hword) htype (by omega)
    (by rw [hkind]; decide) hk (hx'.kind.trans hx) (hc'.kind.trans hc)

end

/-- **Blanks around the sign of an annotated binding.**  The text without them is read as the one
with them when an even number of brackets ends the type, and is refused when that number is odd. -/
theorem annotated_iff {keyword x type value : Bytes} {u : Tree} {ws : List Token}
    (hkeyword : keyword = "let" ∨ keyword = "const") (hx : x.isName = true)
    (hu : Derives .type [u] ws) (htype : LaidOut ws type.glyphs)
    (hvalue : ∀ g ∈ value.glyphs.head?, g ≠ .char '=' ∧ g ≠ .char '>') :
    ReadAlike (annotated keyword x type " = " value) (annotated keyword x type "=" value) ↔
      Spaced.closers type.glyphs % 2 = 0 ∨
        ∃ f, Tree.parse (annotated keyword x type " = " value) = .error f := by
  have hsource : (annotated keyword x type " = " value).glyphs = bindingStart keyword x type ++
      .char ' ' :: .char '=' :: .char ' ' :: (value.glyphs ++ [.char ';']) :=
    glyphs_annotated hkeyword hx (.inr rfl)
  have hsource' : (annotated keyword x type "=" value).glyphs = bindingStart keyword x type ++
      .char '=' :: (value.glyphs ++ [.char ';']) := glyphs_annotated hkeyword hx (.inl rfl)
  have hmore : Avoids (symbol .assign).runsOn (value.glyphs ++ [.char ';']) := by
    intro g hg
    rw [head?_append] at hg
    cases hhead : value.glyphs.head? with
    | none =>
      rw [hhead] at hg
      cases hg
      rfl
    | some g' =>
      rw [hhead] at hg
      cases hg
      obtain ⟨hassign, hgreater⟩ := hvalue _ hhead
      change (g.is '>' || g.is '=') = false
      rw [Glyph.is, Glyph.is, beq_eq_false_iff_ne.2 hgreater, beq_eq_false_iff_ne.2 hassign]
      rfl
  obtain ⟨k, rfl, hk, hkind⟩ := exists_keyword hkeyword
  have hcount := closers_bindingStart k.literal x type
  obtain ⟨ps, hps, hwords, hwrite⟩ := laidApart_bindingStart hu htype hk hx
  rw [← hwrite] at hcount hsource hsource'
  by_cases hleft : Spaced.isLeftOver (Spaced.tokens ps) = true
  · have hodd := (Spaced.isLeftOver_iff hps).1 hleft
    obtain ⟨f, hf⟩ := parse_of_isLeftOver hps hleft hsource' hwords hu hkind rfl rfl
    rw [ReadAlike, hf, or_iff_right (by omega)]
    cases Tree.parse (annotated k.literal x type " = " value) with
    | ok t => exact iff_of_false (by rintro ⟨⟩) (by rintro ⟨_, ⟨⟩⟩)
    | error e => exact iff_of_true rfl ⟨e, rfl⟩
  · have heven : Spaced.closers type.glyphs % 2 = 0 := by
      have hne := mt (Spaced.isLeftOver_iff hps).2 hleft
      rw [hcount] at hne
      omega
    have hends : ∃ w, (ps.map Spaced.word).getLast? = some w ∧
        w.kind ∈ [TokenKind.ident, .greater, .rbrace] := by
      obtain ⟨w, hw, hend⟩ := hu.runs.last
      refine ⟨w, ?_, hend⟩
      rw [hwords, getLast?_cons, getLast?_cons, getLast?_cons, hw]
      rfl
    exact iff_of_true (readAlike_of_not_isLeftOver hps hends hleft hmore hsource hsource')
      (.inl heven)

/-- Two brackets and one. -/
theorem annotated_iff_list :
    ReadAlike (annotated "let" "x" "list<list<int>>" " = " "y")
        (annotated "let" "x" "list<list<int>>" "=" "y") ∧
      ¬ ReadAlike (annotated "const" "x" "list<int>" " = " "y")
        (annotated "const" "x" "list<int>" "=" "y") := by
  have hlist {t : Ty} (ht : (Node.type t).All (Node.Sound [])) :
      (Node.type (.list {} t)).All (Node.Sound []) :=
    Node.all_iff.2 ⟨trivial, forall_mem_singleton.2 ht⟩
  have hname : (Bytes.ofString "int").isName = true := by decide
  have hint : (Node.type (.named ⟨"int", {}⟩)).All (Node.Sound []) :=
    Node.all_iff.2 ⟨trivial, forall_mem_singleton.2 (Node.all_iff.2 ⟨hname, nofun⟩)⟩
  have hx : (Bytes.ofString "x").isName = true := by decide
  have hvalue : ∀ g ∈ (Bytes.ofString "y").glyphs.head?, g ≠ .char '=' ∧ g ≠ .char '>' := by
    rintro _ ⟨⟩
    decide
  have hone := Ty.isPhrase _ (hlist hint)
  have htwo := Ty.isPhrase _ (hlist (hlist hint))
  obtain ⟨u, hu, -⟩ := hone.derives
  obtain ⟨u', hu', -⟩ := htwo.derives
  have htext : LaidOut _ (Bytes.ofString "list<int>").glyphs := .flatMap hone.plain
  have htext' : LaidOut _ (Bytes.ofString "list<list<int>>").glyphs := .flatMap htwo.plain
  have haccepted : (Tree.parse (annotated "const" "x" "list<int>" " = " "y")).toOption.isSome =
      true := by decide
  refine ⟨(annotated_iff (.inl rfl) hx hu' htext' hvalue).2 (.inl (by decide)), fun halike => ?_⟩
  obtain heven | ⟨f, hf⟩ := (annotated_iff (.inr rfl) hx hu htext hvalue).1 halike
  · revert heven
    decide
  · rw [hf] at haccepted
    cases haccepted

/-- A list type right before the sign. -/
theorem annotated_unlike :
    (Tree.parse "let x: list<int> = y;").toOption.isSome = true ∧
      (Tree.parse "let x: list<int>=y;").toOption.isSome = false := by
  decide

end Tree

end Covenant
