import Covenant.Proofs.Program.Likeness
import Covenant.Proofs.Tree.Halves

/-!
# Types are read as the grammar says

The parser of types accepts every phrase that the grammar derives as a type, and answers a tree like
the derived one.  The only look beyond the phrase is at a `<` behind the name of a type constructor.
-/

namespace Covenant

open List Phrase

open Grammar (typeRule tupleTypeItem closeAngle constructor?)
open Covenant.Parser (Proceeds)

theorem getLastD_append {α : Type} (as bs : List α) (a : α) :
    (as ++ bs).getLastD a = bs.getLastD (as.getLastD a) := by
  induction as generalizing a with
  | nil => rfl
  | cons b as ih => rw [cons_append, getLastD_cons, getLastD_cons, ih]

/-- Where tokens end with the name of a type constructor, no `<` follows. -/
def Clear (hs next : List Token) : Prop :=
  ∀ h ∈ hs.getLast?, h.kind = .ident → constructor? h.literal ≠ none →
    ∀ t ∈ next.head?, t.kind ≠ .less

abbrev Tree.AllLike (ts us : List Tree) : Prop :=
  Forall₂ (Tree.Like (Token.Alike true)) ts us

/-- The parser answers `a` at the end of `hs`, when what follows is clear of them. -/
def Parser.Answers {α : Type} (p : Parser α) (hs : List Token) (a : α) : Prop :=
  ∀ us z rest, Clear hs (rest ++ us) →
    Proceeds us p z (hs ++ rest) (pure a) (hs.getLastD z) rest

/-- What the parser of a phrase of types does with its tokens, from the one in front of them on. -/
def Phrase.IsRead (N : Phrase) (ts : List Tree) (w : List Token) : Prop :=
  ∀ hs, Forall₂ (Token.Alike true) hs w → ∀ depth, w.length ≤ depth →
    match N with
    | .type => ∃ u, Tree.AllLike [u] ts ∧
        (do Parser.advance; typeRule (.ofDepth depth)).Answers hs u
    | .typeField => (∃ h hs', hs = h :: hs' ∧ h.kind = .ident) ∧ ∃ u, Tree.AllLike [u] ts ∧
        (tupleTypeItem (.ofDepth depth)).Answers hs u
    | .separated close N => close = .greater → N = .type → ∃ us hs' h, Tree.AllLike us ts ∧
        hs = hs' ++ [h] ∧ h.kind = .greater ∧ ∀ fuel, w.length < fuel → ∀ vs z rest,
          (∀ t ∈ (rest ++ vs).head?, t.kind ≠ .less ∧ t.kind ≠ .comma) →
          Proceeds vs (Parser.separatedWithin (do Parser.advance; (Grammar.ofDepth depth).type)
              closeAngle fuel) z (hs' ++ rest)
            (do closeAngle; pure us) (hs'.getLastD z) rest
    | .tail separators close N => separators = [.comma, .semicolon] → close = .rbrace →
        N = .typeField → (∃ h hs', hs = h :: hs' ∧ h.kind ≠ .less) ∧ ∃ us, Tree.AllLike us ts ∧
          ∀ fuel, w.length < fuel →
          (Parser.tailWithin separators close (tupleTypeItem (.ofDepth depth)) fuel).Answers hs us
    | .delimited separators close N => separators = [.comma, .semicolon] → close = .rbrace →
        N = .typeField → ∃ us, Tree.AllLike us ts ∧
          (Parser.delimited separators close (tupleTypeItem (.ofDepth depth))).Answers hs us
    | _ => True

theorem clear_of_head {hs next : List Token} (h : ∀ t ∈ next.head?, t.kind ≠ .less) :
    Clear hs next :=
  fun _ _ _ _ => h

theorem Clear.of_append {v w next : List Token} (h : Clear (v ++ w) next) : Clear w next := by
  intro t ht
  refine h t ?_
  rw [getLast?_append, ht]
  rfl

namespace Parser.Answers

variable {α β : Type}

theorem call {p : Parser β} (h : p.Answers hs b) {us rest vs : List Token}
    (hclear : Clear hs (rest ++ us)) (hf : Proceeds us (f b) (hs.getLastD z) rest r y vs) :
    Proceeds us (p >>= f) z (hs ++ rest) r y vs :=
  (h us z rest hclear).call hf

end Parser.Answers

/-! ### Productions -/

namespace Phrase

variable {s t : Token} {type : Tree}

theorem isRead_namedType (ht : t.kind = .ident) :
    Phrase.type.IsRead [.node .namedType p [.leaf t]] [t] := by
  intro hs hhs depth _
  obtain _ | @⟨h, _, _, _, hh, ⟨⟩⟩ := hhs
  have hk : h.kind = .ident := hh.kind.trans ht
  refine ⟨.ofRule .namedType h [.leaf h], .cons (.node trivial (.cons (.leaf hh) .nil)) .nil, ?_⟩
  intro us z rest hclear
  refine .advance (by rw [hk]; decide) (.cur ?_)
  rw [if_neg (by rw [hk]; decide), if_pos hk, Grammar.appliedType]
  cases hc : constructor? h.literal with
  | none => exact .refl _ _ _
  | some x =>
    have hnext := hclear h rfl hk (by rw [hc]; exact Option.some_ne_none x)
    exact .unlessPeek (by decide) hnext (.refl _ _ _)

theorem isRead_last (ht : t.kind = close) (ih : N.IsRead ts w) :
    (separated close N).IsRead ts (w ++ [t]) := by
  rintro hs hhs depth hdepth rfl rfl
  obtain ⟨hs, h, rfl, hhs, hh⟩ := exists_concat_of_forall₂ hhs
  rw [length_append, length_singleton] at hdepth ⊢
  obtain _ | depth := depth
  · omega
  obtain ⟨u, hlike, hanswers⟩ := ih hs hhs depth (by omega)
  refine ⟨[u], hs, h, hlike, rfl, hh.kind.trans ht, fun fuel hfuel vs z rest hnext => ?_⟩
  obtain _ | fuel := fuel
  · omega
  refine hanswers.call (clear_of_head fun t ht => (hnext t ht).1) ?_
  exact .unlessPeek (by decide) (fun t ht => (hnext t ht).2) (.refl _ _ _)

theorem isRead_comma (ht : t.kind = .comma) (ih : N.IsRead ts w)
    (ihmore : (separated close N).IsRead us v) :
    (separated close N).IsRead (ts ++ us) (w ++ t :: v) := by
  rintro hs hhs depth hdepth rfl rfl
  obtain ⟨hs, _, rfl, hfirst, hbehind⟩ := exists_append_of_forall₂ hhs
  obtain _ | @⟨h, _, hs', _, hh, hmore⟩ := hbehind
  rw [length_append, length_cons] at hdepth ⊢
  obtain _ | depth := depth
  · omega
  obtain ⟨u, hlike, hanswers⟩ := ih hs hfirst depth (by omega)
  obtain ⟨us', hs', g, hlikes, rfl, hg, hproceeds⟩ :=
    ihmore hs' hmore (depth + 1) (by omega) rfl rfl
  have hk : h.kind = .comma := hh.kind.trans ht
  refine ⟨u :: us', hs ++ h :: hs', g, rel_append hlike hlikes, by simp, hg,
    fun fuel hfuel vs z rest hnext => ?_⟩
  obtain _ | fuel := fuel
  · omega
  rw [append_assoc, cons_append]
  refine hanswers.call (clear_of_head fun t ht => ?_) ?_
  · cases ht
    rw [hk]
    decide
  refine .ifPeek (by decide) hk (.advance (by rw [hk]; decide) ?_)
  have hrest := (hproceeds fuel (by omega) vs h rest hnext).bind fun us => pure (u :: us)
  rw [getLastD_append, getLastD_cons]
  simpa only [bind_assoc, pure_bind] using hrest

theorem isRead_close (ht : t.kind = close) : (tail separators close N).IsRead [] [t] := by
  rintro hs hhs depth - rfl rfl rfl
  obtain _ | @⟨h, _, _, _, hh, ⟨⟩⟩ := hhs
  have hk : h.kind = .rbrace := hh.kind.trans ht
  refine ⟨⟨h, [], rfl, by rw [hk]; decide⟩, [], .nil, fun fuel hfuel us z rest _ => ?_⟩
  obtain _ | fuel := fuel
  · omega
  refine .unlessPeekIn (by decide) (fun t ht => ?_) (.pass (by decide) hk (.refl _ _ _))
  cases ht
  rw [hk]
  decide

theorem separator_cases {h : Token} (hh : h.kind = s.kind)
    (hs : s.kind ∈ [TokenKind.comma, .semicolon]) :
    [TokenKind.comma, .semicolon].contains h.kind = true ∧ h.kind ≠ .less ∧ h.kind ≠ .greater := by
  rw [hh]
  refine ⟨contains_iff_mem.2 hs, fun hk => ?_, fun hk => ?_⟩ <;>
    exact absurd hs (by rw [hk]; decide)

theorem isRead_closeBehind (hs : s.kind ∈ separators) (ht : t.kind = close) :
    (tail separators close N).IsRead [] [s, t] := by
  rintro _ hhs depth - rfl rfl rfl
  obtain _ | @⟨s', _, _, _, hs', _ | @⟨h, _, _, _, hh, ⟨⟩⟩⟩ := hhs
  have hk : h.kind = .rbrace := hh.kind.trans ht
  obtain ⟨hseparator, hless, hgreater⟩ := separator_cases hs'.kind hs
  refine ⟨⟨s', [h], rfl, hless⟩, [], .nil, fun fuel hfuel us z rest _ => ?_⟩
  obtain _ | fuel := fuel
  · omega
  exact .ifPeekIn (by decide) hseparator (.advance hgreater (.ifPeek (by decide) hk
    (.advance (by rw [hk]; decide) (.refl _ _ _))))

theorem isRead_item (hs : s.kind ∈ separators) (ih : N.IsRead ts w)
    (ihmore : (tail separators close N).IsRead us v) :
    (tail separators close N).IsRead (ts ++ us) (s :: (w ++ v)) := by
  rintro _ hhs depth hdepth rfl rfl rfl
  obtain _ | @⟨s', _, _, _, hs', hbehind⟩ := hhs
  obtain ⟨hs₁, hs₂, rfl, hfirst, hmore⟩ := exists_append_of_forall₂ hbehind
  rw [length_cons, length_append] at hdepth ⊢
  obtain ⟨⟨h, hs₁, rfl, hk⟩, u, hlike, hanswers⟩ := ih hs₁ hfirst depth (by omega)
  obtain ⟨⟨g, hs₂, rfl, hg⟩, us', hlikes, htail⟩ := ihmore hs₂ hmore depth (by omega) rfl rfl rfl
  obtain ⟨hseparator, hless, hgreater⟩ := separator_cases hs'.kind hs
  refine ⟨⟨s', _, rfl, hless⟩, u :: us', rel_append hlike hlikes,
    fun fuel hfuel vs z rest hclear => ?_⟩
  obtain _ | fuel := fuel
  · omega
  have hclose : ∀ t ∈ (h :: hs₁ ++ (g :: hs₂ ++ rest) ++ vs).head?, t.kind ≠ .rbrace := by
    rintro _ ⟨⟩
    rw [hk]
    decide
  have hnext : ∀ t ∈ (g :: hs₂ ++ rest ++ vs).head?, t.kind ≠ .less := by
    rintro _ ⟨⟩
    exact hg
  rw [cons_append, append_assoc]
  refine .ifPeekIn (by decide) hseparator (.advance hgreater (.unlessPeek (by decide) hclose ?_))
  refine hanswers.call (clear_of_head hnext) ?_
  rw [getLastD_cons (b := s'), getLastD_append]
  have hclear' : Clear (g :: hs₂) (rest ++ vs) := by
    rw [← cons_append] at hclear
    exact hclear.of_append
  exact (htail fuel (by omega)).call hclear' (.refl _ _ _)

theorem isRead_empty (ht : t.kind = close) : (delimited separators close N).IsRead [] [t] := by
  rintro _ hhs depth - rfl rfl rfl
  obtain _ | @⟨h, _, _, _, hh, ⟨⟩⟩ := hhs
  have hk : h.kind = .rbrace := hh.kind.trans ht
  exact ⟨[], .nil, fun us z rest _ =>
    .ifPeek (by decide) hk (.advance (by rw [hk]; decide) (.refl _ _ _))⟩

theorem isRead_first (ih : N.IsRead ts w) (ihmore : (tail separators close N).IsRead us v) :
    (delimited separators close N).IsRead (ts ++ us) (w ++ v) := by
  rintro _ hhs depth hdepth rfl rfl rfl
  obtain ⟨hs₁, hs₂, rfl, hfirst, hmore⟩ := exists_append_of_forall₂ hhs
  rw [length_append] at hdepth
  obtain ⟨⟨h, hs₁, rfl, hk⟩, u, hlike, hanswers⟩ := ih hs₁ hfirst depth (by omega)
  obtain ⟨⟨g, hs₂, rfl, hg⟩, us', hlikes, htail⟩ := ihmore hs₂ hmore depth (by omega) rfl rfl rfl
  refine ⟨u :: us', rel_append hlike hlikes, fun vs z rest hclear => ?_⟩
  have hclose : ∀ t ∈ (h :: hs₁ ++ (g :: hs₂ ++ rest) ++ vs).head?, t.kind ≠ .rbrace := by
    rintro _ ⟨⟩
    rw [hk]
    decide
  have hnext : ∀ t ∈ (g :: hs₂ ++ rest ++ vs).head?, t.kind ≠ .less := by
    rintro _ ⟨⟩
    exact hg
  have hlength := hmore.length_eq
  rw [append_assoc]
  refine .unlessPeek (by decide) hclose
    (hanswers.call (clear_of_head hnext) (.call (b := us') ?_ (.refl _ _ _)))
  refine .get fun c hc => ?_
  rw [length_append] at hc
  rw [getLastD_append]
  exact htail c.bound (by omega) vs _ rest hclear.of_append

theorem answers_typeArguments (ih : (separated .greater .type).IsRead ts w)
    (hhs : Forall₂ (Token.Alike true) hs w) (hdepth : w.length ≤ depth) :
    ∃ us, Tree.AllLike us ts ∧ (Grammar.typeArguments (.ofDepth depth)).Answers hs us := by
  obtain ⟨us, hs, h, hlike, rfl, hk, hproceeds⟩ := ih hs hhs depth hdepth rfl rfl
  have hlength := hhs.length_eq
  refine ⟨us, hlike, fun vs z rest _ => .get fun c hc => ?_⟩
  rw [length_append] at hc
  have hnext : ∀ t ∈ (h :: rest ++ vs).head?, t.kind ≠ .less ∧ t.kind ≠ .comma := by
    rintro _ ⟨⟩
    rw [hk]
    decide
  have hitems := hproceeds c.bound (by omega) vs z (h :: rest) hnext
  rw [append_assoc, getLastD_concat]
  exact hitems.trans (.closeAngle hk (.refl _ _ _))

theorem isRead_appliedType {rule : Rule} (ht : t.kind = .ident)
    (hrule : constructor? t.literal = some (rule, ts.length)) (hl : l.kind = .less)
    (ih : (separated .greater .type).IsRead ts w) :
    Phrase.type.IsRead [.node rule p ts] (t :: l :: w) := by
  intro _ hhs depth hdepth
  obtain _ | @⟨h, _, _, _, hh, _ | @⟨l', _, hs, _, hl', hargs⟩⟩ := hhs
  rw [length_cons, length_cons] at hdepth
  obtain ⟨us, hlikes, hanswers⟩ := answers_typeArguments ih hargs (by omega : w.length ≤ depth)
  have hk : h.kind = .ident := hh.kind.trans ht
  have hless : l'.kind = .less := hl'.kind.trans hl
  rw [← hh.literal (.inl rfl), ← hlikes.length_eq] at hrule
  refine ⟨.ofRule rule h us, .cons (.node (Grammar.Like.constructor?_fits hrule us) hlikes) .nil,
    fun vs z rest hclear => ?_⟩
  refine .advance (by rw [hk]; decide) (.cur ?_)
  rw [if_neg (by rw [hk]; decide), if_pos hk, Grammar.appliedType, hrule, getLastD_cons,
    getLastD_cons]
  have hclear' : Clear hs (rest ++ vs) := hclear.of_append (v := [h, l'])
  refine .ifPeek (by decide) hless (.advance (by rw [hless]; decide) (hanswers.call hclear' ?_))
  rw [if_pos rfl]
  exact .refl _ _ _

theorem isRead_tupleType (hl : l.kind = .lbrace)
    (ih : (delimited [.comma, .semicolon] .rbrace .typeField).IsRead ts w) :
    Phrase.type.IsRead [.node .tupleType p ts] (l :: w) := by
  intro _ hhs depth hdepth
  obtain _ | @⟨l', _, hs, _, hl', hfields⟩ := hhs
  rw [length_cons] at hdepth
  obtain ⟨us, hlikes, hanswers⟩ := ih hs hfields depth (by omega) rfl rfl rfl
  have hk : l'.kind = .lbrace := hl'.kind.trans hl
  refine ⟨.ofRule .tupleType l' us, .cons (.node trivial hlikes) .nil, fun vs z rest hclear => ?_⟩
  refine .advance (by rw [hk]; decide) (.cur ?_)
  rw [if_pos hk, getLastD_cons]
  exact .cur (hanswers.call (hclear.of_append (v := [l'])) (.refl _ _ _))

theorem isRead_typeField (ht : t.kind = .ident) (hc : c.kind = .colon)
    (ih : Phrase.type.IsRead [type] w) :
    typeField.IsRead [.node .tupleTypeItem p [.leaf t, type]] (t :: c :: w) := by
  intro _ hhs depth hdepth
  obtain _ | @⟨h, _, _, _, hh, _ | @⟨c', _, hs, _, hc', htype⟩⟩ := hhs
  rw [length_cons, length_cons] at hdepth
  obtain _ | depth := depth
  · omega
  obtain ⟨u, hlike, hanswers⟩ := ih hs htype depth (by omega)
  have hk : h.kind = .ident := hh.kind.trans ht
  refine ⟨⟨h, _, rfl, hk⟩, .ofRule .tupleTypeItem h [.leaf h, u],
    .cons (.node trivial (.cons (.leaf hh) hlike)) .nil, fun vs z rest hclear => ?_⟩
  rw [getLastD_cons, getLastD_cons]
  refine .expect (by decide) hk (.pass (by decide) (hc'.kind.trans hc) ?_)
  have hclear' : Clear hs (rest ++ vs) := hclear.of_append (v := [h, c'])
  exact hanswers.call (f := fun u => pure (Tree.ofRule .tupleTypeItem h [.leaf h, u])) hclear'
    (.refl _ _ _)

end Phrase

theorem Derives.isRead (h : Derives N ts w) : N.IsRead ts w := by
  induction h with
  | namedType ht => exact isRead_namedType ht
  | last _ ht ih => exact isRead_last ht ih
  | comma _ ht _ ih ihmore => exact isRead_comma ht ih ihmore
  | close ht => exact isRead_close ht
  | closeBehind hs ht => exact isRead_closeBehind hs ht
  | item hs _ _ ih ihmore => exact isRead_item hs ih ihmore
  | empty ht => exact isRead_empty ht
  | first _ _ ih ihmore => exact isRead_first ih ihmore
  | appliedType ht hrule hl _ ih => exact isRead_appliedType ht hrule hl ih
  | tupleType hl _ ih => exact isRead_tupleType hl ih
  | typeField ht hc _ ih => exact isRead_typeField ht hc ih
  | _ => exact fun _ _ _ _ => trivial

end Covenant
