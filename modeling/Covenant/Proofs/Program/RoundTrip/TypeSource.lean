import Covenant.Proofs.Program.Induction
import Covenant.Proofs.Program.Meaning
import Covenant.Proofs.Tree.TypeText

/-!
# Types in source syntax

A type that is written out, with or without gaps between its words, is scanned, parsed and built as
that type again, up to places.  However the closing brackets are grouped into tokens, the parser
ends on the last of them and leaves none behind.
-/

namespace Covenant

open List Bytes

open Scanner (Avoids)
open Token (symbol)

/-! ### Derivations -/

section

variable {last : Token}

theorem derives_separated {u : Tree} (hu : Derives N [u] ws)
    (h : Forall₂ (fun ws u => Derives N [u] ws) wss us) (hlast : last.kind = close) :
    Derives (.separated close N) (u :: us) (commas (ws :: wss) ++ [last]) := by
  induction h generalizing ws u with
  | nil =>
    rw [commas, flatMap_nil, append_nil]
    exact .last hu hlast
  | cons hu' _ ih =>
    have hmore := Derives.comma (t := symbol .comma) hu rfl (ih hu')
    simpa [commas] using hmore

section

variable (h : Forall₂ (fun ws u => Derives N [u] ws) wss us) (hlast : last.kind = close)
    (separators : List TokenKind) (hcomma : .comma ∈ separators)

include h hlast hcomma

theorem derives_tail :
    Derives (.tail separators close N) us (wss.flatMap (symbol .comma :: ·) ++ [last]) := by
  induction h with
  | nil => exact .close hlast
  | cons hu _ ih =>
    have hmore := Derives.item (s := symbol .comma) hcomma hu ih
    simpa using hmore

theorem derives_delimited : Derives (.delimited separators close N) us (commas wss ++ [last]) := by
  cases h with
  | nil => exact .empty hlast
  | cons hu h =>
    have hmore := Derives.first hu (derives_tail h hlast separators hcomma)
    simpa [commas] using hmore

end

end

theorem forall_mem_commas {P : Token → Prop}
    (h : ∀ ws ∈ wss, ∀ w ∈ ws, P w) (hcomma : P (symbol .comma)) : ∀ w ∈ commas wss, P w := by
  cases wss with
  | nil => exact nofun
  | cons ws wss =>
    obtain ⟨hws, hwss⟩ := forall_mem_cons.1 h
    refine forall_mem_append.2 ⟨hws, fun w hw => ?_⟩
    obtain ⟨vs, hvs, hw⟩ := mem_flatMap.1 hw
    exact forall_mem_cons.2 ⟨hcomma, hwss vs hvs⟩ w hw

/-! ### Types -/

theorem isName_of_mem
    (h : w ∈ ["some", "map", "filter", "fold", "list", "optional", "response", "v"]) :
    (ofString w).isName = true := by
  have hall : ∀ w ∈ ["some", "map", "filter", "fold", "list", "optional", "response", "v"],
      (ofString w).isName = true := by decide
  exact hall w h

theorem Site.keyed_eq {α : Type} (s : Site) (what : Bytes) {part? : Item → Option (Bytes × α)}
    {item : Bytes × α → Item} (hitem : ∀ f, part? (item f) = some f) {fields : List (Bytes × α)}
    (hnodup : (fields.map Prod.fst).Nodup) (hseen : ∀ f ∈ fields, f.1 ∉ seen) :
    s.keyed what part? seen (fields.map item) = .ok fields := by
  induction fields generalizing seen with
  | nil => rfl
  | cons f fields ih =>
    obtain ⟨hnew, hseen⟩ := forall_mem_cons.1 hseen
    obtain ⟨hf, hnodup⟩ := nodup_cons.1 hnodup
    have hrest : ∀ g ∈ fields, g.1 ∉ f.1 :: seen := fun g hg =>
      not_mem_cons_of_ne_of_not_mem (fun heq => hf (heq ▸ mem_map_of_mem hg)) (hseen g hg)
    rw [map_cons, keyed, hitem]
    dsimp only
    rw [if_neg (by simpa using hnew), ih hnodup hrest]
    rfl

theorem Tree.Means.type_of_like {u u' : Tree} (h : u.Means assets (.ofType t))
    (hlike : Like (Token.Alike true) u' u) : u'.Means assets (.ofType t) := by
  obtain ⟨j, hj, hjt⟩ := h.build
  have hbuild : Alike true (Item.Like true assets) (u'.build assets) (u.build assets) :=
    u'.like_build hlike
  rw [hj] at hbuild
  obtain ⟨j', hj', hjj⟩ := hbuild.exists_of_ok
  refine ⟨⟨j', hj', ?_⟩, (u'.declaredAssets_congr hlike).trans h.declares⟩
  cases hjt with
  | type ht =>
    cases hjj with
    | type ht' => exact .type ⟨ht'.veil.trans ht.veil, ht'.sound⟩

/-- The words of the type are words and marks, and are derived as a tree that means it. -/
structure Ty.IsPhrase (assets : List Bytes) (t : Ty) : Prop where
  plain : ∀ w ∈ t.words, w.isPlain = true
  derives : ∃ u, Derives .type [u] t.words ∧ u.Means assets (.ofType t)

namespace Ty

theorem constructor?_eq : Grammar.constructor? "list" = some (.listType, 1) ∧
    Grammar.constructor? "optional" = some (.optionalType, 1) ∧
    Grammar.constructor? "response" = some (.responseType, 2) := by
  decide

theorem isPhrase_applied {t : Ty} (w : String) (rule : Rule) (u : Ty) (us : List Ty)
    (hw : Grammar.constructor? w = some (rule, us.length + 1))
    (hname : (ofString w).isName = true)
    (hwords : t.words =
      Token.word w :: symbol .less :: (commas ((u :: us).map words) ++ [symbol .greater]))
    (hrule : rule ≠ .assetDecl)
    (hbuild : ∃ p, Site.build assets ⟨rule, p⟩ ((u :: us).map .ofType) = .ok (.ofType t))
    (h : ∀ c ∈ u :: us, c.IsPhrase assets) : t.IsPhrase assets where
  plain := by
    rw [hwords]
    have hargs := forall_mem_commas (forall_mem_map.2 fun c hc => (h c hc).plain) rfl
    refine forall_mem_cons.2 ⟨Token.isPlain_word hname, forall_mem_cons.2 ⟨by decide, ?_⟩⟩
    exact forall_mem_append.2 ⟨hargs, forall_mem_singleton.2 rfl⟩
  derives := by
    obtain ⟨p, hbuild⟩ := hbuild
    obtain ⟨vs, hderives, hmeans⟩ := exists_forall₂ (f := words) (g := Item.ofType)
      (R := fun ws u => Derives .type [u] ws) (M := Tree.Means assets) fun c hc => (h c hc).derives
    obtain ⟨v, vs, hv, hvs, rfl⟩ := forall₂_cons_left_iff.1 hderives
    have hlength : (v :: vs).length = us.length + 1 := by
      rw [length_cons, ← hvs.length_eq, length_map]
    rw [hwords]
    refine ⟨.node rule {} (v :: vs), .appliedType rfl (hlength ▸ hw) rfl
      (derives_separated hv hvs rfl), ?_⟩
    exact Tree.means_node hrule (Grammar.Like.constructor?_fits hw _) hmeans hbuild

theorem isPhrase_tuple {fields : List (Bytes × Ty)}
    (hnames : ∀ f ∈ fields, f.1.isName = true) (hnodup : (fields.map Prod.fst).Nodup)
    (h : ∀ f ∈ fields, f.2.IsPhrase assets) : (tuple p fields).IsPhrase assets where
  plain := by
    rw [words_tuple]
    refine forall_mem_cons.2 ⟨by decide, forall_mem_append.2 ⟨?_, by decide⟩⟩
    refine forall_mem_commas (forall_mem_map.2 fun f hf => ?_) rfl
    exact forall_mem_cons.2 ⟨Token.isPlain_word (hnames f hf),
      forall_mem_cons.2 ⟨by decide, (h f hf).plain⟩⟩
  derives := by
    have hfields : ∀ f ∈ fields, ∃ u,
        Derives .typeField [u] (Token.word f.1 :: symbol .colon :: f.2.words) ∧
          u.Means assets (.typeField f.1 f.2) := by
      intro f hf
      obtain ⟨u, hu, hmeans⟩ := (h f hf).derives
      refine ⟨.node .tupleTypeItem {} [.leaf (Token.word f.1), u], .typeField rfl rfl hu, ?_⟩
      exact Tree.means_node (by simp) trivial
        (.cons (Tree.means_name (n := ⟨f.1, {}⟩) (hnames f hf)) (.cons hmeans .nil)) (q := {}) rfl
    obtain ⟨us, hderives, hmeans⟩ := exists_forall₂
      (f := fun f : Bytes × Ty => Token.word f.1 :: symbol .colon :: f.2.words)
      (g := fun f => Item.typeField f.1 f.2) (R := fun ws u => Derives .typeField [u] ws)
      (M := Tree.Means assets) hfields
    have hkids : Derives (.delimited [.comma, .semicolon] .rbrace .typeField) us
        (commas (fields.map fun f => Token.word f.1 :: symbol .colon :: f.2.words) ++
          [symbol .rbrace]) :=
      derives_delimited hderives (by rfl) [.comma, .semicolon] (by decide)
    rw [words_tuple]
    refine ⟨.node .tupleType {} us, .tupleType rfl hkids,
      Tree.means_node (by simp) trivial hmeans (q := p) ?_⟩
    change (fun fs => Item.ofType (.tuple p fs)) <$> Site.keyed ⟨.tupleType, p⟩ _ _ [] _ = _
    rw [Site.keyed_eq _ _ (fun _ => rfl) hnodup fun _ _ => not_mem_nil]
    rfl

/-- The words of a type with sound parts are derived as it. -/
theorem isPhrase (t : Ty) (h : (Node.type t).All (Node.Sound assets)) : t.IsPhrase assets := by
  induction t using induction_below with
  | step t ih =>
    have hbelow (c : Ty) (hc : Node.type c ∈ t.children) : c.IsPhrase assets :=
      ih c hc (h.below _ hc)
    cases t with
    | named n =>
      have hn : n.name.isName = true := (h.below n.node (.head _)).self
      refine ⟨forall_mem_singleton.2 (Token.isPlain_word hn),
        .node .namedType {} [.leaf (Token.word n.name)], .namedType rfl, ?_⟩
      exact Tree.means_node (by simp) trivial (.cons (Tree.means_name hn) .nil) (q := {}) rfl
    | list p u =>
      exact isPhrase_applied "list" .listType u [] constructor?_eq.1 (isName_of_mem (by simp)) rfl
        (by simp) ⟨p, rfl⟩ (by simpa using hbelow u (.head _))
    | optional p u =>
      exact isPhrase_applied "optional" .optionalType u [] constructor?_eq.2.1
        (isName_of_mem (by simp)) rfl (by simp) ⟨p, rfl⟩ (by simpa using hbelow u (.head _))
    | response p ok err =>
      exact isPhrase_applied "response" .responseType ok [err] constructor?_eq.2.2
        (isName_of_mem (by simp)) rfl (by simp) ⟨p, rfl⟩
        (by simpa using ⟨hbelow ok (.head _), hbelow err (.tail _ (.head _))⟩)
    | tuple p fields =>
      obtain ⟨hnames, hnodup⟩ := h.self
      exact isPhrase_tuple hnames hnodup fun f hf => hbelow f.2 (mem_map_of_mem hf)

theorem eq_named_of_getLast? {t : Ty} (hw : t.words.getLast? = some w)
    (hk : w.kind = .ident) : ∃ n, t = named n ∧ w.literal = n.name := by
  have hclosed (ws : List Token) {vs : List Token} {k : TokenKind}
    (hws : ws ++ (vs ++ [symbol k]) = t.words)
      (hne : k ≠ .ident) : False := by
    rw [← hws, ← append_assoc, getLast?_concat] at hw
    exact hne ((congrArg Token.kind (Option.some.inj hw)).trans hk)
  cases t with
  | named n =>
    cases hw
    exact ⟨n, rfl, rfl⟩
  | list p u | optional p u | response p ok err =>
    exact (hclosed [_, _] (by rw [words]; rfl) (by decide)).elim
  | tuple p fields => exact (hclosed [_] (by rw [words_tuple]; rfl) (by decide)).elim

end Ty

/-! ### Sources -/

theorem LaidOut.flatMap (h : ∀ w ∈ ws, w.isPlain = true) :
    LaidOut ws (glyphs (ws.flatMap Token.literal)) := by
  have hglyphs : glyphs (ws.flatMap Token.literal) =
      ws.flatMap fun w => w.literal.glyphs := by
    induction ws with
    | nil => rfl
    | cons w ws ih =>
      obtain ⟨hw, hws⟩ := forall_mem_cons.1 h
      rw [flatMap_cons, flatMap_cons, ← ih hws]
      exact Token.glyphs_append hw _
  refine ⟨ws.map (⟨[], ·⟩), ?_, ?_, ?_⟩
  · exact forall_mem_map.2 fun w hw => ⟨.nil, h w hw⟩
  · rw [map_map]
    exact map_id ws
  · rw [hglyphs, Spaced.write, flatMap_map]
    rfl

def Ty.source (t : Ty) : Bytes :=
  t.words.flatMap Token.literal

/-- What may stand right behind the type: a semicolon, or a blank before something that is no
illegal token, and not the `<` of arguments that a bare name would take. -/
inductive Ty.Precedes (t : Ty) : Bytes → Prop
  | semicolon (after : Bytes) : t.Precedes (";" ++ after)
  | blank {b : Char} {after : Bytes} (hb : b ∈ [' ', '\t', '\r', '\n'])
    (hlegal : (Scanner.ofBytes after).next.1.kind ≠ .illegal)
    (hless : ∀ n, t = named n → Grammar.constructor? n.name ≠ none →
      (Scanner.ofBytes after).next.1.kind ≠ .less) : t.Precedes (ofChar b ++ after)

theorem Ty.Precedes.glyphs_eq {t : Ty} {behind : Bytes} (h : t.Precedes behind) :
    ∃ c after, c ∈ [' ', '\t', '\r', '\n', ';'] ∧ behind = ofChar c ++ after := by
  cases h with
  | semicolon after => exact ⟨';', after, by decide, rfl⟩
  | @blank b after hb _ _ => exact ⟨b, after, mem_append_left [';'] hb, rfl⟩

theorem Ty.Precedes.next {t : Ty} {behind : Bytes} (h : t.Precedes behind) (pos : Pos) :
    (⟨behind.glyphs, pos⟩ : Scanner).next.1.kind ≠ .illegal ∧
      ∀ n, t = named n → Grammar.constructor? n.name ≠ none →
        (⟨behind.glyphs, pos⟩ : Scanner).next.1.kind ≠ .less := by
  cases h with
  | semicolon after => exact ⟨TokenKind.noConfusion, fun _ _ _ => TokenKind.noConfusion⟩
  | @blank b after hb hlegal hless =>
    have hgap : Scanner.IsGap [.char b] := .blank (by simpa using hb) .nil
    obtain ⟨pos', hnext⟩ := Scanner.next_gap hgap after.glyphs pos
    have hkind : (⟨after.glyphs, pos'⟩ : Scanner).next.1.kind =
        (Scanner.ofBytes after).next.1.kind := Scanner.kind_next rfl hlegal
    rw [glyphs_ofChar_append, ← singleton_append, hnext, hkind]
    exact ⟨hlegal, hless⟩

/-- **Types in source syntax are read back.**  However a type with sound parts is laid out, and so
also without any gaps, the parser of types reads it at the start of a source and stops on its last
token, without a fault and with no half of a shift left over.  The tree is built as the type, up to
places. -/
theorem Ty.read_source (t : Ty) (ht : (Node.type t).All (Node.Sound assets)) :
    LaidOut t.words t.source.glyphs ∧
    ∀ text behind : Bytes, LaidOut t.words text.glyphs → t.Precedes behind →
      ∃ u d t', (Grammar.ofSource (text ++ behind)).type (.ofSource (text ++ behind)) = .ok (u, d) ∧
        d.StandsBefore (text ++ behind) behind.glyphs ∧
        u.build assets = .ok (.ofType t') ∧ (Node.type t').veil true = (Node.type t).veil true := by
  have hphrase := t.isPhrase ht
  refine ⟨.flatMap hphrase.plain, fun text behind htext hbehind => ?_⟩
  obtain ⟨u, hu, hmeans⟩ := hphrase.derives
  obtain ⟨c, after, hc, hafter⟩ := hbehind.glyphs_eq
  have hsource : (text ++ behind).glyphs = text.glyphs ++ behind.glyphs := by
    refine glyphs_append fun b hb => ?_
    rw [hafter] at hb
    simp only [mem_cons, not_mem_nil, or_false] at hc
    obtain rfl | rfl | rfl | rfl | rfl := hc <;> cases hb <;> rfl
  have hlast : ∀ w ∈ t.words.getLast?, Avoids w.runsOn behind.glyphs := by
    intro w _ g hg
    rw [hafter, glyphs_ofChar_append] at hg
    cases hg
    have hsubset : [' ', '\t', '\r', '\n', ';'] ⊆ [' ', '\t', '\r', '\n', '/', ';'] := by decide
    exact w.runsOn_eq_false (hsubset hc)
  obtain ⟨hlegal, hless⟩ := hbehind.next {}
  have hclear : ∀ w ∈ t.words.getLast?, w.kind = .ident → Grammar.constructor? w.literal ≠ none →
      (⟨behind.glyphs, {}⟩ : Scanner).next.1.kind ≠ .less := by
    intro w hw hk hconstructor
    obtain ⟨n, rfl, hn⟩ := eq_named_of_getLast? hw hk
    exact hless n rfl (hn ▸ hconstructor)
  obtain ⟨u', d, hread, hlike, hd⟩ :=
    hu.read (htext.apart hu.runs.chain) hsource hlast hlegal hclear
  obtain ⟨j, hj, hjt⟩ := (hmeans.type_of_like hlike).build
  cases hjt with
  | @type t' _ ht' => exact ⟨u', d, t', hread, hd, hj, ht'.veil⟩

/-- Three brackets in a row, which are scanned as a shift and a `>`. -/
theorem Ty.read_source_threefold :
    (Node.type (response {} (named ⟨"int", {}⟩) (list {} (optional {} (named ⟨"uint", {}⟩))))).All
        (Node.Sound []) ∧
      ∃ u d t', (Grammar.ofSource (ofString "response<int,list<optional<uint>>>" ++
            ofString "; x")).type
          (.ofSource (ofString "response<int,list<optional<uint>>>" ++
            ofString "; x")) = .ok (u, d) ∧
        d.StandsBefore (ofString "response<int,list<optional<uint>>>" ++ ofString "; x")
          (ofString "; x").glyphs ∧
        u.build [] = .ok (.ofType t') ∧ (Node.type t').veil true =
          (Node.type (response {} (named ⟨"int", {}⟩)
            (list {} (optional {} (named ⟨"uint", {}⟩))))).veil true := by
  have hname {w : Bytes} (hw : w.isName = true) : (Node.type (named ⟨w, {}⟩)).All (Node.Sound []) :=
    Node.all_iff.2 ⟨trivial, forall_mem_singleton.2 (Node.all_iff.2 ⟨hw, nofun⟩)⟩
  have hsound : (Node.type (response {} (named ⟨"int", {}⟩)
      (list {} (optional {} (named ⟨"uint", {}⟩))))).All (Node.Sound []) := by
    have hoptional : (Node.type (optional {} (named ⟨"uint", {}⟩))).All (Node.Sound []) :=
      Node.all_iff.2 ⟨trivial, forall_mem_singleton.2 (hname (by decide))⟩
    have hlist : (Node.type (list {} (optional {} (named ⟨"uint", {}⟩)))).All (Node.Sound []) :=
      Node.all_iff.2 ⟨trivial, forall_mem_singleton.2 hoptional⟩
    exact Node.all_iff.2 ⟨trivial, forall_mem_cons.2
      ⟨hname (by decide), forall_mem_singleton.2 hlist⟩⟩
  obtain ⟨hlaid, hread⟩ := read_source _ hsound
  have hsource : (response {} (named ⟨"int", {}⟩)
      (list {} (optional {} (named ⟨"uint", {}⟩)))).source =
        ofString "response<int,list<optional<uint>>>" := by decide
  have hbehind : ofString "; x" = ofString ";" ++ ofString " x" := by decide
  exact ⟨hsound, hread _ _ hlaid (hbehind ▸ .semicolon _)⟩

end Covenant
