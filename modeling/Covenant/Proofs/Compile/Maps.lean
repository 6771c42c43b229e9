import Covenant.Proofs.Compile.Layout
import Covenant.Proofs.Program.RoundTrip.TypeSource
import Covenant.Proofs.Tree.Maps

/-!
# The ways to declare a map

A map can be declared by a statement, with its name behind or in front of its types, and by a
constant with a decorator, whose types are those of the shape that the decorator has, or else those
of the value.  All of them are compiled to one definition.
-/

namespace Covenant

open List Tree
open Bytes (ofString)

open Covenant.Parser (Proceeds)
open Scanner (Avoids Gives isNamePart)
open Token (Split symbol word keyword isPlain_word)

variable {assets : List Bytes} {source : Bytes} {ws : List Token} {s : Stmt} {w : Token}
    {m : MapShape} {key : Ty}

/-! ### Fixed words -/

theorem isName_of_mem_fixed {w : String} (hw : w ∈ ["map", "Map", "key", "value"]) :
    (ofString w).isName = true := by
  revert w
  decide

theorem isPlain_fixed {w : String} (hw : w ∈ ["map", "Map", "key", "value"] := by simp) :
    (word w).isPlain = true :=
  isPlain_word (isName_of_mem_fixed hw)

theorem isPlain_keywords : (keyword "const").isPlain = true ∧ (keyword "new").isPlain = true ∧
    (keyword "const").kind = .kwConst ∧ (keyword "new").kind = .kwNew := by
  decide

/-! ### Sources that are cut into words -/

/-- The tokens of the source, without its end, can be cut into the words. -/
def CutInto (source : Bytes) (ws : List Token) : Prop :=
  ∃ ts hs e, Token.scan source = ts ++ [e] ∧ e.kind = .eof ∧ Split ts hs ∧ Legal hs ∧
    Forall₂ (Token.Alike true) hs ws

theorem Spaced.cutInto (ds : List Token) (h : AreApart ps)
    (hds : ∀ d ∈ ds, d.isSound = true ∧ d.kind ≠ .illegal)
    (hgives : Gives source.glyphs (ds ++ tokens ps) []) :
    CutInto source (ds ++ ps.map word) := by
  obtain ⟨_, pos, hscan, hsame⟩ := hgives.scan_eq
  obtain ⟨us, ts, rfl, hus, hts⟩ := exists_append_of_forall₂ hsame
  obtain ⟨hs, hwords, hsplit⟩ := split_tokens h hts
  have hplain : ∀ w ∈ ps.map word, w.isPlain = true := forall_mem_map.2 h.word
  have hsound := forall_mem_append.2
      ⟨fun d hd => (hds d hd).1, fun w hw => Token.isSound_of_isPlain (hplain w hw)⟩
  have hlegal := forall_mem_append.2
      ⟨fun d hd => (hds d hd).2, fun w hw => Token.kind_ne_illegal_of_isPlain (hplain w hw)⟩
  have halike := Token.alike_of_isSound hsound (rel_append hus hwords)
  exact ⟨us ++ ts, us ++ hs, _, hscan, rfl, (Split.refl us).append hsplit,
    Token.legal_of_alike halike hlegal, halike⟩

theorem LaidApart.cutInto (h : LaidApart ws source.glyphs) : CutInto source ws := by
  obtain ⟨ps, hps, rfl, hwrite⟩ := h
  have hgives := (Spaced.areScanned hps []).all fun _ _ => nofun
  rw [append_nil, hwrite] at hgives
  exact Spaced.cutInto [] hps nofun hgives

theorem LaidApart.cutInto_decorator {w : Bytes} (h : LaidApart ws gs)
    (hw : Scanner.isWord w = true) (hgs : Avoids isNamePart gs)
    (hsource : source.glyphs = .char '@' :: w.glyphs ++ gs) :
    CutInto source (⟨.decorator, "@" ++ w, {}⟩ :: ws) := by
  obtain ⟨ps, hps, rfl, hwrite⟩ := h
  have hgives := (Spaced.areScanned hps []).all fun _ _ => nofun
  rw [append_nil, hwrite] at hgives
  have hfirst : Gives source.glyphs [⟨.decorator, "@" ++ w, {}⟩] gs := by
    rw [hsource]
    refine .one TokenKind.noConfusion fun pos => ?_
    obtain ⟨pos', hnext⟩ := Scanner.next_decorator hw hgs pos
    exact ⟨pos, pos', hnext⟩
  exact Spaced.cutInto [_] hps (forall_mem_singleton.2 ⟨rfl, TokenKind.noConfusion⟩)
    (hfirst.trans hgives)

/-! ### One statement -/

def ReadsAs (assets : List Bytes) (w : Token) (ws : List Token) (s : Stmt) : Prop :=
  ∀ z hs, Token.Alike true z w → Forall₂ (Token.Alike true) hs ws →
    ∀ depth, ws.length ≤ depth → ∃ y t, t.Means assets (.ofStmt s) ∧
      ∀ us, Proceeds us (Grammar.statementRule (.ofDepth depth)) z hs (pure t) y []

theorem ReadsAs.parse (h : ReadsAs assets w ws s)
    (hsource : CutInto source (w :: ws)) (hw : w.kind ≠ .greater ∧ w.kind ≠ .eof) :
    ∃ z t, parse source = .ok (.ofRule .program z [t]) ∧ t.Means assets (.ofStmt s) := by
  obtain ⟨ts, _, e, hscan, he, hsplit, hlegal, hwords⟩ := hsource
  obtain _ | @⟨z, _, hs, _, hz, hhs⟩ := hwords
  rw [← hz.kind] at hw
  obtain ⟨t, hparse, hmeans⟩ := exists_parse_one hscan he hsplit hlegal hw fun depth hdepth =>
    h z hs hz hhs depth (hhs.length_eq ▸ hdepth)
  exact ⟨z, t, hparse, hmeans⟩

/-! ### Statements that declare a map -/

/-- The statement declares the map. -/
inductive Stmt.DeclaresMap (m : MapShape) : Stmt → Prop
  | decl : DeclaresMap m (.mapDecl m)
  | const (p : Pos) (ds : List Decorator) (n : Ident) (t : Option Ty) (e : Option Expr) :
    DeclaresMap m (.mapConst p ds n t e m)

theorem Stmt.DeclaresMap.of_veil {s' : Stmt} (h : s.DeclaresMap m)
    (hs : s'.veil true = s.veil true) : ∃ m', s'.DeclaresMap m' ∧ m'.form = m.form := by
  have hform {m' : MapShape} (hm : m'.veil = m.veil) : m'.form = m.form := by
    rw [← MapShape.form_veil, hm, MapShape.form_veil]
  cases h with
  | decl =>
    cases s' <;> simp only [veil, veil_mapConst, veil_returnStmt, reduceCtorEq, mapDecl.injEq] at hs
    exact ⟨_, .decl, hform hs⟩
  | const =>
    cases s' <;> simp only [veil, veil_mapConst, veil_returnStmt, reduceCtorEq,
      mapConst.injEq] at hs
    exact ⟨_, .const .., hform hs.2.2.2.2.2⟩

theorem Stmt.DeclaresMap.render {m : MapShape} {s : Stmt} (h : s.DeclaresMap m)
    (target : Version) : Program.render target ⟨[s]⟩ = .ok (m.form.print 0) := by
  have hone : Program.renderOne target s = .ok (m.form.print 0) := by cases h <;> rfl
  rw [Program.render]
  dsimp only
  rw [hone]
  exact congrArg Except.ok (append_nil _)

theorem Program.ofTree_of_means {t : Tree} (h : t.Means assets (.ofStmt s))
    (z : Token) : ∃ s', ofTree assets (.ofRule .program z [t]) = .ok ⟨[s']⟩ ∧
      s'.veil true = s.veil true := by
  obtain ⟨js, hjs, hlikes⟩ := exists_of_means (.cons h .nil)
  have hbuilt : Alike true (fun p q => Via true assets .program p.statements q.statements)
      (Site.program ⟨.program, z.pos⟩ js) (Site.program ⟨.program, z.pos⟩ [.ofStmt s]) :=
    Site.like_program hlikes
  obtain ⟨⟨stmts⟩, hok, hvia⟩ := Alike.exists_of_ok (b := Program.mk [s]) hbuilt
  have hveil := hvia.veil
  simp only [Node.veil, Node.program.injEq, Stmt.veilAll_eq_map, map_cons, map_nil,
    map_eq_cons_iff, map_eq_nil_iff] at hveil
  obtain ⟨s', _, rfl, hs', rfl⟩ := hveil
  refine ⟨s', ?_, hs'⟩
  rw [ofRule, ofTree, declaredAssets, declaredAssetsAll, h.declares]
  · simp only [declaredAssetsAll, append_nil, hjs]
    exact hok
  · simp

/-- The text of a source that declares a map and nothing else. -/
theorem Options.compile_of_readsAs {o : Options} {target : Version}
    (hv : o.version = .ok target) (h : ReadsAs o.assets w ws s)
    (hm : s.DeclaresMap m) (hsource : CutInto source (w :: ws))
    (hw : w.kind ≠ .greater ∧ w.kind ≠ .eof) : o.compile source = .ok (m.form.print 0) := by
  obtain ⟨z, t, hparse, hmeans⟩ := h.parse hsource hw
  obtain ⟨s', hprogram, hveil⟩ := Program.ofTree_of_means hmeans z
  obtain ⟨m', hm', hform⟩ := hm.of_veil hveil
  have hbuilt : o.programOrFault source = .ok ⟨[s']⟩ := by
    rw [programOrFault, hparse]
    exact hprogram
  rw [compile_eq, hv, hbuilt, ← hform]
  change Except.mapError _ (Program.render target ⟨[s']⟩) = _
  rw [hm'.render target]
  rfl

/-! ### Trees -/

theorem Tree.means_leaf_name {n : Bytes} (hn : n.isName = true)
    (ht : Token.Alike true t (word n)) : (leaf t).Means assets (.ofExpr (.ident ⟨n, {}⟩)) := by
  have hliteral : t.literal = n := ht.literal (.inl rfl)
  refine ⟨⟨.ofExpr (.ident ⟨t.literal, t.pos⟩), ?_, .expr (.of_leaf ?_ ?_ rfl)⟩, rfl⟩
  · rw [build, Item.ofToken, ht.kind]
    rfl
  · simp only [Node.veil, Expr.veil, Ident.veil, hliteral]
  · exact hliteral ▸ hn

theorem Tree.means_leaf_decorator {t d : Token} (hd : d.kind = .decorator)
    (ht : Token.Alike true t d) : (leaf t).Means assets (.token d) := by
  refine ⟨⟨.token t, ?_, .token ht⟩, rfl⟩
  rw [build, Item.ofToken, ht.kind, hd]

def entryWords (key value : Ty) : List Token :=
  commas [key.words, value.words] ++ [symbol .greater]

theorem exists_derives_entryWords {value : Ty} (hkey : (Node.type key).All (Node.Sound assets))
    (hvalue : (Node.type value).All (Node.Sound assets)) :
    ∃ u v, Derives (.separated .greater .type) [u, v] (entryWords key value) ∧
      ∀ vs, Tree.AllLike vs [u, v] →
        Forall₂ (Tree.Means assets) vs [.ofType key, .ofType value] := by
  obtain ⟨u, hu, hmeans⟩ := (key.isPhrase hkey).derives
  obtain ⟨v, hv, hmeans'⟩ := (value.isPhrase hvalue).derives
  refine ⟨u, v, derives_separated hu (.cons hv .nil) rfl, fun vs hvs => ?_⟩
  obtain _ | @⟨u', _, _, _, hu', _ | @⟨v', _, _, _, hv', ⟨⟩⟩⟩ := hvs
  exact .cons (hmeans.type_of_like hu') (.cons (hmeans'.type_of_like hv') .nil)

/-! ### Declarations that start with `map` -/

section

variable {n : Bytes} {key value : Ty} (hn : n.isName = true)
  (hkey : (Node.type key).All (Node.Sound assets))
  (hvalue : (Node.type value).All (Node.Sound assets))

include hn hkey hvalue

theorem readsAs_mapTypes : ReadsAs assets (word "map")
    (symbol .less :: (entryWords key value ++ [word n, symbol .semicolon]))
    (.mapDecl ⟨"map", {}, ⟨n, {}⟩, key, value⟩) := by
  intro z hs hz hhs depth hdepth
  obtain _ | @⟨l, _, _, _, hl, htypes⟩ := hhs
  obtain ⟨hs, _, rfl, hargs, hname⟩ := exists_append_of_forall₂ htypes
  obtain _ | @⟨n', _, _, _, hn', _ | @⟨s, _, _, _, hs', ⟨⟩⟩⟩ := hname
  rw [length_cons, length_append] at hdepth
  obtain ⟨u, v, hderives, hmeans⟩ := exists_derives_entryWords hkey hvalue
  obtain ⟨vs, hvs, hproceeds⟩ := Proceeds.mapTypes hderives.isRead hargs
    (by omega : _ ≤ depth) hz.kind (hz.literal (.inl rfl)) hl.kind hn'.kind hs'.kind
  refine ⟨s, _, ?_, fun us => hproceeds us []⟩
  exact means_node (by simp) trivial
    (rel_append (hmeans vs hvs) (.cons (means_leaf_name hn hn') .nil)) (q := {}) rfl

theorem readsAs_mapNamed : ReadsAs assets (word "map")
    (word n :: symbol .colon :: word "Map" :: symbol .less ::
      (entryWords key value ++ [symbol .semicolon]))
    (.mapDecl ⟨"map", {}, ⟨n, {}⟩, key, value⟩) := by
  intro z hs hz hhs depth hdepth
  obtain _ | @⟨n', _, _, _, hn', _ | @⟨c, _, _, _, hc, _ | @⟨m, _, _, _, hm, _ | @⟨l, _, _, _, hl,
    htypes⟩⟩⟩⟩ := hhs
  obtain ⟨hs, _, rfl, hargs, hend⟩ := exists_append_of_forall₂ htypes
  obtain _ | @⟨s, _, _, _, hs', ⟨⟩⟩ := hend
  simp only [length_cons, length_append] at hdepth
  obtain ⟨u, v, hderives, hmeans⟩ := exists_derives_entryWords hkey hvalue
  have hfold : m.literal.equalFold "map" = true := by
    rw [hm.literal (.inl rfl)]
    decide
  obtain ⟨vs, hvs, hproceeds⟩ := Proceeds.mapNamed hderives.isRead hargs
    (by omega : _ ≤ depth) hz.kind (hz.literal (.inl rfl)) hn'.kind hc.kind hm.kind hfold hl.kind
    hs'.kind
  refine ⟨s, _, ?_, fun us => hproceeds us []⟩
  exact means_node (by simp) trivial
    (rel_append (hmeans vs hvs) (.cons (means_leaf_name hn hn') .nil)) (q := {}) rfl

end

/-! ### Decorated constants -/

/-- The words behind a decorator `@map` are read as its argument. -/
def DecoratorReadsAs (assets : List Bytes) (ws : List Token) (d : Decorator) : Prop :=
  ∀ z hs, Token.Alike true z ⟨.decorator, "@map", {}⟩ → Forall₂ (Token.Alike true) hs ws →
    ∀ depth, ws.length ≤ depth → ∃ y t, t.Means assets (.decorator d) ∧
      ∀ us c rest, c.kind = .kwConst →
        Proceeds us (Grammar.decorator (.ofDepth depth)) z (hs ++ c :: rest) (pure t) y (c :: rest)

theorem decoratorReadsAs_bare : DecoratorReadsAs assets [] (.mk {} "map" none) := by
  intro z hs hz hhs depth _
  cases hhs
  refine ⟨z, .ofRule .decorator z [.leaf z], ?_, fun us c rest hc =>
    .decorator_bare (by rw [hc]; decide)⟩
  exact means_node (by simp) trivial
    (.cons (means_leaf_decorator (d := ⟨.decorator, "@map", {}⟩) rfl hz) .nil) (q := {}) rfl

theorem decoratorReadsAs_shape {fields : List (Bytes × Ty)}
    (h : (Node.type (.tuple p fields)).All (Node.Sound assets)) :
    DecoratorReadsAs assets (symbol .lparen :: ((Ty.tuple p fields).words ++ [symbol .rparen]))
      (.mk {} "map" (some (.type (.tuple p fields)))) := by
  intro z hs hz hhs depth hdepth
  obtain _ | @⟨l, _, _, _, hl, hshape⟩ := hhs
  obtain ⟨hs, _, rfl, htype, hend⟩ := exists_append_of_forall₂ hshape
  obtain _ | @⟨r, _, _, _, hr, ⟨⟩⟩ := hend
  rw [length_cons, length_append] at hdepth
  obtain ⟨u, hu, hmeans⟩ := (Ty.isPhrase _ h).derives
  rw [Ty.words_tuple] at hu htype hdepth
  generalize commas _ ++ [symbol .rbrace] = ws at hu htype hdepth
  cases hu with
  | namedType ht | appliedType ht => cases ht
  | @tupleType _ _ ts _ _ hfields =>
    obtain _ | @⟨b, _, hs, _, hb, hbehind⟩ := htype
    rw [length_cons] at hdepth
    obtain ⟨vs, hvs, hproceeds⟩ := Proceeds.decorator_shaped hfields.isRead hbehind
      (by omega : _ ≤ depth) (hz.literal (.inl rfl)) hl.kind hb.kind hr.kind
    refine ⟨r, .ofRule .decorator z [.leaf z, .ofRule .tupleType b vs], ?_, fun us c rest _ => ?_⟩
    · have hshape := hmeans.type_of_like (.node (p := b.pos) trivial hvs)
      exact means_node (by simp) trivial
        (.cons (means_leaf_decorator (d := ⟨.decorator, "@map", {}⟩) rfl hz)
          (.cons hshape .nil)) (q := {}) rfl
    · simpa using hproceeds us (c :: rest)

/-- The words behind the keyword of a constant are read as the given parts of it. -/
def BindingReadsAs (assets : List Bytes) (ws : List Token) (is : List Item) : Prop :=
  ∀ c hs, Forall₂ (Token.Alike true) hs ws → ∀ depth, ws.length ≤ depth →
    ∃ y ts, Forall₂ (Tree.Means assets) ts is ∧ ∀ us ds,
      Proceeds us (Grammar.binding (.ofDepth depth) .constantDecl ds) c hs
        (pure (.ofRule .constantDecl c (ds ++ ts))) y []

theorem bindingReadsAs_bare {n : Bytes} (hn : n.isName = true) :
    BindingReadsAs assets [word n, symbol .semicolon] [.ofExpr (.ident ⟨n, {}⟩)] := by
  intro c hs hhs depth _
  obtain _ | @⟨n', _, _, _, hn', _ | @⟨s, _, _, _, hs', ⟨⟩⟩⟩ := hhs
  exact ⟨s, [.leaf n'], .cons (means_leaf_name hn hn') .nil,
    fun us ds => .binding_bare .constantDecl ds hn'.kind hs'.kind⟩

theorem bindingReadsAs_creation {n : Bytes} {value : Ty} (hn : n.isName = true)
    (hkey : (Node.type key).All (Node.Sound assets))
    (hvalue : (Node.type value).All (Node.Sound assets)) :
    BindingReadsAs assets (word n :: symbol .assign :: keyword "new" :: word "Map" ::
        symbol .less :: (entryWords key value ++
          [symbol .lparen, symbol .rparen, symbol .semicolon]))
      [.ofExpr (.ident ⟨n, {}⟩), .creation {} ⟨"Map", {}⟩ [key, value]] := by
  intro c hs hhs depth hdepth
  obtain _ | @⟨n', _, _, _, hn', _ | @⟨a, _, _, _, ha, _ | @⟨k, _, _, _, hk, _ | @⟨m, _, _, _, hm,
    _ | @⟨l, _, _, _, hl, htypes⟩⟩⟩⟩⟩ := hhs
  obtain ⟨hs, _, rfl, hargs, hparen⟩ := exists_append_of_forall₂ htypes
  obtain _ | @⟨p, _, _, _, hp, _ | @⟨q, _, _, _, hq, _ | @⟨s, _, _, _, hs', ⟨⟩⟩⟩⟩ := hparen
  simp only [length_cons, length_append] at hdepth
  obtain _ | depth := depth
  · omega
  have hkind : k.kind = .kwNew := hk.kind.trans isPlain_keywords.2.2.2
  obtain ⟨u, v, hderives, hmeans⟩ := exists_derives_entryWords hkey hvalue
  obtain ⟨vs, hvs, hcreation⟩ := Proceeds.creation hderives.isRead hargs
    (by omega : _ ≤ depth) hm.kind hl.kind hp.kind hq.kind
  have hexpression (us : List Token) : Proceeds us (Grammar.ofDepth (depth + 1)).expression k
      (m :: l :: (hs ++ [p, q, s]))
      (pure (.ofRule .newExpr k (.leaf m :: vs ++ [.ofRule .arguments p []]))) q [s] := by
    refine .expression_of_unary hs'.kind
      (.unary_of_primary hs'.kind (by rw [hkind]; decide) (.cur ?_))
    rw [hkind]
    exact hcreation us [s] k
  refine ⟨s, [.leaf n', .ofRule .newExpr k (.leaf m :: vs ++ [.ofRule .arguments p []])],
    .cons (means_leaf_name hn hn') (.cons ?_ .nil), fun us ds => ?_⟩
  · have hname : (ofString "Map").isName = true := isName_of_mem_fixed (by simp)
    have hempty : (ofRule .arguments p []).Means assets (.args []) :=
      means_node (by simp) trivial .nil (q := {}) rfl
    exact means_node (by simp) trivial (rel_append
      (.cons (means_leaf_name hname hm) (hmeans vs hvs)) (.cons hempty .nil)) (q := {}) rfl
  · exact .binding_value .constantDecl ds hn'.kind ha.kind (by rw [hkind]; decide) hs'.kind
      (hexpression us)

theorem readsAs_mapConst {d : Decorator} {is : List Item}
    (hd : DecoratorReadsAs assets ws d) (his : BindingReadsAs assets vs is)
    (hbuild : Site.build assets ⟨.constantDecl, {}⟩ (.decorator d :: is) = .ok (.ofStmt s)) :
    ReadsAs assets ⟨.decorator, "@map", {}⟩ (ws ++ keyword "const" :: vs) s := by
  intro z hs hz hhs depth hdepth
  obtain ⟨hs, _, rfl, hargument, hconst⟩ := exists_append_of_forall₂ hhs
  obtain _ | @⟨c, _, hs', _, hc, hbinding⟩ := hconst
  rw [length_append, length_cons] at hdepth
  have hkind : c.kind = .kwConst := hc.kind.trans isPlain_keywords.2.2.1
  obtain ⟨y, t, ht, hdecorator⟩ := hd z hs hz hargument depth (by omega)
  obtain ⟨y', ts, hts, hproceeds⟩ := his c hs' hbinding depth (by omega)
  refine ⟨y', .ofRule .constantDecl c (t :: ts),
    means_node (by simp) trivial (.cons ht hts) hbuild, fun us => ?_⟩
  exact (Proceeds.decorated (by simp) hz.kind hkind (hdecorator us c hs' hkind)).trans
    (hproceeds us [t])

theorem Site.build_mapConst (assets : List Bytes) {argument : Option Node} {value : Option Item}
    {type : Ty} (hvalue : ∀ i ∈ value, ∃ p m ts, i = .creation p m ts)
    (htypes : mapTypes? (.mk {} "map" argument) value = some (key, type)) :
    ∃ m, m.name = n ∧ m.key = key ∧ m.value = type ∧ build assets ⟨.constantDecl, {}⟩
        (.decorator (.mk {} "map" argument) :: .ofExpr (.ident n) :: value.toList) =
      .ok (.ofStmt (.mapConst {} [.mk {} "map" argument] n none none m)) := by
  refine ⟨⟨"@" ++ "map", {}, n, key, type⟩, rfl, rfl, rfl, ?_⟩
  cases value with
  | none =>
    change mapConst ⟨.constantDecl, {}⟩ ⟨[.mk {} "map" argument], n, none, none⟩
      (.mk {} "map" argument) = _
    rw [mapConst, htypes]
    rfl
  | some i =>
    obtain ⟨p, m, ts, rfl⟩ := hvalue i rfl
    change mapConst ⟨.constantDecl, {}⟩
      ⟨[.mk {} "map" argument], n, none, some (.creation p m ts)⟩ (.mk {} "map" argument) = _
    rw [mapConst, htypes]
    rfl

/-! ### Texts -/

namespace LaidApart

variable {v w : Token} {text l : Bytes}

theorem laidOut (h : LaidApart ws gs) : LaidOut ws gs := by
  obtain ⟨ps, hps, hwords, hwrite⟩ := h
  exact ⟨ps, fun p hp => ⟨hps.gap p hp, hps.word p hp⟩, hwords, hwrite⟩

theorem cons (hw : w.isPlain = true) (hl : w.literal = l)
    (hseam : ∀ v ∈ ws.head?, w.kind.abuts v.kind = true) (h : LaidApart ws text.glyphs) :
    LaidApart (w :: ws) (l ++ text).glyphs := by
  rw [← hl, Token.glyphs_append hw]
  refine (one hw).append h ?_
  rintro _ ⟨⟩
  exact hseam

theorem abut (hw : w.isPlain = true) (hl : w.literal = l)
    (hseam : w.kind.abuts v.kind = true) (h : LaidApart (v :: ws) text.glyphs) :
    LaidApart (w :: v :: ws) (l ++ text).glyphs :=
  cons hw hl (by rintro _ ⟨⟩; exact hseam) h

theorem glyphs_blank (text : Bytes) : (ofString " " ++ text).glyphs = .char ' ' :: text.glyphs := by
  have hblank : (ofString " ").glyphs = [.char ' '] := by decide
  rw [Bytes.glyphs_ofString_append, hblank, singleton_append]

theorem blank (hne : ws ≠ []) (h : LaidApart ws text.glyphs) :
    LaidApart ws (ofString " " ++ text).glyphs := by
  obtain ⟨v, ws, rfl⟩ := exists_cons_of_ne_nil hne
  have hnil : LaidApart [] [] := ⟨[], ⟨nofun, nofun, .nil⟩, rfl, rfl⟩
  exact hnil.append_blank h

theorem cons_blank (hw : w.isPlain = true) (hl : w.literal = l) (hne : ws ≠ [])
    (h : LaidApart ws text.glyphs) : LaidApart (w :: ws) (l ++ (ofString " " ++ text)).glyphs := by
  obtain ⟨v, ws, rfl⟩ := exists_cons_of_ne_nil hne
  rw [← hl, Token.glyphs_append hw, glyphs_blank]
  exact (one hw).append_blank h

theorem append_type {u : Tree} {vs : List Token} (hu : Derives .type [u] vs)
    (htype : LaidOut vs type.glyphs)
    (hseam : ∀ k ∈ [TokenKind.ident, .greater, .rbrace], k.abuts v.kind = true)
    (htext : ∀ b, text.head? = some b → isContinuation b = false)
    (h : LaidApart (v :: ws) text.glyphs) : LaidApart (vs ++ v :: ws) (type ++ text).glyphs := by
  rw [Bytes.glyphs_append htext]
  refine (htype.apart hu.runs.chain).append h ?_
  obtain ⟨t, ht, hk⟩ := hu.runs.last
  rintro _ ht' _ ⟨⟩
  cases ht.symm.trans ht'
  exact hseam _ hk

end LaidApart

theorem Derives.abuts_head {u : Tree} (hu : Derives .type [u] vs)
    (hseam : ∀ k ∈ [TokenKind.ident, .lbrace], w.kind.abuts k = true) :
    ∀ v ∈ (vs ++ ws).head?, w.kind.abuts v.kind = true := by
  obtain ⟨t, ht, hk⟩ := hu.runs.first
  intro v hv
  rw [head?_append, ht] at hv
  cases hv
  exact hseam _ hk

section

variable {key value : Ty} {k v text : Bytes}

theorem laidApart_entry (hkey : (Node.type key).All (Node.Sound assets))
    (hvalue : (Node.type value).All (Node.Sound assets)) (hk : LaidOut key.words k.glyphs)
    (hv : LaidOut value.words v.glyphs)
    (h : LaidApart (symbol .greater :: ws) (ofString ">" ++ text).glyphs) :
    LaidApart (symbol .less :: (entryWords key value ++ ws))
      (ofString "<" ++ (k ++ (", " ++ (v ++ (">" ++ text))))).glyphs := by
  obtain ⟨u, hu, -⟩ := (key.isPhrase hkey).derives
  obtain ⟨u', hu', -⟩ := (value.isPhrase hvalue).derives
  have hwords : entryWords key value ++ ws =
      key.words ++ symbol .comma :: (value.words ++ symbol .greater :: ws) := by
    simp [entryWords, commas]
  have hcomma : ofString ", " = "," ++ " " := by decide
  rw [hwords, hcomma, append_assoc]
  refine .cons (by decide) rfl (hu.abuts_head (by decide)) (.append_type hu hk (by decide) ?_ ?_)
  · rintro _ ⟨⟩
    rfl
  refine .cons_blank (by decide) rfl (by simp) (.append_type hu' hv (by decide) ?_ h)
  rintro _ ⟨⟩
  rfl

theorem laidApart_shape {shape : Ty} {s : Bytes}
    (hshape : (Node.type shape).All (Node.Sound assets)) (hs : LaidOut shape.words s.glyphs)
    (h : LaidApart (symbol .rparen :: ws) (ofString ")" ++ text).glyphs) :
    LaidApart (symbol .lparen :: (shape.words ++ symbol .rparen :: ws))
      (ofString "(" ++ (s ++ (")" ++ text))).glyphs := by
  obtain ⟨u, hu, -⟩ := (shape.isPhrase hshape).derives
  refine .cons (by decide) rfl (hu.abuts_head (by decide)) (.append_type hu hs (by decide) ?_ h)
  rintro _ ⟨⟩
  rfl

theorem Ty.sound_pair {a b : Bytes} {t u : Ty} (hab : a ≠ b) (ha : a.isName = true)
    (hb : b.isName = true) (ht : (Node.type t).All (Node.Sound assets))
    (hu : (Node.type u).All (Node.Sound assets)) :
    (Node.type (.tuple {} [(a, t), (b, u)])).All (Node.Sound assets) := by
  have hnames : ∀ f ∈ [(a, t), (b, u)], f.1.isName = true := by simpa using ⟨ha, hb⟩
  have hnodup : [a, b].Nodup := by simpa using hab
  exact Node.all_iff.2 ⟨⟨hnames, hnodup⟩, forall_mem_cons.2 ⟨ht, forall_mem_singleton.2 hu⟩⟩

theorem laidOut_shape (hkey : (Node.type key).All (Node.Sound assets))
    (hvalue : (Node.type value).All (Node.Sound assets)) (hk : LaidOut key.words k.glyphs)
    (hv : LaidOut value.words v.glyphs) :
    LaidOut (Ty.tuple {} [("key", key), ("value", value)]).words
      (ofString "\x7b key: " ++ (k ++ (", value: " ++ (v ++ " \x7d")))).glyphs := by
  obtain ⟨u, hu, -⟩ := (key.isPhrase hkey).derives
  obtain ⟨u', hu', -⟩ := (value.isPhrase hvalue).derives
  have hwords : (Ty.tuple {} [("key", key), ("value", value)]).words =
      symbol .lbrace :: word "key" :: symbol .colon :: (key.words ++ symbol .comma ::
        word "value" :: symbol .colon :: (value.words ++ [symbol .rbrace])) := by
    rw [Ty.words_tuple]
    simp [commas]
  have hstart : ofString "\x7b key: " = "\x7b" ++ (" " ++ ("key" ++ (":" ++ " "))) := by decide
  have hmiddle : ofString ", value: " = "," ++ (" " ++ ("value" ++ (":" ++ " "))) := by decide
  have hend : ofString " \x7d" = " " ++ "\x7d" := by decide
  rw [hwords, hstart, hmiddle, hend]
  refine LaidApart.laidOut (.cons_blank rfl rfl (by simp) ?_)
  refine .abut isPlain_fixed rfl rfl ?_
  refine .cons_blank rfl rfl (by simp) ?_
  refine .append_type hu hk (by decide) (by rintro _ ⟨⟩; rfl) ?_
  refine .cons_blank rfl rfl (by simp) ?_
  refine .abut isPlain_fixed rfl rfl ?_
  refine .cons_blank rfl rfl (by simp) ?_
  refine .append_type hu' hv (by decide) (by rintro _ ⟨⟩; rfl) ?_
  exact .blank (cons_ne_nil _ _) (.one rfl)

variable {n : Bytes}

theorem laidApart_bare (hn : n.isName = true) :
    LaidApart [keyword "const", word n, symbol .semicolon]
      (ofString "const" ++ (" " ++ (n ++ ";"))).glyphs :=
  .cons_blank isPlain_keywords.1 rfl (cons_ne_nil _ _)
    (.abut (isPlain_word hn) rfl rfl (.one rfl))

theorem laidApart_creation (hn : n.isName = true) (hkey : (Node.type key).All (Node.Sound assets))
    (hvalue : (Node.type value).All (Node.Sound assets)) (hk : LaidOut key.words k.glyphs)
    (hv : LaidOut value.words v.glyphs) :
    LaidApart (keyword "const" :: word n :: symbol .assign :: keyword "new" :: word "Map" ::
        symbol .less :: (entryWords key value ++
          [symbol .lparen, symbol .rparen, symbol .semicolon]))
      (ofString "const" ++ (" " ++ (n ++ (" " ++ ("=" ++ (" " ++ ("new" ++ (" " ++ ("Map" ++
        ("<" ++ (k ++ (", " ++ (v ++ (">" ++ ("(" ++ (")" ++ ";")))))))))))))))).glyphs := by
  have hend : LaidApart [symbol .greater, symbol .lparen, symbol .rparen, symbol .semicolon]
      (ofString ">" ++ ("(" ++ (")" ++ ";"))).glyphs :=
    .abut rfl rfl rfl (.abut rfl rfl rfl (.abut rfl rfl rfl (.one rfl)))
  refine .cons_blank isPlain_keywords.1 rfl (cons_ne_nil _ _) ?_
  refine .cons_blank (isPlain_word hn) rfl (cons_ne_nil _ _) ?_
  refine .cons_blank rfl rfl (cons_ne_nil _ _) ?_
  refine .cons_blank isPlain_keywords.2.1 rfl (cons_ne_nil _ _) ?_
  exact .abut isPlain_fixed rfl rfl
    (laidApart_entry hkey hvalue hk hv hend)

end

theorem LaidApart.cutInto_map {s : String} {text : Bytes} (hs : s ∈ [" ", "("])
    (h : LaidApart ws (ofString s ++ text).glyphs) :
    CutInto (ofString "@map" ++ (ofString s ++ text)) (⟨.decorator, "@map", {}⟩ :: ws) := by
  have hmap : ofString "@map" = ofString "@" ++ ofString "map" := by decide
  have hglyphs : (ofString "@map").glyphs = .char '@' :: (ofString "map").glyphs := by decide
  have hhead : ∀ s ∈ [" ", "("], ∃ g, (ofString s).glyphs = [g] ∧ isNamePart g = false := by
    rintro s hs
    simp only [mem_cons, not_mem_nil, or_false] at hs
    obtain rfl | rfl := hs
    · exact ⟨.char ' ', by decide, by decide⟩
    · exact ⟨.char '(', by decide, by decide⟩
  have havoids : Avoids isNamePart (ofString s ++ text).glyphs := by
    obtain ⟨g, hg, hpart⟩ := hhead s hs
    rw [Bytes.glyphs_ofString_append, hg]
    rintro _ ⟨⟩
    exact hpart
  have hsource : (ofString "@map" ++ (ofString s ++ text)).glyphs =
      .char '@' :: (ofString "map").glyphs ++ (ofString s ++ text).glyphs := by
    rw [Bytes.glyphs_ofString_append "@map", hglyphs]
  have hcut := h.cutInto_decorator rfl havoids hsource
  rwa [← hmap] at hcut

/-! ### All of them -/

def mapText (n : Bytes) (key value : Ty) : Bytes :=
  "(define-map " ++ n ++ " " ++ key.form.print 0 ++ " " ++ value.form.print 0 ++ ")"

theorem MapShape.print_form (m : MapShape) :
    m.form.print 0 = mapText m.name.name m.key m.value := by
  have hword : ofString "(define-map " = "(" ++ ("define-map" ++ " ") := by decide
  simp only [form, Form.apply, Form.row, Form.items, Form.print, Form.printItems,
    map_cons, map_nil, mapText, hword, append_assoc, append_nil]

namespace Options

variable {o : Options} {target : Version} {n k v : Bytes} {key value : Ty} {i : Option Item}
    {text : Bytes}

section

variable (hversion : o.version = .ok target) (hn : n.isName = true)
    (hkey : (Node.type key).All (Node.Sound o.assets))
    (hvalue : (Node.type value).All (Node.Sound o.assets)) (hk : LaidOut key.words k.glyphs)
    (hv : LaidOut value.words v.glyphs)

include hversion hn hkey hvalue hk hv

theorem compile_mapTypes :
    o.compile ("map<" ++ k ++ ", " ++ v ++ "> " ++ n ++ ";") = .ok (mapText n key value) := by
  have hstart : ofString "map<" = "map" ++ "<" := by decide
  have hclose : ofString "> " = ">" ++ " " := by decide
  have hname : LaidApart [word n, symbol .semicolon] (n ++ ofString ";").glyphs :=
    .abut (isPlain_word hn) rfl rfl (.one rfl)
  have hlaid : LaidApart (word "map" :: symbol .less ::
      (entryWords key value ++ [word n, symbol .semicolon]))
      (ofString "map" ++ ("<" ++ (k ++ (", " ++ (v ++ (">" ++ (" " ++ (n ++ ";")))))))).glyphs :=
    .abut isPlain_fixed rfl rfl
      (laidApart_entry hkey hvalue hk hv (.cons_blank rfl rfl (cons_ne_nil _ _) hname))
  have hcompile := compile_of_readsAs hversion (readsAs_mapTypes hn hkey hvalue) .decl
    hlaid.cutInto (by decide)
  rw [MapShape.print_form] at hcompile
  simpa only [hstart, hclose, append_assoc] using hcompile

theorem compile_mapNamed :
    o.compile ("map " ++ n ++ ": Map<" ++ k ++ ", " ++ v ++ ">;") = .ok (mapText n key value) := by
  have hstart : ofString "map " = "map" ++ " " := by decide
  have hmiddle : ofString ": Map<" = ":" ++ (" " ++ ("Map" ++ "<")) := by decide
  have hclose : ofString ">;" = ">" ++ ";" := by decide
  have hend : LaidApart [symbol .greater, symbol .semicolon]
      (ofString ">" ++ ofString ";").glyphs :=
    .abut rfl rfl rfl (.one rfl)
  have hlaid : LaidApart (word "map" :: word n :: symbol .colon :: word "Map" :: symbol .less ::
      (entryWords key value ++ [symbol .semicolon]))
      (ofString "map" ++ (" " ++ (n ++ (":" ++ (" " ++ ("Map" ++
        ("<" ++ (k ++ (", " ++ (v ++ (">" ++ ";"))))))))))).glyphs := by
    refine .cons_blank isPlain_fixed rfl
      (cons_ne_nil _ _) ?_
    refine .abut (isPlain_word hn) rfl rfl ?_
    refine .cons_blank rfl rfl (cons_ne_nil _ _) ?_
    exact .abut isPlain_fixed rfl rfl
      (laidApart_entry hkey hvalue hk hv hend)
  have hcompile := compile_of_readsAs hversion (readsAs_mapNamed hn hkey hvalue) .decl
    hlaid.cutInto (by decide)
  rw [MapShape.print_form] at hcompile
  simpa only [hstart, hmiddle, hclose, append_assoc] using hcompile

end

theorem compile_mapConst (hversion : o.version = .ok target) {argument : Option Node} {s : String}
    (hd : DecoratorReadsAs o.assets ws (.mk {} "map" argument))
    (his : BindingReadsAs o.assets vs (.ofExpr (.ident ⟨n, {}⟩) :: i.toList))
    (hi : ∀ i' ∈ i, ∃ p m ts, i' = .creation p m ts)
    (htypes : Site.mapTypes? (.mk {} "map" argument) i = some (key, value)) (hs : s ∈ [" ", "("])
    (hlaid : LaidApart (ws ++ keyword "const" :: vs) (ofString s ++ text).glyphs) :
    o.compile (ofString "@map" ++ (ofString s ++ text)) = .ok (mapText n key value) := by
  obtain ⟨m, hn, rfl, rfl, hbuild⟩ := Site.build_mapConst o.assets (n := ⟨n, {}⟩) hi htypes
  have hcompile := compile_of_readsAs hversion (readsAs_mapConst hd his hbuild) (.const ..)
    (hlaid.cutInto_map hs) (by decide)
  rwa [MapShape.print_form, hn] at hcompile

theorem compile_shaped (hversion : o.version = .ok target)
    {shape : Ty} {s : Bytes} (hshape : (Node.type shape).All (Node.Sound o.assets))
    (hs : LaidOut shape.words s.glyphs) (hkey : shape.get? "key" = some key)
    (hvalue : shape.get? "value" = some value)
    (his : BindingReadsAs o.assets vs (.ofExpr (.ident ⟨n, {}⟩) :: i.toList))
    (hi : ∀ i' ∈ i, ∃ p m ts, i' = .creation p m ts)
    (htext : LaidApart (keyword "const" :: vs) text.glyphs) :
    o.compile ("@map(" ++ s ++ ") " ++ text) = .ok (mapText n key value) := by
  have hstart : ofString "@map(" = "@map" ++ "(" := by decide
  have hclose : ofString ") " = ")" ++ " " := by decide
  have htypes : Site.mapTypes? (.mk {} "map" (some (.type shape))) i = some (key, value) := by
    simp only [Site.mapTypes?, Decorator.argument, hkey, hvalue, Option.bind_some, Option.map_some]
  have hd : DecoratorReadsAs o.assets (symbol .lparen :: (shape.words ++ [symbol .rparen]))
      (.mk {} "map" (some (.type shape))) := by
    cases shape with
    | tuple p fields => exact decoratorReadsAs_shape hshape
    | _ => cases hkey
  have hlaid := laidApart_shape hshape hs
    (.cons_blank rfl rfl (cons_ne_nil _ _) htext)
  have hcompile := compile_mapConst hversion (s := "(") hd his hi htypes (by simp)
    (by simpa using hlaid)
  simpa only [hstart, hclose, append_assoc] using hcompile

/-- **The ways to declare a map agree.**  For a name and types in any layout, the four programs are
compiled to the definition of the map; and where a decorator has a shape with a key and a value, its
types count and not those of the value. -/
theorem compile_maps (hversion : o.version = .ok target) (hn : n.isName = true)
    (hkey : (Node.type key).All (Node.Sound o.assets))
    (hvalue : (Node.type value).All (Node.Sound o.assets)) (hk : LaidOut key.words k.glyphs)
    (hv : LaidOut value.words v.glyphs) :
    o.compile ("map<" ++ k ++ ", " ++ v ++ "> " ++ n ++ ";") = .ok (mapText n key value) ∧
    o.compile ("map " ++ n ++ ": Map<" ++ k ++ ", " ++ v ++ ">;") = .ok (mapText n key value) ∧
    o.compile ("@map(\x7b key: " ++ k ++ ", value: " ++ v ++ " \x7d) const " ++ n ++ ";") =
      .ok (mapText n key value) ∧
    o.compile ("@map const " ++ n ++ " = new Map<" ++ k ++ ", " ++ v ++ ">();") =
      .ok (mapText n key value) ∧
    ∀ (shape key' value' : Ty) (s k' v' : Bytes),
      (Node.type shape).All (Node.Sound o.assets) → LaidOut shape.words s.glyphs →
      shape.get? "key" = some key → shape.get? "value" = some value →
      (Node.type key').All (Node.Sound o.assets) → LaidOut key'.words k'.glyphs →
      (Node.type value').All (Node.Sound o.assets) → LaidOut value'.words v'.glyphs →
      o.compile ("@map(" ++ s ++ ") const " ++ n ++ " = new Map<" ++ k' ++ ", " ++ v' ++ ">();") =
        .ok (mapText n key value) := by
  have hconst : Bytes.ofString ") const " = ") " ++ ("const" ++ " ") := by decide
  have hnew : Bytes.ofString " = new Map<" =
      " " ++ ("=" ++ (" " ++ ("new" ++ (" " ++ ("Map" ++ "<"))))) := by decide
  have hend : Bytes.ofString ">();" = ">" ++ ("(" ++ (")" ++ ";")) := by decide
  refine ⟨compile_mapTypes hversion hn hkey hvalue hk hv,
    compile_mapNamed hversion hn hkey hvalue hk hv, ?_, ?_, ?_⟩
  · have hstart : Bytes.ofString "@map(\x7b key: " = "@map(" ++ "\x7b key: " := by decide
    have hclose : Bytes.ofString " \x7d) const " = " \x7d" ++ (") " ++ ("const" ++ " ")) := by
      decide
    have hsound := Ty.sound_pair (by decide) (isName_of_mem_fixed (w := "key") (by simp))
      (isName_of_mem_fixed (w := "value") (by simp)) hkey hvalue
    have hcompile := compile_shaped hversion hsound (laidOut_shape hkey hvalue hk hv) rfl rfl
      (bindingReadsAs_bare hn) (i := none) nofun (laidApart_bare hn)
    simpa only [hstart, hclose, append_assoc] using hcompile
  · have hstart : Bytes.ofString "@map const " = "@map" ++ (" " ++ ("const" ++ " ")) := by decide
    have hcompile := compile_mapConst hversion decoratorReadsAs_bare
      (bindingReadsAs_creation hn hkey hvalue) (i := some _)
      (by rintro _ ⟨⟩; exact ⟨_, _, _, rfl⟩) rfl (by simp)
      (LaidApart.blank (cons_ne_nil _ _) (laidApart_creation hn hkey hvalue hk hv))
    simpa only [hstart, hnew, hend, append_assoc] using hcompile
  · intro shape key' value' s k' v' hshape hs hget hget' hkey' hk' hvalue' hv'
    have hcompile := compile_shaped hversion hshape hs hget hget'
      (bindingReadsAs_creation hn hkey' hvalue') (i := some _)
      (by rintro _ ⟨⟩; exact ⟨_, _, _, rfl⟩) (laidApart_creation hn hkey' hvalue' hk' hv')
    simpa only [hconst, hnew, hend, append_assoc] using hcompile

/-- A value type that ends with two brackets, right before a third. -/
theorem compile_maps_nested :
    ({} : Options).compile "map<principal, list<optional<uint>>> m;" =
      .ok "(define-map m principal (list (optional uint)))" ∧
    ({} : Options).compile "map m: Map<principal, list<optional<uint>>>;" =
      .ok "(define-map m principal (list (optional uint)))" ∧
    ({} : Options).compile
        "@map(\x7b key: principal, value: list<optional<uint>> \x7d) const m;" =
      .ok "(define-map m principal (list (optional uint)))" ∧
    ({} : Options).compile "@map const m = new Map<principal, list<optional<uint>>>();" =
      .ok "(define-map m principal (list (optional uint)))" ∧
    ({} : Options).compile
        "@map(\x7bvalue:list<optional<uint>>,key:principal\x7d) const m = new Map<bool, int>();" =
      .ok "(define-map m principal (list (optional uint)))" := by
  have hname {w : Bytes} (hw : w.isName = true) :
      (Node.type (.named ⟨w, {}⟩)).All (Node.Sound []) :=
    Node.all_iff.2 ⟨trivial, forall_mem_singleton.2 (Node.all_iff.2 ⟨hw, nofun⟩)⟩
  have hvalue : (Node.type (.list {} (.optional {} (.named ⟨"uint", {}⟩)))).All (Node.Sound []) :=
    Node.all_iff.2 ⟨trivial, forall_mem_singleton.2 (Node.all_iff.2 ⟨trivial,
      forall_mem_singleton.2 (hname (by decide))⟩)⟩
  have hkey := hname (w := "principal") (by decide)
  have hshape := Ty.sound_pair (by decide) (isName_of_mem_fixed (w := "value") (by simp))
    (isName_of_mem_fixed (w := "key") (by simp)) hvalue hkey
  have hlaid {t : Ty} (ht : (Node.type t).All (Node.Sound [])) :
      LaidOut t.words t.source.glyphs := .flatMap (t.isPhrase ht).plain
  have hbool := hname (w := "bool") (by decide)
  have hint := hname (w := "int") (by decide)
  obtain ⟨h₁, h₂, h₃, h₄, h₅⟩ :=
    compile_maps (o := {}) (n := "m") rfl (by decide) hkey hvalue (hlaid hkey)
    (hlaid hvalue)
  have h₅ := h₅ _ _ _ _ _ _ hshape (hlaid hshape) rfl rfl hbool (hlaid hbool) hint (hlaid hint)
  have htext : mapText "m" (.named ⟨"principal", {}⟩)
      (.list {} (.optional {} (.named ⟨"uint", {}⟩))) =
        "(define-map m principal (list (optional uint)))" := by decide
  exact ⟨(congrArg _ (by decide)).trans h₁, (congrArg _ (by decide)).trans h₂,
    (congrArg _ (by decide)).trans h₃, (congrArg _ (by decide)).trans h₄,
    (congrArg _ (by decide)).trans h₅⟩

end Options

end Covenant
