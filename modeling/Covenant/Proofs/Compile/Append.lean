import Covenant.Proofs.Compile.Layout
import Covenant.Proofs.Program.Calls
import Covenant.Proofs.Token.Append
import Covenant.Proofs.Tree.Append

/-!
# Compiling two sources as one

No stage looks across the end of a statement: not the scanner, for a line break is between the
sources; not the parsers, for the first source ends with a semicolon; not the builder, once the
names of the assets are known; and not the renderer, which only sets a function or an export off
from what stands before it.

The names that both sources have to know are those of the classes that are declared outside of
other classes.  A class inside the decorator of another one is not collected, so that a call on it
means one thing when the name is known beforehand, and another one in the joined source.
-/

namespace Covenant

open List Program Tree

/-! ### Programs -/

namespace Program

/-- **The statements of two programs with one list of assets** are those of the program with the
trees of both, in which the same names are known. -/
theorem ofTree_append {assets known : List Bytes}
    (hknown : ∀ n, n ∈ known ↔
      n ∈ assets ∨ n ∈ declaredAssetsAll kids ∨ n ∈ declaredAssetsAll more)
    (hfirst : ofTree known (.node .program p kids) = .ok first)
    (hsecond : ofTree known (.node .program q more) = .ok second) (r : Pos) :
    ofTree assets (.node .program r (kids ++ more)) =
      .ok ⟨first.statements ++ second.statements⟩ := by
  obtain ⟨stmt, hstmt, hss⟩ := exists_statements_of_ofTree hfirst
  obtain ⟨stmt', hstmt', hss'⟩ := exists_statements_of_ofTree hsecond
  -- each of the three programs knows the same names
  have hjoined {ts : List Tree} (hts : ts = kids ∨ ts = more) (n : Bytes) :
      n ∈ Program.known known ts ↔ n ∈ Program.known assets (kids ++ more) := by
    simp only [Program.known, declaredAssetsAll_eq_flatMap, flatMap_append, mem_append, hknown]
    obtain rfl | rfl := hts <;> tauto
  let built (t : Tree) : Stmt :=
    (t.statement? (Program.known assets (kids ++ more))).getD (.returnStmt {} none)
  have hbuilt {ts : List Tree} {f : Tree → Stmt} (hts : ts = kids ∨ ts = more)
      (hf : ∀ t ∈ ts, t.statement? (Program.known known ts) = some (f t)) :
      (∀ t ∈ ts, t.statement? (Program.known assets (kids ++ more)) = some (built t)) ∧
        ts.map f = ts.map built := by
    have hsame : ∀ t ∈ ts, t.statement? (Program.known assets (kids ++ more)) = some (f t) :=
      fun t ht => statement?_congr (hjoined hts) t ▸ hf t ht
    have heq : ∀ t ∈ ts, f t = built t := fun t ht => by
      simp only [built, hsame t ht, Option.getD_some]
    exact ⟨fun t ht => heq t ht ▸ hsame t ht, map_congr_left heq⟩
  obtain ⟨hkids, hmap⟩ := hbuilt (.inl rfl) hstmt
  obtain ⟨hmore, hmap'⟩ := hbuilt (.inr rfl) hstmt'
  rw [ofTree_of_statements r (forall_mem_append.2 ⟨hkids, hmore⟩), map_append, hss, hss',
    hmap, hmap']

theorem renderRest_append (h : renderRest target ss = .ok out)
    (h' : renderRest target ss' = .ok out') :
    renderRest target (ss ++ ss') = .ok (out ++ out') := by
  induction ss generalizing out with
  | nil =>
    cases h
    exact h'
  | cons s ss ih =>
    obtain ⟨x, hx, h⟩ := of_bind_eq_ok h
    obtain ⟨rest, hrest, hout⟩ := of_bind_eq_ok h
    cases hout
    rw [cons_append, renderRest, hx, ih hrest]
    exact congrArg Except.ok (append_assoc _ _ _).symm

/-- **The text of two programs as one** is the text of both, with a line break between them, or two
before a function or an export. -/
theorem render_append (hss : ss ≠ []) (h : render target ⟨ss⟩ = .ok out)
    (h' : render target ⟨s :: ss'⟩ = .ok out') :
    render target ⟨ss ++ s :: ss'⟩ = .ok (out ++ separator s ++ out') := by
  obtain ⟨s₀, ss, rfl⟩ := exists_cons_of_ne_nil hss
  obtain ⟨x, hx, h⟩ := of_bind_eq_ok h
  obtain ⟨rest, hrest, hout⟩ := of_bind_eq_ok h
  cases hout
  obtain ⟨y, hy, h'⟩ := of_bind_eq_ok h'
  obtain ⟨rest', hrest', hout'⟩ := of_bind_eq_ok h'
  cases hout'
  have hsecond : renderRest target (s :: ss') = .ok (separator s ++ y ++ rest') := by
    rw [renderRest, hy, hrest']
    rfl
  have hall := renderRest_append hrest hsecond
  change (do return (← renderOne target s₀) ++ (← renderRest target (ss ++ s :: ss'))) = _
  rw [hx, hall]
  simp only [append_assoc]
  rfl

theorem renderable_append (h : (Node.program ss).All Node.Renderable)
    (h' : (Node.program ss').All Node.Renderable) :
    (Node.program (ss ++ ss')).All Node.Renderable := by
  have hchildren : (Node.program (ss ++ ss')).children =
      (Node.program ss).children ++ (Node.program ss').children := map_append
  refine Node.all_iff.2 ⟨forall_mem_append.2 ⟨h.self, h'.self⟩, ?_⟩
  rw [hchildren]
  exact forall_mem_append.2 ⟨h.below, h'.below⟩

end Program

/-! ### Sources -/

/-- The last token of the source, before the end of input, is a semicolon. -/
def Token.EndsStatement (source : Bytes) : Prop :=
  EndsOnSemicolon (scan source).dropLast

theorem Tree.exists_parse_append (hnul : 0 ∉ first) (hlast : Token.EndsStatement first)
    (hfirst : parse first = .ok (.node .program p stmts))
    (hsecond : parse second = .ok (.node .program q more)) :
    stmts ≠ [] ∧ ∃ r u, parse (first ++ "\n" ++ second) = .ok u ∧
      Like (Token.Alike true) (.node .program r (stmts ++ more)) u := by
  obtain ⟨-, -, ts, e, -, -, hscan, -, hlegal, -⟩ := derives_parse hfirst
  have hend : Token.EndsOnSemicolon ts := by
    rwa [Token.EndsStatement, hscan, dropLast_concat] at hlast
  obtain ⟨vs, ws, hjoined, hvs, hws⟩ := Token.scan_append hnul hscan
    (fun u hu => (hlegal u hu).2) (Token.isApart_scan hsecond).legal
  have hsound : ∀ u ∈ Token.scan first, u.isSound = true := fun _ hu => Token.isSound_of_mem_scan hu
  rw [hscan] at hsound
  have halike : Forall₂ (Token.Alike true) ts vs :=
    ((forall₂_and_left _ _).2 ⟨(forall_mem_append.1 hsound).1, hvs⟩).imp
      fun _ _ ⟨hsound, hkind, hliteral⟩ => ⟨hkind, fun _ => hliteral, hsound⟩
  have he : ∃ e', Token.Alike true e e' :=
    ⟨e, rfl, fun _ => rfl, (forall_mem_append.1 hsound).2 e mem_cons_self⟩
  obtain ⟨hne, r, stmts', more', hparse, hstmts, hmore⟩ := parse_append Token.tokenLike hfirst
    hsecond hscan hend he hjoined halike (Token.alike_of_sameText hws)
  exact ⟨hne, r, _, hparse, .node trivial (rel_append hstmts hmore)⟩

namespace Options

variable {o : Options}

theorem compile_eq_ok_iff : o.compile source = .ok out ↔ ∃ target t p, o.version = .ok target ∧
      parse source = .ok t ∧ ofTree o.assets t = .ok p ∧ p.render target = .ok out := by
  rw [compile_eq]
  constructor
  · intro h
    obtain ⟨target, hv, h⟩ := of_bind_eq_ok h
    cases hrun : o.programOrFault source >>= fun p => p.render target with
    | error f =>
      rw [hrun] at h
      cases h
    | ok text =>
      rw [hrun] at h
      cases h
      obtain ⟨p, hp, hrender⟩ := of_bind_eq_ok hrun
      obtain ⟨t, ht, hp⟩ := of_bind_eq_ok hp
      exact ⟨target, t, p, hv, ht, hp, hrender⟩
  · rintro ⟨target, t, p, hv, ht, hp, hrender⟩
    have hrun : (o.programOrFault source >>= fun p => p.render target) = .ok out := by
      rw [programOrFault, ht]
      change ofTree o.assets t >>= _ = _
      rw [hp]
      exact hrender
    rw [hv]
    change Except.mapError _ _ = _
    rw [hrun]
    rfl

def withAssets (o : Options) (known : List Bytes) : Options :=
  { o with assets := known }

theorem compile_of_like {target : Version} (hv : o.version = .ok target)
    (hu : parse source = .ok u) (hlike : Tree.Like (Token.Alike true) t u)
    (hp : Program.ofTree o.assets t = .ok p)
    (hall : (Node.program p.statements).All Node.Renderable) (hrender : p.render target = .ok out) :
    o.compile source = .ok out := by
  have hprogram := Program.like_ofTree o.assets hlike
  rw [hp] at hprogram
  cases hq : Program.ofTree o.assets u with
  | error f =>
    rw [hq] at hprogram
    cases hprogram
  | ok q =>
    rw [hq] at hprogram
    have hsame := Program.same_render target hall (Program.renderable_of_parse hu hq) hprogram.veil
    rw [hrender] at hsame
    cases hrender' : q.render target with
    | error f =>
      rw [hrender'] at hsame
      cases hsame
    | ok out' =>
      rw [hrender'] at hsame
      cases hsame
      exact compile_eq_ok_iff.2 ⟨target, u, q, hv, hu, hq, hrender'⟩

/-- **Two sources are compiled one after the other.**  The first one has no NUL byte and ends with a
semicolon, and the second one has a statement.  When both are compiled with the names that are
declared in either, outside of other classes, the text of both on separate lines is compiled to
what they are compiled to, with a line break between, and one more before a function or an export.
Where no class lies inside another, these are all names that are declared. -/
theorem compile_append (o : Options) {first second : Bytes} {t u : Tree} {known : List Bytes}
    {s : Stmt} {ss : List Stmt} {out out' : Bytes} (hnul : 0 ∉ first)
    (hlast : Token.EndsStatement first) (ht : parse first = .ok t)
    (hu : parse second = .ok u)
    (hknown : ∀ n, n ∈ known ↔ n ∈ o.assets ∨ t.DeclaresOutside n ∨ u.DeclaresOutside n)
    (hfirst : (o.withAssets known).compile first = .ok out)
    (hsecond : (o.withAssets known).compile second = .ok out')
    (hss : (o.withAssets known).programOrFault second = .ok ⟨s :: ss⟩) :
    o.compile (first ++ "\n" ++ second) =
        .ok (out ++ "\n" ++ (if s.isSetOff then Bytes.ofString "\n" else []) ++ out') ∧
      (t.IsFlat → u.IsFlat → ∀ n, n ∈ known ↔ n ∈ o.assets ∨ t.Declares n ∨ u.Declares n) := by
  have hformed := formed_parse ht
  have hformed' := formed_parse hu
  refine ⟨?_, fun hflat hflat' n => ?_⟩
  · simp only [← mem_declaredAssets hformed, ← mem_declaredAssets hformed'] at hknown
    obtain ⟨p, stmts, -, rfl, -⟩ := parses_parse ht
    obtain ⟨q, more, -, rfl, -⟩ := parses_parse hu
    simp only [declaredAssets_program] at hknown
    obtain ⟨target, _, program, hv, ht', hp, hrender⟩ := compile_eq_ok_iff.1 hfirst
    cases ht.symm.trans ht'
    obtain ⟨_, _, program', hv', hu', hp', hrender'⟩ := compile_eq_ok_iff.1 hsecond
    cases hu.symm.trans hu'
    cases hv.symm.trans hv'
    rw [programOrFault, hu] at hss
    cases hp'.symm.trans hss
    obtain ⟨hne, r, j, hj, hlike⟩ := exists_parse_append hnul hlast ht hu
    have hstatements : program.statements ≠ [] := by
      obtain ⟨stmt, -, hmap⟩ := exists_statements_of_ofTree hp
      rw [hmap]
      exact mt map_eq_nil_iff.1 hne
    have hseparator : separator s =
        "\n" ++ (if s.isSetOff then Bytes.ofString "\n" else []) := by
      rw [separator]
      split <;> rfl
    have htext := render_append hstatements hrender hrender'
    rw [hseparator, ← append_assoc] at htext
    exact compile_of_like hv hj hlike (ofTree_append hknown hp hp' r)
      (renderable_append (renderable_of_parse ht hp)
        (renderable_of_parse hu hp')) htext
  · rw [hknown, hflat.declaresOutside_iff hformed, hflat'.declaresOutside_iff hformed']

def declaredCall : Bytes :=
  "@asset class Cat \x7b\x7d Cat.of(1);"

def laterCall : Bytes :=
  "function f() \x7b Cat.of(2); \x7d"

/-- The function is set off from what stands before it, and knows the asset. -/
theorem compile_append_laterCall :
    Token.EndsStatement declaredCall ∧
      (({} : Options).withAssets ["Cat"]).compile declaredCall =
        .ok "(define-non-fungible-token Cat)\n(nft-of? Cat 1)" ∧
      (({} : Options).withAssets ["Cat"]).compile laterCall =
        .ok "(define-private (f)\n  (nft-of? Cat 2))" ∧
      ({} : Options).compile (declaredCall ++ "\n" ++ laterCall) =
        .ok ("(define-non-fungible-token Cat)\n(nft-of? Cat 1)" ++ "\n" ++ "\n" ++
          "(define-private (f)\n  (nft-of? Cat 2))") := by
  have hlast : Token.EndsStatement declaredCall := by
    rw [Token.EndsStatement, Token.EndsOnSemicolon]
    decide
  have hfirst : (({} : Options).withAssets ["Cat"]).compile declaredCall =
      .ok "(define-non-fungible-token Cat)\n(nft-of? Cat 1)" :=
    eq_ok_of_toOption (by decide)
  have hsecond : (({} : Options).withAssets ["Cat"]).compile laterCall =
      .ok "(define-private (f)\n  (nft-of? Cat 2))" := eq_ok_of_toOption (by decide)
  obtain ⟨-, t, -, -, ht, -⟩ := compile_eq_ok_iff.1 hfirst
  obtain ⟨-, u, ⟨stmts⟩, -, hu, hp, -⟩ := compile_eq_ok_iff.1 hsecond
  have hnames : (t.declaredAssets, u.declaredAssets) = ([Bytes.ofString "Cat"], []) := by
    have hrun : (parse declaredCall >>= fun t => parse laterCall >>= fun u =>
        .ok (t.declaredAssets, u.declaredAssets)).toOption = some ([Bytes.ofString "Cat"], []) := by
      decide
    rw [ht, hu] at hrun
    exact Option.some.inj hrun
  have hknown : ∀ n, n ∈ [Bytes.ofString "Cat"] ↔
      n ∈ ({} : Options).assets ∨ t.DeclaresOutside n ∨ u.DeclaresOutside n := by
    obtain ⟨hnames, hnames'⟩ := Prod.mk.inj hnames
    intro n
    simp [← mem_declaredAssets (formed_parse ht), hnames,
      ← mem_declaredAssets (formed_parse hu), hnames']
  have hss : (({} : Options).withAssets ["Cat"]).programOrFault laterCall = .ok ⟨stmts⟩ := by
    rw [programOrFault, hu]
    exact hp
  have hoff : stmts.map Stmt.isSetOff = [true] := by
    have hrun : ((({} : Options).withAssets ["Cat"]).programOrFault laterCall).toOption.map
        (fun p => p.statements.map Stmt.isSetOff) = some [true] := by decide
    rw [hss] at hrun
    exact Option.some.inj hrun
  obtain ⟨s, ss, rfl, hs, -⟩ := map_eq_cons_iff.1 hoff
  have happend := (compile_append {} (by decide) hlast ht hu hknown hfirst hsecond hss).1
  rw [hs] at happend
  exact ⟨hlast, hfirst, hsecond, happend⟩

end Options

theorem Tree.declares_nestedClass (n : Bytes) :
    nestedClass.Declares n ↔ n ∈ [Bytes.ofString "X", Bytes.ofString "Y"] := by
  constructor
  · rintro ⟨u, hu, hclass⟩
    simp only [nestedClass, contains_node_iff, contains_leaf_iff, mem_cons, not_mem_nil,
      or_false, or_and_right, exists_or, exists_eq_left, false_and, exists_false] at hu
    obtain ⟨p, ds, x, fields, rfl, -⟩ := id hclass
    have hname := assetName?_of_isClass hclass
    simp only [node.injEq, reduceCtorEq, false_and, false_or, or_false] at hu
    obtain ⟨-, -, heq⟩ | ⟨-, -, heq⟩ := hu
    · rw [heq] at hname
      cases hname
      exact mem_cons_self
    · rw [heq] at hname
      cases hname
      exact mem_cons_of_mem _ mem_cons_self
  · simp only [mem_cons, not_mem_nil, or_false]
    rintro (rfl | rfl)
    · refine ⟨_, .kid (.head _) (.refl _), _, [.node .decorator ⟨1, 1⟩ _], _, _, rfl, ?_, rfl, rfl⟩
      simp [shape]
    · refine ⟨_, .kid (.head _) (.kid (.head _) (.kid (.tail _ (.head _)) (.kid (.tail _ (.head _))
        (.kid (.head _) (.refl _))))), ⟨1, 23⟩, [.node .decorator ⟨1, 16⟩ _], _, _, rfl,
        ?_, rfl, rfl⟩
      simp [shape]

namespace Options

/-- **A class inside the decorator of another one** is declared in the first source.  Its name is
known to each of the sources when it is given, but not to both as one. -/
theorem compile_append_nestedClass :
    parse "@asset(() => \x7b @asset class Y \x7b\x7d \x7d) class X \x7b\x7d Y.f(1);" =
        .ok nestedClass ∧
      (∀ n, n ∈ [Bytes.ofString "X", Bytes.ofString "Y"] ↔ nestedClass.Declares n) ∧
      Token.EndsStatement
        "@asset(() => \x7b @asset class Y \x7b\x7d \x7d) class X \x7b\x7d Y.f(1);" ∧
      (({} : Options).withAssets ["X", "Y"]).compile
        "@asset(() => \x7b @asset class Y \x7b\x7d \x7d) class X \x7b\x7d Y.f(1);" =
        .ok "(define-non-fungible-token X)\n(nft-f? Y 1)" ∧
      (({} : Options).withAssets ["X", "Y"]).compile "const a = 1;" =
        .ok "(define-constant a 1)" ∧
      ({} : Options).compile
        ("@asset(() => \x7b @asset class Y \x7b\x7d \x7d) class X \x7b\x7d Y.f(1);" ++ "\n" ++
          "const a = 1;") =
        .ok "(define-non-fungible-token X)\n(contract-call? .Y f 1)\n(define-constant a 1)" := by
  refine ⟨rfl, fun n => (declares_nestedClass n).symm, ?_, eq_ok_of_toOption (by decide),
    eq_ok_of_toOption (by decide), eq_ok_of_toOption (by decide)⟩
  rw [Token.EndsStatement, Token.EndsOnSemicolon]
  decide

end Options

end Covenant
