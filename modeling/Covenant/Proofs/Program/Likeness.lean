import Covenant.Compile
import Covenant.Proofs.Program.Likeness.Expression
import Covenant.Proofs.Program.Likeness.Statement
import Covenant.Proofs.Tree.Likeness.Grammar

/-!
# Likeness of builds

Building looks at no place, and at the contents of a string only where keys must differ.  So like
trees are both built or both refused, when strings correspond exactly; and what is built from them
is equal up to places.  With other strings in it a tree may be refused alone; when both trees are
built, the results are equal up to places and strings.  Either way all parts are sound.
-/

namespace Covenant

open List Tree

variable {assets : List Bytes}

/-! ### Tokens -/

theorem Token.tokenLike : TokenLike (Alike keep) where
  kind h := h.kind
  literal h hs := h.literal (.inr hs)
  greater _ _ := ⟨rfl, fun _ => rfl, by simp [isSound]; decide⟩
  eof := ⟨rfl, fun _ => rfl, by simp [isSound]; decide⟩

theorem Token.alike_of_sameText (h : Forall₂ SameText (scan source) ts) :
    Forall₂ (Alike true) (scan source) ts := by
  have hsound : ∀ t ∈ scan source, t.isSound = true := fun _ ht => isSound_of_mem_scan ht
  exact ((forall₂_and_left _ _).2 ⟨hsound, h⟩).imp
    fun _ _ ⟨hsound, hkind, hliteral⟩ => ⟨hkind, fun _ => hliteral, hsound⟩

theorem Token.forall₂_scan (source : Bytes) : Forall₂ (Alike true) (scan source) (scan source) :=
  alike_of_sameText (forall₂_same.2 fun _ _ => ⟨rfl, rfl⟩)

theorem Item.like_ofToken (h : Token.Alike keep t u) :
    Alike keep (Like keep assets) (ofToken t) (ofToken u) := by
  obtain ⟨hkind, hliteral, hsound⟩ := h
  obtain ⟨k, l, p⟩ := t
  obtain ⟨k', l', p'⟩ := u
  dsimp only at hkind hliteral
  subst hkind
  cases k with
  | string =>
    have hveil : l.veil keep = l'.veil keep := by
      cases keep with
      | true => rw [hliteral (.inl rfl)]
      | false => rfl
    exact Like.expr (.of_leaf (by simp only [Node.veil, Expr.veil, Literal.veil, hveil])
      trivial rfl)
  | ident =>
    obtain rfl := hliteral (.inr (by decide))
    exact Like.expr (.of_leaf (by simp only [Node.veil, Expr.veil, Ident.veil]) hsound rfl)
  | int =>
    obtain rfl := hliteral (.inr (by decide))
    simp only [ofToken]
    split
    · next v hv =>
      refine Like.expr (.of_leaf (by simp only [Node.veil, Expr.veil]) ?_ rfl)
      rintro rfl
      exact absurd (Numeral.toInt_nonneg hsound hv) (by decide)
    · exact fun _ => rfl
  | float =>
    obtain rfl := hliteral (.inr (by decide))
    simp only [ofToken]
    split
    · exact Like.expr (.of_leaf (by simp only [Node.veil, Expr.veil]) trivial rfl)
    · exact fun _ => rfl
  | kwTrue | kwFalse =>
    obtain rfl := hliteral (.inr (by decide))
    exact Like.expr (.of_leaf (by simp only [Node.veil, Expr.veil]) trivial rfl)
  | kwNone => exact Like.expr (.of_leaf (by simp only [Node.veil, Expr.veil]) trivial rfl)
  | principal =>
    obtain rfl := hliteral (.inr (by decide))
    exact Like.expr (.of_leaf (by simp only [Node.veil, Expr.veil]) hsound rfl)
  | _ => exact Like.token ⟨rfl, fun _ => hliteral (.inr (by decide)), hsound⟩

theorem Item.ofToken_of_isOperator (h : t.kind.isOperator = true) : ofToken t = .ok (.token t) := by
  unfold ofToken
  split
  case h_9 => rfl
  all_goals
    next hk =>
      rw [hk] at h
      cases h

/-! ### Operators among items -/

def Rule.fitsItems : Rule → List Item → Prop
  | .binary level, is =>
    ∃ (first : Item) (xs : List (Token × Item)),
    is = first :: xs.flatMap (fun x => [.token x.1, x.2]) ∧
      ∀ x ∈ xs, x.1.kind ∈ level.operators
  | .unary, is => ∃ t i, is = [.token t, i] ∧ (t.kind = .bang ∨ t.kind = .minus)
  | _, _ => True

theorem Tree.exists_of_buildAll_cons {t : Tree} (h : buildAll assets (t :: ts) = .ok is) :
    ∃ i js, t.build assets = .ok i ∧ buildAll assets ts = .ok js ∧ is = i :: js := by
  obtain ⟨i, hi, h⟩ := of_bind_eq_ok h
  obtain ⟨js, hjs, h⟩ := of_bind_eq_ok h
  cases h
  exact ⟨i, js, hi, hjs, rfl⟩

theorem Tree.eq_token_of_build (hop : t.kind.isOperator = true)
    (h : build assets (.leaf t) = .ok i) : i = .token t := by
  rw [build, Item.ofToken_of_isOperator hop] at h
  exact (Except.ok.inj h).symm

theorem Tree.buildAll_operations {level : Level} {more : List (Tree × Tree)}
    (hops : ∀ x ∈ more, ∃ op, x.1 = .leaf op ∧ op.kind ∈ level.operators)
    (h : buildAll assets (more.flatMap fun x => [x.1, x.2]) = .ok is) :
    ∃ xs : List (Token × Item), is = xs.flatMap (fun x => [.token x.1, x.2]) ∧
      ∀ x ∈ xs, x.1.kind ∈ level.operators := by
  induction more generalizing is with
  | nil =>
    cases h
    exact ⟨[], rfl, forall_mem_nil _⟩
  | cons x more ih =>
    obtain ⟨⟨op, hx, hop⟩, hops⟩ := forall_mem_cons.1 hops
    rw [flatMap_cons, hx] at h
    obtain ⟨_, _, htoken, hright, rfl⟩ := exists_of_buildAll_cons h
    obtain rfl := eq_token_of_build (Level.isOperator_of_mem hop) htoken
    obtain ⟨i, _, -, hmore, rfl⟩ := exists_of_buildAll_cons hright
    obtain ⟨xs, rfl, hxs⟩ := ih hops hmore
    exact ⟨(op, i) :: xs, rfl, forall_mem_cons.2 ⟨hop, hxs⟩⟩

theorem Rule.fitsItems_of_fits {rule : Rule} {kids : List Tree} (hfits : rule.fits kids)
    (h : buildAll assets kids = .ok is) : rule.fitsItems is := by
  cases rule with
  | binary level =>
    obtain ⟨first, more, rfl, hops⟩ := hfits
    obtain ⟨i, _, -, hmore, rfl⟩ := exists_of_buildAll_cons h
    obtain ⟨xs, rfl, hxs⟩ := buildAll_operations hops hmore
    exact ⟨i, xs, rfl, hxs⟩
  | unary =>
    obtain ⟨op, e, rfl, hop⟩ := hfits
    have hoperator : op.kind.isOperator = true := by obtain hk | hk := hop <;> rw [hk] <;> rfl
    obtain ⟨_, _, htoken, hoperand, rfl⟩ := exists_of_buildAll_cons h
    obtain rfl := eq_token_of_build hoperator htoken
    obtain ⟨i, _, -, hnil, rfl⟩ := exists_of_buildAll_cons hoperand
    cases hnil
    exact ⟨op, i, rfl, hop⟩
  | _ => trivial

theorem Site.like_build {rule : Rule} (hfits : rule.fitsItems is)
    (h : Forall₂ (Item.Like keep assets) is js) :
    Alike keep (Item.Like keep assets) (build assets ⟨rule, p⟩ is)
      (build assets ⟨rule, q⟩ js) := by
  cases rule with
  | program => exact (like_program h).bind fun _ _ hp => .program hp
  | functionDecl => exact like_functionDecl h
  | decorator => exact like_decorator h
  | variableDecl => exact like_variableDecl h
  | constantDecl => exact like_constantDecl h
  | mapDecl => exact like_mapDecl h
  | assetDecl => exact like_assetDecl h
  | assetField => exact like_assetField h
  | traitDecl => exact like_traitDecl h
  | signature => exact like_signature h
  | exprStmt => exact like_exprStmt h
  | ifStmt => exact like_ifStmt h
  | tryStmt => exact like_tryStmt h
  | throwStmt => exact like_throwStmt h
  | returnStmt => exact like_returnStmt h
  | importDecl => exact like_importDecl h
  | exportDecl => exact like_exportDecl h
  | block => exact like_blockItem h
  | parameters => exact like_parameters h
  | parameter => exact like_parameterItem h
  | arguments => exact like_arguments h
  | assignment => exact like_assignment h
  | conditional => exact like_conditional h
  | binary level =>
    obtain ⟨first, xs, rfl, hops⟩ := hfits
    exact like_binary hops h
  | unary =>
    obtain ⟨t, i, rfl, hop⟩ := hfits
    exact like_unary hop h
  | suffixed => exact like_suffixed h
  | call => exact like_call h
  | member => exact like_member h
  | isSuffix => exact like_typeCheck h
  | asSuffix => exact like_typeAssertion h
  | listLit => exact like_list h
  | tupleLit => exact like_tuple h
  | tupleItem => exact like_tupleItem h
  | comprehension => exact like_comprehension h
  | lambda => exact like_lambda h
  | newExpr => exact like_creation h
  | literal => exact like_literal h
  | namedType => exact like_namedType h
  | listType => exact like_listType h
  | tupleType => exact like_tupleType h
  | tupleTypeItem => exact like_tupleTypeItem h
  | optionalType => exact like_optionalType h
  | responseType => exact like_responseType h
  | other => exact fun _ => rfl

/-! ### Trees -/

namespace Tree

mutual

theorem like_build : ∀ (t : Tree) {u : Tree}, Like (Token.Alike keep) t u →
    Alike keep (Item.Like keep assets) (t.build assets) (u.build assets)
  | .leaf t, _, h => by
    cases h with
    | leaf h =>
      exact Item.like_ofToken h
  | .node rule p kids, _, h => by
    cases h with
    | node hfits h =>
      rw [build, build]
      have hitems := (like_buildAll kids h).and_left fun _ hok => Rule.fitsItems_of_fits hfits hok
      exact hitems.bind fun _ _ his => Site.like_build his.2 his.1

theorem like_buildAll : ∀ (ts : List Tree) {us : List Tree},
    Forall₂ (Like (Token.Alike keep)) ts us →
    Alike keep (Forall₂ (Item.Like keep assets)) (buildAll assets ts) (buildAll assets us)
  | [], _, h => by
    cases h
    exact Forall₂.nil
  | t :: ts, _, h => by
    cases h with
    | cons ht hts =>
      exact (like_build t ht).bind fun _ _ hi => (like_buildAll ts hts).bind fun _ _ his =>
        .cons hi his

end

theorem assetName?_congr (h : Forall₂ (Like (Token.Alike keep)) ts us) :
    assetName? ts = assetName? us := by
  induction h with
  | nil => rfl
  | cons ht _ ih =>
    unfold assetName? at ih ⊢
    rw [findSome?_cons, findSome?_cons, ih]
    cases ht with
    | node => rfl
    | @leaf t u h =>
      have hname : (if t.kind = .ident then some t.literal else none) =
          if u.kind = .ident then some u.literal else none := by
        rw [← h.kind]
        split
        · next hk => rw [h.literal (.inr (by rw [hk]; decide))]
        · rfl
      dsimp only
      rw [hname]

mutual

theorem declaredAssets_congr : ∀ (t : Tree) {u : Tree}, Like (Token.Alike keep) t u →
    t.declaredAssets = u.declaredAssets
  | .leaf t, _, h => by
    cases h
    rw [declaredAssets, declaredAssets]
  | .node rule p kids, _, h => by
    cases h with
    | node hfits h =>
      by_cases hrule : rule = .assetDecl
      · rw [hrule, declaredAssets, declaredAssets, assetName?_congr h]
      · rw [declaredAssets, declaredAssets, declaredAssetsAll_congr kids h]
        all_goals assumption

theorem declaredAssetsAll_congr : ∀ (ts : List Tree) {us : List Tree},
    Forall₂ (Like (Token.Alike keep)) ts us → declaredAssetsAll ts = declaredAssetsAll us
  | [], _, h => by
    cases h
    rfl
  | t :: ts, _, h => by
    cases h with
    | cons ht hts =>
      rw [declaredAssetsAll, declaredAssetsAll, declaredAssets_congr t ht,
        declaredAssetsAll_congr ts hts]

end

end Tree

/-! ### Programs -/

theorem Program.like_ofTree (assets : List Bytes) {t u : Tree}
    (h : Tree.Like (Token.Alike keep) t u) :
    Alike keep (fun p q => Via keep (assets ++ t.declaredAssets) .program p.statements q.statements)
      (ofTree assets t) (ofTree assets u) := by
  have hassets := declaredAssets_congr t h
  cases h with
  | leaf => exact fun _ => rfl
  | @node ts _ _ _ rule _ h =>
    cases rule with
    | program =>
      unfold ofTree
      rw [← hassets]
      exact (like_buildAll ts h).bind fun _ _ his => Site.like_program his
    | _ => exact fun _ => rfl

/-- All parts of a program that comes from a source are sound. -/
theorem Program.sound_of_parse {t : Tree}
    (ht : parse source = .ok t) (hp : ofTree assets t = .ok p) :
    (Node.program p.statements).All (Node.Sound (assets ++ t.declaredAssets)) := by
  have hlike := like_parse Token.tokenLike (Token.forall₂_scan source)
  rw [ht] at hlike
  have hprogram := like_ofTree assets hlike
  rw [hp] at hprogram
  exact hprogram.sound

end Covenant
