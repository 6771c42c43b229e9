import Covenant.Proofs.Program.Likeness
import Covenant.Proofs.Program.Writing
import Covenant.Proofs.Tree.Places

/-!
# What trees mean

A tree means an item when it is built as that item, up to places.  What the nodes of a tree mean
follows from what their subtrees mean: building like items gives like results, so it is enough to
look at the items of the program that is to be found again.
-/

namespace Covenant

open List

open Token (symbol word keyword)

variable {α β : Type}

/-- The tree is built as the item, up to places, all parts of that are sound, and no asset is
declared in the tree. -/
structure Tree.Means (assets : List Bytes) (t : Tree) (i : Item) : Prop where
  build : ∃ j, t.build assets = .ok j ∧ Item.Like true assets j i
  declares : t.declaredAssets = []

/-! ### Nodes -/

theorem Alike.exists_of_ok {A : α → β → Prop} {x : Except Fault α} {b : β}
    (h : Alike true A x (.ok b)) : ∃ a, x = .ok a ∧ A a b := by
  cases x with
  | ok a => exact ⟨a, rfl, h⟩
  | error f => cases h

namespace Tree

theorem Means.congr {t : Tree} {e e' : Expr} (h : t.Means assets (.ofExpr e))
    (he : e.veil true = e'.veil true) : t.Means assets (.ofExpr e') := by
  obtain ⟨j, hj, hlike⟩ := h.build
  refine ⟨⟨j, hj, ?_⟩, h.declares⟩
  cases hlike with
  | expr h' => exact .expr ⟨h'.veil.trans (by simp only [Node.veil, he]), h'.sound⟩

theorem exists_of_means (h : Forall₂ (Means assets) ts is) :
    ∃ js, buildAll assets ts = .ok js ∧ Forall₂ (Item.Like true assets) js is := by
  induction h with
  | nil => exact ⟨[], rfl, .nil⟩
  | cons ht _ ih =>
    obtain ⟨j, hj, hlike⟩ := ht.build
    obtain ⟨js, hjs, hlikes⟩ := ih
    refine ⟨j :: js, ?_, .cons hlike hlikes⟩
    rw [buildAll, hj, hjs]
    rfl

theorem declaredAssetsAll_of_means (h : Forall₂ (Means assets) ts is) :
    declaredAssetsAll ts = [] := by
  induction h with
  | nil => rfl
  | cons ht _ ih => rw [declaredAssetsAll, ht.declares, ih, append_nil]

/-- A node means what its rule makes of what its subtrees mean. -/
theorem means_node {rule : Rule}
    (hrule : rule ≠ .assetDecl) (hfits : rule.fits kids) (hkids : Forall₂ (Means assets) kids is)
    (hbuild : Site.build assets ⟨rule, q⟩ is = .ok i) : (node rule p kids).Means assets i := by
  have hdeclares : (node rule p kids).declaredAssets = [] := by
    rw [declaredAssets, declaredAssetsAll_of_means hkids]
    exact hrule
  refine ⟨?_, hdeclares⟩
  obtain ⟨js, hjs, hlikes⟩ := exists_of_means hkids
  have hlike : Alike true (Item.Like true assets) (Site.build assets ⟨rule, p⟩ js)
      (Site.build assets ⟨rule, q⟩ is) :=
    Site.like_build (Rule.fitsItems_of_fits hfits hjs) hlikes
  rw [hbuild] at hlike
  obtain ⟨j, hj, hji⟩ := hlike.exists_of_ok
  refine ⟨j, ?_, hji⟩
  rw [build, hjs]
  exact hj

/-! ### Tokens -/

theorem means_name {n : Ident} (hn : n.name.isName = true) :
    (leaf (word n.name)).Means assets (.ofExpr (.ident n)) where
  build := ⟨_, rfl, .expr (.of_leaf (by simp only [Node.veil, Expr.veil, Ident.veil, word]) hn rfl)⟩
  declares := rfl

theorem means_token {t u : Token} (ht : t.kind.isOperator = true) (htu : Token.Alike true t u) :
    (leaf t).Means assets (.token u) := by
  refine ⟨⟨.token t, ?_, .token htu⟩, rfl⟩
  rw [build, Item.ofToken_of_isOperator ht]

end Tree

/-! ### Operators in a row -/

def operate (left : Expr) (x : Token × Expr) : Expr :=
  .binary x.1.pos (.ofText x.1.literal) left x.2

/-- The trees of an operator and its right operand mean them. -/
structure MeansOperation (assets : List Bytes) (level : Level) (y : Tree × Tree)
    (x : Token × Expr) :
    Prop where
  operator : ∃ op, y.1 = .leaf op ∧ op.kind ∈ level.operators ∧ Token.Alike true op x.1
  operand : y.2.Means assets (.ofExpr x.2)

/-- The trees of a first operand and of operators behind it mean the expression. -/
def MeansOperations (assets : List Bytes) (level : Level) (first : Tree) (more : List (Tree × Tree))
    (e : Expr) : Prop :=
  ∃ left xs, first.Means assets (.ofExpr left) ∧
    Forall₂ (MeansOperation assets level) more xs ∧ xs.foldl operate left = e

def operationItems (xs : List (Token × Expr)) : List Item :=
  xs.flatMap fun x => [.token x.1, .ofExpr x.2]

theorem Site.operations_eq (s : Site) (left : Expr) (xs : List (Token × Expr)) :
    s.operations left (operationItems xs) = .ok (xs.foldl operate left) := by
  induction xs generalizing left with
  | nil => rfl
  | cons x xs ih => exact ih (operate left x)

theorem Site.binary_eq (s : Site) (left : Expr) (xs : List (Token × Expr)) :
    s.binary (.ofExpr left :: operationItems xs) = .ok (.ofExpr (xs.foldl operate left)) := by
  have hlength : (operationItems xs).length % 2 = 0 := by
    rw [operationItems, length_flatMap]
    simp
  change (if (operationItems xs).length % 2 = 1 then s.incomplete s.rule.name
    else Item.ofExpr <$> s.operations left (operationItems xs)) = _
  rw [if_neg (by omega), s.operations_eq]
  rfl

namespace MeansOperations

theorem of_means {t : Tree} (h : t.Means assets (.ofExpr e)) :
    MeansOperations assets level t [] e :=
  ⟨e, [], h, .nil, rfl⟩

theorem concat (h : MeansOperations assets level first more e) {op u : Token} {t : Tree}
    (hop : op.kind ∈ level.operators) (hu : Token.Alike true op u)
    (ht : t.Means assets (.ofExpr r)) :
    MeansOperations assets level first (more ++ [(.leaf op, t)]) (operate e (u, r)) := by
  obtain ⟨left, xs, hleft, hxs, rfl⟩ := h
  refine ⟨left, xs ++ [(u, r)], hleft, ?_, ?_⟩
  · exact rel_append hxs (.cons ⟨⟨op, rfl, hop, hu⟩, ht⟩ .nil)
  · rw [foldl_append]
    rfl

theorem forall₂_kids (h : Forall₂ (MeansOperation assets level) more xs) :
    Forall₂ (Tree.Means assets) (operationKids more) (operationItems xs) := by
  induction h with
  | nil => exact .nil
  | @cons y x _ _ hy _ ih =>
    obtain ⟨op, hleaf, hop, hx⟩ := hy.operator
    refine .cons ?_ (.cons hy.operand ih)
    rw [hleaf]
    exact Tree.means_token (Level.isOperator_of_mem hop) hx

theorem group (h : MeansOperations assets level first more e) :
    (Tree.group (.binary level) first (operationKids more)).Means assets (.ofExpr e) := by
  obtain ⟨left, xs, hleft, hxs, rfl⟩ := h
  have hoperators := forall_mem_of_forall₂ hxs fun _ _ hy =>
    hy.operator.imp fun _ hop => And.intro hop.1 hop.2.1
  have hfits : (Rule.binary level).fits (first :: operationKids more) :=
    ⟨first, more, rfl, hoperators⟩
  have hkids : Forall₂ (Tree.Means assets) (first :: operationKids more)
      (.ofExpr left :: operationItems xs) :=
    .cons hleft (forall₂_kids hxs)
  cases more with
  | nil =>
    cases hxs
    exact hleft
  | cons y more =>
    exact Tree.means_node (by simp) hfits hkids (Site.binary_eq ⟨.binary level, {}⟩ left xs)

end MeansOperations

/-! ### Suffixes in a row -/

/-- The trees of a first operand and of suffixes behind it mean the expression. -/
def MeansSuffixes (assets : List Bytes) (first : Tree) (more : List Tree) (e : Expr) : Prop :=
  ∃ object is, first.Means assets (.ofExpr object) ∧ Forall₂ (Tree.Means assets) more is ∧
    ∀ s : Site, is.foldlM (s.suffix assets) object = .ok e

namespace MeansSuffixes

theorem of_means {t : Tree} (h : t.Means assets (.ofExpr e)) : MeansSuffixes assets t [] e :=
  ⟨e, [], h, .nil, fun _ => rfl⟩

theorem concat (h : MeansSuffixes assets first more e) {t : Tree}
    (ht : t.Means assets i) (hi : ∀ s : Site, s.suffix assets e i = .ok f) :
    MeansSuffixes assets first (more ++ [t]) f := by
  obtain ⟨object, is, hobject, his, hfold⟩ := h
  refine ⟨object, is ++ [i], hobject, rel_append his (.cons ht .nil), fun s => ?_⟩
  rw [foldlM_append, hfold]
  change (s.suffix assets e i >>= pure) = _
  rw [hi]
  rfl

theorem group (h : MeansSuffixes assets first more e) :
    (Tree.group .suffixed first more).Means assets (.ofExpr e) := by
  obtain ⟨object, is, hobject, his, hfold⟩ := h
  cases his with
  | nil =>
    cases hfold ⟨.suffixed, {}⟩
    exact hobject
  | cons ht his =>
    refine Tree.means_node (q := {}) (by simp) trivial (.cons hobject (.cons ht his)) ?_
    change Item.ofExpr <$> foldlM (Site.suffix ⟨.suffixed, {}⟩ assets) object (_ :: _) = _
    rw [hfold]
    rfl

end MeansSuffixes

/-! ### Lists of parts -/

theorem exists_forall₂ {γ τ : Type} {f : α → β} {g : α → γ} {R : β → τ → Prop} {M : τ → γ → Prop}
    {as : List α} (h : ∀ a ∈ as, ∃ t, R (f a) t ∧ M t (g a)) :
    ∃ ts, Forall₂ R (as.map f) ts ∧ Forall₂ M ts (as.map g) := by
  induction as with
  | nil => exact ⟨[], .nil, .nil⟩
  | cons a as ih =>
    obtain ⟨ha, has⟩ := forall_mem_cons.1 h
    obtain ⟨t, hR, hM⟩ := ha
    obtain ⟨ts, hRs, hMs⟩ := ih has
    exact ⟨t :: ts, .cons hR hRs, .cons hM hMs⟩

theorem mapM_map_eq_ok {f : β → Except Fault α} {g : α → β} (h : ∀ a, f (g a) = .ok a)
    (as : List α) : (as.map g).mapM f = .ok as := by
  induction as with
  | nil => rfl
  | cons a as ih =>
    rw [map_cons, mapM_cons, h, ih]
    rfl

theorem length_le_commas (h : ws ∈ wss) : ws.length ≤ (commas wss).length := by
  cases wss with
  | nil => cases h
  | cons vs wss =>
    rw [commas, length_append]
    obtain rfl | h := mem_cons.1 h
    · omega
    · have hle := (sublist_flatten_of_mem (mem_map_of_mem (f := (symbol .comma :: ·)) h)).length_le
      rw [← flatMap_def, length_cons] at hle
      omega

end Covenant
