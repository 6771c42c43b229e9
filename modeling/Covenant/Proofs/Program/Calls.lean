import Covenant.Proofs.Program.Likeness
import Covenant.Proofs.Program.Order
import Covenant.Proofs.Program.Refusal.Item

/-!
# What a call on a name is

`X.f(…)` is an operation on an asset, a call of another contract or a plain call.  The name decides:
it is declared as a class, or configured, or written in capitals and used with an operation on
tokens; else it starts with a capital, or does not.

The documented rule counts the characters of a name and all classes.  A name of one capital beyond
ASCII and a class inside the decorator of another tell the two apart, and nothing else does.
-/

namespace Covenant

open List Tree

/-! ### Declared classes -/

namespace Tree

def IsClass (name : Bytes) (t : Tree) : Prop :=
  ∃ p ds n fields, t = .node .assetDecl p (ds ++ .leaf n :: fields) ∧
    (∀ d ∈ ds, d.shape = .decorator) ∧ n.kind = .ident ∧ n.literal = name

/-- The second tree is the first one, or lies in it but not in a class that it declares. -/
inductive Exposes : Tree → Tree → Prop
  | refl (t : Tree) : Exposes t t
  | kid (hrule : rule ≠ .assetDecl) (ht : t ∈ kids) (h : Exposes t u) :
    Exposes (.node rule p kids) u

def Declares (t : Tree) (name : Bytes) : Prop :=
  ∃ u, t.Contains u ∧ u.IsClass name

/-- A class of that name is declared in the tree, and not inside another class. -/
def DeclaresOutside (t : Tree) (name : Bytes) : Prop :=
  ∃ u, t.Exposes u ∧ u.IsClass name

def IsFlat (t : Tree) : Prop :=
  ∀ u n v m, t.Contains u → u.IsClass n → u.Contains v → v.IsClass m → v = u

variable {t : Tree}

theorem contains_leaf_iff {t : Token} : Contains (.leaf t) u ↔ u = .leaf t := by
  constructor
  · intro h
    cases h
    rfl
  · rintro rfl
    exact .refl _

theorem contains_node_iff :
    Contains (.node rule p kids) u ↔ u = .node rule p kids ∨ ∃ t ∈ kids, t.Contains u := by
  constructor
  · intro h
    cases h with
    | refl => exact .inl rfl
    | kid ht h => exact .inr ⟨_, ht, h⟩
  · rintro (rfl | ⟨t, ht, h⟩)
    · exact .refl _
    · exact .kid ht h

theorem Exposes.contains (h : t.Exposes u) : t.Contains u := by
  induction h with
  | refl t => exact .refl t
  | kid _ ht _ ih => exact .kid ht ih

theorem DeclaresOutside.declares (h : t.DeclaresOutside name) : t.Declares name := by
  obtain ⟨u, hu, hclass⟩ := h
  exact ⟨u, hu.contains, hclass⟩

theorem assetName?_of_isClass (h : IsClass name (.node .assetDecl p kids)) :
    assetName? kids = some name := by
  obtain ⟨q, ds, n, fields, ht, hds, hn, rfl⟩ := h
  cases ht
  clear p
  induction ds with
  | nil => simp [assetName?, hn]
  | cons d ds ih =>
    obtain ⟨hd, hmore⟩ := forall_mem_cons.1 hds
    cases d with
    | leaf t =>
      -- a token is no decorator
      rw [shape] at hd
      split at hd <;> cases hd
    | node rule q kids => exact ih hmore

theorem exists_isClass (h : Formed P (.node .assetDecl p kids)) :
    ∃ name, IsClass name (.node .assetDecl p kids) := by
  cases h with
  | node h hkids =>
    obtain ⟨ds, gs, hshape, hds, -⟩ := h
    obtain ⟨ts, us, rfl, hts, hus⟩ := map_eq_append_iff.1 hshape
    obtain ⟨x, fields, rfl, hx, -⟩ := map_eq_cons_iff.1 hus
    obtain ⟨n, rfl⟩ := exists_leaf_of_shape (.inl hx)
    refine ⟨n.literal, p, ts, n, fields, rfl, fun d hd => hds _ ?_, ?_, rfl⟩
    · rw [← hts]
      exact mem_map_of_mem hd
    · rw [shape] at hx
      split at hx
      · assumption
      all_goals cases hx

/-- **The names that are collected** are those of the classes declared outside of other classes. -/
theorem mem_declaredAssets (h : t.Formed P) (name : Bytes) :
    name ∈ t.declaredAssets ↔ t.DeclaresOutside name := by
  induction h with
  | leaf h =>
    constructor
    · intro hmem
      cases hmem
    · rintro ⟨u, hu, p, ds, n, fields, rfl, -⟩
      cases hu
  | @node p rule kids h hkids ih =>
    by_cases hrule : rule = .assetDecl
    · subst hrule
      obtain ⟨own, hown⟩ := exists_isClass (.node h hkids)
      rw [declaredAssets, assetName?_of_isClass hown]
      constructor
      · intro hmem
        cases mem_singleton.1 hmem
        exact ⟨_, .refl _, hown⟩
      · rintro ⟨u, hu, hclass⟩
        cases hu with
        | refl =>
          have hname := assetName?_of_isClass hclass
          rw [assetName?_of_isClass hown] at hname
          cases hname
          exact mem_singleton_self _
        | kid hne => exact absurd rfl hne
    · rw [declaredAssets, declaredAssetsAll_eq_flatMap, mem_flatMap]
      · constructor
        · rintro ⟨t, ht, hmem⟩
          obtain ⟨u, hu, hclass⟩ := (ih t ht).1 hmem
          exact ⟨u, .kid hrule ht hu, hclass⟩
        · rintro ⟨u, hu, hclass⟩
          cases hu with
          | refl =>
            obtain ⟨q, ds, n, fields, heq, -⟩ := hclass
            cases heq
            exact absurd rfl hrule
          | kid _ ht hu => exact ⟨_, ht, (ih _ ht).2 ⟨u, hu, hclass⟩⟩
      · exact hrule

theorem IsFlat.exposes (hformed : t.Formed P)
    (h : t.IsFlat) (hu : t.Contains u) (hclass : u.IsClass name) : t.Exposes u := by
  induction hu with
  | refl t => exact .refl t
  | @kid kids t u rule p ht htu ih =>
    by_cases hrule : rule = .assetDecl
    · subst hrule
      obtain ⟨own, hown⟩ := exists_isClass hformed
      have heq := h _ own u name (.refl _) hown (.kid ht htu) hclass
      rw [heq]
      exact .refl _
    · cases hformed with
      | node _ hkids =>
        refine .kid hrule ht (ih (hkids t ht) ?_ hclass)
        intro v n w m hv
        exact h v n w m (.kid ht hv)

theorem IsFlat.declaresOutside_iff (h : t.IsFlat)
    (hformed : t.Formed P) (name : Bytes) : t.DeclaresOutside name ↔ t.Declares name := by
  refine ⟨DeclaresOutside.declares, ?_⟩
  rintro ⟨u, hu, hclass⟩
  exact ⟨u, h.exposes hformed hu hclass, hclass⟩

end Tree

/-! ### The rule -/

namespace Bytes

/-- The name is written in capitals, digits and underscores, with a capital. -/
def InCapitals (name : Bytes) : Prop :=
  (∀ g ∈ name.glyphs, Rune.isUpper g.rune = true ∨ Rune.isDigit g.rune = true ∨ g.is '_' = true) ∧
    ∃ g ∈ name.glyphs, Rune.isUpper g.rune = true

def StartsUpper (name : Bytes) : Prop :=
  ∃ g gs, name.glyphs = g :: gs ∧ Rune.isUpper g.rune = true

theorem glyphsFrom_length_le (skip : Nat) (s : Bytes) : (glyphsFrom skip s).length ≤ s.length := by
  fun_induction glyphsFrom skip s with
  | case1 => exact Nat.le_refl 0
  | case2 skip b rest ih => exact Nat.le_succ_of_le ih
  | case3 b rest g n _ ih => exact Nat.succ_le_succ ih

theorem glyphs_ne_nil {s : Bytes} (h : s ≠ []) : s.glyphs ≠ [] := by
  intro hnil
  rw [← ofGlyphs_glyphs s, hnil] at h
  exact h rfl

end Bytes

theorem isCapitals_iff (name : Bytes) :
    isCapitals name = true ↔ 2 ≤ name.length ∧ name.InCapitals := by
  simp only [isCapitals, Bytes.InCapitals, Bool.and_eq_true, decide_eq_true_eq, all_eq_true,
    any_eq_true, Bool.or_eq_true, or_assoc, and_assoc]

theorem namesContract_iff (name : Bytes) : namesContract name = true ↔ name.StartsUpper := by
  unfold namesContract Bytes.StartsUpper
  cases name.glyphs <;> simp

/-- Calling `function` on `name` is an operation on an asset: the name is declared or configured, or
in capitals and used with an operation on tokens.  `size` measures names, and one letter of them is
not enough. -/
def IsAssetCall (declared : Bytes → Prop) (size : Bytes → Nat) (assets : List Bytes)
    (name function : Bytes) : Prop :=
  declared name ∨ name ∈ assets ∨
    2 ≤ size name ∧ name.InCapitals ∧ function ∈
      [Bytes.ofString "mint", "transfer", "burn", "getOwner"]

/-- The documented rule: any class of the program counts, and names are measured in characters. -/
def Tree.AsksAsset (t : Tree) : List Bytes → Bytes → Bytes → Prop :=
  IsAssetCall t.Declares fun name => name.glyphs.length

/-- The rule that is followed: a class inside another one does not count, and names are measured in
bytes. -/
def Tree.TakesAsset (t : Tree) : List Bytes → Bytes → Bytes → Prop :=
  IsAssetCall t.DeclaresOutside List.length

theorem Tree.isAssetOperation_iff {t : Tree} (h : t.Formed P) (assets : List Bytes)
    (name function : Bytes) :
    isAssetOperation (assets ++ t.declaredAssets) name function = true ↔
      t.TakesAsset assets name function := by
  simp only [isAssetOperation, TakesAsset, IsAssetCall, Bool.or_eq_true, Bool.and_eq_true,
    contains_iff_mem, mem_append, mem_declaredAssets h, isCapitals_iff, tokenOperations]
  tauto

theorem Tree.takesAsset_iff_asksAsset {t : Tree} (hformed : t.Formed P) (h : t.IsFlat)
    (hname : name.glyphs.length = 1 → name.length = 1) (assets : List Bytes) (function : Bytes) :
    t.TakesAsset assets name function ↔ t.AsksAsset assets name function := by
  have hsize : 2 ≤ name.length ↔ 2 ≤ name.glyphs.length := by
    have hle : name.glyphs.length ≤ name.length := Bytes.glyphsFrom_length_le 0 name
    by_cases hnil : name = []
    · subst hnil
      simp [Bytes.glyphs, Bytes.glyphsFrom]
    · have hpos := length_pos_iff.2 (Bytes.glyphs_ne_nil hnil)
      omega
  simp only [TakesAsset, AsksAsset, IsAssetCall, h.declaresOutside_iff hformed, hsize]

/-! ### Calls -/

/-- The expression is the call of `X.f`, of the kind that is asked for, with the arguments in their
order. -/
structure Expr.IsResolved (isAsset : Prop) (q : Pos) (X f : Ident) (p : Pos) (args : List Expr)
    (e : Expr) : Prop where
  asset : e = .assetCall q X f.name args ↔ isAsset
  contract : e = .contractCall q X f.name args ↔ ¬ isAsset ∧ X.name.StartsUpper
  plain : e = .call p (.member q (.ident X) f) args ↔ ¬ isAsset ∧ ¬ X.name.StartsUpper

theorem isResolved_callOf {asset : Prop} (h : isAssetOperation known X.name f.name = true ↔ asset)
    (q p : Pos) (args : List Expr) :
    Expr.IsResolved asset q X f p args (callOf known (.member q (.ident X) f) p args) := by
  unfold callOf
  dsimp only
  by_cases hasset : isAssetOperation known X.name f.name = true
  · rw [if_pos hasset]
    exact ⟨by simp [h.1 hasset], by simp [h.1 hasset], by simp [h.1 hasset]⟩
  · have hnot : ¬ asset := fun ha => hasset (h.2 ha)
    rw [if_neg hasset]
    by_cases hupper : namesContract X.name = true
    · rw [if_pos hupper]
      rw [namesContract_iff] at hupper
      exact ⟨by simp [hnot], by simp [hnot, hupper], by simp [hupper]⟩
    · rw [if_neg hupper]
      rw [namesContract_iff] at hupper
      exact ⟨by simp [hnot], by simp [hupper], by simp [hnot, hupper]⟩

/-- A call among the parts of a program is of the kind that is asked for. -/
def Node.IsResolved (asset : Bytes → Bytes → Prop) : Node → Prop
  | .expr (.assetCall _ X f _) => asset X.name f
  | .expr (.contractCall _ X f _) => ¬ asset X.name f ∧ X.name.StartsUpper
  | .expr (.call _ (.member _ (.ident X) f) _) => ¬ asset X.name f.name ∧ ¬ X.name.StartsUpper
  | _ => True

theorem Node.Sound.isResolved {asset : Bytes → Bytes → Prop} {n : Node}
    (h : ∀ name function, isAssetOperation known name function = true ↔ asset name function)
    (hn : n.Sound known) : n.IsResolved asset := by
  unfold IsResolved
  split
  next p X f args => exact (h _ _).1 hn.2
  next p X f args =>
    obtain ⟨-, hasset, hupper⟩ := hn
    refine ⟨fun ha => ?_, (namesContract_iff _).1 hupper⟩
    rw [(h _ _).2 ha] at hasset
    cases hasset
  next p q X f args => exact (isResolved_callOf (h _ _) q p args).plain.1 hn
  next => trivial

/-! ### Suffixes -/

namespace Tree

variable {p : Pos} {after before : List Tree} {first : Tree}

theorem exists_of_buildAll_append (h : buildAll known (ts ++ us) = .ok items) :
    ∃ its jts, buildAll known ts = .ok its ∧ buildAll known us = .ok jts ∧ items = its ++ jts := by
  induction ts generalizing items with
  | nil => exact ⟨[], items, rfl, h, rfl⟩
  | cons t ts ih =>
    obtain ⟨it, rest, ht, hrest, rfl⟩ := exists_of_buildAll_cons h
    obtain ⟨its, jts, hits, hjts, rfl⟩ := ih hrest
    refine ⟨it :: its, jts, ?_, hjts, rfl⟩
    rw [buildAll, ht, hits]
    rfl

theorem exists_build_of_mem (h : buildAll known ts = .ok items) (ht : t ∈ ts) :
    ∃ it, t.build known = .ok it := by
  obtain ⟨before, after, rfl⟩ := append_of_mem ht
  obtain ⟨-, rest, -, hrest, -⟩ := exists_of_buildAll_append h
  obtain ⟨it, -, hit, -⟩ := exists_of_buildAll_cons hrest
  exact ⟨it, hit⟩

theorem exists_build_of_contains {t : Tree} (hu : t.Contains u) :
    ∀ it, t.build known = .ok it → ∃ it, u.build known = .ok it := by
  induction hu with
  | refl t => exact fun it h => ⟨it, h⟩
  | kid ht _ ih =>
    intro it h
    obtain ⟨items, hitems, -⟩ := of_bind_eq_ok h
    obtain ⟨jt, hjt⟩ := exists_build_of_mem hitems ht
    exact ih jt hjt

theorem forall₂_of_exprs {s : Site} (h : buildAll known ts = .ok items)
    (hes : items.mapM s.expr = .ok es) :
    Forall₂ (fun t e => t.build known = .ok (.ofExpr e)) ts es := by
  induction ts generalizing items es with
  | nil =>
    cases h
    cases hes
    exact .nil
  | cons t ts ih =>
    obtain ⟨it, its, ht, hts, rfl⟩ := exists_of_buildAll_cons h
    rw [mapM_cons] at hes
    obtain ⟨e, he, hrest⟩ := of_bind_eq_ok hes
    obtain ⟨rest, hmore, hcons⟩ := of_bind_eq_ok hrest
    cases hcons
    refine .cons ?_ (ih hts hmore)
    unfold Site.expr at he
    split at he
    · cases he
      exact ht
    · cases he
    · cases he

theorem exists_of_build_call (h : build known (.node .call p args) = .ok it) :
    ∃ es, it = .call p es ∧ Forall₂ (fun a e => a.build known = .ok (.ofExpr e)) args es := by
  obtain ⟨items, hitems, hcall⟩ := of_bind_eq_ok h
  obtain ⟨es, hes, hit⟩ := of_bind_eq_ok hcall
  cases hit
  exact ⟨es, rfl, forall₂_of_exprs hitems hes⟩

theorem exists_of_build_suffixed_append
    (h : build known (.node .suffixed p (first :: (before ++ after))) = .ok it) :
    ∃ e items, build known (.node .suffixed p (first :: before)) = .ok (.ofExpr e) ∧
      buildAll known after = .ok items ∧
      Item.ofExpr <$> items.foldlM (Site.suffix ⟨.suffixed, p⟩ known) e = .ok it := by
  obtain ⟨all, hall, hbuild⟩ := of_bind_eq_ok h
  obtain ⟨head, tail, hfirst, htail, rfl⟩ := exists_of_buildAll_cons hall
  obtain ⟨its, jts, hits, hjts, rfl⟩ := exists_of_buildAll_append htail
  obtain ⟨e₀, he₀, hfold⟩ := of_bind_eq_ok hbuild
  rw [foldlM_append] at hfold
  obtain ⟨e', he', hit⟩ := of_bind_eq_ok hfold
  obtain ⟨e, he, hrest⟩ := of_bind_eq_ok he'
  refine ⟨e, jts, ?_, hjts, ?_⟩
  · have hbefore : buildAll known (first :: before) = .ok (head :: its) := by
      rw [buildAll, hfirst, hits]
      rfl
    rw [build, hbefore]
    change Site.suffixed ⟨.suffixed, p⟩ known (head :: its) = _
    rw [Site.suffixed, he₀]
    change Item.ofExpr <$> its.foldlM (Site.suffix ⟨.suffixed, p⟩ known) e₀ = _
    rw [he]
    rfl
  · rw [hrest]
    exact hit

/-- **A call suffix** is resolved by the expression before it and takes its arguments in order. -/
theorem exists_call_of_suffixed
    (h : build known (.node .suffixed p (first ::
    (before ++ .node .call q args :: after))) = .ok it) :
    ∃ callee es, build known (.node .suffixed p (first :: before)) = .ok (.ofExpr callee) ∧
      Forall₂ (fun a e => a.build known = .ok (.ofExpr e)) args es ∧
      build known (.node .suffixed p (first :: (before ++ [.node .call q args]))) =
        .ok (.ofExpr (callOf known callee q es)) := by
  have hsplit : before ++ .node .call q args :: after =
      (before ++ [.node .call q args]) ++ after := by
    simp only [append_assoc, singleton_append]
  rw [hsplit] at h
  obtain ⟨e, -, he, -⟩ := exists_of_build_suffixed_append h
  obtain ⟨callee, items, hcallee, hitems, hfold⟩ := exists_of_build_suffixed_append he
  obtain ⟨it, its, hcall, hnil, rfl⟩ := exists_of_buildAll_cons hitems
  cases hnil
  obtain ⟨es, rfl, hes⟩ := exists_of_build_call hcall
  refine ⟨callee, es, hcallee, hes, ?_⟩
  rw [he, ← hfold]
  rfl

end Tree

/-! ### Programs -/

/-- **The rule for calls.**  In a program that is built, `X.f(…)` is an operation on an asset when
the name is a class declared in the program outside of other classes, or configured, or in capitals
and two bytes long and used with an operation on tokens; else it is the call of a contract when the
name starts with a capital, and else a plain call.  The arguments keep their order.  So it is for
every call suffix of the tree, and for every call among the parts of the program; and it is the
documented rule where no class lies inside another and the name is not a single character of several
bytes. -/
theorem Program.calls_resolved {source : Bytes} {t : Tree} {assets : List Bytes}
    {program : Program} (ht : parse source = .ok t)
    (hp : Program.ofTree assets t = .ok program) :
    (∀ p first before q args after,
      t.Contains (.node .suffixed p (first :: (before ++ .node .call q args :: after))) →
      ∃ callee es e,
        build (assets ++ t.declaredAssets) (.node .suffixed p (first :: before)) =
          .ok (.ofExpr callee) ∧
        Forall₂ (fun a e => build (assets ++ t.declaredAssets) a = .ok (.ofExpr e))
          args es ∧
        build (assets ++ t.declaredAssets)
          (.node .suffixed p (first :: (before ++ [.node .call q args]))) = .ok (.ofExpr e) ∧
        ∀ r X f, callee = .member r (.ident X) f →
          e.IsResolved (t.TakesAsset assets X.name f.name) r X f q es) ∧
      (Node.program program.statements).All (Node.IsResolved (t.TakesAsset assets)) ∧
      (t.IsFlat → ∀ name function, (name.glyphs.length = 1 → name.length = 1) →
        (t.TakesAsset assets name function ↔ t.AsksAsset assets name function)) := by
  have hformed := formed_parse ht
  have hasset := isAssetOperation_iff hformed assets
  refine ⟨?_, ?_, fun hflat name function hname =>
    takesAsset_iff_asksAsset hformed hflat hname assets function⟩
  · intro p first before q args after hcall
    obtain ⟨pos, kids, d, rfl, -⟩ := parses_parse ht
    obtain ⟨items, hitems, -⟩ := of_bind_eq_ok hp
    cases hcall with
    | kid hmem hbelow =>
      obtain ⟨it, hit⟩ := exists_build_of_mem hitems hmem
      obtain ⟨jt, hjt⟩ := exists_build_of_contains hbelow it hit
      obtain ⟨callee, es, hcallee, hes, he⟩ := exists_call_of_suffixed hjt
      refine ⟨callee, es, _, hcallee, hes, he, ?_⟩
      rintro r X f rfl
      exact isResolved_callOf (hasset _ _) r q es
  · exact (Program.sound_of_parse ht hp).imp fun n hn => hn.isResolved hasset

def Tree.lateClass : Tree :=
  .node .program ⟨1, 1⟩
    [.node .exprStmt ⟨1, 1⟩
      [.node .suffixed ⟨1, 1⟩
        [.leaf ⟨.ident, "Y", ⟨1, 1⟩⟩, .node .member ⟨1, 3⟩ [.leaf ⟨.ident, "f", ⟨1, 3⟩⟩],
          .node .call ⟨1, 4⟩
            [.node .literal ⟨1, 5⟩ [.leaf ⟨.int, "1", ⟨1, 5⟩⟩], .leaf ⟨.ident, "x", ⟨1, 8⟩⟩]]],
    .node .functionDecl ⟨1, 12⟩
      [.leaf ⟨.ident, "g", ⟨1, 21⟩⟩, .node .parameters ⟨1, 22⟩ [],
        .node .block ⟨1, 25⟩
          [.node .assetDecl ⟨1, 34⟩
            [.node .decorator ⟨1, 27⟩ [.leaf ⟨.decorator, "@asset", ⟨1, 27⟩⟩],
              .leaf ⟨.ident, "Y", ⟨1, 40⟩⟩]]]]

/-- The class is declared behind the call and inside a function, and the call is an operation on an
asset all the same. -/
theorem Program.calls_resolved_lateClass :
    ∃ program X f es e,
      parse "Y.f(1, x); function g() \x7b @asset class Y \x7b\x7d \x7d" = .ok lateClass ∧
      Program.ofTree [] lateClass = .ok program ∧
      (Node.program program.statements).All (Node.IsResolved (lateClass.TakesAsset [])) ∧
      build [Bytes.ofString "Y"] (.node .suffixed ⟨1, 1⟩
        [.leaf ⟨.ident, "Y", ⟨1, 1⟩⟩, .node .member ⟨1, 3⟩ [.leaf ⟨.ident, "f", ⟨1, 3⟩⟩],
          .node .call ⟨1, 4⟩
            [.node .literal ⟨1, 5⟩ [.leaf ⟨.int, "1", ⟨1, 5⟩⟩], .leaf ⟨.ident, "x", ⟨1, 8⟩⟩]]) =
        .ok (.ofExpr e) ∧
      e.IsResolved (lateClass.TakesAsset [] X.name f.name) ⟨1, 3⟩ X f ⟨1, 4⟩ es ∧
      lateClass.TakesAsset [] X.name f.name := by
  have ht : parse "Y.f(1, x); function g() \x7b @asset class Y \x7b\x7d \x7d" =
    .ok lateClass := rfl
  obtain ⟨program, hp⟩ : ∃ program, Program.ofTree [] lateClass = .ok program := ⟨_, rfl⟩
  obtain ⟨hcalls, hall, -⟩ := Program.calls_resolved ht hp
  obtain ⟨callee, es, e, hcallee, -, he, hresolved⟩ := hcalls ⟨1, 1⟩ _
    [.node .member ⟨1, 3⟩ [.leaf ⟨.ident, "f", ⟨1, 3⟩⟩]] ⟨1, 4⟩ _ []
    (.kid (.head _) (.kid (.head _) (.refl _)))
  cases hcallee
  have hdeclared : lateClass.DeclaresOutside "Y" := by
    refine ⟨_, .kid (by decide) (.tail _ (.head _)) (.kid (by decide) (.tail _ (.tail _ (.head _)))
      (.kid (by decide) (.head _) (.refl _))), ⟨1, 34⟩,
      [.node .decorator ⟨1, 27⟩ [.leaf ⟨.decorator, "@asset", ⟨1, 27⟩⟩]], _, _, rfl, ?_, rfl, rfl⟩
    simp [shape]
  exact ⟨program, _, _, es, e, ht, hp, hall, he, hresolved _ _ _ rfl, .inl hdeclared⟩

def Tree.singleCapital : Tree :=
  .node .program ⟨1, 1⟩
    [.node .exprStmt ⟨1, 1⟩
      [.node .suffixed ⟨1, 1⟩
        [.leaf ⟨.ident, "É", ⟨1, 1⟩⟩, .node .member ⟨1, 3⟩ [.leaf ⟨.ident, "mint", ⟨1, 3⟩⟩],
          .node .call ⟨1, 7⟩ [.leaf ⟨.ident, "x", ⟨1, 8⟩⟩]]]]

def Tree.nestedClass : Tree :=
  .node .program ⟨1, 1⟩
    [.node .assetDecl ⟨1, 37⟩
      [.node .decorator ⟨1, 1⟩
        [.leaf ⟨.decorator, "@asset", ⟨1, 1⟩⟩,
          .node .lambda ⟨1, 8⟩
            [.node .parameters ⟨1, 8⟩ [],
              .node .block ⟨1, 14⟩
                [.node .assetDecl ⟨1, 23⟩
                  [.node .decorator ⟨1, 16⟩ [.leaf ⟨.decorator, "@asset", ⟨1, 16⟩⟩],
                    .leaf ⟨.ident, "Y", ⟨1, 29⟩⟩]]]],
        .leaf ⟨.ident, "X", ⟨1, 43⟩⟩],
    .node .exprStmt ⟨1, 48⟩
      [.node .suffixed ⟨1, 48⟩
        [.leaf ⟨.ident, "Y", ⟨1, 48⟩⟩, .node .member ⟨1, 50⟩ [.leaf ⟨.ident, "f", ⟨1, 50⟩⟩],
          .node .call ⟨1, 51⟩ [.node .literal ⟨1, 52⟩ [.leaf ⟨.int, "1", ⟨1, 52⟩⟩]]]]]

/-- **The documented rule is not followed** for a name of one capital that takes two bytes, which is
an asset although it is too short, nor for a class inside the decorator of another, which is not
known as an asset. -/
theorem Program.calls_against_documentation :
    (parse "É.mint(x);" = .ok singleCapital ∧
      ¬ singleCapital.AsksAsset [] "É" "mint" ∧
      Program.ofTree [] singleCapital = .ok ⟨[.exprStmt ⟨1, 1⟩
        (.assetCall ⟨1, 3⟩ ⟨"É", ⟨1, 1⟩⟩ "mint" [.ident ⟨"x", ⟨1, 8⟩⟩])]⟩) ∧
    (parse "@asset(() => \x7b @asset class Y \x7b\x7d \x7d) class X \x7b\x7d Y.f(1);" =
        .ok nestedClass ∧
      nestedClass.AsksAsset [] "Y" "f" ∧
      Program.ofTree [] nestedClass = .ok ⟨[.assetDecl ⟨1, 37⟩ ⟨"X", ⟨1, 43⟩⟩ [],
        .exprStmt ⟨1, 48⟩ (.contractCall ⟨1, 50⟩ ⟨"Y", ⟨1, 48⟩⟩ "f"
          [.literal "1" ⟨1, 52⟩ (.int 1)])]⟩) := by
  refine ⟨⟨rfl, ?_, rfl⟩, rfl, .inl ?_, rfl⟩
  · rintro (⟨u, hu, p, ds, n, fields, rfl, -⟩ | hmem | ⟨hsize, -⟩)
    · simp [singleCapital, contains_node_iff, contains_leaf_iff] at hu
    · cases hmem
    · revert hsize
      decide
  · refine ⟨_, .kid (.head _) (.kid (.head _) (.kid (.tail _ (.head _)) (.kid (.tail _ (.head _))
      (.kid (.head _) (.refl _))))), ⟨1, 23⟩,
      [.node .decorator ⟨1, 16⟩ [.leaf ⟨.decorator, "@asset", ⟨1, 16⟩⟩]], _, _, rfl, ?_, rfl, rfl⟩
    simp [shape]

end Covenant
