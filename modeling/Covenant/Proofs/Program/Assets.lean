import Covenant.Compile
import Covenant.Proofs.Result

/-!
# What the known assets decide

A list of known assets is only ever asked whether a name is in it.  Two lists with the same names,
in any order and with any repetitions, build the same program from a tree and give the same output
for a source.
-/

namespace Covenant

variable {as bs : List Bytes}

/-! ### Building -/

theorem isAssetOperation_congr (h : ∀ n, n ∈ as ↔ n ∈ bs) (name function : Bytes) :
    isAssetOperation as name function = isAssetOperation bs name function := by
  have hc : as.contains name = bs.contains name := by
    rw [Bool.eq_iff_iff, List.contains_iff_mem, List.contains_iff_mem]
    exact h name
  rw [isAssetOperation, isAssetOperation, hc]

theorem callOf_congr (h : ∀ n, n ∈ as ↔ n ∈ bs) (callee : Expr) (pos : Pos) (args : List Expr) :
    callOf as callee pos args = callOf bs callee pos args := by
  simp only [callOf, isAssetOperation_congr h]

namespace Site

variable (s : Site)

section

variable (h : ∀ n, n ∈ as ↔ n ∈ bs)

include h

theorem suffix_congr : s.suffix as = s.suffix bs := by
  funext e it
  cases it <;> simp only [suffix, callOf_congr h]

theorem suffixed_congr (items : List Item) : s.suffixed as items = s.suffixed bs items := by
  cases items with
  | nil => rfl
  | cons first suffixes => simp only [suffixed, suffix_congr s h]

theorem build_congr (items : List Item) : s.build as items = s.build bs items := by
  simp only [build, suffixed_congr s h]

end

end Site

mutual

theorem Tree.build_congr (h : ∀ n, n ∈ as ↔ n ∈ bs) : ∀ t : Tree, t.build as = t.build bs
  | .leaf _ => rfl
  | .node rule pos kids => by
    simp only [Tree.build, Tree.buildAll_congr h kids, Site.build_congr _ h]

theorem Tree.buildAll_congr (h : ∀ n, n ∈ as ↔ n ∈ bs) :
    ∀ ts : List Tree, Tree.buildAll as ts = Tree.buildAll bs ts
  | [] => rfl
  | t :: ts => by simp only [Tree.buildAll, Tree.build_congr h t, Tree.buildAll_congr h ts]

end

/-- **The program of a tree depends on which names are known as assets, and on nothing else of
their list.** -/
theorem Program.ofTree_congr (h : ∀ n, n ∈ as ↔ n ∈ bs) (t : Tree) : ofTree as t = ofTree bs t := by
  -- the declarations of the tree add the same names on both sides
  have hd : ∀ n, n ∈ as ++ t.declaredAssets ↔ n ∈ bs ++ t.declaredAssets := by
    simp only [List.mem_append, h, implies_true]
  unfold ofTree
  split
  · rw [Tree.buildAll_congr hd]
  · rfl

/-! ### Compiling -/

theorem toOption_mapError {ε ε' α : Type} (f : ε → ε') (x : Except ε α) :
    (x.mapError f).toOption = x.toOption := by
  cases x <;> rfl

theorem toOption_bind {ε α β : Type} (x : Except ε α) (f : α → Except ε β) :
    (x >>= f).toOption = x.toOption.bind fun a => (f a).toOption := by
  cases x <;> rfl

theorem Options.toOption_compile (o : Options) (source : Bytes) :
    (o.compile source).toOption = (Target.parse o.target).toOption.bind fun target =>
        (o.programOrFault source).toOption.bind fun p => (p.render target).toOption := by
  simp only [compile, version, program, renderFor, toOption_bind, toOption_mapError]

/-- **The output of a source depends on the target and on which names are known as assets.** -/
theorem Options.toOption_compile_congr {o o' : Options} (ht : o.target = o'.target)
    (ha : ∀ n, n ∈ o.assets ↔ n ∈ o'.assets) (source : Bytes) :
    (o.compile source).toOption = (o'.compile source).toOption := by
  have hp : o.programOrFault source = o'.programOrFault source := by
    simp only [programOrFault, Program.ofTree_congr ha]
  rw [toOption_compile, toOption_compile, ht, hp]

end Covenant
