import Covenant.Proofs.Clarity.Faithful
import Covenant.Proofs.Program.Assets

/-!
# Depth only indents

What stands deeper is rendered if it is rendered at all, and its text differs by indentation alone.
-/

namespace Covenant

open List Bytes
open Form (sequence)

/-! ### Contracts of imports -/

theorem Bytes.subset_of_mem_splitOn (h : piece ∈ splitOn sep s) : piece ⊆ s := by
  induction s generalizing piece with
  | nil => simp_all [splitOn]
  | cons b s ih =>
    rw [splitOn] at h
    split at h
    · obtain rfl | h := mem_cons.1 h
      · exact nil_subset _
      · exact subset_cons_of_subset b (ih h)
    · split at h
      · simp_all
      · next heq =>
        obtain rfl | h := mem_cons.1 h
        · exact cons_subset_cons b (ih (heq ▸ .head _))
        · exact subset_cons_of_subset b (ih (heq ▸ .tail _ h))

theorem Bytes.stripSuffix_subset (s p : Bytes) : s.stripSuffix p ⊆ s := by
  unfold stripSuffix
  split
  · next front h =>
    have hsub : front ⊆ reverse s := by
      rw [stripPrefix?_eq_some.1 h]
      exact subset_append_right _ _
    simpa using reverse_subset.2 hsub
  · exact Subset.refl s

theorem contractOf_subset (source : Bytes) : contractOf source ⊆ source := by
  have hlast : (source.splitOn 47).getLastD [] ⊆ source := by
    rw [getLastD_eq_getLast?]
    cases h : (source.splitOn 47).getLast? with
    | none => exact nil_subset _
    | some piece => exact subset_of_mem_splitOn (mem_of_getLast? h)
  exact Subset.trans (Subset.trans (stripSuffix_subset _ _) (stripSuffix_subset _ _)) hlast

/-! ### Texts at a depth -/

/-- The names in a part are words of the source language, and neither a key of a tuple nor the
module of an import holds a line feed. -/
def Node.Lined : Node → Prop
  | .expr (.tuple _ fields) => ∀ f ∈ fields, 10 ∉ f.1
  | .stmt (.importDecl _ _ source) => 10 ∉ source
  | n => n.Legible true

theorem Node.Lined.legible {n : Node} (h : n.Lined) : n.Legible false := by
  unfold Lined at h
  split at h
  · exact fun f hf => ⟨by simp, h f hf⟩
  · exact ⟨by simp, fun hmem => h (contractOf_subset _ hmem)⟩
  · unfold Legible at h ⊢
    split <;> first | exact h | simp_all

/-- The text of what is rendered, as it stands at a depth. -/
def textAt (depth : Nat) (r : Except Fault Form) : Except Fault Bytes :=
  Form.print depth <$> r

theorem textAt_add {t : SExpr} (h : Yields (Says false t) r) (d k : Nat) :
    textAt (d + k) r = shifted k <$> textAt d r := by
  cases r with
  | error f => rfl
  | ok f => exact congrArg Except.ok ((h f rfl).shifts d k)

/-- **Depth only indents.**  Statements in sequence, single statements and expressions are rendered
at one depth if they are at any other, and else fail with the same fault; and `k` levels deeper the
text has exactly `2 * k` more blanks behind each line feed. -/
theorem Stmt.textAt_deeper {ss : List Stmt} {e : Expr}
    (hss : ∀ s ∈ ss, (Node.stmt s).All Node.Lined) (he : (Node.expr e).All Node.Lined)
    (target : Version) (sc : Scope) (d k : Nat) :
    textAt (d + k) (sequence <$> Stmt.forms target sc ss) =
        shifted k <$> textAt d (sequence <$> Stmt.forms target sc ss) ∧
      (∀ s ∈ ss, textAt (d + k) (s.form target sc) = shifted k <$> textAt d (s.form target sc)) ∧
      textAt (d + k) (e.form target sc) = shifted k <$> textAt d (e.form target sc) := by
  have htold {n : Node} (hn : n.All Node.Lined) : n.All (Node.Told false target) :=
    (hn.imp fun _ h => h.legible).told target
  exact ⟨textAt_add ((Stmt.yields_forms fun s hs => htold (hss s hs)).map fun _ h =>
    .sequence h) d k,
    fun s hs => textAt_add ((htold (hss s hs)).speaks sc) d k,
    textAt_add ((htold he).speaks sc) d k⟩

/-- A tuple with a blank in its key. -/
def spacedKey : Expr :=
  .tuple {} [("a b", .ident ⟨"x", {}⟩)]

theorem Stmt.textAt_deeper_spacedKey :
    let s := Stmt.tryStmt {} (.mk {} [.exprStmt {} spacedKey]) ⟨"e", {}⟩ (.mk {} [])
    (Node.stmt s).All Node.Lined ∧ (Node.expr spacedKey).All Node.Lined ∧
      textAt 0 (s.form { major := 2 } []) = .ok "(try\n  (tuple (a b x))\n  (catch e ()))" ∧
      textAt 2 (s.form { major := 2 } []) = .ok
      "(try\n      (tuple (a b x))\n      (catch e ()))" := by
  intro s
  have hnode {n : Node} (hn : n.Lined) (h : ∀ c ∈ n.children, c.All Node.Lined) :
      n.All Node.Lined :=
    Node.all_iff.2 ⟨hn, h⟩
  have hkey : (Node.expr spacedKey).All Node.Lined :=
    hnode (forall_mem_singleton.2 (by decide))
      (forall_mem_singleton.2 (hnode rfl (forall_mem_nil _)))
  have hs : (Node.stmt s).All Node.Lined := hnode trivial (forall_mem_cons.2
    ⟨hnode trivial (forall_mem_singleton.2 (hnode trivial (forall_mem_singleton.2 hkey))),
      forall_mem_cons.2 ⟨hnode rfl (forall_mem_nil _),
        forall_mem_singleton.2 (hnode trivial (forall_mem_nil _))⟩⟩)
  have htext : textAt 0 (s.form { major := 2 } []) =
      .ok "(try\n  (tuple (a b x))\n  (catch e ()))" :=
    eq_ok_of_toOption (by decide)
  refine ⟨hs, hkey, htext, ?_⟩
  rw [(Stmt.textAt_deeper (forall_mem_singleton.2 hs) hkey _ [] 0 2).2.1 s (.head _), htext]
  exact eq_ok_of_toOption (by decide)

end Covenant
