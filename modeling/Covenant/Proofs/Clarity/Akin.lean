import Covenant.Proofs.Clarity.Faithful

/-!
# Forms that are akin

The skeleton of a tree of code shows which lists stand in which, and nothing else.  Forms are akin
if their trees have one skeleton; where the words are to be kept, they are also the same.
-/

namespace Covenant

open List

namespace SExpr

mutual

def skeleton : SExpr → SExpr
  | atom _ | string _ => atom []
  | list ts => list (skeletons ts)

def skeletons : List SExpr → List SExpr
  | [] => []
  | t :: ts => t.skeleton :: skeletons ts

end

theorem skeletons_eq_map (ts : List SExpr) : skeletons ts = ts.map skeleton := by
  induction ts with
  | nil => rw [skeletons, map_nil]
  | cons t ts ih => rw [skeletons, ih, map_cons]

@[simp] theorem skeleton_atom (w : Bytes) : (atom w).skeleton = atom [] := by rw [skeleton]

@[simp] theorem skeleton_string (s : Bytes) : (string s).skeleton = atom [] := by rw [skeleton]

@[simp] theorem skeleton_list (ts : List SExpr) : (list ts).skeleton = list (ts.map skeleton) := by
  rw [skeleton, skeletons_eq_map]

@[simp] theorem skeleton_word (w : String) : (word w).skeleton = atom [] :=
  skeleton_atom _

@[simp] theorem skeleton_app (w : String) (ts : List SExpr) :
    (app w ts).skeleton = list (atom [] :: ts.map skeleton) := by
  rw [app, skeleton_list, map_cons, skeleton_word]

end SExpr

/-- The forms have one skeleton, and are the same if `keep` is set. -/
structure Form.Akin (keep : Bool) (f g : Form) : Prop where
  eq : keep = true → f = g
  skeleton : f.tree.skeleton = g.tree.skeleton

namespace Form.Akin

theorem refl (f : Form) : Akin keep f f :=
  ⟨fun _ => rfl, rfl⟩

theorem atom {w w' : Bytes} (h : keep = true → w = w') : Akin keep (.atom w) (.atom w') :=
  ⟨fun hkeep => by rw [h hkeep], by simp [tree]⟩

theorem eq_of_forall₂ (h : Forall₂ (Akin keep) fs gs) (hkeep : keep = true) : fs = gs := by
  rw [← forall₂_eq_eq_eq]
  exact h.imp fun _ _ h => h.eq hkeep

theorem skeletons (h : Forall₂ (Akin keep) fs gs) :
    (fs.map tree).map SExpr.skeleton = (gs.map tree).map SExpr.skeleton := by
  rw [map_map, map_map]
  exact map_eq_map_of_forall₂ h fun _ _ h => h.skeleton

theorem spaced {gap : Gap} (h : Forall₂ (Akin keep) fs gs) :
    Akin keep (.list (items gap fs)) (.list (items gap gs)) :=
  ⟨fun hkeep => by rw [eq_of_forall₂ h hkeep], by simp only [tree, trees_items, SExpr.skeleton_list,
    skeletons h]⟩

theorem row (h : Forall₂ (Akin keep) fs gs) : Akin keep (row fs) (row gs) :=
  spaced h

theorem apply (h : Forall₂ (Akin keep) fs gs) : Akin keep (apply w fs) (apply w gs) :=
  row (.cons (refl _) h)

theorem pair {name name' : Bytes} (hname : keep = true → name = name') (h : Akin keep f g) :
    Akin keep (pair name f) (pair name' g) :=
  row (.cons (atom hname) (.cons h .nil))

theorem stack (hhead : Forall₂ (Akin keep) fs gs) (hbody : Forall₂ (Akin keep) fs' gs') :
    Akin keep (stack fs fs') (stack gs gs') where
  eq hkeep := by rw [eq_of_forall₂ hhead hkeep, eq_of_forall₂ hbody hkeep]
  skeleton := by
    simp only [tree_stack, SExpr.skeleton_list, map_append, skeletons hhead, skeletons hbody]

theorem sequence (h : Forall₂ (Akin keep) fs gs) : Akin keep (sequence fs) (sequence gs) := by
  cases h with
  | nil => exact refl _
  | cons hf h =>
  cases h with
  | nil => exact hf
  | cons hg h => exact stack (.cons (refl _) .nil) (.cons hf (.cons hg h))

theorem conditional {c c' : Form} (hc : Akin keep c c') (hf : Akin keep f f')
    (hg : Akin keep g g') :
    Akin keep (Form.stack [.atom "if", c] [f, g]) (Form.stack [.atom "if", c'] [f', g']) :=
  stack (.cons (refl _) (.cons hc .nil)) (.cons hf (.cons hg .nil))

theorem lambda (params : List Bytes) (h : Akin keep f g) :
    Akin keep (lambdaForm params f) (lambdaForm params g) :=
  apply (.cons (refl _) (.cons h .nil))

theorem binding (n : Ident) (h : Akin keep f g) : Akin keep (letForm n f none) (letForm n g none) ∧
      ∀ {f' g' : Form}, Akin keep f' g' → Akin keep (letForm n f (some f'))
      (letForm n g (some g')) := by
  have hpair : Akin keep (Form.row [Form.pair n.name f]) (Form.row [Form.pair n.name g]) :=
    row (.cons (pair (fun _ => rfl) h) .nil)
  exact ⟨row (.cons (refl _) (.cons hpair (.cons (refl _) .nil))), fun hbody =>
    stack (.cons (refl _) (.cons hpair .nil)) (.cons hbody .nil)⟩

theorem test (t : Ty) (h : Akin keep f g) : Akin keep (t.testForm f) (t.testForm g) where
  eq hkeep := by rw [h.eq hkeep]
  skeleton := by cases t <;> simp [Ty.testForm, Form.row, items, tree, trees, h.skeleton]

theorem cast (t : Ty) (known : Option Ty) (h : Akin keep f g) :
    Akin keep (t.castForm known f) (t.castForm known g) := by
  unfold Ty.castForm
  split
  · exact apply (.cons h .nil)
  · split
    · exact apply (.cons h .nil)
    · exact apply (.cons (refl _) (.cons h .nil))

theorem literal (keep : Bool) (v : Literal) : Akin keep v.form (v.veil keep).form := by
  cases v with
  | string s => exact ⟨fun hkeep => by rw [hkeep]; rfl, by simp [Literal.veil, Literal.form, tree]⟩
  | _ => exact refl _

end Form.Akin

end Covenant
