import Covenant.Proofs.Program.Likeness
import Covenant.Proofs.Program.Refusal

/-!
# Well-formed programs

What holds of every part of a program that is built from a source, beyond what the types of the
parts say: a variable has a value and a function value has one body by their types alone.
-/

namespace Covenant

/-- A constant, as it is declared. -/
structure Constant where
  decorators : List Decorator
  shape : Option MapShape
  value : Option Expr

def Stmt.constant? : Stmt → Option Constant
  | .constDecl _ _ _ e => some ⟨[], none, some e⟩
  | .mapConst _ ds _ _ e m => some ⟨ds, some m, e⟩
  | _ => none

/-- A constant declares a map when it is decorated so, is decorated in no other way, and else has a
value. -/
structure Constant.WellFormed (c : Constant) : Prop where
  shape_iff : c.shape.isSome = true ↔ ∃ d ∈ c.decorators, d.name = Bytes.ofString "map"
  decorators : ∀ d ∈ c.decorators, d.name = Bytes.ofString "map"
  value : c.shape = none → c.value.isSome = true

/-- The keys are those of a rule in the tree, in its order, and no two are the same. -/
def Tree.Keys (root : Tree) (rule : Rule) (p : Pos) (keys : List Bytes) : Prop :=
  keys.Nodup ∧ ∃ kids, root.Contains (.node rule p kids) ∧ keys = kids.map Tree.firstWord

/-- The part of a program that was built from the tree is well-formed.  Functions are complete but
for those of traits, which are signatures. -/
def Node.WellFormed (root : Tree) : Node → Prop
  | .expr (.tuple p fields) => root.Keys .tupleLit p (fields.map Prod.fst)
  | .type (.tuple p fields) => root.Keys .tupleType p (fields.map Prod.fst)
  | .expr (.binary _ op _ _) => op ∈ BinOp.all
  | .expr (.unary _ op e) => (op = .not ∨ op = .neg) ∧ (op = .neg → e.isNumber = false)
  | .block b => ∀ s ∈ b.statements, s.IsComplete
  | .program ss => ∀ s ∈ ss, s.IsComplete
  | .stmt (.exportDecl _ s) => s.IsComplete
  | .stmt (.traitDecl _ _ fs) => ∀ f ∈ fs, f.IsSignature
  | .stmt (.assetDecl _ _ fields) => ∀ p ∈ fields, p.type.isSome = true
  | .stmt s => ∀ c ∈ s.constant?, c.WellFormed
  | _ => True

theorem Constant.wellFormed_plain (e : Expr) : WellFormed ⟨[], none, some e⟩ :=
  ⟨⟨nofun, nofun⟩, nofun, fun _ => rfl⟩

theorem Constant.wellFormed_map (hne : ds ≠ [])
    (hmap : ∀ d ∈ ds, d.name = Bytes.ofString "map") (e : Option Expr) (m : MapShape) :
    WellFormed ⟨ds, some m, e⟩ := by
  obtain ⟨d, hd⟩ := List.exists_mem_of_ne_nil ds hne
  exact ⟨⟨fun _ => ⟨d, hd, hmap d hd⟩, fun _ => rfl⟩, hmap, nofun⟩

theorem Node.Formed.wellFormed {root : Tree} {assets : List Bytes} {n : Node}
    (hformed : n.Formed root) (hsound : n.Sound assets) : n.WellFormed root := by
  cases n with
  | expr e =>
    cases e with
    | tuple p fields => exact ⟨hsound, hformed⟩
    | binary p op l r | unary p op e => exact hsound
    | _ => trivial
  | type t =>
    cases t with
    | tuple p fields => exact ⟨hsound.2, hformed⟩
    | _ => trivial
  | parameter p => trivial
  | block b | program ss => exact hformed
  | stmt s =>
    cases s with
    | exportDecl p s | traitDecl p n fs | assetDecl p n fields => exact hformed
    | constDecl p n t e =>
      rintro _ ⟨⟩
      exact Constant.wellFormed_plain e
    | mapConst p ds n t e m =>
      rintro _ ⟨⟩
      exact Constant.wellFormed_map hformed.1 hformed.2 e m
    | _ => nofun

/-- **All parts of a program built from a source are well-formed.** -/
theorem Program.wellFormed_of_parse {source : Bytes} {assets : List Bytes}
    {program : Program} (ht : Tree.parse source = .ok t)
    (hp : ofTree assets t = .ok program) :
    (Node.program program.statements).All (Node.WellFormed t) := by
  have hformed := answers_ofTree ht assets
  rw [hp] at hformed
  intro n hn
  exact (hformed n hn).wellFormed (sound_of_parse ht hp n hn)

end Covenant
