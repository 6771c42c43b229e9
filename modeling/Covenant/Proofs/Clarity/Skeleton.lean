import Covenant.Proofs.Clarity.Limits
import Covenant.Proofs.Program.Assets
import Covenant.Proofs.Program.Order

/-!
# Skeletons of code

The skeleton of the code depends on a program only up to places and strings: so two sources that
differ in the contents of strings have code of one skeleton, as long as the strings that become
words, keys of tuples and paths of imports, become single words.  Otherwise they do not: nothing
quotes these words or checks them.
-/

namespace Covenant

open List SExpr Token
open Stmt (topCode)

/-! ### Code under a veil -/

variable {target : Version} {source : Bytes}

theorem Stmt.skeleton_topCode {s : Stmt} {text : Bytes}
    (hlegible : (Node.stmt s).All (Node.Legible true))
    (hrenderable : (Node.stmt s).All Node.Renderable) (hs : s.IsComplete)
    (hone : Program.renderOne target s = .ok text) :
    ((s.veil false).topForm target false).toOption.map (fun g => g.tree.skeleton) =
      some (s.topCode false).skeleton := by
  obtain ⟨f, hf, -⟩ := of_bind_eq_ok hone
  have htold := yields_topForm target s false hlegible f hf
  have hsettled := settled_topForm false target s false hrenderable hs
  rw [hf] at hsettled
  generalize (s.veil false).topForm target false = r at hsettled ⊢
  cases r with
  | error _ => exact hsettled.elim
  | ok g => exact congrArg some (htold.tree ▸ hsettled.skeleton.symm)

/-- The skeletons of the code of a program are those of the program without places and strings. -/
theorem Program.skeletons_code {p : Program}
    (hlegible : (Node.program p.statements).All (Node.Legible true))
    (hrenderable : (Node.program p.statements).All Node.Renderable)
    (hout : p.render target = .ok out) :
    (Stmt.veilAll false p.statements).map
        (fun s => (s.topForm target false).toOption.map fun g => g.tree.skeleton) =
      ((p.statements.map (topCode false)).map SExpr.skeleton).map some := by
  obtain ⟨text, htext, -⟩ := exists_texts_of_render hout
  rw [Stmt.veilAll_eq_map, map_map, map_map, map_map]
  exact map_congr_left fun s hs => Stmt.skeleton_topCode (forall_mem_map.1 hlegible.below s hs)
    (forall_mem_map.1 hrenderable.below s hs) (hrenderable.self s hs) (htext s hs)

/-! ### Sources that differ in strings -/

def Token.shape (t : Token) : TokenKind × Option Bytes :=
  (t.kind, if t.kind = .string then none else some t.literal)

theorem Token.alike_of_shape {t u : Token} (h : t.shape = u.shape) (ht : t.isSound = true) :
    Alike false t u := by
  obtain ⟨hkind, hliteral⟩ := Prod.mk.inj h
  refine ⟨hkind, fun hstring => ?_, ht⟩
  have hstring := hstring.resolve_left (by decide)
  rw [if_neg hstring, if_neg (hkind ▸ hstring)] at hliteral
  exact Option.some.inj hliteral

theorem Token.forall₂_alike {ts us : List Token} (h : ts.map shape = us.map shape)
    (hsound : ∀ t ∈ ts, t.isSound = true) : Forall₂ (Alike false) ts us := by
  induction ts generalizing us with
  | nil =>
    rw [map_eq_nil_iff.1 h.symm]
    exact .nil
  | cons t ts ih =>
    obtain ⟨u, us, rfl, hhead, htail⟩ := map_eq_cons_iff.1 h.symm
    obtain ⟨ht, hts⟩ := forall_mem_cons.1 hsound
    exact .cons (alike_of_shape hhead.symm ht) (ih htail.symm hts)

theorem Options.veil_programOrFault (o : Options)
    (h : (scan source).map shape = (scan source').map shape)
    {p p' : Program} (hp : o.programOrFault source = .ok p)
    (hp' : o.programOrFault source' = .ok p') :
    (Node.program p.statements).veil false = (Node.program p'.statements).veil false := by
  obtain ⟨t, ht, hp⟩ := of_bind_eq_ok hp
  obtain ⟨t', ht', hp'⟩ := of_bind_eq_ok hp'
  have htree := Tree.like_parse tokenLike
    (forall₂_alike h fun _ hmem => isSound_of_mem_scan hmem)
  rw [ht, ht'] at htree
  have hprogram := Program.like_ofTree o.assets htree
  rw [hp, hp'] at hprogram
  exact hprogram.veil

theorem Options.exists_render_of_compile {o : Options} {p : Program}
    (hp : o.programOrFault source = .ok p) {out : Bytes} (hout : o.compile source = .ok out) :
    ∃ target, (Target.parse o.target).toOption = some target ∧ p.render target = .ok out := by
  have h := o.toOption_compile source
  rw [hout, hp] at h
  obtain ⟨target, htarget, h⟩ := Option.bind_eq_some_iff.1 h.symm
  obtain ⟨q, hq, h⟩ := Option.bind_eq_some_iff.1 h
  cases hq
  refine ⟨target, htarget, ?_⟩
  generalize p.render target = x at h
  cases x with
  | ok _ => cases h; rfl
  | error _ => cases h

/-- **Sources that differ in the contents of strings have code of one skeleton**, as long as keys of
tuples and paths of imports make single words. -/
theorem Options.skeleton_compile (o : Options) {source source' : Bytes}
    (htokens : (scan source).map shape = (scan source').map shape)
    {p p' : Program} (hp : o.programOrFault source = .ok p)
    (hp' : o.programOrFault source' = .ok p')
    (hclean : (Node.program p.statements).All Node.Clean)
    (hclean' : (Node.program p'.statements).All Node.Clean) {out out' : Bytes}
    (hout : o.compile source = .ok out) (hout' : o.compile source' = .ok out') :
    ∃ ts ts', SExpr.readAll out = some ts ∧ SExpr.readAll out' = some ts' ∧
      ts.map SExpr.skeleton = ts'.map SExpr.skeleton := by
  have hveil := o.veil_programOrFault htokens hp hp'
  obtain ⟨target, htarget, hrender⟩ := Options.exists_render_of_compile hp hout
  obtain ⟨target', htarget', hrender'⟩ := Options.exists_render_of_compile hp' hout'
  obtain rfl := Option.some.inj (htarget.symm.trans htarget')
  have hlegible := Program.legible hp hclean
  have hlegible' := Program.legible hp' hclean'
  obtain ⟨t, ht, hp⟩ := of_bind_eq_ok hp
  obtain ⟨t', ht', hp'⟩ := of_bind_eq_ok hp'
  have hcode := Program.skeletons_code hlegible (Program.renderable_of_parse ht hp) hrender
  have hcode' := Program.skeletons_code hlegible' (Program.renderable_of_parse ht' hp') hrender'
  rw [Node.veil, Node.veil, Node.program.injEq] at hveil
  rw [hveil, hcode'] at hcode
  exact ⟨_, _, Program.readAll_of_legible target hlegible hrender,
    Program.readAll_of_legible target hlegible' hrender',
    (map_injective_iff.2 (Option.some_injective _) hcode).symm⟩

def constantOf (key text : Bytes) (column : Nat) : Program where
  statements :=
    [.constDecl ⟨1, 1⟩ ⟨"t", ⟨1, 7⟩⟩ none
      (.tuple ⟨1, 11⟩ [(key, .literal text ⟨1, column⟩ (.string text))])]

theorem clean_constantOf {key : Bytes} (h : isAtom key = true) (text : Bytes) (column : Nat) :
    (Node.program (constantOf key text column).statements).All Node.Clean := by
  have hleaf {n : Node} (hn : n.Clean) (hchildren : n.children = []) : n.All Node.Clean :=
    Node.all_iff.2 ⟨hn, by rw [hchildren]; exact forall_mem_nil _⟩
  have htuple : (Node.expr (.tuple ⟨1, 11⟩
      [(key, .literal text ⟨1, column⟩ (.string text))])).All Node.Clean :=
    Node.all_iff.2 ⟨forall_mem_singleton.2 h, forall_mem_singleton.2 (hleaf trivial rfl)⟩
  refine Node.all_iff.2 ⟨trivial, forall_mem_singleton.2 (Node.all_iff.2 ⟨trivial, ?_⟩)⟩
  exact forall_mem_cons.2 ⟨hleaf trivial rfl, forall_mem_singleton.2 htuple⟩

/-- A parenthesis and a quote in a string, and another key. -/
theorem skeleton_compile_constantOf :
    (scan "const t = \x7b\"k\": \"a\"\x7d;").map shape =
        (scan "const t = \x7b\"key\": \") (b\"\x7d;").map shape ∧
      ∃ ts ts', SExpr.readAll "(define-constant t (tuple (k \"a\")))" = some ts ∧
        SExpr.readAll "(define-constant t (tuple (key \") (b\")))" = some ts' ∧
        ts.map SExpr.skeleton = ts'.map SExpr.skeleton := by
  have htokens : (scan "const t = \x7b\"k\": \"a\"\x7d;").map shape =
      (scan "const t = \x7b\"key\": \") (b\"\x7d;").map shape := by decide
  have hp : ({} : Options).programOrFault "const t = \x7b\"k\": \"a\"\x7d;" =
      .ok (constantOf "k" "a" 17) := by cbv
  have hp' : ({} : Options).programOrFault "const t = \x7b\"key\": \") (b\"\x7d;" =
      .ok (constantOf "key" ") (b" 19) := by cbv
  exact ⟨htokens, Options.skeleton_compile {} htokens hp hp' (clean_constantOf (by decide) _ _)
    (clean_constantOf (by decide) _ _) (eq_ok_of_toOption (by decide))
    (eq_ok_of_toOption (by decide))⟩

/-- **A blank in a key makes two words of it**, so that the list around it has one more item. -/
theorem skeleton_blank_in_key :
    (scan "const t = \x7b\"name\": 1\x7d;").map shape =
        (scan "const t = \x7b\"first name\": 1\x7d;").map shape ∧
      ({} : Options).compile "const t = \x7b\"name\": 1\x7d;" =
        .ok "(define-constant t (tuple (name 1)))" ∧
      ({} : Options).compile "const t = \x7b\"first name\": 1\x7d;" =
        .ok "(define-constant t (tuple (first name 1)))" ∧
      (SExpr.readAll "(define-constant t (tuple (name 1)))").map (map SExpr.skeleton) ≠
        (SExpr.readAll "(define-constant t (tuple (first name 1)))").map (map SExpr.skeleton) := by
  refine ⟨by decide, eq_ok_of_toOption ?_, eq_ok_of_toOption ?_, ?_⟩
  · decide
  · decide
  have hone : SExpr.readAll "(define-constant t (tuple (name 1)))" =
      some [.app "define-constant" [.word "t",
      .app "tuple" [.list [.word "name", .word "1"]]]] := by
    cbv
  have htwo : SExpr.readAll "(define-constant t (tuple (first name 1)))" =
      some [.app "define-constant" [.word "t",
        .app "tuple" [.list [.word "first", .word "name", .word "1"]]]] := by
    cbv
  simp [hone, htwo]

end Covenant
