import Covenant.Proofs.Compile.Append
import Covenant.Session

/-!
# What a session remembers

A session evaluates one input after the other, and the assets that an input declares are known to
those behind it.  So each input has the output that it has when it is compiled alone, with the
names that were given at first and those that the earlier inputs declared.

The builder and the session look for these names in two places: the builder in all of the tree, and
the session among the statements of the finished program.  Therefore a class inside of a function
is known in its own input, but not behind it; only classes that are statements of the program, or
exported by one, are remembered.
-/

namespace Covenant

open List Tree

/-! ### Classes among the statements -/

def Tree.IsTopClass (name : Bytes) (t : Tree) : Prop :=
  t.IsClass name ∨ ∃ p u, t = .node .exportDecl p [u] ∧ u.IsClass name

/-- A class of that name is declared or exported by a statement of the program. -/
def Tree.DeclaresOnTop (t : Tree) (name : Bytes) : Prop :=
  ∃ p kids u, t = .node .program p kids ∧ u ∈ kids ∧ u.IsTopClass name

theorem Tree.DeclaresOnTop.declares {t : Tree} {name : Bytes} (h : t.DeclaresOnTop name) :
    t.Declares name := by
  obtain ⟨p, kids, u, rfl, hu, hclass | ⟨q, v, rfl, hclass⟩⟩ := h
  · exact ⟨u, .kid hu (.refl u), hclass⟩
  · exact ⟨v, .kid hu (.kid mem_cons_self (.refl v)), hclass⟩

/-! ### Statements that are built -/

def Stmt.asset? : Stmt → Option Bytes
  | .assetDecl _ n _ => some n.name
  | _ => none

def Stmt.isAssetFree : Stmt → Bool
  | .assetDecl .. | .exportDecl .. => false
  | _ => true

def AssetFree (x : Except Fault Item) : Prop :=
  ∀ st, x = .ok (.ofStmt st) → st.isAssetFree = true

namespace AssetFree

theorem error (f : Fault) : AssetFree (.error f) := by rintro _ ⟨⟩

theorem ofStmt {st : Stmt} (h : st.isAssetFree = true) : AssetFree (.ok (.ofStmt st)) := by
  rintro _ ⟨⟩
  exact h

theorem bind {α : Type} {x : Except Fault α} {f : α → Except Fault Item}
    (h : ∀ a, AssetFree (f a)) : AssetFree (x >>= f) := by
  intro it hit
  obtain ⟨a, -, ha⟩ := of_bind_eq_ok hit
  exact h a it ha

end AssetFree

namespace Site

variable (s : Site) (items : List Item)

theorem assetFree_functionDecl : AssetFree (s.functionDecl items) := by
  unfold functionDecl
  split
  · exact .error _
  split
  · exact .error _
  dsimp only
  split
  · exact .error _
  · exact .ofStmt rfl

theorem assetFree_mapConst (b : Binding) (d : Decorator) : AssetFree (s.mapConst b d) := by
  unfold mapConst
  extract_lets finish
  have hfinish : ∀ value, AssetFree (finish value) := by
    intro value
    unfold finish
    split
    · exact .ofStmt rfl
    · exact .error _
  split <;> exact .bind hfinish

theorem assetFree_constantDecl : AssetFree (s.constantDecl items) := by
  refine .bind fun b => ?_
  split
  · exact .error _
  split
  · exact s.assetFree_mapConst b _
  split
  · exact .error _
  · exact .bind fun e => .ofStmt rfl

theorem assetFree_build {rule : Rule} (known : List Bytes)
    (hshape : (node rule p kids).shape = .statement) (hasset : rule ≠ .assetDecl)
    (hexport : rule ≠ .exportDecl) : AssetFree (build known ⟨rule, p⟩ items) := by
  unfold build
  cases rule with
  | functionDecl => exact assetFree_functionDecl _ items
  | constantDecl => exact assetFree_constantDecl _ items
  | assetDecl => exact absurd rfl hasset
  | exportDecl => exact absurd rfl hexport
  | variableDecl | mapDecl | traitDecl | exprStmt | ifStmt | tryStmt | throwStmt | returnStmt
  | importDecl =>
    -- what stands in the items is built, and the statement is put together from it
    dsimp only
    first
      | unfold variableDecl | unfold mapDecl | unfold traitDecl | unfold exprStmt | unfold ifStmt
      | unfold tryStmt | unfold throwStmt | unfold returnStmt | unfold importDecl
    repeat' first | exact .error _ | exact .ofStmt rfl | refine .bind fun _ => ?_ | split
  | _ => cases hshape

theorem name_assetPart (h : s.assetPart parts it = .ok parts') :
    (∀ n, parts.name = some n → parts'.name = some n) ∧
      ∀ n, it = .ofExpr (.ident n) → parts'.name = some n := by
  unfold assetPart at h
  split at h
  · split at h
    · cases h
      exact ⟨fun n hn => hn, by rintro n ⟨⟩⟩
    · cases h
  · split at h
    · next hnone =>
      cases h
      refine ⟨fun n hn => ?_, by rintro n ⟨⟩; rfl⟩
      rw [hnone] at hn
      cases hn
    · cases h
  · cases h
    exact ⟨fun n hn => hn, by rintro n ⟨⟩⟩
  · cases h

theorem name_assetParts {items : List Item} (h : items.foldlM s.assetPart parts = .ok parts') :
    (∀ n, parts.name = some n → parts'.name = some n) ∧
      ∀ n, .ofExpr (.ident n) ∈ items → parts'.name = some n := by
  induction items generalizing parts with
  | nil =>
    cases h
    exact ⟨fun n hn => hn, fun n hn => absurd hn not_mem_nil⟩
  | cons it items ih =>
    obtain ⟨parts₁, hit, hitems⟩ := of_bind_eq_ok h
    obtain ⟨hkeep, hfind⟩ := s.name_assetPart hit
    obtain ⟨hkeep', hfind'⟩ := ih hitems
    refine ⟨fun n hn => hkeep' n (hkeep n hn), fun n hn => ?_⟩
    obtain hn | hn := mem_cons.1 hn
    · exact hkeep' n (hfind n hn.symm)
    · exact hfind' n hn

end Site

namespace Tree

variable {t : Tree}

theorem IsClass.asset?_eq (hclass : t.IsClass name) (h : t.build known = .ok (.ofStmt st)) :
    st.asset? = some name := by
  obtain ⟨p, ds, n, fields, rfl, -, hkind, rfl⟩ := hclass
  obtain ⟨items, hitems, h⟩ := of_bind_eq_ok h
  obtain ⟨its, jts, -, hjts, rfl⟩ := exists_of_buildAll_append hitems
  obtain ⟨it, rest, hit, -, rfl⟩ := exists_of_buildAll_cons hjts
  have hname : it = .ofExpr (.ident ⟨n.literal, n.pos⟩) := by
    rw [build, Item.ofToken, hkind] at hit
    exact (Except.ok.inj hit).symm
  obtain ⟨parts, hparts, h⟩ := of_bind_eq_ok (show Site.assetDecl _ _ = _ from h)
  have hfound := (Site.name_assetParts _ hparts).2 ⟨n.literal, n.pos⟩ (by simp [hname])
  rw [hfound] at h
  dsimp only at h
  split at h
  · cases h
    rfl
  · cases h

theorem build_node_assetFree {rule : Rule}
    (hshape : (node rule p kids).shape = .statement) (hasset : rule ≠ .assetDecl)
    (hexport : rule ≠ .exportDecl) (h : build known (.node rule p kids) = .ok (.ofStmt st)) :
    st.isAssetFree = true := by
  obtain ⟨items, -, h⟩ := of_bind_eq_ok h
  exact Site.assetFree_build items known hshape hasset hexport st h

theorem exists_of_build_exportDecl (hformed : Formed P (.node .exportDecl p kids))
    (h : build known (.node .exportDecl p kids) = .ok (.ofStmt st)) :
    ∃ u st', kids = [u] ∧ u.Formed P ∧ u.shape = .statement ∧
      u.build known = .ok (.ofStmt st') ∧ st = .exportDecl p st' := by
  cases hformed with
  | node htakes hkids =>
    obtain ⟨u, us, rfl, hu, hus⟩ := map_eq_cons_iff.1 htakes
    obtain rfl := map_eq_nil_iff.1 hus
    obtain ⟨items, hitems, h⟩ := of_bind_eq_ok h
    obtain ⟨it, rest, hit, -, rfl⟩ := exists_of_buildAll_cons hitems
    have h := h
    obtain ⟨st', hst', hexport⟩ := of_bind_eq_ok h
    cases hexport
    unfold Site.stmt at hst'
    split at hst'
    · cases hst'
      exact ⟨u, _, rfl, hkids u mem_cons_self, hu, hit, rfl⟩
    · cases hst'

theorem shape_leaf_ne_statement (u : Token) : (leaf u).shape ≠ .statement := by
  rw [shape]
  split <;> exact Shape.noConfusion

section

variable (hformed : t.Formed P) (hshape : t.shape = .statement)
    (h : t.build known = .ok (.ofStmt st))

include hformed hshape h

theorem asset?_eq_some_iff : st.asset? = some name ↔ t.IsClass name := by
  refine ⟨fun hname => ?_, fun hclass => hclass.asset?_eq h⟩
  cases t with
  | leaf u => exact absurd hshape (shape_leaf_ne_statement u)
  | node rule p kids =>
    by_cases hasset : rule = .assetDecl
    · subst hasset
      obtain ⟨m, hclass⟩ := exists_isClass hformed
      have hm := hclass.asset?_eq h
      rw [hname] at hm
      exact Option.some.inj hm ▸ hclass
    by_cases hexport : rule = .exportDecl
    · subst hexport
      obtain ⟨u, st', -, -, -, -, rfl⟩ := exists_of_build_exportDecl hformed h
      cases hname
    · have hfree := build_node_assetFree hshape hasset hexport h
      unfold Stmt.asset? at hname
      split at hname
      · cases hfree
      · cases hname

theorem exists_exported_iff : (∃ p st', st = .exportDecl p st' ∧ st'.asset? = some name) ↔
      ∃ p u, t = .node .exportDecl p [u] ∧ u.IsClass name := by
  constructor
  · rintro ⟨p, st', rfl, hname⟩
    cases t with
    | leaf u => exact absurd hshape (shape_leaf_ne_statement u)
    | node rule q kids =>
      by_cases hasset : rule = .assetDecl
      · subst hasset
        obtain ⟨m, hclass⟩ := exists_isClass hformed
        cases hclass.asset?_eq h
      by_cases hexport : rule = .exportDecl
      · subst hexport
        obtain ⟨u, st'', rfl, hu, hushape, hbuild, heq⟩ := exists_of_build_exportDecl hformed h
        cases heq
        exact ⟨_, u, rfl, (asset?_eq_some_iff hu hushape hbuild).1 hname⟩
      · cases build_node_assetFree hshape hasset hexport h
  · rintro ⟨p, u, rfl, hclass⟩
    obtain ⟨_, st', heq, hu, hushape, hbuild, rfl⟩ := exists_of_build_exportDecl hformed h
    cases heq
    exact ⟨p, st', rfl, (asset?_eq_some_iff hu hushape hbuild).2 hclass⟩

end

end Tree

theorem Session.declared?_eq_some_iff {name : Bytes} : declared? st = some name ↔
      st.asset? = some name ∨ ∃ p st', st = .exportDecl p st' ∧ st'.asset? = some name := by
  cases st with
  | exportDecl p st' => cases st' <;> simp [declared?, Stmt.asset?]
  | _ => simp [declared?, Stmt.asset?]

/-- The session finds the classes that the statements of the program declare or export. -/
theorem Program.mem_declared {source : Bytes} {assets : List Bytes}
    (ht : parse source = .ok t) (hp : ofTree assets t = .ok p) (name : Bytes) :
    name ∈ p.statements.filterMap Session.declared? ↔ t.DeclaresOnTop name := by
  obtain ⟨q, kids, -, rfl, -⟩ := parses_parse ht
  obtain ⟨stmt, hstmt, hss⟩ := exists_statements_of_ofTree hp
  have htop : ∀ u ∈ kids, Session.declared? (stmt u) = some name ↔ u.IsTopClass name := by
    intro u hu
    cases formed_parse ht with
    | node htakes hkids =>
      have hshape : u.shape = .statement := htakes _ (mem_map_of_mem hu)
      have hbuild := build_eq_of_statement? (hstmt u hu)
      rw [Session.declared?_eq_some_iff, asset?_eq_some_iff (hkids u hu) hshape hbuild,
        exists_exported_iff (hkids u hu) hshape hbuild]
      rfl
  rw [hss, filterMap_map, mem_filterMap]
  constructor
  · rintro ⟨u, hu, hname⟩
    exact ⟨q, kids, u, rfl, hu, (htop u hu).1 hname⟩
  · rintro ⟨_, _, u, heq, hu, hclass⟩
    cases heq
    exact ⟨u, hu, (htop u hu).2 hclass⟩

/-! ### Sessions -/

def Bytes.Declares (source name : Bytes) : Prop :=
  ∃ t, parse source = .ok t ∧ t.Declares name

/-- A class of that name is declared or exported by a statement of the source. -/
def Bytes.DeclaresOnTop (source name : Bytes) : Prop :=
  ∃ t, parse source = .ok t ∧ t.DeclaresOnTop name

theorem Options.compile_congr {o o' : Options} (hfile : o.filename = o'.filename)
    (htarget : o.target = o'.target) (hassets : ∀ n, n ∈ o.assets ↔ n ∈ o'.assets)
    (source : Bytes) : o.compile source = o'.compile source := by
  have hp : o.programOrFault source = o'.programOrFault source := by
    simp only [programOrFault, Program.ofTree_congr hassets]
  have hv : o.version = o'.version := by rw [version, version, htarget]
  have hd : o.diagnostic = o'.diagnostic := by
    funext f
    rw [diagnostic, diagnostic, hfile]
  rw [compile_eq, compile_eq, hp, hv, hd]

namespace Session

variable {s s' : Session} {input out : Bytes} {after before : List (Bytes × Bytes)}

theorem mem_foldl_addAsset {assets names : List Bytes} :
    n ∈ names.foldl addAsset assets ↔ n ∈ assets ∨ n ∈ names := by
  induction names generalizing assets with
  | nil => simp
  | cons m names ih =>
    have hadd : n ∈ addAsset assets m ↔ n ∈ assets ∨ n = m := by
      unfold addAsset
      split
      · next hmem =>
        have hmem : m ∈ assets := contains_iff_mem.1 hmem
        refine ⟨.inl, ?_⟩
        rintro (h | rfl)
        · exact h
        · exact hmem
      · simp
    rw [foldl_cons, ih, hadd, mem_cons, or_assoc]

theorem eval_cases (s : Session) (input : Bytes) : (∃ f, s.eval input = (.error f, s)) ∨
      ∃ p out, s.options.program input = .ok p ∧
        (if s.showProgram then .ok p.print else s.options.render p) = .ok out ∧
        s.eval input = (.ok out, s.remember p) := by
  unfold eval
  cases hp : s.options.program input with
  | error f => exact .inl ⟨f, rfl⟩
  | ok p =>
    dsimp only
    cases hout : (if s.showProgram then .ok p.print else s.options.render p) with
    | error f => exact .inl ⟨f, rfl⟩
    | ok out => exact .inr ⟨p, out, rfl, hout, rfl⟩

theorem eval_snd_of_error {f : Failure} (h : (s.eval input).1 = .error f) :
    (s.eval input).2 = s := by
  obtain ⟨g, heval⟩ | ⟨p, out, -, -, heval⟩ := s.eval_cases input
  · rw [heval]
  · rw [heval] at h
    cases h

theorem eval_snd_of_ok (h : (s.eval input).1 = .ok out) :
    (s.eval input).2.target = s.target ∧ (s.eval input).2.showProgram = s.showProgram ∧
      ∀ n, n ∈ (s.eval input).2.assets ↔ n ∈ s.assets ∨ input.DeclaresOnTop n := by
  obtain ⟨f, heval⟩ | ⟨p, text, hp, -, heval⟩ := s.eval_cases input
  · rw [heval] at h
    cases h
  rw [heval]
  refine ⟨rfl, rfl, fun n => ?_⟩
  have hprogram : s.options.programOrFault input = .ok p := by
    have hoption := congrArg Except.toOption hp
    rw [Options.program, toOption_mapError] at hoption
    exact eq_ok_of_toOption hoption
  obtain ⟨t, ht, hp⟩ := of_bind_eq_ok hprogram
  have htop : n ∈ p.statements.filterMap declared? ↔ input.DeclaresOnTop n := by
    rw [Program.mem_declared ht hp]
    refine ⟨fun h => ⟨t, ht, h⟩, ?_⟩
    rintro ⟨u, hu, h⟩
    cases ht.symm.trans hu
    exact h
  exact mem_foldl_addAsset.trans (or_congr_right htop)

theorem compile_of_eval (hmode : s.showProgram = false) (h : (s.eval input).1 = .ok out) :
    s.options.compile input = .ok out := by
  obtain ⟨f, heval⟩ | ⟨p, text, hp, htext, heval⟩ := s.eval_cases input
  · rw [heval] at h
    cases h
  rw [heval] at h
  cases h
  rw [hmode] at htext
  obtain ⟨target, hv, hrender⟩ := of_bind_eq_ok (show s.options.render p = .ok out from htext)
  rw [Options.compile, hv]
  rw [hp]
  exact hrender

/-- Inputs with their outputs, evaluated one after the other. -/
inductive Runs : Session → List (Bytes × Bytes) → Session → Prop
  | nil (s : Session) : Runs s [] s
  | cons {s s' : Session} {input out : Bytes} {steps : List (Bytes × Bytes)}
    (h : (s.eval input).1 = .ok out) (hsteps : Runs (s.eval input).2 steps s') :
    Runs s ((input, out) :: steps) s'

theorem Runs.of_append (h : Runs s (before ++ after) s') :
    ∃ r, Runs s before r ∧ Runs r after s' := by
  induction before generalizing s with
  | nil => exact ⟨s, .nil s, h⟩
  | cons step before ih =>
    cases h with
    | cons h hsteps =>
      obtain ⟨r, hbefore, hafter⟩ := ih hsteps
      exact ⟨r, .cons h hbefore, hafter⟩

theorem Runs.remembers {steps : List (Bytes × Bytes)} (h : Runs s steps s') :
    s'.target = s.target ∧ s'.showProgram = s.showProgram ∧
      ∀ n, n ∈ s'.assets ↔ n ∈ s.assets ∨ ∃ step ∈ steps, step.1.DeclaresOnTop n := by
  induction h with
  | nil s => simp
  | cons h _ ih =>
    obtain ⟨htarget, hmode, hassets⟩ := eval_snd_of_ok h
    obtain ⟨htarget', hmode', hassets'⟩ := ih
    refine ⟨htarget'.trans htarget, hmode'.trans hmode, fun n => ?_⟩
    rw [hassets', hassets, or_assoc]
    simp

theorem Runs.compile_eq (hmode : s.showProgram = false)
    (hrun : Runs s (before ++ (input, out) :: after) s') {known : List Bytes}
    (hknown : ∀ n, n ∈ known ↔ n ∈ s.assets ∨ ∃ step ∈ before, step.1.DeclaresOnTop n) :
    ({ assets := known, target := s.target } : Options).compile input = .ok out := by
  obtain ⟨r, hbefore, hafter⟩ := hrun.of_append
  obtain ⟨htarget, hmode', hassets⟩ := hbefore.remembers
  cases hafter with
  | cons h _ =>
    have hcompile := compile_of_eval (hmode'.trans hmode) h
    rw [← hcompile]
    refine Options.compile_congr ?_ ?_ (fun n => ?_) input
    · rfl
    · exact htarget.symm
    · exact (hknown n).trans (hassets n).symm

/-- **Each input of a session has the output that it has alone**, when it is compiled with the
names that were known at first and those that the statements of the earlier inputs declare or
export.  These are all names that the earlier inputs declare if each of them is known so at all.
An input that fails changes nothing. -/
theorem output_eq_compile {steps : List (Bytes × Bytes)} (hmode : s.showProgram = false)
    (hrun : Runs s steps s') :
    (∀ before input out after, steps = before ++ (input, out) :: after → ∀ known : List Bytes,
      (∀ n, n ∈ known ↔ n ∈ s.assets ∨ ∃ step ∈ before, step.1.DeclaresOnTop n) →
        ({ assets := known, target := s.target } : Options).compile input = .ok out) ∧
    (∀ before input out after, steps = before ++ (input, out) :: after → ∀ known : List Bytes,
      (∀ n, n ∈ known ↔ n ∈ s.assets ∨ ∃ step ∈ before, step.1.Declares n) →
      (∀ n ∈ known, n ∈ s.assets ∨ ∃ step ∈ before, step.1.DeclaresOnTop n) →
        ({ assets := known, target := s.target } : Options).compile input = .ok out) ∧
    ∀ (r : Session) (input : Bytes) (f : Failure), (r.eval input).1 = .error f →
      (r.eval input).2 = r := by
  refine ⟨?_, ?_, fun r input f => eval_snd_of_error⟩
  · rintro before input out after rfl known hknown
    exact hrun.compile_eq hmode hknown
  · rintro before input out after rfl known hknown htop
    refine hrun.compile_eq hmode fun n => ⟨htop n, fun h => (hknown n).2 (h.imp_right ?_)⟩
    rintro ⟨step, hstep, t, ht, hn⟩
    exact ⟨step, hstep, t, ht, hn.declares⟩

def exportedClass : Bytes :=
  "export @asset class Cat \x7b\x7d"

def classInFunction : Bytes :=
  "function f(): int \x7b @asset class Cat \x7b\x7d return 1; \x7d"

def callOnClass : Bytes :=
  "Cat.of(1);"

theorem runs_pair {first second out' : Bytes} (h : (s.eval first).1.toOption = some out)
    (h' : ((s.eval first).2.eval second).1.toOption = some out') :
    Runs s [(first, out), (second, out')] ((s.eval first).2.eval second).2 :=
  .cons (eq_ok_of_toOption h) (.cons (eq_ok_of_toOption h') (.nil _))

/-- The export is remembered for the call. -/
theorem output_eq_compile_exportedClass :
    ∃ s', Runs {} [(exportedClass, "(define-non-fungible-token Cat)"),
        (callOnClass, "(nft-of? Cat 1)")] s' ∧
      (∀ n, n ∈ [Bytes.ofString "Cat"] ↔ n ∈ ({} : Session).assets ∨
        ∃ step ∈ [(exportedClass, Bytes.ofString "(define-non-fungible-token Cat)")],
          Bytes.DeclaresOnTop step.1 n) ∧
      ({ assets := ["Cat"] } : Options).compile callOnClass = .ok "(nft-of? Cat 1)" := by
  have hrun := runs_pair (show (({} : Session).eval exportedClass).1.toOption =
      some (Bytes.ofString "(define-non-fungible-token Cat)") by decide)
    (show ((({} : Session).eval exportedClass).2.eval callOnClass).1.toOption =
      some (Bytes.ofString "(nft-of? Cat 1)") by decide)
  have hassets : (({} : Session).eval exportedClass).2.assets = [Bytes.ofString "Cat"] := by
    decide
  have hknown : ∀ n, n ∈ [Bytes.ofString "Cat"] ↔ n ∈ ({} : Session).assets ∨
      ∃ step ∈ [(exportedClass, Bytes.ofString "(define-non-fungible-token Cat)")],
        Bytes.DeclaresOnTop step.1 n := by
    intro n
    cases hrun with
    | cons h _ =>
      rw [← hassets, (eval_snd_of_ok h).2.2]
      simp
  exact ⟨_, hrun, hknown, (output_eq_compile rfl hrun).1 _ _ _ _ rfl _ hknown⟩

/-- **A class inside of a function is forgotten.**  The first input declares it, but the second one
has another output than with its name. -/
theorem classInFunction_forgotten :
    Bytes.Declares classInFunction "Cat" ∧
      (∃ s', Runs {} [(classInFunction,
          "(define-private (f)\n  (begin\n    (define-non-fungible-token Cat)\n    1))"),
        (callOnClass, "(contract-call? .Cat of 1)")] s') ∧
      ({ assets := ["Cat"] } : Options).compile callOnClass = .ok "(nft-of? Cat 1)" := by
  refine ⟨?_, ⟨_, runs_pair (by decide) (by decide)⟩,
    eq_ok_of_toOption (by decide)⟩
  have hnames : ((parse classInFunction).map declaredAssets).toOption =
      some [Bytes.ofString "Cat"] := by decide
  cases ht : parse classInFunction with
  | error f =>
    rw [ht] at hnames
    cases hnames
  | ok t =>
    rw [ht] at hnames
    have houtside : t.DeclaresOutside (Bytes.ofString "Cat") := by
      rw [← mem_declaredAssets (formed_parse ht), Option.some.inj hnames]
      exact mem_cons_self
    exact ⟨t, ht, houtside.declares⟩

end Session

end Covenant
