import Covenant.Proofs.Clarity.Inference
import Covenant.Proofs.Clarity.Akin
import Covenant.Proofs.Program.WellFormed

/-!
# Limits of rendering

A program of the source language can be rendered but for three limits: the target lacks an operator,
the type of a data variable is not known, and a conditional has no value on one branch.  Nothing
else is refused, as long as operators are those of the language and functions are whole.  The places
of the parts do not matter: with them left out the result is the same, or a fault of the same cause.
Nor do the contents of strings, as far as skeletons go.
-/

namespace Covenant

open List Node

open Form (atom row Akin)

/-! ### Results -/

def Cause.IsLimit (c : Cause) : Prop :=
  c.code ∈ ["GEN-0002", "GEN-0004", "GEN-0005"]

/-- Both results are there and related, or faults of one cause, which is a limit. -/
def Settled {α β : Type} (A : α → β → Prop) : Except Fault α → Except Fault β → Prop
  | .ok a, .ok b => A a b
  | .error f, .error g => f.cause = g.cause ∧ f.cause.IsLimit
  | _, _ => False

namespace Settled

variable {α β γ δ : Type}

theorem ok {a : α} {b : β} (h : A a b) : Settled A (.ok a) (.ok b) :=
  h

theorem error {f g : Fault} (h : f.cause = g.cause) (hf : f.cause.IsLimit) :
    Settled A (.error f) (.error g) :=
  ⟨h, hf⟩

theorem bind {k : α → Except Fault γ} {k' : β → Except Fault δ} (h : Settled A r s)
    (hk : ∀ a b, A a b → Settled B (k a) (k' b)) : Settled B (r >>= k) (s >>= k') := by
  match r, s with
  | .ok a, .ok b => exact hk a b h
  | .error _, .error _ => exact h

theorem map {g : α → γ} {g' : β → δ} (h : Settled A r s) (hg : ∀ a b, A a b → B (g a) (g' b)) :
    Settled B (g <$> r) (g' <$> s) := by
  match r, s with
  | .ok a, .ok b => exact hg a b h
  | .error _, .error _ => exact h

theorem mapM {g : α → Except Fault γ} {g' : β → Except Fault δ} {as : List α} {bs : List β}
    (h : Forall₂ (fun a b => Settled B (g a) (g' b)) as bs) :
    Settled (Forall₂ B) (as.mapM g) (bs.mapM g') := by
  induction h with
  | nil => exact .ok .nil
  | cons hab _ ih =>
    rw [mapM_cons, mapM_cons]
    exact hab.bind fun _ _ hab => ih.bind fun _ _ h => .ok (.cons hab h)

theorem collect (h : Forall₂ (Settled A) rs ss) : Settled (Forall₂ A) (collect rs) (collect ss) :=
  mapM h

theorem isLimit (h : Settled A r s) {f : Fault} (hf : r = .error f) : f.cause.IsLimit := by
  subst hf
  cases s with
  | ok _ => exact h.elim
  | error _ => exact h.2

end Settled

/-! ### Types, literals and operators without places -/

namespace Ty

mutual

theorem form_veil : ∀ t : Ty, t.veil.form = t.form
  | .named n => by rw [veil, form, form, Ident.veil]
  | .list _ t => by rw [veil, form, form, form_veil t]
  | .tuple _ fields => by rw [veil, form, form, fieldForms_veil fields]
  | .optional _ t => by rw [veil, form, form, form_veil t]
  | .response _ ok err => by rw [veil, form, form, form_veil ok, form_veil err]

theorem fieldForms_veil : ∀ fields : List (Bytes × Ty),
    fieldForms (veilFields fields) = fieldForms fields
  | [] => by rw [veilFields]
  | (key, t) :: fields => by
    rw [veilFields, fieldForms, fieldForms, form_veil t, fieldForms_veil fields]

end

theorem testForm_veil (t : Ty) (f : Form) : t.veil.testForm f = t.testForm f := by
  have hform := form_veil t
  cases t <;> simp only [veil, testForm, Ident.veil] at hform ⊢ <;> rw [hform]

theorem castForm_veil (t : Ty) (known : Option Ty) (f : Form) :
    t.veil.castForm (known.map veil) f = t.castForm known f := by
  simp only [castForm, isNamed_veil, any_isNamed_veil, form_veil]

theorem settled_form? {t : Option Ty} (h : t.isSome = true) :
    Settled (Akin keep) (form? t) (form? (t.map veil)) := by
  obtain ⟨t, rfl⟩ := Option.isSome_iff_exists.1 h
  rw [Option.map_some, form?, form?, form_veil]
  exact .ok (.refl _)

end Ty

theorem MapShape.form_veil (m : MapShape) : m.veil.form = m.form := by
  rw [form, form, veil, Ident.veil, Ty.form_veil, Ty.form_veil]

theorem akin_plainOperand? (x : Bytes) (e : Expr) :
    Option.Rel (Akin keep) (plainOperand? x e) (plainOperand? x (e.veil keep)) := by
  cases e with
  | literal first p v =>
    exact .some (.literal keep v)
  | principal p address =>
    rw [Expr.veil, plainOperand?, plainOperand?]
    exact .some (.refl _)
  | ident n =>
    simp only [Expr.veil, plainOperand?, Ident.veil]
    split
    · exact .none
    · exact .some (.refl _)
  | _ =>
    simp only [Expr.veil, Expr.veil_comprehension, plainOperand?]
    exact .none

theorem akin_partialForm? (x : Bytes) (e : Expr) :
    Option.Rel (Akin keep) (partialForm? x e) (partialForm? x (e.veil keep)) := by
  have hmap {a b : Option Form} (function : String) (h : Option.Rel (Akin keep) a b) :
      Option.Rel (Akin keep) (a.map fun f => .apply function [f])
        (b.map fun f => .apply function [f]) := by
    cases h with
    | some h => exact .some (.apply (.cons h .nil))
    | none => exact .none
  cases e with
  | binary p op l r =>
    have hr : Option.Rel (Akin keep) _ _ := akin_plainOperand? x r
    have hsome : (plainOperand? x (r.veil keep)).isSome = (plainOperand? x r).isSome := by
      generalize plainOperand? x r = a, plainOperand? x (r.veil keep) = b at hr
      cases hr <;> rfl
    simp only [Expr.veil, partialForm?, isIterator_veil, hsome]
    split
    · exact .none
    cases op.function? with
    | none => exact .none
    | some function =>
      split
      · exact hmap function hr
      · split
        · exact hmap function (akin_plainOperand? x l)
        · exact .none
  | _ =>
    simp only [Expr.veil, Expr.veil_comprehension, partialForm?]
    exact .none

theorem BinOp.settled_form (target : Version) (p q : Pos) {op : BinOp} (h : op ∈ BinOp.all)
    (hf : Akin keep f f') (hg : Akin keep g g') :
    Settled (Akin keep) (op.form target p f g) (op.form target q f' g') := by
  have hlimit : Cause.IsLimit (.needsTarget op.text bitwiseSince.text target.text) := by
    simp [Cause.IsLimit, Cause.code]
  have hargs (function : String) : Akin keep (.apply function [f, g]) (.apply function [f', g']) :=
    .apply (.cons hf (.cons hg .nil))
  unfold form
  split
  · exact .ok (hargs _)
  · exact .ok (.apply (.cons (hargs _) .nil))
  · split
    next hnone =>
      -- the operators of the language all have a function
      simp only [BinOp.all, mem_cons, not_mem_nil, or_false] at h
      rcases h with rfl | rfl | rfl | rfl | rfl | rfl | rfl | rfl | rfl | rfl | rfl |
        rfl | rfl | rfl |
        rfl | rfl | rfl | rfl | rfl <;> simp [function?] at *
    next function _ =>
      split
      · exact .error rfl hlimit
      · exact .ok (hargs _)

theorem UnOp.settled_form {op : UnOp} (h : op = .not ∨ op = .neg) (hf : Akin keep f g) :
    Settled (Akin keep) (op.form f) (op.form g) := by
  obtain rfl | rfl := h <;> exact .ok (.apply (.cons hf .nil))

theorem Parameter.settled_form {p : Parameter} (h : p.type.isSome = true) :
    Settled (Akin keep) p.form p.veil.form :=
  (Ty.settled_form? h).bind fun _ _ h => .ok (.pair (fun _ => rfl) h)

theorem Parameter.settled_forms {ps : List Parameter} (h : ∀ p ∈ ps, p.type.isSome = true) :
    Settled (Forall₂ (Akin keep)) (ps.mapM form)
      ((ps.map veil).mapM form) := by
  refine Settled.mapM ?_
  rw [forall₂_map_right_iff]
  exact forall₂_same.2 fun p hp => settled_form (h p hp)

theorem settled_assetForm {fields : List Parameter} (h : ∀ p ∈ fields, p.type.isSome = true) :
    Settled (Akin keep) (assetForm n fields) (assetForm n.veil (fields.map Parameter.veil)) :=
  (Parameter.settled_forms h).bind fun _ _ h => .ok (.apply (.cons (.refl _) h))

theorem Fn.settled_signatureForm {f : Fn} (h : f.IsSignature) :
    Settled (Akin keep) f.signatureForm (f.veil keep).signatureForm := by
  obtain ⟨p, ds, n, ps, r, b⟩ := f
  obtain ⟨-, -, hresult, hparams⟩ := h
  rw [veil_mk, signatureForm, signatureForm]
  refine Settled.bind (Settled.mapM ?_) fun _ _ h => (Ty.settled_form? hresult).bind
    fun _ _ hr => .ok (.row (.cons (.refl _) (.cons (.row h) (.cons hr .nil))))
  change Forall₂ _ ps (ps.map Parameter.veil)
  rw [forall₂_map_right_iff]
  exact forall₂_same.2 fun p hp => Ty.settled_form? (hparams p hp)

theorem settled_traitForm (h : ∀ f ∈ fs, f.IsSignature) :
    Settled (Akin keep) (traitForm n fs) (traitForm n.veil (Fn.veilAll keep fs)) := by
  rw [Fn.veilAll_eq_map]
  refine Settled.bind (Settled.mapM ?_) fun _ _ h =>
    .ok (.stack (.cons (.refl _) (.cons (.refl _) .nil)) (.cons (.spaced h) .nil))
  rw [forall₂_map_right_iff]
  exact forall₂_same.2 fun f hf => Fn.settled_signatureForm (h f hf)

/-! ### Expressions -/

/-- What rendering asks of a part: operators of the language, whole functions outside traits, and
types where they are written out. -/
def Node.Renderable : Node → Prop
  | .expr (.binary _ op _ _) => op ∈ BinOp.all
  | .expr (.unary _ op _) => op = .not ∨ op = .neg
  | .block b => ∀ s ∈ b.statements, s.IsComplete
  | .program ss => ∀ s ∈ ss, s.IsComplete
  | .stmt (.exportDecl _ s) => s.IsComplete
  | .stmt (.traitDecl _ _ fs) => ∀ f ∈ fs, f.IsSignature
  | .stmt (.assetDecl _ _ fields) => ∀ p ∈ fields, p.type.isSome = true
  | _ => True

variable (keep) (target : Version)

/-- The rendering of the part is settled by what it is without places. -/
def Node.Settles : Node → Prop
  | .expr e => ∀ sc : Scope, Settled (Akin keep) (e.form target sc)
      ((e.veil keep).form target sc.veil)
  | .block b => ∀ sc : Scope, Settled (Akin keep) (b.form target sc)
      ((b.veil keep).form target sc.veil)
  | .stmt s =>
    s.IsComplete → ∀ sc : Scope, Settled (Akin keep) (s.form target sc)
    ((s.veil keep).form target sc.veil)
  | _ => True

def Node.Fixed (n : Node) : Prop :=
  n.Renderable ∧ n.Settles keep target

variable {keep target}

theorem Node.All.settles {n : Node} (h : n.All (Fixed keep target)) : n.Settles keep target :=
  h.self.2

theorem Expr.settled_forms (h : ∀ e ∈ es, (expr e).All (Node.Fixed keep target)) :
    Forall₂ (Settled (Akin keep)) (forms target sc es)
    (forms target sc.veil (veilAll keep es)) := by
  induction es with
  | nil =>
    exact .nil
  | cons e es ih =>
    obtain ⟨he, hes⟩ := forall_mem_cons.1 h
    rw [veilAll, forms, forms]
    exact .cons (he.settles sc) (ih hes)

theorem Expr.settled_fieldForms {fields : List (Bytes × Expr)}
    (h : ∀ f ∈ fields, (expr f.2).All (Node.Fixed keep target)) :
    Forall₂ (Settled (Akin keep)) (fieldForms target sc fields)
      (fieldForms target sc.veil (veilFields keep fields)) := by
  induction fields with
  | nil =>
    exact .nil
  | cons f fields ih =>
    obtain ⟨hf, h⟩ := forall_mem_cons.1 h
    rw [veilFields, fieldForms, fieldForms]
    refine .cons ((hf.settles sc).map fun _ _ hf => .pair (fun hkeep => ?_) hf) (ih h)
    rw [hkeep]
    rfl

theorem Expr.settled_args (h : ∀ c ∈ es.map expr, c.All (Node.Fixed keep target)) :
    Settled (Forall₂ (Akin keep)) (collect (forms target sc es))
      (collect (forms target sc.veil (veilAll keep es))) :=
  .collect (settled_forms (forall_mem_map.1 h))

theorem Expr.settled_call {f : Expr} {args : List Expr} (hf : (expr f).All (Node.Fixed keep target))
    (hargs : ∀ c ∈ args.map expr, c.All (Node.Fixed keep target)) :
    Settled (Akin keep) ((call p f args).form target sc)
      (((call p f args).veil keep).form target sc.veil) := by
  by_cases hmember : ∃ q object property, f = .member q object property
  · obtain ⟨q, object, property, rfl⟩ := hmember
    have hobject := (hf.below _ (.head _)).settles sc
    exact (settled_args hargs).bind fun _ _ ha => hobject.bind fun _ _ ho =>
      .ok (.row (.cons (.refl _) (.cons ho ha)))
  · have hveil : ∀ q e n, f.veil keep ≠ .member q e n := by
      intro q e n heq
      cases f with
      | member q' e' n' => exact hmember ⟨_, _, _, rfl⟩
      | _ => simp only [veil, veil_comprehension, reduceCtorEq] at heq
    rw [veil, form, form]
    · exact (settled_args hargs).bind fun _ _ ha => (hf.settles sc).bind fun _ _ hf =>
        .ok (.row (.cons hf ha))
    · exact hveil
    · rintro q e n rfl
      exact hmember ⟨_, _, _, rfl⟩

theorem Expr.settled_comprehension {x : Ident} {c : Option Expr}
    (he : (expr e).All (Node.Fixed keep target)) (hl : (expr l).All (Node.Fixed keep target))
    (hc : ∀ c' ∈ c, (expr c').All (Node.Fixed keep target)) :
    Settled (Akin keep) ((comprehension p e x l c).form target sc)
      (((comprehension p e x l c).veil keep).form target sc.veil) := by
  have hl := hl.settles sc
  have he := he.settles (sc.bind x (elementType (l.knownType sc)))
  rw [Scope.veil_bind, ← elementType_veil, ← knownType_veil keep] at he
  cases c with
  | none =>
    exact hl.bind fun _ _ hl => he.bind fun _ _ he =>
      .ok (.apply (.cons (.lambda _ he) (.cons hl .nil)))
  | some c =>
    have hc := (hc c rfl).settles (sc.bind x (elementType (l.knownType sc)))
    rw [Scope.veil_bind, ← elementType_veil, ← knownType_veil keep] at hc
    rw [veil, form, form]
    refine hl.bind fun _ _ hl => hc.bind fun _ _ hc => ?_
    have hlist := Akin.apply (w := "filter") (.cons (.lambda [x.name] hc) (.cons hl .nil))
    have hpartial : Option.Rel (Akin keep) _ _ := akin_partialForm? x.name e
    dsimp only [Ident.veil]
    generalize partialForm? x.name e = a, partialForm? x.name (e.veil keep) = b at hpartial ⊢
    cases hpartial with
    | some hf => exact .ok (.apply (.cons hf (.cons hlist .nil)))
    | none =>
      exact (he.map fun _ _ he => Akin.lambda [x.name] he).bind fun _ _ hf =>
        .ok (.apply (.cons hf (.cons hlist .nil)))

theorem Body.settled_form {b : Body} (params : Form) (h : b.node.All (Node.Fixed keep target)) :
    Settled (Akin keep) (b.form target sc params) ((b.veil keep).form target sc.veil params) := by
  cases b with
  | expr e =>
    exact (Node.All.settles h sc).bind fun _ _ h => .ok (.apply (.cons (.refl _) (.cons h .nil)))
  | block b =>
    rw [veil, form, form]
    exact (Node.All.settles h sc).bind fun _ _ h =>
      .ok (.stack (.cons (.refl _) (.cons (.refl _) .nil)) (.cons h .nil))

theorem Expr.settles (hrenderable : (expr e).Renderable)
    (h : ∀ c ∈ e.children, c.All (Node.Fixed keep target)) : (expr e).Settles keep target := by
  have hbelow (c : Expr) (hc : expr c ∈ e.children) (sc : Scope) :
      Settled (Akin keep) (c.form target sc) ((c.veil keep).form target sc.veil) :=
      (h _ hc).settles sc
  intro sc
  cases e with
  | ident n | principal p address | noneLit p =>
    exact .ok (.refl _)
  | literal first p v =>
    rw [veil, form, form]
    exact .ok (.literal keep v)
  | someOf p e =>
    exact (hbelow e (.head _) sc).bind fun _ _ h => .ok (.apply (.cons h .nil))
  | list p es =>
    rw [veil, form, form]
    exact (settled_args h).bind fun _ _ h => .ok (.apply h)
  | tuple p fields =>
    exact (Settled.collect (settled_fieldForms (forall_mem_map.1 h))).bind fun _ _ h =>
      .ok (.apply h)
  | binary p op l r =>
    rw [veil, form, form]
    exact (hbelow l (.head _) sc).bind fun _ _ hl => (hbelow r (.tail _ (.head _)) sc).bind
      fun _ _ hr => BinOp.settled_form target p _ hrenderable hl hr
  | unary p op e =>
    exact (hbelow e (.head _) sc).bind fun _ _ h => UnOp.settled_form hrenderable h
  | conditional p c t e =>
    rw [veil, form, form]
    exact (hbelow c (.head _) sc).bind fun _ _ hc => (hbelow t (.tail _ (.head _)) sc).bind
      fun _ _ ht => (hbelow e (.tail _ (.tail _ (.head _))) sc).bind
        fun _ _ he => .ok (.apply (.cons hc (.cons ht (.cons he .nil))))
  | member p e property =>
    rw [veil, form, form, chainValue?_veil]
    cases chainValue? e property with
    | some c => exact .ok (.refl _)
    | none =>
      exact (hbelow e (.head _) sc).bind fun _ _ h => .ok (.apply (.cons (.refl _) (.cons h .nil)))
  | call p f args =>
    obtain ⟨hf, hargs⟩ := forall_mem_cons.1 h
    exact settled_call hf hargs
  | contractCall p contract function args =>
    obtain ⟨-, hargs⟩ := forall_mem_cons.1 h
    exact (settled_args hargs).bind fun _ _ h =>
      .ok (.apply (.cons (.refl _) (.cons (.refl _) h)))
  | assetCall p asset function args =>
    obtain ⟨-, hargs⟩ := forall_mem_cons.1 h
    rw [veil, form, form]
    exact (Settled.collect (assetArgs_forall₂ function
      (settled_forms (forall_mem_map.1 hargs)))).bind fun _ _ h =>
        .ok (.row (.cons (.refl _) (.cons (.refl _) h)))
  | map p l f | filter p l f =>
    exact (hbelow f (.tail _ (.head _)) sc).bind fun _ _ hf => (hbelow l (.head _) sc).bind
      fun _ _ hl => .ok (.apply (.cons hf (.cons hl .nil)))
  | fold p l i f =>
    rw [veil, form, form]
    exact (hbelow l (.head _) sc).bind fun _ _ hl => (hbelow i (.tail _ (.head _)) sc).bind
      fun _ _ hi => (hbelow f (.tail _ (.tail _ (.head _))) sc).bind
        fun _ _ hf => .ok (.apply (.cons hl (.cons hi (.cons hf .nil))))
  | comprehension p e x l c =>
    refine settled_comprehension (h _ (.head _)) (h _ (.tail _ (.tail _ (.head _))))
      fun c' hc => h _ ?_
    rw [Option.mem_def.1 hc]
    exact .tail _ (.tail _ (.tail _ (.head _)))
  | lambda p ps body =>
    have hbody : Settled (Akin keep) (body.form target (sc.bindAll ps) _) _ :=
      Body.settled_form (row (ps.map fun p => atom p.name.name))
        (h _ (mem_append_right _ (.head _)))
    rw [Scope.veil_bindAll] at hbody
    rw [veil, form, form, map_map]
    exact hbody
  | typeCheck p e t =>
    refine (hbelow e (.head _) sc).bind fun _ _ h => ?_
    rw [Ty.testForm_veil]
    exact .ok (.test t h)
  | cast p e t =>
    rw [veil, form, form]
    refine (hbelow e (.head _) sc).bind fun _ _ h => ?_
    rw [knownType_veil, Ty.castForm_veil]
    exact .ok (.cast t _ h)

/-! ### Statements -/

theorem settled_ifWithoutElse (p q : Pos) :
    Settled (Akin keep) (.error ⟨.ifWithoutElse, p⟩) (.error ⟨.ifWithoutElse, q⟩) :=
  .error rfl (by simp [Cause.IsLimit, Cause.code])

theorem Else.settled_form : ∀ (e : Else) {fallen fallen' : Except Fault Form},
    Settled (Akin keep) fallen fallen' → (∀ n ∈ e.children, n.All (Node.Fixed keep target)) →
    Settled (Akin keep) (e.form target sc fallen) ((e.veil keep).form target sc.veil fallen')
  | .absent, _, _, hfallen, _ => by
    exact hfallen
  | .final b, _, _, _, h => by
    rw [veil, form, form]
    exact (h _ (.head _)).settles sc
  | .elseIf c b rest, _, _, hfallen, h => by
    obtain ⟨hc, h⟩ := forall_mem_cons.1 h
    obtain ⟨hb, h⟩ := forall_mem_cons.1 h
    exact (hc.settles sc).bind fun _ _ hc => (hb.settles sc).bind fun _ _ hb =>
      (settled_form rest hfallen h).bind fun _ _ ho => .ok (.conditional hc hb ho)

theorem Stmt.settled_binding {rest : List Stmt} (he : (expr e).All (Node.Fixed keep target))
    (hrest : ∀ sc : Scope, Settled (Forall₂ (Akin keep)) (forms target sc rest)
      (forms target sc.veil (veilAll keep rest))) :
    Settled (Forall₂ (Akin keep)) (forms target sc (.letDecl {} n t e :: rest))
      (forms target sc.veil (.letDecl {} n.veil (t.map Ty.veil) (e.veil keep) ::
        veilAll keep rest)) := by
  have hrest := hrest (sc.bind n (t.or (e.knownType sc)))
  rw [Scope.veil_bind, map_veil_or, ← Expr.knownType_veil keep] at hrest
  refine (he.settles sc).bind fun _ _ he => ?_
  cases rest with
  | nil =>
    exact .ok (.cons (Akin.binding n he).1 .nil)
  | cons s rest =>
    exact hrest.bind fun _ _ h => .ok (.cons ((Akin.binding n he).2 (.sequence h)) .nil)

theorem Stmt.settled_forms (h : ∀ s ∈ ss, (stmt s).All (Node.Fixed keep target))
    (hss : ∀ s ∈ ss, s.IsComplete) :
    Settled (Forall₂ (Akin keep)) (forms target sc ss)
    (forms target sc.veil (veilAll keep ss)) := by
  induction ss generalizing sc with
  | nil =>
    exact .ok .nil
  | cons s rest ih =>
    obtain ⟨hs, hrest⟩ := forall_mem_cons.1 h
    obtain ⟨hcomplete, hmore⟩ := forall_mem_cons.1 hss
    have ih : ∀ sc : Scope, Settled (Forall₂ (Akin keep)) (forms target sc rest)
        (forms target sc.veil (veilAll keep rest)) := fun _ => ih hrest hmore
    cases s with
    | letDecl p n t e | constDecl p n t e =>
      obtain ⟨-, hbelow⟩ := forall_mem_cons.1 hs.below
      have hbinding : Settled (Forall₂ (Akin keep))
          (forms target sc (.letDecl {} n t e :: rest)) _ :=
        settled_binding (hbelow _ (mem_append_right _ (.head _))) ih
      simpa only [veilAll, veil, forms] using hbinding
    | ifStmt p c b more =>
      obtain ⟨hc, hbelow⟩ := forall_mem_cons.1 hs.below
      obtain ⟨hb, hmore⟩ := forall_mem_cons.1 hbelow
      simp only [veilAll, veil, forms, Else.isOpen_veil]
      refine (hc.settles sc).bind fun _ _ hc => (hb.settles sc).bind fun _ _ hb => ?_
      split
      · refine (Else.settled_form more ?_ hmore).bind fun _ _ ho =>
          .ok (.cons (.conditional hc hb ho) .nil)
        cases rest with
        | nil =>
          exact settled_ifWithoutElse _ _
        | cons s rest =>
          have ih := ih sc
          exact ih.map fun _ _ h => .sequence h
      · exact (Else.settled_form more (settled_ifWithoutElse _ _) hmore).bind fun _ _ ho =>
          (ih sc).bind fun _ _ h => .ok (.cons (.conditional hc hb ho) h)
    | _ =>
      have hs := hs.settles hcomplete sc
      simp only [veilAll, veil, veil_mapConst, veil_returnStmt, forms] at hs ⊢
      exact hs.bind fun _ _ hs => (ih sc).bind fun _ _ h => .ok (.cons hs h)

theorem Decorator.name_veil (d : Decorator) : (d.veil keep).name = d.name := by
  obtain ⟨p, name, a⟩ := d
  rw [veil_mk]
  rfl

theorem visibility_veil (keep : Bool) (f : Fn) (exported : Bool) :
    visibility (f.veil keep) exported = visibility f exported := by
  have hany (name : String) : (f.veil keep).hasDecorator name = f.hasDecorator name := by
    obtain ⟨p, ds, n, ps, r, b⟩ := f
    rw [Fn.veil_mk, Fn.hasDecorator, Fn.hasDecorator, Fn.decorators, Fn.decorators, any_map]
    simp only [Function.comp_def, Decorator.name_veil]
  simp only [visibility, hany]

theorem Fn.settled_form {f : Fn} (h : ∀ n ∈ f.children, n.All (Node.Fixed keep target))
    (hf : f.IsComplete) (exported : Bool) :
    Settled (Akin keep) (f.form target exported) ((f.veil keep).form target exported) := by
  obtain ⟨hbody, -, htyped⟩ := hf
  obtain ⟨-, -, -, hb⟩ := of_forall_children h
  have hvisibility := visibility_veil keep f exported
  obtain ⟨p, ds, n, ps, r, b⟩ := f
  obtain ⟨b, rfl⟩ : ∃ b', b = some b' := Option.isSome_iff_exists.1 hbody
  have hb := (hb b rfl).settles (Scope.bindAll [] ps)
  rw [Scope.veil_bindAll] at hb
  rw [veil_mk] at hvisibility ⊢
  rw [Option.map_some] at hvisibility ⊢
  rw [form, form, hvisibility]
  exact (Parameter.settled_forms htyped).bind fun _ _ hps => hb.bind fun _ _ hb =>
    .ok (.stack (.cons (.refl _) (.cons (.row (.cons (.refl _) hps)) .nil)) (.cons hb .nil))

theorem Stmt.settles (hrenderable : (stmt s).Renderable)
    (h : ∀ c ∈ s.children, c.All (Node.Fixed keep target)) : (stmt s).Settles keep target := by
  intro hs sc
  cases s with
  | fnDecl f =>
    exact Fn.settled_form h hs false
  | letDecl p n t e | constDecl p n t e =>
    obtain ⟨-, hbelow⟩ := forall_mem_cons.1 h
    have he := (hbelow _ (mem_append_right _ (.head _))).settles sc
    rw [veil, form, form]
    exact he.bind fun _ _ he => .ok (Akin.binding n he).1
  | mapConst p ds n t e m =>
    rw [veil_mapConst, form, form, MapShape.form_veil]
    exact .ok (.refl _)
  | mapDecl m =>
    rw [veil, form, form, MapShape.form_veil]
    exact .ok (.refl _)
  | assetDecl p n fields =>
    exact settled_assetForm hrenderable
  | traitDecl p n fs =>
    rw [veil, form, form]
    exact settled_traitForm hrenderable
  | ifStmt p c b rest =>
    obtain ⟨hc, hbelow⟩ := forall_mem_cons.1 h
    obtain ⟨hb, hrest⟩ := forall_mem_cons.1 hbelow
    exact (hc.settles sc).bind fun _ _ hc => (hb.settles sc).bind fun _ _ hb =>
      (Else.settled_form rest (settled_ifWithoutElse _ _) hrest).bind fun _ _ ho =>
        .ok (.conditional hc hb ho)
  | tryStmt p b n handler =>
    have hhandler := (h _ (.tail _ (.tail _ (.head _)))).settles (sc.bind n none)
    rw [veil, form, form]
    exact ((h _ (.head _)).settles sc).bind fun _ _ hb => hhandler.bind fun _ _ hh =>
      .ok (.stack (.cons (.refl _) .nil) (.cons hb
      (.cons (.apply (.cons (.refl _) (.cons hh .nil))) .nil)))
  | throwStmt p e =>
    exact ((h _ (.head _)).settles sc).bind fun _ _ h => .ok (.apply (.cons h .nil))
  | returnStmt p e =>
    cases e with
    | none =>
      exact .ok (.refl _)
    | some e =>
      rw [veil, form, form]
      exact (h _ (.head _)).settles sc
  | exprStmt p e =>
    rw [veil, form, form]
    exact (h _ (.head _)).settles sc
  | importDecl p names source =>
    have hsource : Akin keep (atom ("." ++ contractOf source))
        (atom ("." ++ contractOf (source.veil keep))) := .atom fun hkeep => by rw [hkeep]; rfl
    rw [veil, form, form, useForm, useForm, map_map]
    exact .ok (.apply (rel_append (forall₂_same.2 fun _ _ => .refl _) (.cons hsource .nil)))
  | exportDecl p s =>
    exact (h _ (.head _)).settles hrenderable sc

/-- **Rendering is settled throughout a part that can be rendered.** -/
theorem Node.All.settled {n : Node} (h : n.All Renderable) (keep : Bool) (target : Version) :
    n.All (Fixed keep target) := by
  refine induct (Q := Settles keep target) h fun n hrenderable hbelow => ?_
  cases n with
  | expr e => exact Expr.settles hrenderable hbelow
  | stmt s => exact Stmt.settles hrenderable hbelow
  | block b =>
    obtain ⟨p, ss⟩ := b
    intro sc
    exact (Stmt.settled_forms (forall_mem_map.1 hbelow) hrenderable).bind fun _ _ h =>
      .ok (.sequence h)
  | _ => trivial

/-! ### Programs -/

variable (keep target)

theorem settled_dataVariable (n : Ident) (t : Option Ty)
    (he : (expr e).All (Node.Fixed keep target)) : Settled (Akin keep) (dataVariable target n t e)
      (dataVariable target n.veil (t.map Ty.veil) (e.veil keep)) := by
  have hknown := Expr.knownType_veil keep e []
  rw [show Scope.veil [] = [] from rfl] at hknown
  rw [dataVariable, dataVariable, hknown, ← map_veil_or]
  cases t.or (e.knownType []) with
  | none => exact .error rfl (by simp [Cause.IsLimit, Cause.code])
  | some u =>
    dsimp only [Option.map_some]
    rw [Ty.form_veil]
    exact (he.settles []).bind fun _ _ h =>
      .ok (.apply (.cons (.refl _) (.cons (.refl _) (.cons h .nil))))

theorem Stmt.settled_topForm : ∀ (s : Stmt) (exported : Bool), (stmt s).All Node.Renderable →
    s.IsComplete → Settled (Akin keep) (s.topForm target exported)
    ((s.veil keep).topForm target exported)
  | .exportDecl _ s, exported, h, _ => by
    exact settled_topForm s true (h.below _ (.head _)) h.self
  | .fnDecl f, exported, h, hf => by
    rw [veil, topForm, topForm]
    exact Fn.settled_form (fun n hn => (h.below n hn).settled keep target) hf exported
  | .letDecl _ n t e, exported, h, _ => by
    obtain ⟨-, h⟩ := forall_mem_cons.1 h.below
    exact settled_dataVariable keep target n t
      ((h _ (mem_append_right _ (.head _))).settled keep target)
  | .constDecl _ n _ e, exported, h, _ => by
    obtain ⟨-, h⟩ := forall_mem_cons.1 h.below
    rw [veil, topForm, topForm]
    exact (((h _ (mem_append_right _ (.head _))).settled keep target).settles []).bind
      fun _ _ h => .ok (.apply (.cons (.refl _) (.cons h .nil)))
  | .mapConst .., exported, h, hs | .mapDecl _, exported, h, hs | .assetDecl .., exported, h, hs
  | .traitDecl .., exported, h, hs | .ifStmt .., exported, h, hs | .tryStmt .., exported, h, hs
  | .throwStmt .., exported, h, hs | .returnStmt .., exported, h, hs | .exprStmt .., exported, h, hs
  | .importDecl .., exported, h, hs => by
    have hform := (h.settled keep target).settles hs []
    simp only [veil, veil_mapConst, veil_returnStmt, topForm] at hform ⊢
    exact hform

theorem Stmt.isSetOff_veil (s : Stmt) : (s.veil true).isSetOff = s.isSetOff := by
  cases s <;> simp only [veil, veil_mapConst, veil_returnStmt, isSetOff]

theorem Program.settled_renderOne (h : (stmt s).All Node.Renderable) (hs : s.IsComplete) :
    Settled Eq (renderOne target s) (renderOne target (s.veil true)) :=
  (Stmt.settled_topForm true target s false h hs).bind fun _ _ h => .ok (by rw [h.eq rfl])

theorem Program.settled_renderRest (h : ∀ s ∈ ss, (stmt s).All Node.Renderable)
    (hss : ∀ s ∈ ss, s.IsComplete) :
    Settled Eq (renderRest target ss) (renderRest target (Stmt.veilAll true ss)) := by
  induction ss with
  | nil =>
    exact .ok rfl
  | cons s ss ih =>
    obtain ⟨hs, h⟩ := forall_mem_cons.1 h
    obtain ⟨hcomplete, hss⟩ := forall_mem_cons.1 hss
    rw [Stmt.veilAll, renderRest, renderRest, Stmt.isSetOff_veil]
    exact (settled_renderOne target hs hcomplete).bind fun _ _ hone => (ih h hss).bind
      fun _ _ hrest => .ok (by rw [hone, hrest])

theorem Program.settled_render {p : Program} (h : (program p.statements).All Node.Renderable) :
    Settled Eq (p.render target) (render target ⟨Stmt.veilAll true p.statements⟩) := by
  obtain ⟨ss⟩ := p
  have hss := forall_mem_map.1 h.below
  have hcomplete : ∀ s ∈ ss, s.IsComplete := h.self
  cases ss with
  | nil =>
    exact .ok rfl
  | cons s ss =>
    obtain ⟨hs, hss⟩ := forall_mem_cons.1 hss
    obtain ⟨hone, hmore⟩ := forall_mem_cons.1 hcomplete
    rw [Stmt.veilAll]
    exact (settled_renderOne target hs hone).bind fun _ _ hone =>
      (settled_renderRest target hss hmore).bind fun _ _ hrest => .ok (by rw [hone, hrest])

theorem Node.WellFormed.renderable {root : Tree} {n : Node} (h : n.WellFormed root) :
    n.Renderable := by
  cases n with
  | expr e =>
    cases e with
    | binary p op l r => exact h
    | unary p op e => exact h.1
    | _ => trivial
  | stmt s =>
    cases s with
    | exportDecl p s | traitDecl p n fs | assetDecl p n fields => exact h
    | _ => trivial
  | block b | program ss => exact h
  | type t | parameter p => trivial

theorem Program.renderable_of_parse {source : Bytes} {assets : List Bytes}
    {program : Program} (ht : Tree.parse source = .ok t)
    (hp : ofTree assets t = .ok program) :
    (Node.program program.statements).All Node.Renderable :=
  (wellFormed_of_parse ht hp).imp fun _ h => h.renderable

/-- **Builder and renderer agree on well-formed programs.**  Every program built from a source is
well-formed, and its rendering can only be refused at a limit: the target lacks an operator on bits,
the type of a data variable is not known, or a conditional has no value on one branch. -/
theorem Program.wellFormed_and_limited {source : Bytes} {t : Tree} {assets : List Bytes}
    {program : Program} (ht : Tree.parse source = .ok t)
    (hp : Program.ofTree assets t = .ok program) :
    (Node.program program.statements).All (Node.WellFormed t) ∧
      ∀ target f, program.render target = .error f →
        f.cause.code ∈ ["GEN-0002", "GEN-0004", "GEN-0005"] := by
  refine ⟨Program.wellFormed_of_parse ht hp, fun target f hf => ?_⟩
  exact (Program.settled_render target (Program.renderable_of_parse ht hp)).isLimit hf

/-- A constant that declares a map, a function value, and an operator that the first version of
Clarity lacks. -/
def maskedBalances : Bytes :=
  "@map({ key: { id: int }, value: int }) const m = 1; @public function f(x: int): int { return x & 1; }"

/-- The first version of Clarity refuses it for the operator alone. -/
theorem maskedBalances_limited :
    ∃ t program f, Tree.parse maskedBalances = .ok t ∧ Program.ofTree ["Coin"] t = .ok program ∧
      (Node.program program.statements).All (Node.WellFormed t) ∧
      program.render { major := 1 } = .error f ∧
      f.cause.code ∈ ["GEN-0002", "GEN-0004", "GEN-0005"] := by
  have hrun : (Tree.parse maskedBalances >>= fun t => Program.ofTree ["Coin"] t >>= fun program =>
      .ok (program.render { major := 1 }).toBool).toOption = some false := by decide
  obtain ⟨t, ht, hrun⟩ := of_bind_eq_ok (eq_ok_of_toOption hrun)
  obtain ⟨program, hp, hrun⟩ := of_bind_eq_ok hrun
  obtain ⟨f, hf⟩ := exists_error_of_toBool (Except.ok.inj hrun)
  obtain ⟨hwell, hlimited⟩ := Program.wellFormed_and_limited ht hp
  exact ⟨t, program, f, ht, hp, hwell, hf, hlimited _ f hf⟩

end Covenant
