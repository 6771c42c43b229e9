import Covenant.Proofs.Compile

/-!
# Comments and layout

Where the tokens of a source stand changes nothing but the places that faults report: no parser and
no builder looks at a place, and what is rendered depends on a program only up to places.  So two
sources with the same tokens, in whatever layout and with whatever comments between them, are
compiled to the same code or refused for the same reason.
-/

namespace Covenant

open List Token

/-! ### Trees without places -/

def Token.lexeme (t : Token) : TokenKind × Bytes :=
  (t.kind, t.literal)

theorem Token.map_lexeme (h : List.Forall₂ SameText ts us) : ts.map lexeme = us.map lexeme := by
  induction h with
  | nil => rfl
  | cons htu _ ih => rw [List.map_cons, List.map_cons, ih, lexeme, lexeme, htu.1, htu.2]

namespace Tree

mutual

def veil : Tree → Tree
  | .leaf t => .leaf ⟨t.kind, t.literal, {}⟩
  | .node rule _ kids => .node rule {} (veilAll kids)

def veilAll : List Tree → List Tree
  | [] => []
  | t :: ts => t.veil :: veilAll ts

end

mutual

theorem veil_eq_of_like : ∀ (t : Tree) {u : Tree}, Like (Token.Alike true) t u →
    t.veil = u.veil
  | .leaf t, _, h => by
    cases h with
    | leaf h => rw [veil, veil, h.kind, h.literal (.inl rfl)]
  | .node rule p kids, _, h => by
    cases h with
    | node hfits h => rw [veil, veil, veilAll_eq_of_like kids h]

theorem veilAll_eq_of_like : ∀ (ts : List Tree) {us : List Tree},
    Forall₂ (Like (Token.Alike true)) ts us → veilAll ts = veilAll us
  | [], _, h => by
    cases h
    rfl
  | t :: ts, _, h => by
    cases h with
    | cons ht hts => rw [veilAll, veilAll, veil_eq_of_like t ht, veilAll_eq_of_like ts hts]

end

end Tree

/-! ### Programs that are equal up to places -/

/-- Both results are there and equal, or both fail with one code. -/
abbrev Same {α : Type} (x y : Except Fault α) : Prop :=
  Alike true Eq x y

variable {α : Type}

theorem Settled.same {z : Except Fault α} (hx : Settled Eq x z) (hy : Settled Eq y z) :
    Same x y := by
  cases z with
  | ok c =>
    cases x with
    | error _ => exact hx.elim
    | ok a =>
      cases y with
      | error _ => exact hy.elim
      | ok b => exact Eq.trans hx (Eq.symm hy)
  | error f =>
    cases x with
    | ok _ => exact hx.elim
    | error g =>
      cases y with
      | ok _ => exact hy.elim
      | error h => exact fun _ => congrArg Cause.code (hx.1.trans hy.1.symm)

/-- Programs that are equal up to places have the same text. -/
theorem Program.same_render (target : Version) {p q : Program}
    (hp : (Node.program p.statements).All Node.Renderable)
    (hq : (Node.program q.statements).All Node.Renderable)
    (h : (Node.program p.statements).veil true = (Node.program q.statements).veil true) :
    Same (p.render target) (q.render target) := by
  rw [Node.veil, Node.veil, Node.program.injEq] at h
  have hsettled := settled_render target hp
  rw [h] at hsettled
  exact hsettled.same (settled_render target hq)

theorem Options.renderable_of_programOrFault {o : Options}
    (h : o.programOrFault source = .ok p) : (Node.program p.statements).All Node.Renderable := by
  obtain ⟨t, ht, hp⟩ := of_bind_eq_ok h
  exact Program.renderable_of_parse ht hp

/-! ### Sources with the same tokens -/

def Failure.reason : Failure → Target.Error ⊕ Bytes
  | .target e => .inl e
  | .stage d => .inr d.code

theorem Options.code_diagnostic (o : Options) (f : Fault) :
    (o.diagnostic f).code = Bytes.ofString f.cause.code := by
  rw [diagnostic, Diagnostic.code_inFile, Diagnostic.code_ofFault]

theorem mapError_mapError {ε ε' ε'' : Type} (f : ε → ε') (g : ε' → ε'') (x : Except ε α) :
    (x.mapError f).mapError g = x.mapError (g ∘ f) := by
  cases x <;> rfl

theorem Same.mapError_eq {ε : Type} (h : Same x y) {k : Fault → ε}
    (hk : ∀ f g : Fault, f.cause.code = g.cause.code → k f = k g) :
    x.mapError k = y.mapError k := by
  match x, y with
  | .ok _, .ok _ => exact congrArg Except.ok h
  | .error f, .error g => exact congrArg Except.error (hk f g (h rfl))
  | .ok _, .error _ | .error _, .ok _ => cases h

theorem Token.forall₂_of_lexeme {ts : List Token} (h : (scan source).map lexeme = ts.map lexeme) :
    Forall₂ (Alike true) (scan source) ts := by
  refine alike_of_sameText ?_
  have hmap := forall₂_map_left_iff.1 (forall₂_map_right_iff.1 (forall₂_eq_eq_eq ▸ h))
  exact hmap.imp fun _ _ htu => ⟨congrArg Prod.fst htu, congrArg Prod.snd htu⟩

namespace Options

variable (o : Options)

theorem compile_eq (source : Bytes) : o.compile source = o.version.bind fun target =>
      (o.programOrFault source >>= fun p => p.render target).mapError fun f =>
        .stage (o.diagnostic f) := by
  have hstages {x : Except Fault Program} {target : Version} :
      (x.mapError fun f => Failure.stage (o.diagnostic f)) >>= o.renderFor target =
        (x >>= fun p => p.render target).mapError fun f => .stage (o.diagnostic f) := by
    cases x <;> rfl
  exact congrArg o.version.bind (funext fun _ => hstages)

/-- Sources with like trees. -/
theorem same_render {source source' : Bytes}
    (h : Alike true (Tree.Like (Token.Alike true)) (Tree.parse source) (Tree.parse source'))
    (target : Version) : Same (o.programOrFault source >>= fun p => p.render target)
      (o.programOrFault source' >>= fun p => p.render target) := by
  have hprogram : Alike true (fun p q : Program => (Node.program p.statements).veil true =
      (Node.program q.statements).veil true) (o.programOrFault source) (o.programOrFault source') :=
    h.bind fun _ _ htu => (Program.like_ofTree o.assets htu).mono fun _ _ hpq => hpq.veil
  cases hp : o.programOrFault source with
  | error f =>
    rw [hp] at hprogram
    cases hq : o.programOrFault source' with
    | error g =>
      rw [hq] at hprogram
      exact hprogram
    | ok q =>
      rw [hq] at hprogram
      cases hprogram
  | ok p =>
    rw [hp] at hprogram
    cases hq : o.programOrFault source' with
    | error g =>
      rw [hq] at hprogram
      cases hprogram
    | ok q =>
      rw [hq] at hprogram
      exact Program.same_render target (renderable_of_programOrFault hp)
        (renderable_of_programOrFault hq) hprogram

/-- **Two sources with the same tokens** are both parsed, into trees that are equal up to places, or
both refused, with one code; and both compiled to the same code, or both refused for one reason. -/
theorem compile_of_sameTokens {source source' : Bytes}
    (h : (scan source).map lexeme = (scan source').map lexeme) :
    (Tree.veil <$> Tree.parse source).mapError (·.cause.code) =
        (Tree.veil <$> Tree.parse source').mapError (·.cause.code) ∧
      (o.compile source).mapError Failure.reason = (o.compile source').mapError Failure.reason := by
  have htree := Tree.like_parse tokenLike (forall₂_of_lexeme h)
  have hveil := htree.map fun t _ htu => t.veil_eq_of_like htu
  constructor
  · exact Same.mapError_eq hveil fun _ _ hcode => hcode
  rw [compile_eq, compile_eq]
  cases o.version with
  | error e => rfl
  | ok target =>
    have hreason := (o.same_render htree target).mapError_eq
      (k := fun f => Failure.reason (.stage (o.diagnostic f))) fun f g hcode => by
        simp only [Failure.reason, code_diagnostic, hcode]
    change ((o.programOrFault source >>= fun p => p.render target).mapError _).mapError _ =
      ((o.programOrFault source' >>= fun p => p.render target).mapError _).mapError _
    rw [mapError_mapError, mapError_mapError]
    exact hreason

/-- Comments and line breaks between the tokens of a constant. -/
theorem compile_of_sameTokens_comment :
    (scan "const x = 1 + y;").map lexeme =
        (scan "/* one */ const x=1\n+ // two\ny ;").map lexeme ∧
      (({} : Options).compile "const x = 1 + y;").toOption = some "(define-constant x (+ 1 y))" ∧
      (Tree.veil <$> Tree.parse "const x = 1 + y;").mapError (·.cause.code) =
        (Tree.veil <$> Tree.parse "/* one */ const x=1\n+ // two\ny ;").mapError (·.cause.code) ∧
      (({} : Options).compile "const x = 1 + y;").mapError Failure.reason =
        (({} : Options).compile "/* one */ const x=1\n+ // two\ny ;").mapError Failure.reason := by
  have h : (scan "const x = 1 + y;").map lexeme =
      (scan "/* one */ const x=1\n+ // two\ny ;").map lexeme := by decide
  exact ⟨h, by decide, compile_of_sameTokens {} h⟩

end Options

end Covenant
