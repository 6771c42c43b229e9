import Covenant.Proofs.Clarity.Inference
import Covenant.Proofs.Clarity.Vocabulary
import Covenant.Proofs.Program.Assets

/-!
# Types and conversions

The types of a program by rules of its own, beside the types that rendering infers.  Types are taken
without their places.
-/

namespace Covenant

open List

open Form (apply)

/-! ### The type system -/

/-- The types of the names in force, the innermost first.  A function, map, asset or trait has
none. -/
abbrev Context := List (Bytes × Option Ty)

def BinOp.isTest : BinOp → Bool
  | lt | gt | le | ge | eq | ne | and | or => true
  | _ => false

def Expr.isUnruled : Expr → Bool
  | .literal _ _ (.float _) | .literal _ _ (.string _) | .noneLit _ | .tuple ..
  | .binary _ .assign _ _ | .call .. | .contractCall .. | .assetCall .. | .map .. | .filter ..
  | .fold .. | .comprehension .. | .lambda .. => true
  | .member _ e property => (chainValue? e property).isNone
  | _ => false

/-- The expression has the type.  A name that is bound nowhere and an expression without a rule may
have any. -/
inductive Expr.HasType (Γ : Context) : Expr → Ty → Prop
  | int : HasType Γ (.literal first p (.int v)) (.ofName "int")
  | bool : HasType Γ (.literal first p (.bool v)) (.ofName "bool")
  | principal : HasType Γ (.principal p address) (.ofName "principal")
  | bound {n : Ident} (h : Γ.lookup n.name = some (some T)) : HasType Γ (.ident n) T
  | free {n : Ident} (h : Γ.lookup n.name = none) : HasType Γ (.ident n) T
  | arithmetic {op : BinOp} (hop : op.isArithmetic = true) (hl : HasType Γ l T)
      (hr : HasType Γ r T) :
    HasType Γ (.binary p op l r) T
  | test {op : BinOp} (hop : op.isTest = true) : HasType Γ (.binary p op l r) (.ofName "bool")
  | not : HasType Γ (.unary p .not e) (.ofName "bool")
  | neg (h : HasType Γ e T) : HasType Γ (.unary p .neg e) T
  | conditional (hy : HasType Γ y T) (hn : HasType Γ n T) : HasType Γ (.conditional p c y n) T
  | typeCheck : HasType Γ (.typeCheck p e t) (.ofName "bool")
  | cast {t : Ty} (h : HasType Γ e T) : HasType Γ (.cast p e t) t.veil
  | list (h : ∀ e ∈ es, HasType Γ e T) : HasType Γ (.list p es) (.list {} T)
  | someOf (h : HasType Γ e T) : HasType Γ (.someOf p e) (.optional {} T)
  | chain {c : ChainValue} (h : chainValue? e property = some c) :
    HasType Γ (.member p e property) (.ofName c.typeName)
  | unruled {e : Expr} (h : e.isUnruled = true) : HasType Γ e T

/-- The binder takes names with the types of the first context to names with those of the second.  A
variable has its declared type or that of its value, and an iterator that of the elements. -/
inductive Binder.Typed (Γ : Context) : Binder → Context → Prop
  | param {n : Ident} {t : Ty} : Typed Γ (.param ⟨n, some t⟩) ((n.name, some t.veil) :: Γ)
  | untypedParam {n : Ident} : Typed Γ (.param ⟨n, none⟩) ((n.name, some T) :: Γ)
  | binding {n : Ident} {t : Ty} :
    Typed Γ (.binding exported n (some t) e) ((n.name, some t.veil) :: Γ)
  | untypedBinding {n : Ident} {e : Expr} (h : e.HasType Γ T) :
    Typed Γ (.binding exported n none e) ((n.name, some T) :: Γ)
  | iterator {x : Ident} {l : Expr} (h : l.HasType Γ (.list {} T)) :
    Typed Γ (.iterator x l) ((x.name, some T) :: Γ)
  | caught {n : Ident} : Typed Γ (.caught n) ((n.name, some T) :: Γ)
  | declared {n : Ident} : Typed Γ (.declared n) ((n.name, none) :: Γ)
  | function : Typed Γ .function Γ

/-- Below the binders names have the types of the context. -/
inductive Trail.Typed : Trail → Context → Prop
  | nil : Typed [] []
  | cons {b : Binder} (h : Typed tr Γ) (hb : b.Typed Γ Δ) : Typed (b :: tr) Δ

def Occurrence.HasType (o : Occurrence) (T : Ty) : Prop :=
  ∃ Γ, o.trail.Typed Γ ∧ o.expr.HasType Γ T

def Fn.WellTyped (f : Fn) : Prop :=
  ∀ o ∈ f.occurrences [], ∃ T, o.HasType T

/-! ### Inferred types -/

/-- A type that is known in the scope is the type in the context, unless the name is none of a
variable there. -/
def Context.Agrees (Γ : Context) (sc : Scope) : Prop :=
  ∀ n t, sc.type? n = some t → Γ.lookup n = some (some t.veil) ∨ Γ.lookup n = some none

variable {e : Expr} {Γ : Context} {t : Ty} {P : Occurrence → Prop}

theorem Expr.knownType_arithmetic {op : BinOp} (h : op.isArithmetic = true) :
    (binary p op l r).knownType sc = (l.knownType sc).or (r.knownType sc) := by
  rw [knownType, if_pos h]
  rintro rfl
  cases h

theorem Expr.knownType_test {op : BinOp} (h : op.isTest = true) :
    (binary p op l r).knownType sc = some (.ofName "bool") := by
  have hop : ¬op.isArithmetic = true := by
    cases op with
    | lt | gt | le | ge | eq | ne | and | or => exact Bool.false_ne_true
    | _ => cases h
  rw [knownType, if_neg hop]
  rintro rfl
  cases h

theorem Expr.knownType_unruled (h : e.isUnruled = true) : e.knownType sc = none := by
  cases e with
  | noneLit | tuple | call | contractCall | assetCall | map | filter | fold | comprehension
  | lambda => rfl
  | literal _ _ v =>
    cases v with
    | float | string => rfl
    | int | bool => cases h
  | binary _ op _ _ =>
    cases op with
    | assign => rfl
    | _ => cases h
  | member _ e property => rw [knownType, Option.isNone_iff_eq_none.1 h, Option.map_none]
  | _ => cases h

/-- An inferred type is the type of the expression. -/
theorem Expr.HasType.eq_veil (hagrees : Γ.Agrees sc)
    (h : e.HasType Γ T) : ∀ {t : Ty}, e.knownType sc = some t → T = t.veil := by
  induction h with
  | int | bool | principal | not | typeCheck =>
    rintro _ ⟨⟩
    exact (Ty.veil_ofName _).symm
  | @bound T n hn =>
    intro t ht
    -- a name that is none of a variable has no type in the context
    obtain h | h := hagrees n.name t ht
    · exact Option.some.inj (Option.some.inj (hn.symm.trans h))
    · cases hn.symm.trans h
  | @free T n hn =>
    intro t ht
    obtain h | h := hagrees n.name t ht
    · cases hn.symm.trans h
    · cases hn.symm.trans h
  | @arithmetic l T r p op hop hl hr ihl ihr =>
    intro t ht
    rw [knownType_arithmetic hop] at ht
    obtain h | ⟨-, h⟩ := Option.or_eq_some_iff.1 ht
    · exact ihl h
    · exact ihr h
  | @test p op l r hop =>
    intro t ht
    rw [knownType_test hop] at ht
    rw [← Option.some.inj ht, Ty.veil_ofName]
  | neg h ih => exact ih
  | conditional hy hn ihy ihn =>
    intro t ht
    obtain h | ⟨-, h⟩ := Option.or_eq_some_iff.1 ht
    · exact ihy h
    · exact ihn h
  | cast h ih =>
    rintro _ ⟨⟩
    rfl
  | @list es T p h ih =>
    intro t ht
    cases es with
    | nil => cases ht
    | cons e es =>
      obtain ⟨u, hu, rfl⟩ := Option.map_eq_some_iff.1 ht
      rw [Ty.veil, ih e mem_cons_self hu]
  | someOf h ih =>
    intro t ht
    obtain ⟨u, hu, rfl⟩ := Option.map_eq_some_iff.1 ht
    rw [Ty.veil, ih hu]
  | chain hc =>
    intro t ht
    rw [knownType, hc] at ht
    cases ht
    exact (Ty.veil_ofName _).symm
  | unruled he =>
    intro t ht
    rw [knownType_unruled he] at ht
    cases ht

/-! ### Scopes below binders -/

theorem Scope.type?_bind (sc : Scope) (n : Ident) (t : Option Ty) (m : Bytes) :
    (sc.bind n t).type? m = if m == n.name then t else sc.type? m := by
  rw [type?, Scope.bind, lookup_cons, type?]
  cases m == n.name <;> rfl

theorem Context.Agrees.bind (h : Γ.Agrees sc) (n : Ident) {t : Option Ty}
    (ht : ∀ u, t = some u → T = u.veil) :
    Agrees ((n.name, some T) :: Γ) (sc.bind n t) := by
  intro m u hu
  rw [Scope.type?_bind] at hu
  rw [lookup_cons]
  cases hm : m == n.name with
  | true =>
    rw [hm, if_pos rfl] at hu
    exact .inl (by rw [ht u hu])
  | false =>
    rw [hm, if_neg Bool.false_ne_true] at hu
    exact h m u hu

theorem Context.Agrees.pass (h : Γ.Agrees sc) (n : Bytes) (t : Option Ty)
    (hn : t = none ∨ sc.type? n = none) : Agrees ((n, t) :: Γ) sc := by
  intro m u hu
  rw [lookup_cons]
  cases hm : m == n with
  | true =>
    obtain rfl | hn := hn
    · exact .inr rfl
    · rw [beq_iff_eq.1 hm, hn] at hu
      cases hu
  | false => exact h m u hu

/-- The binder hides no variable whose type the scope goes on to know.  Only one that is exported
might. -/
def Binder.isClear (sc : Scope) : Binder → Bool
  | .binding true n _ _ => (sc.type? n.name).isNone
  | _ => true

/-- No exported binding of the function hides a variable whose type is known. -/
def Trail.isClear : Trail → Bool
  | [] | .function :: _ => true
  | b :: tr => b.isClear (Trail.scope tr) && isClear tr

theorem elementType_eq_some {t : Option Ty} {u : Ty} (h : elementType t = some u) :
    ∃ p, t = some (.list p u) := by
  unfold elementType at h
  split at h
  · cases h
    exact ⟨_, rfl⟩
  · cases h

theorem Binder.agrees {Δ : Context} {b : Binder} (hb : b.Typed Γ Δ)
    (hclear : b.isClear sc = true) (h : Γ.Agrees sc) : Δ.Agrees (b.scope sc) := by
  cases hb with
  | param =>
    exact h.bind _ (by rintro _ ⟨⟩; rfl)
  | untypedParam | caught => exact h.bind _ nofun
  | @binding exported e n t =>
    cases exported with
    | false => exact h.bind n (by rintro _ ⟨⟩; rfl)
    | true => exact h.pass _ _ (.inr (Option.isNone_iff_eq_none.1 hclear))
  | @untypedBinding T exported n e he =>
    cases exported with
    | false => exact h.bind n fun u hu => he.eq_veil h hu
    | true => exact h.pass _ _ (.inr (Option.isNone_iff_eq_none.1 hclear))
  | @iterator T x l hl =>
    -- a known element type comes from a known list type, and the list has a type
    refine h.bind x fun u hu => ?_
    obtain ⟨p, hp⟩ := elementType_eq_some hu
    have hlist := hl.eq_veil h hp
    cases hlist
    rfl
  | declared => exact h.pass _ _ (.inl rfl)
  | function =>
    intro _ _ hu
    cases hu

/-- The scope below binders agrees with their types. -/
theorem Trail.agrees {tr : Trail} {Γ : Context} (h : tr.Typed Γ) (hclear : tr.isClear = true) :
    Γ.Agrees tr.scope := by
  induction h with
  | nil => exact nofun
  | @cons tr Γ Δ b h hb ih =>
    cases b with
    | function => exact nofun -- nothing is known from outside
    | _ =>
      obtain ⟨hclear, hrest⟩ := Bool.and_eq_true_iff.1 hclear
      exact Binder.agrees hb hclear (ih hrest)

/-- Where an expression stands, its inferred type is its type. -/
theorem Occurrence.HasType.eq_veil {o : Occurrence} {T t : Ty} (h : o.HasType T)
    (hclear : o.trail.isClear = true) (ht : o.expr.knownType o.trail.scope = some t) :
    T = t.veil := by
  obtain ⟨Γ, htrail, hexpr⟩ := h
  exact hexpr.eq_veil (Trail.agrees htrail hclear) ht

/-! ### Conversions -/

/-- The conversions, each with the type that it takes and the one that it gives. -/
def conversions : List (String × String × String) :=
  [("to-int", "uint", "int"), ("to-uint", "int", "uint")]

theorem Ty.mark?_of_castForm (h : t.castForm known v = apply m [v]) : t.mark? known = some m := by
  have hmark {k : String} (hk : apply k [v] = apply m [v]) : some k = some m := by
    simp only [apply, Form.row, Form.items, Form.list.injEq, List.cons.injEq, Prod.mk.injEq,
      Form.atom.injEq] at hk
    exact congrArg some (Bytes.ofString_injective hk.1.2)
  rw [castForm] at h
  rw [mark?]
  split at h
  next hint => rw [if_pos hint, hmark h]
  next hint =>
  split at h
  next huint => rw [if_neg hint, if_pos huint, hmark h]
  next => simp [apply, Form.row, Form.items] at h

theorem Ty.veil_of_isNamed {name : String} (h : t.isNamed name = true) : t.veil = .ofName name := by
  cases t with
  | named n =>
    have hn : n.name = Bytes.ofString name := by simpa [isNamed] using h
    rw [veil, Ident.veil, hn, ofName]
  | _ => cases h

theorem Ty.mark?_eq_some (h : t.mark? known = some m) :
    ∃ source result, (m, source, result) ∈ conversions ∧
      t.isNamed result = true ∧ ∃ u, known = some u ∧ u.isNamed source = true := by
  have hknown {name : String} (hany : known.any (isNamed name) = true) :
      ∃ u, known = some u ∧ u.isNamed name = true := by
    cases known with
    | none => cases hany
    | some u => exact ⟨u, rfl, hany⟩
  rw [mark?] at h
  split at h
  next hint =>
    cases h
    obtain ⟨ht, hu⟩ := Bool.and_eq_true_iff.1 hint
    exact ⟨"uint", "int", by simp [conversions], ht, hknown hu⟩
  next =>
  split at h
  next huint =>
    cases h
    obtain ⟨ht, hu⟩ := Bool.and_eq_true_iff.1 huint
    exact ⟨"int", "uint", by simp [conversions], ht, hknown hu⟩
  next => cases h

theorem Occurrence.HasType.operand (h : HasType ⟨tr, .cast p e t⟩ T) : ∃ U, HasType ⟨tr, e⟩ U := by
  obtain ⟨Γ, htrail, hcast⟩ := h
  cases hcast with
  | cast he => exact ⟨_, Γ, htrail, he⟩
  | unruled hu => cases hu

/-- **Conversions are written for operands of the right type.**  Take a function that has types
throughout, and in which no exported binding hides a variable whose type is known.  A type that
rendering infers for an expression is its type, and the only one it has; a cast becomes `to-int` or
`to-uint` only where the operand has the other type of integers; and each of the two stands in the
code only as often as the function spells it and has such casts. -/
theorem Fn.conversions_typed (f : Fn) (htyped : f.WellTyped)
    (hclear : ∀ o ∈ f.occurrences [], o.trail.isClear = true) :
    (∀ o ∈ f.occurrences [], ∀ t, o.expr.knownType o.trail.scope = some t →
      ∀ T, o.HasType T ↔ T = t.veil) ∧
    (∀ tr p e t, ⟨tr, .cast p e t⟩ ∈ f.occurrences [] → ∀ c v,
      t.castForm (e.knownType tr.scope) v = apply c [v] →
      ∃ source result, (c, source, result) ∈ conversions ∧
        t.veil = .ofName result ∧ ∀ T, Occurrence.HasType ⟨tr, e⟩ T ↔ T = .ofName source) ∧
    ∀ target exported code, f.form target exported = .ok code → ∀ c ∈ ["to-int", "to-uint"],
      code.uses (Bytes.ofString c) = f.texts.count (Bytes.ofString c) +
        (marks target (f.occurrences [])).count (Bytes.ofString c) := by
  refine ⟨fun o ho t ht T => ?_, fun tr p e t ho c v hcast => ?_,
    fun target exported code hcode c hc => ?_⟩
  · obtain ⟨U, hU⟩ := htyped o ho
    constructor
    · exact fun hT => hT.eq_veil (hclear o ho) ht
    · rintro rfl
      rwa [← hU.eq_veil (hclear o ho) ht]
  · obtain ⟨source, result, hmem, hresult, u, hu, hsource⟩ :=
      Ty.mark?_eq_some (Ty.mark?_of_castForm hcast)
    refine ⟨source, result, hmem, Ty.veil_of_isNamed hresult, fun T => ?_⟩
    obtain ⟨U, hU⟩ := htyped _ ho
    obtain ⟨V, hV⟩ := hU.operand
    have htrail : tr.isClear = true := hclear _ ho
    have hveil (T : Ty) (hT : Occurrence.HasType ⟨tr, e⟩ T) : T = .ofName source :=
      (hT.eq_veil htrail hu).trans (Ty.veil_of_isNamed hsource)
    constructor
    · exact hveil T
    · rintro rfl
      rwa [← hveil V hV]
  · have hmark : (Bytes.ofString c).IsMark := ⟨c, mem_append_right _ hc, rfl⟩
    exact Fn.yields_uses hmark [] exported f code hcode

/-! ### Cases -/

/-- A variable with the type of its value, and an iterator that hides a parameter: below
`x: bool, z: uint` stands `let y = z; return [x as int for x in [y, 2 as uint]];`. -/
def hiddenParam : Fn :=
  .mk {} [] ⟨"f", {}⟩ [⟨⟨"x", {}⟩, some (.ofName "bool")⟩, ⟨⟨"z", {}⟩, some (.ofName "uint")⟩] none
    (some (.mk {} [
      .letDecl {} ⟨"y", {}⟩ none (.ident ⟨"z", {}⟩),
      .returnStmt {} (some (.comprehension {}
        (.cast {} (.ident ⟨"x", {}⟩) (.ofName "int")) ⟨"x", {}⟩
        (.list {} [.ident ⟨"y", {}⟩, .cast {} (.literal "2" {} (.int 2)) (.ofName "uint")])
        none))]))

theorem forall_hiddenParam : (∀ o ∈ hiddenParam.occurrences [], P o) ↔
      let params := Trail.bindAll [.function] hiddenParam.params
      let z := Expr.ident ⟨"z", {}⟩
      let behind := .binding false ⟨"y", {}⟩ none z :: params
      let two := Expr.literal "2" {} (.int 2)
      let list := Expr.list {} [.ident ⟨"y", {}⟩, .cast {} two (.ofName "uint")]
      let inside := .iterator ⟨"x", {}⟩ list :: behind
      let x := Expr.ident ⟨"x", {}⟩
      P ⟨params, z⟩ ∧
        P ⟨behind, .comprehension {} (.cast {} x (.ofName "int")) ⟨"x", {}⟩ list none⟩ ∧
        P ⟨behind, list⟩ ∧ P ⟨behind, .ident ⟨"y", {}⟩⟩ ∧
        P ⟨behind, .cast {} two (.ofName "uint")⟩ ∧ P ⟨behind, two⟩ ∧
        P ⟨inside, .cast {} x (.ofName "int")⟩ ∧ P ⟨inside, x⟩ := by
  simp [hiddenParam, Fn.params, Fn.occurrences, Block.occurrences, Stmt.allOccurrences,
    Stmt.occurrences, Expr.occurrences, Expr.allOccurrences, Stmt.extend]

theorem hiddenParam_wellTyped : hiddenParam.WellTyped := by
  rw [Fn.WellTyped, forall_hiddenParam]
  intro params z behind two list inside x
  let uint := Ty.ofName "uint"
  have hparams : params.Typed [("z", some uint), ("x", some (.ofName "bool"))] :=
    ((Trail.Typed.nil.cons .function).cons .param).cons .param
  have hz : z.HasType [("z", some uint), ("x", some (.ofName "bool"))] uint := .bound rfl
  have hbehind : Trail.Typed behind
      [("y", some uint), ("z", some uint), ("x", some (.ofName "bool"))] :=
    hparams.cons (.untypedBinding hz)
  have hy {Γ : Context} : Expr.HasType (("y", some uint) :: Γ) (.ident ⟨"y", {}⟩) uint := .bound rfl
  have hcast {Γ : Context} : Expr.HasType Γ (.cast {} two uint) uint := .cast .int
  have hlist {Γ : Context} : Expr.HasType (("y", some uint) :: Γ) list (.list {} uint) :=
    .list (forall_mem_cons.2 ⟨hy, forall_mem_singleton.2 hcast⟩)
  have hinside : Trail.Typed inside
      [("x", some uint), ("y", some uint), ("z", some uint), ("x", some (.ofName "bool"))] :=
    hbehind.cons (.iterator hlist)
  have hx {Γ : Context} : Expr.HasType (("x", some uint) :: Γ) x uint := .bound rfl
  exact ⟨⟨_, _, hparams, hz⟩, ⟨uint, _, hbehind, .unruled rfl⟩, ⟨_, _, hbehind, hlist⟩,
    ⟨_, _, hbehind, hy⟩, ⟨_, _, hbehind, hcast⟩, ⟨_, _, hbehind, .int⟩,
    ⟨_, _, hinside, .cast hx⟩, ⟨_, _, hinside, hx⟩⟩

theorem hiddenParam_isClear : ∀ o ∈ hiddenParam.occurrences [], o.trail.isClear = true := by
  rw [forall_hiddenParam]
  exact ⟨rfl, rfl, rfl, rfl, rfl, rfl, rfl, rfl⟩

/-- The iterator is taken as one of the unsigned integers that it runs through, and not as the
parameter that it hides. -/
theorem Fn.conversions_typed_hiddenParam :
    hiddenParam.WellTyped ∧ (∀ o ∈ hiddenParam.occurrences [], o.trail.isClear = true) ∧
      (∃ tr p e t, ⟨tr, .cast p e t⟩ ∈ hiddenParam.occurrences [] ∧
        (∀ v, t.castForm (e.knownType tr.scope) v = apply "to-int" [v]) ∧
        ∀ T, Occurrence.HasType ⟨tr, e⟩ T ↔ T = .ofName "uint") ∧
      ∃ code, hiddenParam.form { major := 2 } false = .ok code ∧ code.uses "to-int" = 1 := by
  obtain ⟨-, hcasts, huses⟩ :=
    Fn.conversions_typed hiddenParam hiddenParam_wellTyped hiddenParam_isClear
  refine ⟨hiddenParam_wellTyped, hiddenParam_isClear, ?_, ?_⟩
  · have hmem := (forall_hiddenParam (P := (· ∈ hiddenParam.occurrences []))).1 fun _ h => h
    obtain ⟨-, -, -, -, -, -, hcast, -⟩ := hmem
    refine ⟨_, _, _, _, hcast, fun _ => rfl, ?_⟩
    obtain ⟨source, result, hc, -, htype⟩ := hcasts _ _ _ _ hcast "to-int" Form.unit rfl
    simp only [conversions, mem_cons, Prod.mk.injEq, true_and, not_mem_nil, or_false,
      String.reduceEq, false_and] at hc
    rwa [hc.1] at htype
  · cases hcode : hiddenParam.form { major := 2 } false with
    | error f =>
      have hok : (hiddenParam.form { major := 2 } false).toBool = true := by decide
      rw [hcode] at hok
      cases hok
    | ok code =>
      refine ⟨code, rfl, ?_⟩
      rw [huses _ _ _ hcode "to-int" (by simp)]
      decide

/-- A local binding that is exported and hides a parameter:
`export let x: uint = 1 as uint; return x as uint;` below `x: int`. -/
def exportedLocal : Fn :=
  .mk {} [] ⟨"f", {}⟩ [⟨⟨"x", {}⟩, some (.ofName "int")⟩] (some (.ofName "uint"))
    (some (.mk {} [
      .exportDecl {} (.letDecl {} ⟨"x", {}⟩ (some (.ofName "uint"))
        (.cast {} (.literal "1" {} (.int 1)) (.ofName "uint"))),
      .returnStmt {} (some (.cast {} (.ident ⟨"x", {}⟩) (.ofName "uint")))]))

theorem forall_exportedLocal : (∀ o ∈ exportedLocal.occurrences [], P o) ↔
      let params := Trail.bindAll [.function] exportedLocal.params
      let one := Expr.literal "1" {} (.int 1)
      let behind :=
        .binding true ⟨"x", {}⟩ (some (.ofName "uint")) (.cast {} one (.ofName "uint")) :: params
      let x := Expr.ident ⟨"x", {}⟩
      P ⟨params, .cast {} one (.ofName "uint")⟩ ∧ P ⟨params, one⟩ ∧
        P ⟨behind, .cast {} x (.ofName "uint")⟩ ∧ P ⟨behind, x⟩ := by
  simp [exportedLocal, Fn.params, Fn.occurrences, Block.occurrences, Stmt.allOccurrences,
    Stmt.occurrences, Expr.occurrences, Stmt.extend]

/-- **An exported binding hides the variable from the source and not from rendering**: its name has
the type `uint` behind it, and is converted as an `int`. -/
theorem exportedLocal_converted :
    exportedLocal.WellTyped ∧
      (∃ tr p e t, ⟨tr, .cast p e t⟩ ∈ exportedLocal.occurrences [] ∧
        (∀ v, t.castForm (e.knownType tr.scope) v = apply "to-uint" [v]) ∧
        ∀ T, Occurrence.HasType ⟨tr, e⟩ T ↔ T = .ofName "uint") ∧
      ({} : Options).compile
          "function f(x: int): uint \x7b export let x: uint = 1 as uint; return x as uint; \x7d" =
        .ok ("(define-private (f (x int))\n  (begin\n    (let ((x (to-uint 1))) x)\n" ++
          "    (to-uint x)))" : String) := by
  have hparams : Trail.Typed (Trail.bindAll [.function] exportedLocal.params)
      [("x", some (.ofName "int"))] := (Trail.Typed.nil.cons .function).cons .param
  have hbehind {e : Expr} : Trail.Typed (.binding true ⟨"x", {}⟩ (some (.ofName "uint")) e ::
      Trail.bindAll [.function] exportedLocal.params)
      [("x", some (.ofName "uint")), ("x", some (.ofName "int"))] := hparams.cons .binding
  have hx : Expr.HasType [("x", some (.ofName "uint")), ("x", some (.ofName "int"))]
      (.ident ⟨"x", {}⟩) (.ofName "uint") := .bound rfl
  refine ⟨?_, ?_, eq_ok_of_toOption (by decide)⟩
  · rw [Fn.WellTyped, forall_exportedLocal]
    exact ⟨⟨_, _, hparams, .cast .int⟩, ⟨_, _, hparams, .int⟩, ⟨_, _, hbehind, .cast hx⟩,
      ⟨_, _, hbehind, hx⟩⟩
  · have hmem := (forall_exportedLocal (P := (· ∈ exportedLocal.occurrences []))).1 fun _ h => h
    refine ⟨_, _, _, _, hmem.2.2.1, fun _ => rfl, fun T => ⟨?_, ?_⟩⟩
    · rintro ⟨Γ, htrail, hT⟩
      cases htrail with
      | cons _ hb =>
      cases hb
      cases hT with
      | bound h => exact (Option.some.inj (Option.some.inj h)).symm
      | free h | unruled h => cases h
    · rintro rfl
      exact ⟨_, hbehind, hx⟩

end Covenant
