import Covenant.Compile
import Covenant.Proofs.Clarity.Atom
import Covenant.Proofs.Clarity.Evaluation
import Covenant.Proofs.Tree.Likeness

/-!
# Function values of comprehensions

A comprehension maps a function over its list.  Without a filter the function is a `lambda`.  With a
filter an operator between the iterator and a plain operand `k` becomes the form `(op k)`, on
whichever side the iterator stood.  Such a form can be read as the function that puts its argument
before `k`, or as the one that puts it behind `k`.  Each reading agrees with the `lambda` for
iterators on its own side, and for no others: so neither serves all comprehensions.
-/

namespace Covenant

open Form (atom apply)

/-! ### Values -/

/-- What the operators mean, and all that is no application of them. -/
structure Meaning (V : Type) where
  operator : Bytes → List V → V
  /-- The value of a word that no name in force stands for. -/
  word : Bytes → V
  string : Bytes → V
  /-- The value of any other form under the names in force. -/
  other : Form → Env V → V

def isOperatorWord (w : Bytes) : Bool :=
  BinOp.all.any fun op => op.function?.any fun f => Bytes.ofString f == w

variable {V : Type} {x : Bytes} {e : Expr} {k : Form} {f : String}

namespace Form

mutual

def value (M : Meaning V) (env : Env V) : Form → V
  | .atom w => (env w).getD (M.word w)
  | .quoted s => M.string s
  | .list ((g, .atom w) :: items) =>
    if isOperatorWord w then M.operator w (values M env items)
    else M.other (.list ((g, .atom w) :: items)) env
  | .list items => M.other (.list items) env

def values (M : Meaning V) (env : Env V) : List (Gap × Form) → List V
  | [] => []
  | (_, f) :: items => f.value M env :: values M env items

end

theorem value_apply (h : isOperatorWord f = true) (M : Meaning V) (env : Env V) (a b : Form) :
    (apply f [a, b]).value M env = M.operator f [a.value M env, b.value M env] := by
  rw [apply, row, items, value, if_pos h]
  simp only [List.map, values]

end Form

/-- How the form of an operator with one operand is read as a function. -/
inductive Reading where
  /-- The argument goes before the operand. -/
  | before
  /-- The argument goes behind the operand. -/
  | behind
  deriving DecidableEq, Repr

namespace Reading

def order (r : Reading) (argument operand : V) : List V :=
  match r with
  | before => [argument, operand]
  | behind => [operand, argument]

def function? (r : Reading) (M : Meaning V) (env : Env V) : Form → Option (V → V)
  | .list [(_, .atom w), (_, k)] => some fun v => M.operator w (r.order v (k.value M env))
  | .list [(_, .atom w), (_, .list [(_, .atom x)]), (_, body)] =>
    if w = Bytes.ofString "lambda" then some fun v => body.value M (env.bind x v) else none
  | _ => none

theorem function?_lambda (r : Reading) (M : Meaning V) (env : Env V) (x : Bytes) (body : Form) :
    r.function? M env (lambdaForm [x] body) = some fun v => body.value M (env.bind x v) := by
  rfl

theorem function?_apply (r : Reading) (M : Meaning V) (env : Env V) (f : String) (k : Form) :
    r.function? M env (apply f [k]) = some fun v => M.operator f (r.order v (k.value M env)) := by
  rfl

end Reading

/-! ### Operands -/

/-- The side of the iterator in an operator between it and a plain operand.  The operators on bits
and those that are no functions are left out. -/
def Expr.side? (iterator : Bytes) : Expr → Option Reading
  | .binary _ op l r =>
    if op.isBitwise || op.function?.isNone then none
    else if isIterator iterator l && (plainOperand? iterator r).isSome then some .before
    else if isIterator iterator r && (plainOperand? iterator l).isSome then some .behind
    else none
  | _ => none

/-- The operator of the expression takes its two operands in any order. -/
def Meaning.Commutes (M : Meaning V) : Expr → Prop
  | .binary _ op _ _ => ∀ f ∈ op.function?, ∀ a b : V, M.operator f [a, b] = M.operator f [b, a]
  | _ => True

theorem Literal.form_ne_name (v : Literal) (hx : x.isName = true) : v.form ≠ atom x := by
  intro h
  cases v with
  | int v =>
    obtain rfl : Bytes.ofInt v.toInt = x := Form.atom.inj h
    rw [Bytes.ofInt_eq] at hx
    split at hx
    · have hnumeral := Bytes.isNumeral_of_isName hx
      rw [Bytes.isNumeral_ofNat] at hnumeral
      cases hnumeral
    · have hminus := Bytes.isNamePart_of_mem hx (List.mem_append_left _ (.head _)) (by decide)
      revert hminus
      decide
  | float v =>
    obtain rfl : floatText v = x := Form.atom.inj h
    have hmem : 46 ∈ floatText v := by
      rw [floatText]
      split
      · next hpoint => exact List.contains_iff_mem.1 hpoint
      · exact List.mem_append_right _ (.head _)
    have hpoint := Bytes.isNamePart_of_mem hx hmem (by decide)
    revert hpoint
    decide
  | string s => cases h
  | bool b =>
    cases b with
    | true | false =>
      obtain rfl := Form.atom.inj h
      revert hx
      decide

theorem value_plainOperand (hx : x.isName = true)
    (hk : plainOperand? x e = some k) (M : Meaning V) (env : Env V) (v : V) :
    k.value M (env.bind x v) = k.value M env := by
  have hatom {w : Bytes} (hw : w ≠ x) :
      (atom w).value M (env.bind x v) = (atom w).value M env := by
    simp only [Form.value, Env.bind, if_neg hw]
  cases e <;> simp only [plainOperand?, reduceCtorEq] at hk
  case ident n =>
    split at hk
    · cases hk
    · next hne =>
      cases hk
      exact hatom hne
  case literal v' =>
    cases hk
    have hne := v'.form_ne_name hx
    cases hv : v'.form with
    | atom w =>
      refine hatom fun hw => hne ?_
      rw [hv, hw]
    | quoted s => simp only [Form.value]
    | list items => rcases v' with _ | _ | _ | (_ | _) <;> cases hv
  case principal address =>
    cases hk
    refine hatom fun hw => ?_
    subst hw
    have hquote := Bytes.isNamePart_of_mem hx (List.mem_append_left _ (.head _)) (by decide)
    revert hquote
    decide

theorem form_plainOperand (hk : plainOperand? x e = some k)
    (target : Version) (sc : Scope) : e.form target sc = .ok k := by
  cases e <;> simp only [plainOperand?, reduceCtorEq] at hk
  case ident n =>
    split at hk
    · cases hk
    · cases hk
      rw [Expr.form]
  case literal v => cases hk; rw [Expr.form]
  case principal address => cases hk; rw [Expr.form]

theorem form_isIterator (h : isIterator x e = true) (target : Version)
    (sc : Scope) : e.form target sc = .ok (atom x) := by
  cases e <;> simp only [isIterator, Bool.false_eq_true, beq_iff_eq] at h
  case ident n => rw [Expr.form, h]

theorem BinOp.form_of_function? {op : BinOp} (hf : op.function? = some f)
    (hop : op.isBitwise = false) (target : Version) (pos : Pos) (a b : Form) :
    op.form target pos a b = .ok (apply f [a, b]) := by
  unfold form
  split
  · cases hf
  · cases hf
  · rw [hf, hop]
    rfl

theorem isOperatorWord_of_function? {op : BinOp} (hf : op.function? = some f) :
    isOperatorWord f = true := by
  have hall : ∀ op ∈ BinOp.all, op.function?.all (fun f => isOperatorWord f) = true := by
    decide
  have hop : op ∈ BinOp.all := by cases op <;> first | decide | cases hf
  simpa [hf] using hall op hop

/-! ### Operators with one operand -/

/-- The expression is the operator `f` between the iterator and the plain operand `k`. -/
structure Expr.IsSection (x : Bytes) (e : Expr) (side : Reading) (f : String) (k : Form) :
    Prop where
  side_eq : e.side? x = some side
  word : isOperatorWord f = true
  plain : ∃ operand, plainOperand? x operand = some k
  partialForm : partialForm? x e = some (apply f [k])
  form : ∀ target sc, e.form target sc = .ok (apply f (side.order (atom x) k))
  commutes : ∀ (V : Type) (M : Meaning V), M.Commutes e →
    ∀ a b, M.operator f [a, b] = M.operator f [b, a]

theorem Expr.side?_cases (x : Bytes) (e : Expr) :
    (e.side? x = none ∧ partialForm? x e = none) ∨ ∃ side f k, e.IsSection x side f k := by
  cases e with
  | binary p op l r =>
    cases hf : op.function? with
    | none => exact .inl (by simp [side?, partialForm?, hf])
    | some f =>
      cases hop : op.isBitwise with
      | true => exact .inl (by simp [side?, partialForm?, hop])
      | false =>
        have hform {a b : Form} (target : Version) (sc : Scope) (hl : l.form target sc = .ok a)
            (hr : r.form target sc = .ok b) :
            (Expr.binary p op l r).form target sc = .ok (apply f [a, b]) := by
          rw [Expr.form, hl, hr]
          exact BinOp.form_of_function? hf hop target p a b
        by_cases hleft : isIterator x l = true ∧ (plainOperand? x r).isSome = true
        · obtain ⟨hl, hr⟩ := hleft
          obtain ⟨k, hk⟩ := Option.isSome_iff_exists.1 hr
          exact .inr ⟨.before, f, k,
            { side_eq := by simp [side?, hf, hop, hl, hk]
              word := isOperatorWord_of_function? hf
              plain := ⟨r, hk⟩
              partialForm := by simp [partialForm?, hf, hop, hl, hk]
              form := fun target sc =>
                hform target sc (form_isIterator hl target sc) (form_plainOperand hk target sc)
              commutes := fun V M h => h f hf }⟩
        · have hleft' : (isIterator x l && (plainOperand? x r).isSome) = false := by
            rwa [← Bool.and_eq_true, Bool.not_eq_true] at hleft
          by_cases hright : isIterator x r = true ∧ (plainOperand? x l).isSome = true
          · obtain ⟨hr, hl⟩ := hright
            obtain ⟨k, hk⟩ := Option.isSome_iff_exists.1 hl
            exact .inr ⟨.behind, f, k,
              { side_eq := by simp [side?, hf, hop, hl, hr, hleft']
                word := isOperatorWord_of_function? hf
                plain := ⟨l, hk⟩
                partialForm := by simp [partialForm?, hf, hop, hk, hr, hleft']
                form := fun target sc =>
                  hform target sc (form_plainOperand hk target sc) (form_isIterator hr target sc)
                commutes := fun V M h => h f hf }⟩
          · have hright' : isIterator x r = true → plainOperand? x l = none := by simpa using hright
            exact .inl ⟨by simpa [side?, hf, hop, hleft'] using hright',
              by simpa [partialForm?, hf, hop, hleft'] using hright'⟩
  | _ => exact .inl ⟨rfl, rfl⟩

/-- The value of the body, at a value of the iterator. -/
theorem Expr.IsSection.value {e : Expr} (h : e.IsSection x side f k) (hx : x.isName = true)
    (M : Meaning V) (env : Env V) (v : V) :
    (apply f (side.order (atom x) k)).value M (env.bind x v) =
      M.operator f (side.order v (k.value M env)) := by
  obtain ⟨operand, hk⟩ := h.plain
  have hkv := value_plainOperand hx hk M env v
  have hxv : (atom x).value M (env.bind x v) = v := by simp [Form.value, Env.bind]
  cases side <;> simp only [Reading.order, Form.value_apply h.word, hkv, hxv]

/-- A meaning that tells the first operand from the second: it answers the first, and all that is
no argument is true. -/
def Meaning.first : Meaning Bool where
  operator _ args := args.headD true
  word _ := true
  string _ := true
  other _ _ := true

theorem Expr.IsSection.eq_of_agree (h : e.IsSection x side f k)
    (hagree : ∀ (V : Type) (M : Meaning V) (env : Env V) (v : V),
      M.operator f (r.order v (k.value M env)) = M.operator f (side.order v (k.value M env))) :
    side = r := by
  obtain ⟨operand, hk⟩ := h.plain
  have htrue : k.value Meaning.first (fun _ => none) = true := by
    cases operand <;> simp only [plainOperand?, reduceCtorEq] at hk
    case ident n =>
      split at hk
      · cases hk
      · cases hk
        simp [Form.value, Meaning.first]
    case literal v =>
      cases hk
      rcases v with _ | _ | _ | (_ | _) <;> simp [Literal.form, Form.value, Meaning.first]
    case principal =>
      cases hk
      simp [Form.value, Meaning.first]
  have hfalse := hagree Bool Meaning.first (fun _ => none) false
  rw [htrue] at hfalse
  revert hfalse
  cases side <;> cases r <;> simp [Reading.order, Meaning.first]

/-! ### Comprehensions -/

/-- **The function of a filtered comprehension is that of the plain one, under one reading or the
other, iff the iterator is on the side of that reading**, or if the function is a `lambda` anyway.
Where the operator commutes, both readings agree with the `lambda`. -/
theorem Expr.filtered_agrees_iff {target : Version} {sc : Scope} {p : Pos}
    {e l c : Expr} {x : Ident}
    (hx : x.name.isName = true) {form : Form}
    (h : (Expr.comprehension p e x l (some c)).form target sc = .ok form) :
    ∃ f body condition list,
      form = apply "map" [f, apply "filter" [lambdaForm [x.name] condition, list]] ∧
      (Expr.comprehension p e x l none).form target sc =
        .ok (apply "map" [lambdaForm [x.name] body, list]) ∧
      (∀ r : Reading,
        (∀ (V : Type) (M : Meaning V) (env : Env V),
          r.function? M env f = r.function? M env (lambdaForm [x.name] body)) ↔
            ∀ side ∈ e.side? x.name, side = r) ∧
      ∀ (r : Reading) (V : Type) (M : Meaning V) (env : Env V), M.Commutes e →
        r.function? M env f = r.function? M env (lambdaForm [x.name] body) := by
  rw [Expr.form] at h
  obtain ⟨list, hlist, h⟩ := of_bind_eq_ok h
  obtain ⟨condition, -, h⟩ := of_bind_eq_ok h
  have hplain {body : Form}
      (hbody : e.form target (sc.bind x (elementType (l.knownType sc))) = .ok body) :
      (Expr.comprehension p e x l none).form target sc =
        .ok (apply "map" [lambdaForm [x.name] body, list]) := by
    rw [Expr.form, hlist]
    change (e.form target _ >>= fun body => _) = _
    rw [hbody]
    rfl
  obtain ⟨hside, hpartial⟩ | ⟨side, w, k, hsection⟩ := e.side?_cases x.name
  · -- the function is a `lambda` on both paths
    rw [hpartial] at h
    obtain ⟨f, hf, h⟩ := of_bind_eq_ok h
    cases hbody : e.form target (sc.bind x (elementType (l.knownType sc))) with
    | error _ =>
      rw [hbody] at hf
      cases hf
    | ok body =>
    rw [hbody] at hf
    cases hf
    cases h
    refine ⟨_, body, condition, list, rfl, hplain hbody, fun r => ?_, fun _ _ _ _ _ => rfl⟩
    rw [hside]
    exact ⟨fun _ => nofun, fun _ _ _ _ => rfl⟩
  · rw [hsection.partialForm] at h
    cases h
    have hbody := hsection.form target (sc.bind x (elementType (l.knownType sc)))
    have hlambda (r : Reading) {V : Type} (M : Meaning V) (env : Env V) :
        r.function? M env (lambdaForm [x.name] (apply w (side.order (atom x.name) k))) =
          some fun v => M.operator w (side.order v (k.value M env)) := by
      rw [r.function?_lambda]
      exact congrArg some (funext fun v => hsection.value hx M env v)
    refine ⟨apply w [k], _, condition, list, rfl, hplain hbody, fun r => ?_, fun r V M env h => ?_⟩
    · rw [hsection.side_eq]
      constructor
      · rintro hagree _ ⟨⟩
        refine hsection.eq_of_agree fun V M env v => ?_
        have hagree := hagree V M env
        rw [hlambda, r.function?_apply] at hagree
        exact congrFun (Option.some.inj hagree) v
      · intro hr V M env
        rw [hlambda, r.function?_apply, hr side rfl]
    · have hcommutes := hsection.commutes V M h
      rw [hlambda, r.function?_apply]
      refine congrArg some (funext fun v => ?_)
      cases r <;> cases side <;> first | rfl | exact hcommutes _ _

def iteratorMinusOne : Expr :=
  .binary {} .sub (.ident ⟨"x", {}⟩) (.literal "1" {} (.int 1))

/-- For the iterator minus one, the reading that puts the argument first is the right one. -/
theorem filtered_agrees_iteratorMinusOne :
    Bytes.isName "x" = true ∧
      (Expr.comprehension {} iteratorMinusOne ⟨"x", {}⟩ (.ident ⟨"xs", {}⟩)
        (some (.ident ⟨"c", {}⟩))).form { major := 1 } [] =
          .ok (apply "map" [apply "-" [atom "1"],
          apply "filter" [lambdaForm ["x"] (atom "c"), atom "xs"]]) ∧
      ∃ f body condition list,
        apply "map" [apply "-" [atom "1"], apply "filter"
        [lambdaForm ["x"] (atom "c"), atom "xs"]] =
          apply "map" [f, apply "filter" [lambdaForm ["x"] condition, list]] ∧
        ∀ r : Reading,
          (∀ (V : Type) (M : Meaning V) (env : Env V),
            r.function? M env f = r.function? M env (lambdaForm ["x"] body)) ↔ .before = r := by
  have hx : Bytes.isName "x" = true := by decide
  have hform : (Expr.comprehension {} iteratorMinusOne ⟨"x", {}⟩ (.ident ⟨"xs", {}⟩)
      (some (.ident ⟨"c", {}⟩))).form { major := 1 } [] =
        .ok (apply "map" [apply "-" [atom "1"],
        apply "filter" [lambdaForm ["x"] (atom "c"), atom "xs"]]) := by
    cbv
  obtain ⟨f, body, condition, list, heq, -, hagree, -⟩ := Expr.filtered_agrees_iff hx hform
  have hside : iteratorMinusOne.side? "x" = some .before := by decide
  refine ⟨hx, hform, f, body, condition, list, heq, fun r => (hagree r).trans ?_⟩
  rw [hside]
  exact ⟨fun h => h _ rfl, fun h _ hmem => Option.some.inj hmem ▸ h⟩

def Meaning.integers : Meaning Int where
  operator _ args := args.headD 0 - args.tail.headD 0
  word w := if w = Bytes.ofString "1" then 1 else 0
  string _ := 0
  other _ _ := 0

/-- **No reading serves both `x - 1` and `1 - x`**: filtered, they become the same form, and plain,
they become functions that differ. -/
theorem no_reading_of_difference :
    ({} : Options).compile
        "const a = [x - 1 for x in xs if x > 0]; const b = [1 - x for x in xs if x > 0];" =
      .ok "(define-constant a (map (- 1) (filter (lambda (x) (> x 0)) xs)))\n(define-constant b (map (- 1) (filter (lambda (x) (> x 0)) xs)))" ∧
    ({} : Options).compile "const a = [x - 1 for x in xs]; const b = [1 - x for x in xs];" =
      .ok "(define-constant a (map (lambda (x) (- x 1)) xs))\n(define-constant b (map (lambda (x) (- 1 x)) xs))" ∧
    ∀ r : Reading, ¬ ∀ (V : Type) (M : Meaning V) (env : Env V),
      r.function? M env (apply "-" [atom "1"]) =
          r.function? M env (lambdaForm ["x"] (apply "-" [atom "x", atom "1"])) ∧
        r.function? M env (apply "-" [atom "1"]) =
          r.function? M env (lambdaForm ["x"] (apply "-" [atom "1", atom "x"])) := by
  refine ⟨eq_ok_of_toOption ?_, eq_ok_of_toOption ?_, fun r hagree => ?_⟩
  · decide +kernel
  · decide
  obtain ⟨hfirst, hlast⟩ := hagree Int Meaning.integers fun _ => none
  have hvalue := hfirst.symm.trans hlast
  rw [r.function?_lambda, r.function?_lambda] at hvalue
  -- at zero, the one is minus one and the other is one
  have hzero := congrFun (Option.some.inj hvalue) 0
  revert hzero
  decide

end Covenant
