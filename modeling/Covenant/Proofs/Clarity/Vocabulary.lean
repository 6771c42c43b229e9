import Covenant.Proofs.Clarity.Faithful
import Covenant.Proofs.Clarity.Occurrence

/-!
# Where the words of code come from

The atoms of rendered code are fixed words and texts that the program itself brings along: names,
keys, types and numbers.  The functions on bits and the conversions between the integers, the marks,
are written for an operator or a cast, and never otherwise.
-/

namespace Covenant

open List Form
open Bytes (ofString)

open Form (atom row apply pair stack sequence unit)

/-! ### Atoms of forms -/

namespace Form

mutual

def uses (w : Bytes) : Form → Nat
  | atom text => [text].count w
  | quoted _ => 0
  | list items => usesItems w items

def usesItems (w : Bytes) : List (Gap × Form) → Nat
  | [] => 0
  | (_, f) :: items => f.uses w + usesItems w items

end

def usesAll (w : Bytes) (fs : List Form) : Nat :=
  (fs.map (uses w)).sum

variable (w : Bytes)

@[simp] theorem uses_atom (text : Bytes) : (atom text).uses w = [text].count w := by rw [uses]

@[simp] theorem usesAll_nil : usesAll w [] = 0 :=
  rfl

@[simp] theorem usesAll_cons (f : Form) (fs : List Form) :
    usesAll w (f :: fs) = f.uses w + usesAll w fs :=
  rfl

@[simp] theorem usesAll_append (fs gs : List Form) :
    usesAll w (fs ++ gs) = usesAll w fs + usesAll w gs := by
  rw [usesAll, map_append, sum_append, ← usesAll, ← usesAll]

theorem usesItems_eq (is : List (Gap × Form)) : usesItems w is = usesAll w (is.map Prod.snd) := by
  induction is with
  | nil => rfl
  | cons i is ih => rw [usesItems, ih, map_cons, usesAll_cons]

theorem map_snd_items (gap : Gap) (fs : List Form) : (items gap fs).map Prod.snd = fs := by
  cases fs with
  | nil => rfl
  | cons f fs => simp [items, Function.comp_def]

@[simp] theorem uses_list (is : List (Gap × Form)) :
    (list is).uses w = usesAll w (is.map Prod.snd) := by
  rw [uses, usesItems_eq]

@[simp] theorem uses_row (fs : List Form) : (row fs).uses w = usesAll w fs := by
  rw [row, uses_list, map_snd_items]

@[simp] theorem uses_pair (name : Bytes) (f : Form) :
    (pair name f).uses w = [name].count w + f.uses w := by
  simp [pair]

@[simp] theorem uses_stack (head body : List Form) :
    (stack head body).uses w = usesAll w head + usesAll w body := by
  simp [stack, map_snd_items, Function.comp_def]

@[simp] theorem uses_apply (function : String) (args : List Form) :
    (apply function args).uses w = [ofString function].count w + usesAll w args := by
  simp [apply]

@[simp] theorem usesAll_atoms (names : List Bytes) :
    usesAll w (names.map atom) = names.count w := by
  induction names with
  | nil => rfl
  | cons n names ih => rw [map_cons, usesAll_cons, ih, uses_atom, ← count_append, singleton_append]

end Form

/-! ### Marks -/

def bitWords : List String :=
  ["bit-and", "bit-or", "bit-xor", "bit-shift-left", "bit-shift-right"]

/-- The functions on bits and the conversions between the integers. -/
def markWords : List String :=
  bitWords ++ ["to-int", "to-uint"]

variable {v : String} {o : Occurrence} {r : Except Fault Form} {e : Expr} {f : Form} {x : Bytes}
    {tr : Trail}

@[simp] theorem mem_bitWords :
    v ∈ bitWords ↔ v = "bit-and" ∨ v = "bit-or" ∨ v = "bit-xor" ∨ v = "bit-shift-left" ∨
      v = "bit-shift-right" := by
  simp [bitWords]

@[simp] theorem mem_markWords : v ∈ markWords ↔ v ∈ bitWords ∨ v = "to-int" ∨ v = "to-uint" := by
  simp [markWords]

def Bytes.IsMark (w : Bytes) : Prop :=
  ∃ m ∈ markWords, w = Bytes.ofString m

def BinOp.mark? (target : Version) (op : BinOp) : Option String :=
  if op.isBitwise && !target.isBefore bitwiseSince then op.function? else none

def Ty.mark? (t : Ty) (known : Option Ty) : Option String :=
  if t.isNamed "int" && known.any (isNamed "uint") then some "to-int"
  else if t.isNamed "uint" && known.any (isNamed "int") then some "to-uint"
  else none

/-- The mark that rendering writes for the expression itself, not for one inside it. -/
def Occurrence.mark? (target : Version) (o : Occurrence) : Option String :=
  match o.expr with
  | .binary _ op _ _ => op.mark? target
  | .cast _ e t => t.mark? (e.knownType o.trail.scope)
  | _ => none

def marks (target : Version) (os : List Occurrence) : List Bytes :=
  os.filterMap fun o => (o.mark? target).map Bytes.ofString

/-! ### Texts of a program -/

mutual

def Ty.texts : Ty → List Bytes
  | .named n => [n.name]
  | .list _ t | .optional _ t => t.texts
  | .tuple _ fields => Ty.fieldTexts fields
  | .response _ ok err => ok.texts ++ err.texts

def Ty.fieldTexts : List (Bytes × Ty) → List Bytes
  | [] => []
  | (key, t) :: fields => [key] ++ t.texts ++ Ty.fieldTexts fields

end

def typeTexts (t : Option Ty) : List Bytes :=
  t.elim [] Ty.texts

/-- The texts of the test for a type.  A named one is joined to the test. -/
def Ty.testTexts : Ty → List Bytes
  | .named _ => []
  | t => t.texts

def Parameter.texts (p : Parameter) : List Bytes :=
  [p.name.name] ++ typeTexts p.type

def MapShape.texts (m : MapShape) : List Bytes :=
  [m.name.name] ++ m.key.texts ++ m.value.texts

def Fn.signatureTexts (f : Fn) : List Bytes :=
  [f.name.name] ++ f.params.flatMap (fun p => typeTexts p.type) ++ typeTexts f.result

def Literal.texts : Literal → List Bytes
  | .int v => [Bytes.ofInt v.toInt]
  | .float v => [floatText v]
  | .string _ | .bool _ => []

def Expr.operandTexts : Expr → List Bytes
  | .literal _ _ v => v.texts
  | .ident n => [n.name]
  | _ => []

/-- The text of the operand of an operator whose other operand is the iterator. -/
def Expr.sectionTexts (iterator : Bytes) : Expr → List Bytes
  | .binary _ _ l r => if isIterator iterator l && (plainOperand? iterator r).isSome
      then r.operandTexts else l.operandTexts
  | _ => []

/-- A name that is bound and followed by nothing is the value as well. -/
def Ident.repeated (n : Ident) : List Stmt → List Bytes
  | [] => [n.name]
  | _ :: _ => []

mutual

/-- The texts of an expression that become atoms.  The name of a member that is called is
broken at its humps. -/
def Expr.texts : Expr → List Bytes
  | .ident n => [n.name]
  | .literal _ _ v => v.texts
  | .principal .. | .noneLit _ => []
  | .someOf _ e | .unary _ _ e => e.texts
  | .typeCheck _ e t => e.texts ++ t.testTexts
  | .cast _ e t => e.texts ++ t.texts
  | .list _ es => Expr.allTexts es
  | .tuple _ fields => Expr.fieldTexts fields
  | .binary _ _ l r | .map _ l r | .filter _ l r => l.texts ++ r.texts
  | .conditional _ c y n | .fold _ c y n => c.texts ++ y.texts ++ n.texts
  | .member _ e property =>
    match chainValue? e property with
    | some _ => []
    | none => [property.name] ++ e.texts
  | .call _ (.member _ e property) args =>
    [hyphenated property.name] ++ e.texts ++ Expr.allTexts args
  | .call _ f args => f.texts ++ Expr.allTexts args
  | .contractCall _ _ function args => [function] ++ Expr.allTexts args
  | .assetCall _ asset _ args => [asset.name] ++ Expr.allTexts args
  | .comprehension _ e x l none => [x.name] ++ e.texts ++ l.texts
  | .comprehension _ e x l (some c) =>
    (match partialForm? x.name e with
      | some _ => e.sectionTexts x.name
      | none => [x.name] ++ e.texts) ++ [x.name] ++ c.texts ++ l.texts
  | .lambda _ ps body => ps.map (fun p => p.name.name) ++ body.texts

def Expr.allTexts : List Expr → List Bytes
  | [] => []
  | e :: es => e.texts ++ Expr.allTexts es

def Expr.fieldTexts : List (Bytes × Expr) → List Bytes
  | [] => []
  | (key, e) :: fields => [key] ++ e.texts ++ Expr.fieldTexts fields

def Body.texts : Body → List Bytes
  | .expr e => e.texts
  | .block b => b.texts

def Block.texts : Block → List Bytes
  | .mk _ ss => Stmt.allTexts ss

def Stmt.allTexts : List Stmt → List Bytes
  | [] => []
  | .letDecl _ n _ e :: rest | .constDecl _ n _ e :: rest =>
    [n.name] ++ e.texts ++ n.repeated rest ++ Stmt.allTexts rest
  | s :: rest => s.texts ++ Stmt.allTexts rest

def Else.texts : Else → List Bytes
  | .absent => []
  | .final b => b.texts
  | .elseIf c b rest => c.texts ++ b.texts ++ rest.texts

def Stmt.texts : Stmt → List Bytes
  | .fnDecl f => f.texts
  | .letDecl _ n _ e | .constDecl _ n _ e => [n.name] ++ e.texts ++ [n.name]
  | .mapConst _ _ _ _ _ m | .mapDecl m => m.texts
  | .assetDecl _ n fields => [n.name] ++ fields.flatMap Parameter.texts
  | .traitDecl _ n fs => [n.name] ++ fs.flatMap Fn.signatureTexts
  | .ifStmt _ c b rest => c.texts ++ b.texts ++ rest.texts
  | .tryStmt _ b n handler => b.texts ++ [n.name] ++ handler.texts
  | .throwStmt _ e | .returnStmt _ (some e) | .exprStmt _ e => e.texts
  | .returnStmt _ none => []
  | .importDecl _ names _ => names.map Ident.name
  | .exportDecl _ s => s.texts

def Fn.texts : Fn → List Bytes
  | .mk _ _ _ _ _ none => []
  | .mk _ _ n ps _ (some b) => [n.name] ++ ps.flatMap Parameter.texts ++ b.texts

end

/-- The texts of a statement at the top level, where a variable is written with its type. -/
def Stmt.topTexts : Stmt → List Bytes
  | .exportDecl _ s => s.topTexts
  | .letDecl _ n t e => [n.name] ++ typeTexts (t.or (e.knownType [])) ++ e.texts
  | .constDecl _ n _ e => [n.name] ++ e.texts
  | s => s.texts

/-! ### Accounts -/

variable {target : Version} {w : Bytes}

def tally (target : Version) (w : Bytes) (texts : List Bytes) (os : List Occurrence) : Nat :=
  texts.count w + (marks target os).count w

@[simp] theorem marks_nil : marks target [] = [] :=
  rfl

@[simp] theorem marks_append (os os' : List Occurrence) :
    marks target (os ++ os') = marks target os ++ marks target os' :=
  filterMap_append

theorem marks_cons_none (h : o.mark? target = none) (os : List Occurrence) :
    marks target (o :: os) = marks target os :=
  filterMap_cons_none (by rw [h]; rfl)

theorem marks_cons_some (h : o.mark? target = some v)
    (os : List Occurrence) : marks target (o :: os) = [ofString v] ++ marks target os :=
  filterMap_cons_some (by rw [h]; rfl)

theorem Bytes.ofString_injective : Function.Injective ofString := by
  intro s t h
  exact String.toByteArray_inj.1 (ByteArray.ext (Array.toList_inj.1 h))

theorem count_word (hw : w.IsMark) (hv : v ∉ markWords) : [ofString v].count w = 0 := by
  obtain ⟨m, hm, rfl⟩ := hw
  have hne : ofString m ≠ ofString v := fun h => hv (Bytes.ofString_injective h ▸ hm)
  exact count_eq_zero.2 (by simpa using hne)

theorem Bytes.IsMark.head (hw : w.IsMark) : w.head? = some 98 ∨ w.head? = some 116 := by
  have hall : ∀ m ∈ markWords,
      (ofString m).head? = some 98 ∨ (ofString m).head? = some 116 := by
    decide
  obtain ⟨m, hm, rfl⟩ := hw
  exact hall m hm

theorem count_text (hw : w.IsMark) {b : UInt8} (hb : b ≠ 98 ∧ b ≠ 116) : [b :: t].count w = 0 := by
  have hne : w ≠ b :: t := by
    rintro rfl
    obtain h | h := hw.head
    · exact hb.1 (Option.some.inj h)
    · exact hb.2 (Option.some.inj h)
  exact count_eq_zero.2 (by simpa using hne)

abbrev Tallies (w : Bytes) (n : Nat) (f : Form) : Prop :=
  f.uses w = n

theorem usesAll_of_tallies (h : Forall₂ (Tallies w) ns fs) : usesAll w fs = ns.sum := by
  induction h with
  | nil => rfl
  | cons hf _ ih => rw [usesAll_cons, hf, ih, sum_cons]

theorem Yields.tallies_map {g : Form → Form}
    (h : Yields (Tallies w n) r) (hg : ∀ f, (g f).uses w = m + f.uses w) :
    Yields (Tallies w (m + n)) (g <$> r) :=
  h.map fun f hf => (hg f).trans (by rw [hf])

theorem Form.uses_applied (hw : w.IsMark) (hv : v ∉ markWords) (args : List Form) :
    (apply v args).uses w = usesAll w args := by
  rw [uses_apply, count_word hw hv, Nat.zero_add]

theorem Form.uses_stacked (hw : w.IsMark) (hv : v ∉ markWords) (head body : List Form) :
    (stack (atom v :: head) body).uses w = usesAll w head + usesAll w body := by
  rw [uses_stack, usesAll_cons, uses_atom, count_word hw hv, Nat.zero_add]

theorem Form.uses_sequence (hw : w.IsMark) (fs : List Form) :
    (sequence fs).uses w = usesAll w fs := by
  match fs with
  | [] => simp [sequence, unit]
  | [f] => rfl
  | f :: g :: fs => exact (uses_stacked hw (by simp) [] (f :: g :: fs)).trans (Nat.zero_add _)

mutual

theorem Ty.uses_form (hw : w.IsMark) : ∀ t : Ty, t.form.uses w = t.texts.count w
  | .named n => by
    rw [Ty.form, Ty.texts]
    split
    next h => simp [count_word hw, h]
    next => exact uses_atom w n.name
  | .list _ t | .optional _ t => by
    exact (uses_applied hw (by simp) _).trans (Ty.uses_form hw t)
  | .tuple _ fields => by
    rw [Ty.form, Ty.texts]
    exact (uses_applied hw (by simp) _).trans (Ty.uses_fieldForms hw fields)
  | .response _ ok err => by
    rw [Ty.form, Ty.texts, count_append, ← Ty.uses_form hw ok, ← Ty.uses_form hw err]
    exact uses_applied hw (by simp) _

theorem Ty.uses_fieldForms (hw : w.IsMark) : ∀ fields : List (Bytes × Ty),
    usesAll w (Ty.fieldForms fields) = (Ty.fieldTexts fields).count w
  | [] => by
    rfl
  | (key, t) :: fields => by
    rw [Ty.fieldForms, Ty.fieldTexts]
    simp only [usesAll_cons, uses_pair, Ty.uses_form hw t, Ty.uses_fieldForms hw fields,
      count_append]

end

theorem Ty.yields_uses_form? (hw : w.IsMark) (t : Option Ty) :
    Yields (Tallies w ((typeTexts t).count w)) (form? t) := by
  cases t with
  | none => exact .error
  | some t => exact .ok (uses_form hw t)

/-! ### Accounts of declarations -/

theorem yields_usesAll {α : Type} {g : α → Except Fault Form} {texts : α → List Bytes}
    (h : ∀ a, Yields (Tallies w ((texts a).count w)) (g a)) (as : List α) :
    Yields (fun fs => usesAll w fs = (as.flatMap texts).count w) (as.mapM g) := by
  induction as with
  | nil => exact .ok rfl
  | cons a as ih =>
    rw [mapM_cons, flatMap_cons, count_append]
    exact (h a).bind fun f hf => ih.bind fun fs hfs => .ok (by rw [usesAll_cons, hf, hfs])

theorem Parameter.yields_uses (hw : w.IsMark) (p : Parameter) :
    Yields (Tallies w (p.texts.count w)) p.form := by
  rw [form, texts, count_append]
  exact (Ty.yields_uses_form? hw p.type).bind fun f hf => .ok (by rw [Tallies, uses_pair, hf])

theorem MapShape.uses_form (hw : w.IsMark) (m : MapShape) : m.form.uses w = m.texts.count w := by
  refine (uses_applied hw (by simp) _).trans ?_
  simp only [texts, usesAll_cons, usesAll_nil, uses_atom, Ty.uses_form hw,
    count_append, Nat.add_assoc, Nat.add_zero]

theorem yields_uses_assetForm (hw : w.IsMark) (n : Ident) (fields : List Parameter) :
    Yields (Tallies w (([n.name] ++ fields.flatMap Parameter.texts).count w))
      (assetForm n fields) := by
  refine (yields_usesAll (Parameter.yields_uses hw) fields).bind fun fs hfs => .ok ?_
  rw [count_append, ← hfs, ← uses_atom]
  exact uses_applied hw (by simp) _

theorem Fn.yields_uses_signatureForm (hw : w.IsMark) (f : Fn) :
    Yields (Tallies w (f.signatureTexts.count w)) f.signatureForm := by
  rw [signatureForm, signatureTexts]
  refine (yields_usesAll (fun p => Ty.yields_uses_form? hw p.type) f.params).bind fun fs hfs => ?_
  refine (Ty.yields_uses_form? hw f.result).bind fun r hr => .ok ?_
  simp only [Tallies, uses_row, usesAll_cons, usesAll_nil, uses_atom, hfs, hr, count_append]
  omega

theorem yields_uses_traitForm (hw : w.IsMark) (n : Ident) (fs : List Fn) :
    Yields (Tallies w (([n.name] ++ fs.flatMap Fn.signatureTexts).count w)) (traitForm n fs) := by
  refine (yields_usesAll (Fn.yields_uses_signatureForm hw) fs).bind fun gs hgs => .ok ?_
  refine (uses_stacked hw (by simp) _ _).trans ?_
  simp only [usesAll_cons, usesAll_nil, uses_atom, uses_list,
    map_snd_items, hgs, count_append, Nat.add_zero]

theorem uses_useForm (hw : w.IsMark) (names : List Ident) (source : Bytes) :
    (useForm names source).uses w = (names.map Ident.name).count w := by
  have hcontract : [ofString "." ++ contractOf source].count w = 0 := count_text hw (by decide)
  have hnames : names.map (fun n => atom n.name) = (names.map Ident.name).map atom := by
    rw [map_map]
    rfl
  refine (uses_applied hw (by simp) _).trans ?_
  rw [hnames, usesAll_append, usesAll_atoms, usesAll_cons, uses_atom, hcontract]
  rfl

/-! ### Accounts of operators and literals -/

theorem Literal.uses_form (hw : w.IsMark) : ∀ v : Literal, v.form.uses w = v.texts.count w
  | .int _ | .float _ => uses_atom w _
  | .string _ => rfl
  | .bool true | .bool false => count_word hw (by simp)

section

variable (hw : w.IsMark)

include hw

theorem UnOp.yields_uses (op : UnOp) (f : Form) : Yields (Tallies w (f.uses w)) (op.form f) := by
  cases op with
  | not | neg => exact .ok (uses_applied hw (by simp) [f])
  | other => exact .error

/-- An operator writes its mark, and else a word that is none. -/
theorem BinOp.yields_uses (target : Version) (p : Pos) (op : BinOp) (l r : Form) :
    Yields (Tallies w (l.uses w + r.uses w +
      ((op.mark? target).toList.map ofString).count w)) (op.form target p l r) := by
  have hmark {v : String} :
      Yields (Tallies w (l.uses w + r.uses w + [ofString v].count w))
        (.ok (apply v [l, r])) :=
    .ok ((uses_apply w v [l, r]).trans (Nat.add_comm _ _))
  have hword {v : String} (hv : v ∉ markWords) :
      Yields (Tallies w (l.uses w + r.uses w + 0)) (.ok (apply v [l, r])) :=
    .ok (uses_applied hw hv [l, r])
  cases op <;>
    simp only [form, mark?, function?, isBitwise, Bool.false_and,
      Bool.true_and, Bool.false_eq_true, if_false, Option.toList_none, map_nil,
      count_nil]
  case bitAnd | bitOr | bitXor | shiftLeft | shiftRight =>
    cases target.isBefore bitwiseSince with
    | true => exact .error
    | false => exact hmark
  case ne =>
    -- an inequality is the negation of an equality
    have hnot := uses_applied hw (v := "not") (by simp) [apply "is-eq" [l, r]]
    exact .ok (hnot.trans (uses_applied hw (by simp) [l, r]))
  case other => exact .error
  all_goals exact hword (by simp)

theorem Ty.uses_testForm (t : Ty) (f : Form) :
    (t.testForm f).uses w = f.uses w + t.testTexts.count w := by
  have hnamed (n : Ident) : [ofString "is-" ++ n.name].count w = 0 := count_text hw (by decide)
  cases t with
  | named n =>
    rw [testForm, testTexts, uses_row, usesAll_cons, uses_atom, hnamed n, Nat.zero_add]
    rfl
  | _ =>
    have htest : [ofString "is-"].count w = 0 := count_word hw (by simp)
    simp only [testForm, testTexts, uses_list, map_cons, map_nil,
      usesAll_cons, usesAll_nil, uses_atom, htest, uses_form hw]
    omega

theorem Ty.count_texts_of_isNamed {t : Ty}
    (ht : t.isNamed v = true) (hv : v ∉ markWords) : t.texts.count w = 0 := by
  cases t with
  | named n =>
    have hn : n.name = ofString v := by simpa [isNamed] using ht
    rw [texts, hn]
    exact count_word hw hv
  | _ => cases ht

theorem Ty.uses_castForm (t : Ty) (known : Option Ty) (f : Form) : (t.castForm known f).uses w =
      f.uses w + t.texts.count w + ((t.mark? known).toList.map ofString).count w := by
  rw [castForm, mark?]
  split
  next h =>
    have ht := count_texts_of_isNamed hw (v := "int") (Bool.and_eq_true_iff.1 h).1
      (by simp)
    simp [ht, Nat.add_comm]
  next =>
  split
  next h =>
    have ht := count_texts_of_isNamed hw (v := "uint") (Bool.and_eq_true_iff.1 h).1
      (by simp)
    simp [ht, Nat.add_comm]
  next =>
    refine (uses_applied hw (by simp) _).trans ?_
    rw [usesAll_cons, uses_form hw]
    exact Nat.add_comm _ _

theorem uses_lambdaForm (params : List Bytes) (f : Form) :
    (lambdaForm params f).uses w = params.count w + f.uses w := by
  refine (uses_applied hw (by simp) _).trans ?_
  rw [usesAll_cons, uses_row, usesAll_atoms]
  rfl

theorem uses_letForm (n : Ident) (f : Form) (body : Option Form) : (letForm n f body).uses w =
      [n.name].count w + f.uses w + body.elim ([n.name].count w) (uses w) := by
  cases body <;> simp [letForm, count_word hw, Nat.add_assoc]

end

/-! ### Accounts of sections -/

theorem uses_plainOperand (hw : w.IsMark)
    (h : plainOperand? x e = some f) : f.uses w = e.operandTexts.count w := by
  have haddress (a : Bytes) : [ofString "'" ++ a].count w = 0 := count_text hw (by decide)
  cases e with
  | literal _ _ v =>
    cases h
    exact Literal.uses_form hw v
  | principal _ a =>
    cases h
    simpa [Expr.operandTexts] using haddress a
  | ident n =>
    simp only [plainOperand?] at h
    split at h
    · cases h
    · cases h
      exact uses_atom w n.name
  | _ => cases h

theorem marks_operand (tr : Trail) (h : isIterator x e = true ∨ (plainOperand? x e).isSome = true) :
    marks target (e.occurrences tr) = [] := by
  cases e with
  | ident | literal | principal =>
    rfl
  | _ => simp [isIterator, plainOperand?] at h

theorem exists_of_partialForm? (h : partialForm? x e = some f) :
    ∃ p op l r v, e = .binary p op l r ∧ op.isBitwise = false ∧ op.function? = some v ∧
      ∃ operand g, plainOperand? x operand = some g ∧ f = apply v [g] ∧
        e.sectionTexts x = operand.operandTexts ∧
        (isIterator x l = true ∨ (plainOperand? x l).isSome = true) ∧
        (isIterator x r = true ∨ (plainOperand? x r).isSome = true) := by
  cases e with
  | binary p op l r =>
    rw [partialForm?] at h
    split at h
    · cases h
    next hop =>
    obtain ⟨v, hv, h⟩ := Option.bind_eq_some_iff.1 h
    refine ⟨p, op, l, r, v, rfl, by simpa using hop, hv, ?_⟩
    split at h
    next hl =>
      obtain ⟨g, hg, rfl⟩ := Option.map_eq_some_iff.1 h
      have hl' := Bool.and_eq_true_iff.1 hl
      exact ⟨r, g, hg, rfl, if_pos hl, .inl hl'.1, .inr hl'.2⟩
    next hl =>
    split at h
    next hr =>
      obtain ⟨g, hg, rfl⟩ := Option.map_eq_some_iff.1 h
      exact ⟨l, g, hg, rfl, if_neg hl, .inr (by rw [hg]; rfl), .inl hr⟩
    next => cases h
  | _ => cases h

theorem BinOp.function?_not_mark {op : BinOp} (h : op.isBitwise = false)
    (hv : op.function? = some v) : v ∉ markWords := by
  cases op <;> cases h <;> cases hv <;> simp

theorem uses_section (target : Version) (hw : w.IsMark)
    (tr : Trail) (h : partialForm? x e = some f) :
    f.uses w = (e.sectionTexts x).count w ∧ marks target (e.occurrences tr) = [] := by
  obtain ⟨p, op, l, r, v, rfl, hop, hv, operand, g, hg, rfl, htexts, hl, hr⟩ :=
    exists_of_partialForm? h
  constructor
  · rw [htexts, uses_apply, count_word hw (BinOp.function?_not_mark hop hv),
      usesAll_cons, uses_plainOperand hw hg]
    simp
  · have hmark : Occurrence.mark? target ⟨tr, .binary p op l r⟩ = none := by
      simp [Occurrence.mark?, BinOp.mark?, hop]
    rw [Expr.occurrences, marks_cons_none hmark, marks_append, marks_operand tr hl,
      marks_operand tr hr]
    rfl

/-! ### Accounts of expressions and statements -/

@[simp] theorem tally_nil : tally target w [] [] = 0 :=
  rfl

@[simp] theorem tally_append (ts ts' : List Bytes) (os os' : List Occurrence) :
    tally target w (ts ++ ts') (os ++ os') = tally target w ts os + tally target w ts' os' := by
  simp only [tally, marks_append, count_append]
  omega

theorem tally_text (t : Bytes) (ts : List Bytes) (os : List Occurrence) :
    tally target w ([t] ++ ts) os = [t].count w + tally target w ts os := by
  simp only [tally, count_append, Nat.add_assoc]

theorem Yields.node {ts : List Bytes} {os : List Occurrence}
    (h : Occurrence.mark? target ⟨tr, e⟩ = none)
    (hr : Yields (Tallies w (tally target w ts os)) r) :
    Yields (Tallies w (tally target w ts (⟨tr, e⟩ :: os))) r := by
  rwa [tally, marks_cons_none h]

theorem tally_node (ts : List Bytes) (o : Occurrence) (os : List Occurrence) :
    tally target w ts (o :: os) =
      tally target w ts os + ((o.mark? target).toList.map ofString).count w := by
  cases h : o.mark? target with
  | none => rw [tally, marks_cons_none h, tally, Option.toList_none, map_nil, count_nil,
      Nat.add_zero]
  | some v =>
    rw [tally, marks_cons_some h, count_append, tally, Option.toList_some, map_singleton]
    omega

theorem sum_tally (tr : Trail) (es : List Expr) :
    (es.map fun e => tally target w e.texts (e.occurrences tr)).sum =
      tally target w (Expr.allTexts es) (Expr.allOccurrences tr es) := by
  induction es with
  | nil => rw [Expr.allTexts, Expr.allOccurrences]; rfl
  | cons e es ih => rw [map_cons, sum_cons, ih, Expr.allTexts, Expr.allOccurrences, tally_append]

theorem sum_assetArgs (function : Bytes) (ns : List Nat) :
    (assetArgs function ns).sum = ns.sum := by
  match ns with
  | [] | [_] | _ :: _ :: _ :: _ => rfl
  | [a, b] =>
    rw [assetArgs]
    split
    · simp [Nat.add_comm]
    · rfl

theorem Yields.usesAll_collect (h : Forall₂ (fun n r => Yields (Tallies w n) r) ns rs) :
    Yields (fun fs => usesAll w fs = ns.sum) (Covenant.collect rs) := by
  intro fs hfs
  exact usesAll_of_tallies (mapM h fs hfs)

theorem Expr.marks_call (tr : Trail) (p : Pos) (f : Expr) (args : List Expr) :
    marks target ((call p f args).occurrences tr) =
      marks target (f.occurrences tr) ++ marks target (allOccurrences tr args) := by
  cases f with
  | ident n => rfl
  | _ =>
    rw [← marks_append, occurrences.eq_def tr (.call ..)]
    exact marks_cons_none rfl _

theorem Expr.yields_uses_call {f : Expr} {args : List Expr} (hne : ∀ q e n, f ≠ .member q e n)
    (hf : Yields (Tallies w (tally target w f.texts (f.occurrences tr))) (f.form target tr.scope))
    (hargs : Forall₂ (fun n r => Yields (Tallies w n) r)
      (args.map fun e => tally target w e.texts (e.occurrences tr))
      (forms target tr.scope args)) :
    Yields (Tallies w (tally target w (call p f args).texts
      ((call p f args).occurrences tr))) ((call p f args).form target tr.scope) := by
  have htexts : (call p f args).texts = f.texts ++ allTexts args := by
    rw [texts]
    exact hne
  rw [tally, htexts, marks_call, ← marks_append, ← tally, tally_append, form]
  · refine (Yields.usesAll_collect hargs).bind fun fs hfs => hf.bind fun g hg => .ok ?_
    rw [Tallies, uses_row, usesAll_cons, hg, hfs, sum_tally]
  · exact hne

theorem Stmt.yields_uses_if (hw : w.IsMark) {c : Expr} {b : Block} {more : Else} {rest : List Stmt}
    (hc : Yields (Tallies w (tally target w c.texts (c.occurrences tr))) (c.form target tr.scope))
    (hb : Yields (Tallies w (tally target w b.texts (b.occurrences tr))) (b.form target tr.scope))
    (hmore : ∀ fallen : Except Fault Form, Yields (Tallies w n) fallen →
      Yields (Tallies w (tally target w more.texts (more.occurrences tr) +
        if more.isOpen then n else 0)) (more.form target tr.scope fallen))
    (hrest : Yields (fun fs => usesAll w fs = n) (forms target tr.scope rest)) :
    Yields (fun fs => usesAll w fs = tally target w (c.texts ++ b.texts ++ more.texts)
          (c.occurrences tr ++ b.occurrences tr ++ more.occurrences tr) + n)
      (forms target tr.scope (.ifStmt p c b more :: rest)) := by
  refine hc.bind fun g hg => hb.bind fun k hk => ?_
  cases hopen : more.isOpen with
  | true =>
    -- what follows is rendered as the last branch and counted there
    refine (hmore _ ?_).bind fun o ho => .ok ?_
    · cases rest with
      | nil => exact .error
      | cons s rest => exact hrest.map fun fs hfs => (uses_sequence hw fs).trans hfs
    · rw [hopen, if_pos rfl] at ho
      refine (congrArg (· + 0) (uses_stacked hw (by simp) [g] [k, o])).trans ?_
      simp only [usesAll_cons, usesAll_nil, tally_append, hg, hk, ho]
      omega
  | false =>
    refine (hmore _ .error).bind fun o ho => hrest.bind fun fs hfs => .ok ?_
    rw [hopen, if_neg Bool.false_ne_true] at ho
    rw [usesAll_cons, uses_stacked hw (v := "if") (by simp) [g] [k, o], hfs]
    simp only [usesAll_cons, usesAll_nil, tally_append, hg, hk, ho]
    omega

mutual

theorem Expr.yields_uses (hw : w.IsMark) (tr : Trail) : ∀ e : Expr,
    Yields (Tallies w (tally target w e.texts (e.occurrences tr))) (e.form target tr.scope)
  | .ident n => by
    exact .node rfl (.ok (uses_atom w n.name))
  | .literal _ _ v => by
    rw [Expr.form, Expr.texts, Expr.occurrences]
    exact .node rfl (.ok (Literal.uses_form hw v))
  | .principal _ address => by
    exact .node rfl (.ok ((uses_atom w _).trans (count_text hw (by decide))))
  | .noneLit _ => by
    rw [Expr.form, Expr.texts, Expr.occurrences]
    exact .node rfl (.ok ((uses_atom w _).trans (count_word hw (by simp))))
  | .someOf _ e => by
    exact .node rfl ((e.yields_uses hw tr).bind fun f hf =>
      .ok ((uses_applied hw (by simp) [f]).trans hf))
  | .list _ es => by
    rw [Expr.form, Expr.texts, Expr.occurrences]
    exact .node rfl ((Yields.usesAll_collect (Expr.yields_uses_forms hw tr es)).bind
      fun fs hfs => .ok ((uses_applied hw (by simp) fs).trans (hfs.trans (sum_tally tr es))))
  | .tuple _ fields => by
    exact .node rfl ((Expr.yields_uses_fieldForms hw tr fields).bind fun fs hfs =>
      .ok ((uses_applied hw (by simp) fs).trans hfs))
  | .binary p op l r => by
    rw [Expr.form, Expr.texts, Expr.occurrences, tally_node, tally_append]
    refine (l.yields_uses hw tr).bind fun f hf =>
      (r.yields_uses hw tr).bind fun g hg => ?_
    rw [← hf, ← hg]
    exact BinOp.yields_uses hw target p op f g
  | .unary _ op e => by
    rw [Expr.form, Expr.texts, Expr.occurrences]
    refine .node rfl ((e.yields_uses hw tr).bind fun f hf => ?_)
    rw [← hf]
    exact UnOp.yields_uses hw op f
  | .conditional _ c y n | .fold _ c y n => by
    rw [Expr.form, Expr.texts, Expr.occurrences]
    refine .node rfl ((c.yields_uses hw tr).bind fun f hf => (y.yields_uses hw tr).bind
      fun g hg => (n.yields_uses hw tr).bind fun k hk => .ok ?_)
    rw [tally_append, tally_append, ← hf, ← hg, ← hk, Nat.add_assoc]
    exact uses_applied hw (by simp) [f, g, k]
  | .map _ l f | .filter _ l f => by
    rw [Expr.form, Expr.texts, Expr.occurrences]
    refine .node rfl ((f.yields_uses hw tr).bind fun g hg => (l.yields_uses hw tr).bind
      fun k hk => .ok ?_)
    rw [tally_append, ← hg, ← hk, Nat.add_comm]
    exact uses_applied hw (by simp) [g, k]
  | .member _ e property => by
    rw [Expr.form, Expr.texts, Expr.occurrences]
    refine .node rfl ?_
    cases hchain : chainValue? e property with
    | some c =>
      -- the object of a chain value is a name, for which no mark is written either
      obtain ⟨n, rfl⟩ : ∃ n, e = .ident n := by
        cases e with
        | ident n => exact ⟨n, rfl⟩
        | _ => cases hchain
      exact .ok ((uses_atom w _).trans (count_word hw (by cases c <;> decide)))
    | none =>
      refine (e.yields_uses hw tr).bind fun f hf => .ok ?_
      rw [tally_text, ← hf, ← uses_atom]
      exact uses_applied hw (by simp) [_, f]
  | .call p f args => by
    have hf := Expr.yields_uses hw tr f
    have hargs := Expr.yields_uses_forms hw tr args
    cases f with
    | member q e property =>
      -- only the object is rendered; the member gives its name in another spelling
      have he := Expr.yields_uses hw tr e
      rw [Expr.form, Expr.texts, Expr.occurrences, Expr.occurrences]
      · refine .node rfl ((Yields.usesAll_collect hargs).bind fun fs hfs => he.bind
          fun g hg => .ok ?_)
        rw [Tallies, uses_row, usesAll_cons, usesAll_cons, uses_atom, hg, hfs,
          sum_tally, tally_append, tally_node, tally_text]
        exact (Nat.add_assoc _ _ _).symm
      · simp
    | _ => exact Expr.yields_uses_call (by simp) hf hargs
  | .contractCall _ contract function args => by
    rw [Expr.form, Expr.texts, Expr.occurrences]
    refine .node rfl ((Yields.usesAll_collect (Expr.yields_uses_forms hw tr args)).bind
      fun fs hfs => .ok ?_)
    have hcontract : [ofString "." ++ contract.name].count w = 0 := count_text hw (by decide)
    rw [tally_text, ← sum_tally, ← hfs]
    refine (uses_applied hw (by simp) _).trans ?_
    rw [usesAll_cons, usesAll_cons, uses_atom, uses_atom, hcontract, Nat.zero_add]
  | .assetCall _ asset function args => by
    rw [Expr.form, Expr.texts, Expr.occurrences]
    -- minting takes its arguments in the other order, which keeps the sum
    have hargs := assetArgs_forall₂ function (Expr.yields_uses_forms hw tr args)
    refine .node rfl ((Yields.usesAll_collect hargs).bind fun fs hfs => .ok ?_)
    have hfunction : [ofString "nft-" ++ hyphenated function ++ "?"].count w = 0 :=
      count_text hw (by decide)
    rw [sum_assetArgs] at hfs
    rw [tally_text, ← sum_tally, ← hfs, Tallies, uses_row, usesAll_cons,
      usesAll_cons, uses_atom, uses_atom, hfunction, Nat.zero_add]
  | .comprehension _ e x l none => by
    rw [Expr.form, Expr.texts, Expr.occurrences]
    refine .node rfl ((l.yields_uses hw tr).bind fun f hf =>
      (Expr.yields_uses hw (.iterator x l :: tr) e).bind fun g hg => .ok ?_)
    refine (uses_applied hw (by simp) _).trans ?_
    simp only [tally, count_append, marks_append, usesAll_cons, usesAll_nil,
      uses_lambdaForm hw] at hf hg ⊢
    omega
  | .comprehension _ e x l (some c) => by
    rw [Expr.form, Expr.texts, Expr.occurrences]
    refine .node rfl ((l.yields_uses hw tr).bind fun f hf =>
      (Expr.yields_uses hw (.iterator x l :: tr) c).bind fun g hg => ?_)
    have he := Expr.yields_uses hw (.iterator x l :: tr) e
    have hmap (k : Form) :
        (apply "map" [k, apply "filter" [lambdaForm [x.name] g, f]]).uses w =
          k.uses w + ([x.name].count w + g.uses w + f.uses w) := by
      refine (uses_applied hw (by simp) _).trans (congrArg (k.uses w + ·) ?_)
      refine (uses_applied hw (by simp) _).trans ?_
      rw [usesAll_cons, uses_lambdaForm hw]
      rfl
    cases hsection : partialForm? x.name e with
    | some k =>
      -- the element is not rendered itself, but then no mark would be written for it
      obtain ⟨hk, hmarks⟩ := uses_section target hw (.iterator x l :: tr) hsection
      refine .ok ((hmap k).trans ?_)
      simp only [tally, count_append, marks_append, hmarks, count_nil] at hf hg ⊢
      omega
    | none =>
      refine (he.tallies_map (uses_lambdaForm hw [x.name])).bind fun k hk =>
        .ok ((hmap k).trans ?_)
      simp only [tally, count_append, marks_append] at hf hg hk ⊢
      omega
  | .lambda _ ps body => by
    rw [Expr.form, Expr.texts, Expr.occurrences, ← Trail.scope_bindAll]
    have hparams : (row (ps.map fun p => atom p.name.name)).uses w =
        (ps.map fun p => p.name.name).count w := by
      rw [uses_row, ← usesAll_atoms, map_map]
      rfl
    refine .node rfl ?_
    have hbody := Body.yields_uses hw (tr.bindAll ps) (row (ps.map fun p => atom p.name.name)) body
    rwa [hparams, tally, ← Nat.add_assoc, ← count_append, ← tally] at hbody
  | .typeCheck _ e t => by
    rw [Expr.form, Expr.texts, Expr.occurrences]
    refine .node rfl ((e.yields_uses hw tr).bind fun f hf => .ok ?_)
    simp only [tally, count_append] at hf ⊢
    rw [Tallies, Ty.uses_testForm hw, hf]
    omega
  | .cast p e t => by
    rw [Expr.form, Expr.texts, Expr.occurrences, tally_node]
    refine (e.yields_uses hw tr).bind fun f hf => .ok ?_
    simp only [tally, count_append] at hf ⊢
    have hmark : Occurrence.mark? target ⟨tr, .cast p e t⟩ = t.mark? (e.knownType tr.scope) := rfl
    rw [Tallies, Ty.uses_castForm hw, hf, hmark]
    omega

theorem Expr.yields_uses_forms (hw : w.IsMark) (tr : Trail) : ∀ es : List Expr,
    Forall₂ (fun n r => Yields (Tallies w n) r)
      (es.map fun e => tally target w e.texts (e.occurrences tr)) (Expr.forms target tr.scope es)
  | [] => by
    rw [Expr.forms]
    exact .nil
  | e :: es => by
    rw [Expr.forms]
    exact .cons (e.yields_uses hw tr) (Expr.yields_uses_forms hw tr es)

theorem Expr.yields_uses_fieldForms (hw : w.IsMark) (tr : Trail) : ∀ fields : List (Bytes × Expr),
      Yields (fun fs => usesAll w fs =
          tally target w (Expr.fieldTexts fields) (Expr.fieldOccurrences tr fields))
        (collect (Expr.fieldForms target tr.scope fields))
  | [] => by
    rw [Expr.fieldForms, Expr.fieldTexts, Expr.fieldOccurrences]
    exact .ok rfl
  | (key, e) :: fields => by
    rw [Expr.fieldForms, Expr.fieldTexts, Expr.fieldOccurrences, tally_append, tally_text, collect,
      mapM_cons]
    have he := (e.yields_uses hw tr).tallies_map (uses_pair w key)
    exact he.bind fun f hf => (Expr.yields_uses_fieldForms hw tr fields).bind fun fs hfs =>
      .ok (by rw [usesAll_cons, hf, hfs])

theorem Body.yields_uses (hw : w.IsMark) (tr : Trail) (params : Form) : ∀ b : Body,
    Yields (Tallies w (params.uses w + tally target w b.texts (b.occurrences tr)))
      (b.form target tr.scope params)
  | .expr e => by
    rw [Body.form, Body.texts, Body.occurrences]
    exact (e.yields_uses hw tr).bind fun f hf =>
      .ok ((uses_applied hw (by simp) [params, f]).trans (by rw [← hf]; rfl))
  | .block b => by
    rw [Body.form, Body.texts, Body.occurrences]
    exact (b.yields_uses hw tr).bind fun f hf =>
      .ok ((uses_stacked hw (by simp) [params] [f]).trans (by rw [← hf]; rfl))

theorem Block.yields_uses (hw : w.IsMark) (tr : Trail) : ∀ b : Block,
    Yields (Tallies w (tally target w b.texts (b.occurrences tr))) (b.form target tr.scope)
  | .mk _ ss => by
    rw [Block.form, Block.texts, Block.occurrences]
    exact (Stmt.yields_uses_forms hw tr ss).bind fun fs hfs =>
      .ok ((uses_sequence hw fs).trans hfs)

theorem Stmt.yields_uses_forms (hw : w.IsMark) (tr : Trail) : ∀ ss : List Stmt,
    Yields (fun fs => usesAll w fs = tally target w (Stmt.allTexts ss) (Stmt.allOccurrences tr ss))
      (Stmt.forms target tr.scope ss)
  | [] => by
    rw [Stmt.forms, Stmt.allTexts, Stmt.allOccurrences]
    exact .ok rfl
  | s :: rest => by
    have hs := Stmt.yields_uses hw tr s
    have hrest := Stmt.yields_uses_forms hw (s.extend tr false) rest
    rw [Stmt.scope_extend] at hrest
    cases s with
    | letDecl p n t e | constDecl p n t e =>
      -- with nothing behind the binding its name is written once more
      rw [Stmt.forms.eq_def, Stmt.allTexts, Stmt.allOccurrences, Stmt.occurrences]
      refine (e.yields_uses hw tr).bind fun f hf => ?_
      cases rest with
      | nil =>
        refine .ok ?_
        simp only [tally, count_append, Stmt.allTexts, Stmt.allOccurrences, marks_append,
          usesAll_cons, usesAll_nil, uses_letForm hw, Ident.repeated, Option.elim] at hf ⊢
        rw [hf, marks_nil, count_nil]
        omega
      | cons s rest =>
        refine hrest.bind fun fs hfs => .ok ?_
        simp only [tally, count_append, marks_append, usesAll_cons, usesAll_nil,
          uses_letForm hw, uses_sequence hw, Ident.repeated, Option.elim] at hf hfs ⊢
        rw [hf, hfs, count_nil]
        omega
    | ifStmt p c b more =>
      have hif := Stmt.yields_uses_if hw (p := p) (c.yields_uses hw tr)
        (b.yields_uses hw tr) (fun fallen hfallen => more.yields_uses hw tr hfallen)
        hrest
      rw [← tally_append] at hif
      rwa [Stmt.allTexts, Stmt.allOccurrences, Stmt.texts, Stmt.occurrences, Stmt.extend]
      all_goals simp
    | _ =>
      rw [Stmt.forms.eq_def, Stmt.allTexts, Stmt.allOccurrences, tally_append]
      · exact hs.bind fun f hf => hrest.bind fun fs hfs => .ok (by rw [usesAll_cons, hf, hfs])
      all_goals simp

theorem Else.yields_uses (hw : w.IsMark) (tr : Trail) {fallen : Except Fault Form} {n : Nat}
    (hfallen : Yields (Tallies w n) fallen) : ∀ more : Else,
    Yields (Tallies w (tally target w more.texts (more.occurrences tr) +
      if more.isOpen then n else 0)) (more.form target tr.scope fallen)
  | .absent => by
    rw [Else.form, Else.texts, Else.occurrences, Else.isOpen, if_pos rfl, tally_nil, Nat.zero_add]
    exact hfallen
  | .final b => by
    rw [Else.form, Else.texts, Else.occurrences, Else.isOpen, if_neg Bool.false_ne_true]
    exact Block.yields_uses hw tr b
  | .elseIf c b rest => by
    rw [Else.form, Else.texts, Else.occurrences, Else.isOpen]
    refine (c.yields_uses hw tr).bind fun f hf => (b.yields_uses hw tr).bind
      fun g hg => (rest.yields_uses hw tr hfallen).bind fun k hk => .ok ?_
    refine (uses_stacked hw (by simp) [f] [g, k]).trans ?_
    simp only [usesAll_cons, usesAll_nil, tally_append, hf, hg, hk]
    omega

theorem Stmt.yields_uses (hw : w.IsMark) (tr : Trail) : ∀ s : Stmt,
    Yields (Tallies w (tally target w s.texts (s.occurrences tr))) (s.form target tr.scope)
  | .fnDecl f => by
    rw [Stmt.form, Stmt.texts, Stmt.occurrences]
    exact Fn.yields_uses hw tr false f
  | .letDecl _ n _ e | .constDecl _ n _ e => by
    rw [Stmt.form, Stmt.texts, Stmt.occurrences]
    refine (e.yields_uses hw tr).bind fun f hf => .ok ?_
    rw [Tallies, uses_letForm hw, hf]
    simp only [tally, count_append, Option.elim]
    omega
  | .mapConst _ _ _ _ _ m | .mapDecl m => by
    rw [Stmt.form, Stmt.texts, Stmt.occurrences]
    exact .ok (MapShape.uses_form hw m)
  | .assetDecl _ n fields => by
    rw [Stmt.form, Stmt.texts, Stmt.occurrences]
    exact yields_uses_assetForm hw n fields
  | .traitDecl _ n fs => by
    rw [Stmt.form, Stmt.texts, Stmt.occurrences]
    exact yields_uses_traitForm hw n fs
  | .ifStmt _ c b rest => by
    rw [Stmt.form, Stmt.texts, Stmt.occurrences]
    refine (c.yields_uses hw tr).bind fun f hf => (b.yields_uses hw tr).bind
      fun g hg => (Else.yields_uses hw tr (n := 0) .error rest).bind fun k hk => .ok ?_
    rw [ite_self] at hk
    refine (uses_stacked hw (by simp) [f] [g, k]).trans ?_
    simp only [usesAll_cons, usesAll_nil, tally_append, hf, hg, hk]
    omega
  | .tryStmt _ b n handler => by
    rw [Stmt.form, Stmt.texts, Stmt.occurrences]
    refine (b.yields_uses hw tr).bind fun f hf =>
      (Block.yields_uses hw (.caught n :: tr) handler).bind fun g hg => .ok ?_
    have hcatch := uses_applied hw (v := "catch") (by simp) [atom n.name, g]
    refine (uses_stacked hw (by simp) [] _).trans ?_
    simp only [tally, count_append, marks_append, usesAll_cons, usesAll_nil,
      uses_atom] at hf hg hcatch ⊢
    omega
  | .throwStmt _ e => by
    rw [Stmt.form, Stmt.texts, Stmt.occurrences]
    exact (e.yields_uses hw tr).bind fun f hf =>
      .ok ((uses_applied hw (by simp) [f]).trans hf)
  | .returnStmt _ (some e) | .exprStmt _ e => by
    rw [Stmt.form, Stmt.texts, Stmt.occurrences]
    exact Expr.yields_uses hw tr e
  | .returnStmt _ none => by
    rw [Stmt.form, Stmt.texts, Stmt.occurrences]
    exact .ok rfl
  | .importDecl _ names source => by
    rw [Stmt.form, Stmt.texts, Stmt.occurrences]
    exact .ok (uses_useForm hw names source)
  | .exportDecl _ s => by
    rw [Stmt.form, Stmt.texts, Stmt.occurrences]
    exact Stmt.yields_uses hw tr s

theorem Fn.yields_uses (hw : w.IsMark) (tr : Trail) (exported : Bool) : ∀ f : Fn,
    Yields (Tallies w (tally target w f.texts (f.occurrences tr))) (f.form target exported)
  | .mk _ _ _ _ _ none => by
    rw [Fn.form]
    exact .error
  | .mk p ds n ps r (some b) => by
    have hbody := Block.yields_uses hw (Trail.bindAll (.function :: tr) ps) b
    rw [Trail.scope_bindAll] at hbody
    rw [Fn.form, Fn.texts, Fn.occurrences]
    refine (yields_usesAll (Parameter.yields_uses hw) ps).bind fun fs hfs => hbody.bind
      fun f hf => .ok ?_
    have hhead (v : String) : [ofString "define-" ++ v].count w = 0 :=
      count_text hw (by decide)
    simp only [tally, count_append] at hf ⊢
    simp only [Tallies, uses_stack, uses_row, usesAll_cons, usesAll_nil, uses_atom, hhead, hfs, hf]
    omega

end

/-- **A mark stands in the code of a statement as often as the statement spells it and as its
operators and casts write it.** -/
theorem Stmt.yields_uses_topForm (hw : w.IsMark) : ∀ (s : Stmt) (exported : Bool),
    Yields (Tallies w (tally target w s.topTexts (s.occurrences []))) (s.topForm target exported)
  | .exportDecl _ s, _ => by
    exact yields_uses_topForm hw s true
  | .fnDecl f, exported => by
    exact Fn.yields_uses hw [] exported f
  | .letDecl _ n t e, _ => by
    rw [topForm, topTexts, occurrences, dataVariable]
    cases t.or (e.knownType []) with
    | none => exact .error
    | some t =>
      refine (Expr.yields_uses hw [] e).bind fun f hf => .ok ?_
      refine (uses_applied hw (by simp) _).trans ?_
      simp only [tally, count_append, typeTexts, Option.elim, usesAll_cons,
        usesAll_nil, uses_atom, Ty.uses_form hw] at hf ⊢
      omega
  | .constDecl _ n _ e, _ => by
    rw [topForm, topTexts, occurrences]
    refine (Expr.yields_uses hw [] e).bind fun f hf => .ok ?_
    rw [tally_text, ← hf, ← uses_atom]
    exact uses_applied hw (by simp) [_, f]
  | .mapConst .., _ | .mapDecl _, _ | .assetDecl .., _ | .traitDecl .., _ | .ifStmt .., _
  | .tryStmt .., _ | .throwStmt .., _ | .returnStmt .., _ | .exprStmt .., _
  | .importDecl .., _ => by
    exact yields_uses hw [] _

end Covenant
