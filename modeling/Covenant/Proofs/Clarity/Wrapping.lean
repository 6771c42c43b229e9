import Covenant.Proofs.Clarity.Occurrence
import Covenant.Proofs.Clarity.Sequence
import Covenant.Proofs.Result

/-!
# What a block is made of

Rendering puts the statements of a block into each other: a binding takes what follows as its
body, a chain of conditionals without a last branch takes it as that branch, and the rest goes into
a `begin`.  Without these wrappers a block is a sequence of *pieces*: its conditions, the names and
values of its bindings, the names of what it catches, and its other statements.
-/

namespace Covenant

open List

open Form (atom apply stack unit sequence)

/-! ### Wrappers -/

mutual

/-- The form is made of the pieces, from left to right, and of wrappers around them.  A piece is
taken as it stands, whatever it looks like. -/
inductive Form.Wraps : Form → List Form → Prop
  | piece (f : Form) : Wraps f [f]
  /-- An empty block has no pieces. -/
  | empty : Wraps unit []
  | begin (h : WrapAll fs ps) : Wraps (stack [atom "begin"] fs) ps
  | branches (c : Form) (hyes : Wraps yes ps) (hno : Wraps no qs) :
    Wraps (stack [atom "if", c] [yes, no]) (c :: (ps ++ qs))
  | binding (n : Ident) (value : Form) (hbody : Wraps body ps) :
    Wraps (letForm n value (some body)) (atom n.name :: value :: ps)
  /-- The name that is repeated as the body is no piece of its own. -/
  | lastBinding (n : Ident) (value : Form) : Wraps (letForm n value none) [atom n.name, value]
  | attempt (n : Ident) (hbody : Wraps body ps) (hhandler : Wraps handler qs) :
    Wraps (stack [atom "try"] [body, apply "catch" [atom n.name, handler]])
      (ps ++ atom n.name :: qs)

/-- Forms one after the other are made of the pieces. -/
inductive Form.WrapAll : List Form → List Form → Prop
  | nil : WrapAll [] []
  | cons (hf : Wraps f ps) (hfs : WrapAll fs qs) : WrapAll (f :: fs) (ps ++ qs)

end

namespace Form

theorem WrapAll.singleton (h : Wraps f ps) : WrapAll [f] ps := by simpa using WrapAll.cons h .nil

theorem WrapAll.sequence (h : WrapAll fs ps) : Wraps (sequence fs) ps := by
  match fs, h with
  | [], .nil => exact .empty
  | [f], .cons hf .nil =>
    rw [append_nil]
    exact hf
  | _ :: _ :: _, h => exact .begin h

end Form

/-! ### Pieces -/

variable (target : Version) {rest : List Stmt} {rs : List (Except Fault Form)}

mutual

/-- The pieces of a block, each rendered in the scope where it stands. -/
def Block.pieces (sc : Scope) : Block → List (Except Fault Form)
  | .mk _ ss => Stmt.allPieces sc ss

def Stmt.allPieces (sc : Scope) : List Stmt → List (Except Fault Form)
  | [] => []
  | s :: ss => Stmt.pieces sc s ++ Stmt.allPieces (s.scopeAfter sc) ss

/-- The pieces of a statement.  One that is neither a binding, a conditional nor a `try` is itself a
piece. -/
def Stmt.pieces (sc : Scope) : Stmt → List (Except Fault Form)
  | .letDecl _ n _ e | .constDecl _ n _ e => [.ok (atom n.name), e.form target sc]
  | .ifStmt _ c b more => c.form target sc :: (Block.pieces sc b ++ Else.pieces sc more)
  | .tryStmt _ b n h => Block.pieces sc b ++ .ok (atom n.name) :: Block.pieces (sc.bind n none) h
  | .exportDecl _ s => Stmt.pieces sc s
  | s => [s.form target sc]

def Else.pieces (sc : Scope) : Else → List (Except Fault Form)
  | .absent => []
  | .final b => Block.pieces sc b
  | .elseIf c b rest => c.form target sc :: (Block.pieces sc b ++ Else.pieces sc rest)

end

/-! ### Blocks are made of their pieces -/

namespace Form

def MadeOf (pieces : List (Except Fault Form)) (f : Form) : Prop :=
  ∃ ps, pieces = ps.map .ok ∧ f.Wraps ps

def AllMadeOf (pieces : List (Except Fault Form)) (fs : List Form) : Prop :=
  ∃ ps, pieces = ps.map .ok ∧ WrapAll fs ps

theorem MadeOf.piece (h : r = .ok f) : MadeOf [r] f :=
  ⟨[f], by rw [h]; rfl, .piece f⟩

theorem MadeOf.branches (hc : r = .ok c) (hf : MadeOf rs f)
    (hg : MadeOf ss g) : MadeOf (r :: (rs ++ ss)) (stack [atom "if", c] [f, g]) := by
  obtain ⟨ps, rfl, hf⟩ := hf
  obtain ⟨qs, rfl, hg⟩ := hg
  exact ⟨c :: (ps ++ qs), by simp [hc], .branches c hf hg⟩

theorem MadeOf.attempt (n : Ident) (hf : MadeOf rs f) (hg : MadeOf ss g) :
    MadeOf (rs ++ .ok (atom n.name) :: ss)
      (stack [atom "try"] [f, apply "catch" [atom n.name, g]]) := by
  obtain ⟨ps, rfl, hf⟩ := hf
  obtain ⟨qs, rfl, hg⟩ := hg
  exact ⟨ps ++ atom n.name :: qs, by simp, .attempt n hf hg⟩

theorem MadeOf.lastBinding (n : Ident) (hf : r = .ok f) :
    MadeOf [.ok (atom n.name), r] (letForm n f none) :=
  ⟨[atom n.name, f], by rw [hf]; rfl, .lastBinding n f⟩

theorem MadeOf.cons (hf : MadeOf rs f) (hfs : AllMadeOf ss fs) :
    AllMadeOf (rs ++ ss) (f :: fs) := by
  obtain ⟨ps, rfl, hf⟩ := hf
  obtain ⟨qs, rfl, hfs⟩ := hfs
  exact ⟨ps ++ qs, by simp, .cons hf hfs⟩

theorem MadeOf.singleton (hf : MadeOf rs f) : AllMadeOf rs [f] := by
  obtain ⟨ps, rfl, hf⟩ := hf
  exact ⟨ps, rfl, .singleton hf⟩

theorem AllMadeOf.sequence (hfs : AllMadeOf rs fs) : MadeOf rs (sequence fs) := by
  obtain ⟨ps, rfl, hfs⟩ := hfs
  exact ⟨ps, rfl, hfs.sequence⟩

theorem AllMadeOf.binding {r : Except Fault Form} (n : Ident) (hf : r = .ok f)
    (hfs : AllMadeOf rs fs) :
    MadeOf (.ok (atom n.name) :: r :: rs) (letForm n f (some (Form.sequence fs))) := by
  obtain ⟨ps, rfl, hfs⟩ := hfs
  exact ⟨atom n.name :: f :: ps, by rw [hf]; rfl, .binding n f hfs.sequence⟩

end Form

open Form (MadeOf AllMadeOf)

variable {target}

theorem yields_self {α : Type} (r : Except Fault α) : Yields (fun a => r = .ok a) r :=
  fun _ h => h

theorem Stmt.madeOf_binding {t : Option Ty} {e : Expr}
    (hrest : Yields (AllMadeOf rs) (forms target (sc.bind n (t.or (e.knownType sc))) rest)) :
    Yields (AllMadeOf (.ok (atom n.name) :: e.form target sc :: rs))
      (forms target sc (.letDecl p n t e :: rest)) := by
  refine (yields_self _).bind fun value hvalue => ?_
  cases rest with
  | nil =>
    -- the name is repeated as the body, and there are no further pieces
    obtain ⟨ps, rfl, hps⟩ := hrest [] rfl
    cases hps
    exact .ok (Form.MadeOf.lastBinding n hvalue).singleton
  | cons s rest => exact hrest.bind fun fs hfs => .ok (hfs.binding n hvalue).singleton

theorem Stmt.madeOf_if {c : Expr} {b : Block} {more : Else}
    (hb : Yields (MadeOf bs) (b.form target sc))
    (hmore : ∀ (fallen : Except Fault Form) (rs : List (Except Fault Form)),
      Yields (MadeOf rs) fallen →
        Yields (MadeOf (ms ++ if more.isOpen then rs else [])) (more.form target sc fallen))
    (hrest : Yields (AllMadeOf rs) (forms target sc rest)) :
    Yields (AllMadeOf (c.form target sc :: (bs ++ ms) ++ rs))
      (forms target sc (.ifStmt p c b more :: rest)) := by
  refine (yields_self _).bind fun fc hc => hb.bind fun fb hfb => ?_
  cases hopen : more.isOpen with
  | true =>
    -- what follows is the innermost branch, so its pieces come after those of the whole chain
    rw [hopen] at hmore
    rw [cons_append, append_assoc]
    refine (hmore _ rs ?_).bind fun fo hfo => .ok (Form.MadeOf.branches hc hfb hfo).singleton
    cases rest with
    | nil => exact .error
    | cons s rest => exact hrest.map fun fs hfs => hfs.sequence
  | false =>
    have helse := hmore (.error ⟨.ifWithoutElse, p⟩) [] .error
    rw [ite_self, append_nil] at helse
    exact helse.bind fun fo hfo => hrest.bind fun fs hfs =>
      .ok ((Form.MadeOf.branches hc hfb hfo).cons hfs)

mutual

theorem Block.madeOf_form (target : Version) (sc : Scope) :
    ∀ b : Block, Yields (MadeOf (b.pieces target sc)) (b.form target sc)
  | .mk _ ss => by
    exact (Stmt.madeOf_forms target sc ss).bind fun fs hfs => .ok hfs.sequence

theorem Stmt.madeOf_forms (target : Version) (sc : Scope) :
    ∀ ss : List Stmt, Yields (AllMadeOf (Stmt.allPieces target sc ss)) (Stmt.forms target sc ss)
  | [] => by
    exact .ok ⟨[], rfl, .nil⟩
  | s :: rest => by
    have hs := Stmt.madeOf_form target sc s
    have hrest (sc : Scope) := Stmt.madeOf_forms target sc rest
    rw [Stmt.allPieces]
    cases s with
    | letDecl p n t e | constDecl p n t e =>
      exact Stmt.madeOf_binding (p := p) (hrest _)
    | ifStmt p c b more =>
      exact Stmt.madeOf_if (Block.madeOf_form target sc b)
        (fun _ _ hfallen => Else.madeOf_form target sc hfallen more) (hrest sc)
    | _ =>
      · exact hs.bind fun f hf => (hrest sc).bind fun fs hfs => .ok (hf.cons hfs)
      all_goals simp

theorem Else.madeOf_form (target : Version) (sc : Scope) {fallen : Except Fault Form}
    {rs : List (Except Fault Form)} (hfallen : Yields (MadeOf rs) fallen) :
    ∀ more : Else, Yields (MadeOf (more.pieces target sc ++ if more.isOpen then rs else []))
      (more.form target sc fallen)
  | .absent => by simpa [Else.pieces, Else.form, Else.isOpen] using hfallen
  | .final b => by simpa [Else.pieces, Else.form, Else.isOpen] using Block.madeOf_form target sc b
  | .elseIf c b rest => by
    rw [Else.pieces, Else.form, Else.isOpen, cons_append, append_assoc]
    exact (yields_self _).bind fun f hf => (Block.madeOf_form target sc b).bind fun g hg =>
      (Else.madeOf_form target sc hfallen rest).bind fun h hh => .ok (.branches hf hg hh)

theorem Stmt.madeOf_form (target : Version) (sc : Scope) :
    ∀ s : Stmt, Yields (MadeOf (s.pieces target sc)) (s.form target sc)
  | .letDecl _ n _ e | .constDecl _ n _ e => by
    exact (yields_self _).bind fun f hf => .ok (.lastBinding n hf)
  | .ifStmt p c b rest => by
    have hfallen : Yields (MadeOf []) (.error ⟨.ifWithoutElse, p⟩) := .error
    have helse := Else.madeOf_form target sc hfallen rest
    rw [ite_self, append_nil] at helse
    rw [Stmt.pieces, Stmt.form]
    exact (yields_self _).bind fun f hf => (Block.madeOf_form target sc b).bind fun g hg =>
      helse.bind fun h hh => .ok (.branches hf hg hh)
  | .tryStmt _ b n h => by
    exact (Block.madeOf_form target sc b).bind fun f hf =>
      (Block.madeOf_form target _ h).bind fun g hg => .ok (.attempt n hf hg)
  | .exportDecl _ s => by
    rw [Stmt.pieces, Stmt.form]
    exact Stmt.madeOf_form target sc s
  | .fnDecl _ | .mapConst .. | .mapDecl _ | .assetDecl .. | .traitDecl .. | .throwStmt ..
  | .returnStmt .. | .exprStmt .. | .importDecl .. => by
    exact fun f hf => .piece hf

end

/-- **Nothing is lost, repeated or moved in a block.**  When a block is rendered, so are all its
pieces, each in the scope where it stands; and the form is made of them, in the order of the source,
and of wrappers around them. -/
theorem Block.wraps_pieces {b : Block} {f : Form} (h : b.form target sc = .ok f) :
    ∃ ps, b.pieces target sc = ps.map .ok ∧ f.Wraps ps :=
  Block.madeOf_form target sc b f h

/-- A binding, a `try`, a chain without a last branch and one more binding, one after the other. -/
def mixedBlock : Block :=
  .mk {} [.exprStmt {} (.ofName "s"), .letDecl {} ⟨"n", {}⟩ none (.ofName "v"),
    .tryStmt {} (.mk {} [.exprStmt {} (.ofName "a")]) ⟨"e", {}⟩ (.mk {} []),
    .ifStmt {} (.ofName "c") (.mk {} [.exprStmt {} (.ofName "x")])
      (.elseIf (.ofName "d") (.mk {} []) .absent),
    .exprStmt {} (.ofName "r"), .constDecl {} ⟨"m", {}⟩ none (.ofName "w")]

theorem mixedBlock_wraps :
    ∃ f, mixedBlock.form Target.default [] = .ok f ∧
      f.Wraps (["s", "n", "v", "a", "e", "c", "x", "d", "r", "m", "w"].map fun n => atom n) := by
  obtain ⟨f, hf⟩ : ∃ f, mixedBlock.form Target.default [] = .ok f := ⟨_, rfl⟩
  obtain ⟨ps, hps, hwraps⟩ := Block.wraps_pieces hf
  have hmap : ps.map (Except.ok (ε := Fault)) =
      (["s", "n", "v", "a", "e", "c", "x", "d", "r", "m", "w"].map fun n => atom n).map .ok :=
    hps.symm.trans rfl
  rw [← map_injective_iff.2 (fun _ _ h => Except.ok.inj h) hmap]
  exact ⟨f, hf, hwraps⟩

end Covenant
