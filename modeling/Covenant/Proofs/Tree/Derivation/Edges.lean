import Covenant.Proofs.Tree.Derivation.Source

/-!
# The edges of phrases

What the productions say of the tokens of a phrase as a whole: the parentheses that it opens are
closed within it, no statement begins with a semicolon, and an expression or a type does not end
with one.
-/

namespace Covenant

open List Token Phrase TokenKind

/-! ### Parentheses -/

/-- The kinds of tokens that a search for a closing parenthesis passes by. -/
def TokenKind.isNeutral (k : TokenKind) : Bool :=
  k ∉ [lparen, .rparen, .eof, .illegal]

variable {N : Phrase}

theorem Level.isNeutral_of_mem_operators (level : Level) (h : k ∈ level.operators) :
    k.isNeutral := by
  cases level <;> revert k <;> decide

namespace Token

/-- How many parentheses are open behind the tokens when `depth` are open before them.  There is no
answer when one of them closes nothing, and none over the end of input or an illegal token. -/
def depthAfter : (depth : Nat) → List Token → Option Nat
  | depth, [] => some depth
  | depth, t :: ts =>
    match t.kind with
    | .lparen => depthAfter (depth + 1) ts
    | .rparen => if depth = 0 then none else depthAfter (depth - 1) ts
    | .eof | .illegal => none
    | _ => depthAfter depth ts

@[simp]
theorem depthAfter_nil : depthAfter depth [] = some depth := by rw [depthAfter]

@[simp]
theorem depthAfter_append :
    depthAfter depth (w ++ v) = (depthAfter depth w).bind fun d => depthAfter d v := by
  induction w generalizing depth with
  | nil => simp
  | cons t w ih =>
    rw [cons_append, depthAfter, depthAfter]
    split
    · exact ih
    · split
      · rfl
      · exact ih
    · rfl
    · rfl
    · exact ih

theorem depthAfter_neutral (ht : t.kind.isNeutral = true) :
    depthAfter depth (t :: w) = depthAfter depth w := by
  rw [depthAfter]
  split <;> simp_all [isNeutral]

theorem depthAfter_close {close : TokenKind} (ht : t.kind = close)
    (hclose : close.isNeutral || close == .rparen) (depth : Nat) :
    depthAfter (depth + if close = .rparen then 1 else 0) [t] = some depth := by
  subst ht
  by_cases h : t.kind = .rparen
  · simp [depthAfter, h]
  · rw [if_neg h, Nat.add_zero, depthAfter_neutral (by simpa [h] using hclose), depthAfter_nil]

theorem closing_append (h : depthAfter depth w = some d) (rest : List Token) :
    Cursor.closing depth (w ++ rest) = Cursor.closing d rest := by
  fun_induction depthAfter depth w with
  | case1 depth =>
    cases h
    rfl
  | case2 depth t w hk ih =>
    rw [cons_append, Cursor.closing]
    simp only [hk]
    exact ih h
  | case3 t w hk => cases h
  | case4 depth t w hk hdepth ih =>
    rw [cons_append, Cursor.closing]
    simp only [hk]
    rw [if_neg hdepth]
    exact ih h
  | case5 depth t w hk | case6 depth t w hk => cases h
  | case7 depth t w hl hr he hi ih =>
    rw [cons_append, Cursor.closing]
    split
    · exact absurd ‹_› hl
    · exact absurd ‹_› hr
    · exact absurd ‹_› he
    · exact absurd ‹_› hi
    · exact ih h

/-- The halves of a shift are no parentheses. -/
theorem Split.depthAfter_eq (h : Split w v) : depthAfter depth v = depthAfter depth w := by
  induction h generalizing depth with
  | nil => rfl
  | keep t h ih =>
    rw [depthAfter, depthAfter]
    simp only [ih]
  | cut ht h ih =>
    rw [depthAfter_neutral (by rfl), depthAfter_neutral (by rfl), ih,
      depthAfter_neutral (by rw [ht]; rfl)]

end Token

/-- The number of parentheses that a phrase closes although they were opened before it. -/
def Phrase.opened : Phrase → Nat
  | separated close _ | tail _ close _ | delimited _ close _ => if close = .rparen then 1 else 0
  | _ => 0

/-- The marks of a phrase are no parentheses, but for the one that closes it. -/
def Phrase.isTame : Phrase → Bool
  | ending kinds => kinds.all (·.isNeutral)
  | optional mark N => mark.isNeutral && (N.isTame && N.opened == 0)
  | many N => N.isTame && N.opened == 0
  | separated close N => (close.isNeutral || close == .rparen) && (N.isTame && N.opened == 0)
  | tail separators close N | delimited separators close N =>
    separators.all (·.isNeutral) && (close.isNeutral || close == .rparen) &&
      (N.isTame && N.opened == 0)
  | _ => true

theorem Phrase.depthAfter_item
    (h : N.isTame = true → ∀ depth, depthAfter (depth + N.opened) w = some depth)
    (hN : (N.isTame && N.opened == 0) = true) (depth : Nat) : depthAfter depth w = some depth := by
  simp only [Bool.and_eq_true, beq_iff_eq] at hN
  simpa [hN.2] using h hN.1 depth

/-- A phrase closes the parentheses that it opens. -/
theorem Derives.depthAfter_eq (h : Derives N ts w)
    (hN : N.isTame) : ∀ depth, depthAfter (depth + N.opened) w = some depth := by
  induction h
  case present ht =>
    intro depth
    rw [depthAfter_neutral (all_eq_true.mp hN _ ht)]
    rfl
  case marked ht _ ih =>
    intro depth
    rw [isTame, Bool.and_eq_true] at hN
    rw [depthAfter_neutral (ht ▸ hN.1)]
    exact depthAfter_item ih hN.2 depth
  case cons _ _ ih ih' =>
    intro depth
    have hmore := ih' hN depth
    rw [depthAfter_append, depthAfter_item ih hN]
    exact hmore
  case last h ht ih =>
    intro depth
    rw [isTame, Bool.and_eq_true] at hN
    rw [depthAfter_append, depthAfter_item ih hN.2]
    exact depthAfter_close ht hN.1 depth
  case comma h ht hmore ih ih' =>
    intro depth
    have hmore := ih' hN depth
    rw [isTame, Bool.and_eq_true] at hN
    rw [depthAfter_append, depthAfter_item ih hN.2, Option.bind_some,
      depthAfter_neutral (by rw [ht]; rfl)]
    exact hmore
  case close ht | empty ht =>
    intro depth
    rw [isTame, Bool.and_eq_true, Bool.and_eq_true] at hN
    exact depthAfter_close ht hN.1.2 depth
  case closeBehind hs ht =>
    intro depth
    rw [isTame, Bool.and_eq_true, Bool.and_eq_true] at hN
    rw [depthAfter_neutral (all_eq_true.mp hN.1.1 _ hs)]
    exact depthAfter_close ht hN.1.2 depth
  case item hs _ _ ih ih' =>
    intro depth
    have hmore := ih' hN depth
    rw [isTame, Bool.and_eq_true, Bool.and_eq_true] at hN
    rw [depthAfter_neutral (all_eq_true.mp hN.1.1 _ hs), depthAfter_append, depthAfter_item ih hN.2]
    exact hmore
  case first ih ih' =>
    intro depth
    have hmore := ih' hN depth
    rw [isTame, Bool.and_eq_true, Bool.and_eq_true] at hN
    rw [depthAfter_append, depthAfter_item ih hN.2]
    exact hmore
  case operation _ _ _ level _ ht _ ih =>
    intro depth
    rw [depthAfter_neutral (level.isNeutral_of_mem_operators ht)]
    exact ih rfl depth
  -- in the other rules every kind of token is known
  case tupleItem hk hc _ ih =>
    obtain hk | hk := hk <;> simpa [depthAfter, opened, hk, hc] using ih rfl
  case sign ht _ ih => obtain ht | ht := ht <;> simpa [depthAfter, opened, ht] using ih rfl
  case literal ht =>
    simp only [literals, mem_cons, not_mem_nil, or_false] at ht
    obtain ht | ht | ht | ht | ht | ht | ht := ht <;> simp [depthAfter, opened, ht]
  all_goals simp [isTame, opened, isNeutral] at *
  all_goals simp [depthAfter, *]

/-- No parenthesis from outside is closed by the tokens of a source that parses. -/
theorem Tree.closing_parse {source : Bytes} (h : parse source = .ok t)
    (depth : Nat) : Cursor.closing depth (scan source) = none := by
  obtain ⟨p, stmts, ts, e, v, -, hscan, he, -, hsplit, hderives⟩ := derives_parse h
  have hdepth : depthAfter depth ts = some depth := by
    rw [← hsplit.depthAfter_eq]
    exact hderives.depthAfter_eq rfl depth
  rw [hscan, closing_append hdepth, Cursor.closing]
  simp only [he]

/-! ### First and last tokens -/

/-- The kinds of tokens that end neither a statement nor the input. -/
def TokenKind.isInner (k : TokenKind) : Bool :=
  k ≠ .semicolon && k ≠ .eof

theorem TokenKind.isInner_of_mem_literals (h : k ∈ literals) : k.isInner := by
  revert k
  decide

theorem Level.isInner_of_mem_operators (level : Level) (h : k ∈ level.operators) : k.isInner := by
  cases level <;> revert k <;> decide

namespace Token

def Opens (w : List Token) : Prop :=
  ∃ t v, w = t :: v ∧ t.kind.isInner

def Lands (w : List Token) : Prop :=
  ∀ t ∈ w.getLast?, t.kind.isInner

theorem opens_cons : Opens (t :: w) ↔ t.kind.isInner := by simp [Opens]

theorem Opens.append_right (h : Opens w) (v : List Token) : Opens (w ++ v) := by
  obtain ⟨t, u, rfl, ht⟩ := h
  exact ⟨t, u ++ v, rfl, ht⟩

theorem opens_append_cons (h : w = [] ∨ Opens w) (ht : t.kind.isInner) (v : List Token) :
    Opens (w ++ t :: v) := by
  obtain rfl | h := h
  · exact opens_cons.2 ht
  · exact h.append_right _

theorem lands_nil : Lands [] ↔ True := by simp [Lands]

theorem lands_singleton : Lands [t] ↔ t.kind.isInner := by simp [Lands]

theorem lands_append (hv : v ≠ []) : Lands (w ++ v) ↔ Lands v := by
  rw [Lands, Lands, getLast?_append_of_ne_nil _ hv]

theorem lands_cons (hv : v ≠ []) : Lands (t :: v) ↔ Lands v :=
  lands_append (w := [t]) hv

theorem Lands.append (hw : Lands w) (hv : Lands v) : Lands (w ++ v) := by
  by_cases h : v = []
  · rwa [h, append_nil]
  · exact (lands_append h).2 hv

theorem Lands.cons (ht : t.kind.isInner) (hv : Lands v) : Lands (t :: v) :=
  .append (lands_singleton.2 ht) hv

end Token

/-- Phrases that start with a token of their own, and sequences of them. -/
def Phrase.isSolid : Phrase → Bool
  | many N => N.isSolid
  | parameters _ | primary | suffixed | unary | binary _ | conditional | expression => true
  | decorator | statement => true
  | _ => false

def Phrase.isEmptiable : Phrase → Bool
  | many _ => true
  | _ => false

/-- An expression or a statement does not start with a semicolon. -/
theorem Derives.opens (h : Derives N ts w)
    (hN : N.isSolid) : N.isEmptiable ∧ w = [] ∨ Token.Opens w := by
  induction h
  case literal ht => exact .inr (opens_cons.2 (isInner_of_mem_literals ht))
  case sign ht _ _ => obtain ht | ht := ht <;> exact .inr (opens_cons.2 (by rw [ht]; rfl))
  case nil => exact .inl ⟨rfl, rfl⟩
  case cons _ _ ih ih' =>
    obtain ⟨-, rfl⟩ | h := ih hN
    · exact ih' hN
    · exact .inr (h.append_right _)
  case functionDecl hk _ _ _ _ ih _ _ _ | constantDecl hk _ _ _ _ ih _ _ _
  | assetDecl hk _ _ _ _ ih _ =>
    refine .inr (opens_append_cons ((ih rfl).imp_left And.right) ?_ _)
    rw [hk]
    rfl
  case lambda ih _ | suffixed ih _ | operations ih _ | conditional ih _ _ | assignment ih _
  | exprStmt ih _ =>
    exact .inr (((ih rfl).resolve_left fun h => absurd h.1 Bool.false_ne_true).append_right _)
  case bare ih | unsigned ih | operand ih | tighter ih | noChoice ih | noAssignment ih =>
    exact ih rfl
  -- the other phrases are not solid, or their first token is known
  all_goals first
    | exact absurd hN Bool.false_ne_true
    | exact .inr (opens_cons.2 (by simp [isInner, *]))

def Phrase.isClosed : Phrase → Bool
  | optional mark N => mark.isInner && N.isClosed
  | many N => N.isClosed
  | separated close _ | tail _ close _ | delimited _ close _ => close.isInner
  | ending _ | assetField | signature | statement => false
  | _ => true

theorem Derives.tail_ne_nil {close : TokenKind}
    (h : Derives (.tail separators close N) ts w) : w ≠ [] := by
  cases h <;> exact cons_ne_nil _ _

/-- An expression or a type does not end with a semicolon. -/
theorem Derives.lands (h : Derives N ts w) (hN : N.isClosed) : Token.Lands w := by
  induction h
  case item hs h hmore ih ih' =>
    rw [← cons_append, lands_append hmore.tail_ne_nil]
    exact ih' hN
  case first h hmore ih ih' =>
    rw [lands_append hmore.tail_ne_nil]
    exact ih' hN
  case literal ht => exact lands_singleton.2 (isInner_of_mem_literals ht)
  case operation _ _ _ level _ ht _ ih => exact .cons (level.isInner_of_mem_operators ht) (ih rfl)
  case tupleItem hk hc _ ih =>
    exact (lands_cons (cons_ne_nil _ _)).2 (.cons (by rw [hc]; rfl) (ih rfl))
  case sign ht _ ih => obtain ht | ht := ht <;> exact .cons (by rw [ht]; rfl) (ih rfl)
  -- in the other rules every kind of token is known
  all_goals try exact absurd hN Bool.false_ne_true
  all_goals simp only [isClosed, isInner, ne_eq, reduceCtorEq, not_false_eq_true,
    decide_true, Bool.and_self, Bool.and_eq_true, forall_const] at *
  all_goals simp [isInner, lands_nil, lands_cons, lands_append,
    Token.Lands.cons, Token.Lands.append, *]

end Covenant
