import Covenant.Proofs.Tree.Derivation.Edges
import Covenant.Proofs.Tree.Likeness.Grammar

/-!
# Runs with more input

A run of a parser is compared with one that has more tokens before it.  The first of them is stuck
on its last semicolon, where it sees the end of input and the second one does not; but a statement
that ends there looks no further.
-/

namespace Covenant

open List

/-! ### Cursors with more before them -/

namespace Token

def EndsOnSemicolon (w : List Token) : Prop :=
  w.getLast?.map (·.kind) = some .semicolon

theorem endsOnSemicolon_singleton : EndsOnSemicolon [t] ↔ t.kind = .semicolon := by
  simp [EndsOnSemicolon]

theorem endsOnSemicolon_cons (hw : w ≠ []) : EndsOnSemicolon (t :: w) ↔ EndsOnSemicolon w := by
  obtain ⟨u, v, rfl⟩ := exists_cons_of_ne_nil hw
  rw [EndsOnSemicolon, EndsOnSemicolon, getLast?_cons_cons]

theorem EndsOnSemicolon.ne_nil (h : EndsOnSemicolon (t :: w)) (ht : t.kind ≠ .semicolon) :
    w ≠ [] := by
  rintro rfl
  exact ht (endsOnSemicolon_singleton.1 h)

/-- Tokens that may stand behind a whole statement: they are legal, and close no parenthesis from
outside. -/
structure IsApart (more : List Token) : Prop where
  ne_nil : more ≠ []
  legal : ∀ t ∈ more, t.kind ≠ .illegal
  closing (depth : Nat) : Cursor.closing depth more = none

theorem isApart_scan {source : Bytes} {t : Tree} (h : Tree.parse source = .ok t) :
    IsApart (scan source) := by
  obtain ⟨p, stmts, ts, e, v, -, hscan, he, hts, -⟩ := Tree.derives_parse h
  refine ⟨?_, ?_, Tree.closing_parse h⟩
  · rw [hscan]
    exact append_ne_nil_of_right_ne_nil _ (cons_ne_nil _ _)
  · rw [hscan]
    refine forall_mem_append.2 ⟨fun u hu => (hts u hu).2, forall_mem_singleton.2 ?_⟩
    rw [he]
    exact TokenKind.noConfusion

theorem legal_of_like (hR : TokenLike R) {ts us : List Token} (h : Forall₂ R ts us)
    (hts : ∀ t ∈ ts, t.kind ≠ .illegal) : ∀ u ∈ us, u.kind ≠ .illegal := by
  induction h with
  | nil => exact forall_mem_nil _
  | cons htu _ ih =>
    obtain ⟨ht, hts⟩ := forall_mem_cons.1 hts
    exact forall_mem_cons.2 ⟨hR.kind htu ▸ ht, ih hts⟩

theorem IsApart.of_like (hR : TokenLike R) (h : IsApart more)
    (hmore : Forall₂ R more more') : IsApart more' where
  ne_nil := by
    rintro rfl
    cases hmore
    exact h.ne_nil rfl
  legal := legal_of_like hR hmore h.legal
  closing depth := by
    have hclosing := Cursor.Like.closing hR hmore depth
    rw [h.closing] at hclosing
    generalize Cursor.closing depth more' = x at hclosing
    cases hclosing
    rfl

end Token

open Token (EndsOnSemicolon IsApart)

namespace Cursor

/-- The second cursor stands before corresponding tokens, and `more` behind them; what the first
one has left ends with a semicolon. -/
structure Continues (R : Token → Token → Prop) (more : List Token) (c d : Cursor) : Prop where
  cur : R c.cur d.cur
  fault : c.fault = none ∧ d.fault = none
  ahead : ∃ ts us e, c.ahead = ts ++ [e] ∧ d.ahead = us ++ more ∧ Forall₂ R ts us ∧
    e.kind = .eof ∧ (∃ t, R e t) ∧ (∀ t ∈ ts, t.kind ≠ .illegal) ∧ EndsOnSemicolon (c.cur :: ts)

theorem cur_splitShift (c : Cursor) : c.splitShift.cur = c.cur := by
  unfold splitShift note
  split <;> rfl

def arrowAfter (depth : Nat) (ts : List Token) : Bool :=
  match closing depth ts with
  | some (t :: _) => t.kind = .arrow
  | _ => false

theorem arrowAfter_cons (depth : Nat) (t : Token) (ts : List Token) :
    arrowAfter depth (t :: ts) = match t.kind with
      | .lparen => arrowAfter (depth + 1) ts
      | .rparen => if depth = 0 then ts.head?.any (·.kind = .arrow) else arrowAfter (depth - 1) ts
      | .eof | .illegal => false
      | _ => arrowAfter depth ts := by
  unfold arrowAfter
  rw [closing]
  cases t.kind
  case rparen =>
    by_cases hdepth : depth = 0
    · simp only [if_pos hdepth]
      cases ts <;> rfl
    · simp only [if_neg hdepth]
  all_goals rfl

theorem arrowAfter_append (hR : TokenLike R) (hmore : IsApart more) {e : Token}
    (he : e.kind = .eof) {ts us : List Token} (h : Forall₂ R ts us)
    (hts : ts ≠ [] → EndsOnSemicolon ts) (depth : Nat) :
    arrowAfter depth (ts ++ [e]) = arrowAfter depth (us ++ more) := by
  induction h generalizing depth with
  | nil => simp [arrowAfter, hmore.closing, closing, he]
  | @cons t u ts us htu h ih =>
    have hlast := hts (cons_ne_nil _ _)
    have htail : ts ≠ [] → EndsOnSemicolon ts := fun hne =>
      (Token.endsOnSemicolon_cons hne).1 hlast
    rw [cons_append, cons_append, arrowAfter_cons, arrowAfter_cons, ← hR.kind htu]
    split
    · exact ih htail _
    · next hk =>
      split
      · cases h with
        | nil => exact absurd rfl (hlast.ne_nil (by simp [hk]))
        | cons htu' => simp [hR.kind htu']
      · exact ih htail _
    · rfl
    · rfl
    · exact ih htail _

namespace Continues

theorem exists_of_ne (h : Continues R more c d) (hc : c.cur.kind.isInner ∨ c.rest ≠ []) :
    ∃ ts us e, c.rest = ts ++ [e] ∧ d.rest = us ++ more ∧ R c.peek d.peek ∧
      Forall₂ R ts us ∧ e.kind = .eof ∧ (∃ t, R e t) ∧
      (∀ t ∈ ts, t.kind ≠ .illegal) ∧ EndsOnSemicolon (c.peek :: ts) := by
  obtain ⟨-, -, ts, us, e, hc', hd', hlike, he, hRe, hlegal, hend⟩ := h
  cases hlike with
  | nil =>
    obtain ⟨-, hrest⟩ := List.cons.inj hc'
    have hinner := hc.resolve_right (not_not_intro hrest)
    rw [Token.endsOnSemicolon_singleton.1 hend] at hinner
    cases hinner
  | cons htu hlike =>
    obtain ⟨rfl, hrest⟩ := List.cons.inj hc'
    obtain ⟨rfl, hrest'⟩ := List.cons.inj hd'
    exact ⟨_, _, e, hrest, hrest', htu, hlike, he, hRe, (forall_mem_cons.1 hlegal).2,
      (Token.endsOnSemicolon_cons (cons_ne_nil _ _)).1 hend⟩

section

variable (hR : TokenLike R) (hmore : IsApart more) (h : Continues R more c d)

include hR hmore h

theorem legal_next (hc : c.cur.kind.isInner ∨ c.rest ≠ []) :
    c.rest ≠ [] ∧ (c.rest.headD c.peek).kind ≠ .illegal ∧
      d.rest ≠ [] ∧ (d.rest.headD d.peek).kind ≠ .illegal := by
  have head {rest : List Token} (t : Token) (hne : rest ≠ [])
      (hlegal : ∀ t ∈ rest, t.kind ≠ .illegal) : (rest.headD t).kind ≠ .illegal := by
    obtain ⟨u, us, rfl⟩ := exists_cons_of_ne_nil hne
    exact hlegal u mem_cons_self
  obtain ⟨ts, us, e, hrest, hrest', hpeek, hlike, he, hRe, hlegal, hend⟩ := h.exists_of_ne hc
  have hne : ts ++ [e] ≠ [] := append_ne_nil_of_right_ne_nil _ (cons_ne_nil _ _)
  have hne' : us ++ more ≠ [] := append_ne_nil_of_right_ne_nil _ hmore.ne_nil
  rw [hrest, hrest']
  refine ⟨hne, head _ hne (forall_mem_append.2 ⟨hlegal, ?_⟩), hne', head _ hne'
    (forall_mem_append.2 ⟨Token.legal_of_like hR hlike hlegal, hmore.legal⟩)⟩
  exact forall_mem_singleton.2 (by simp [he])

theorem advance (hc : c.cur.kind.isInner ∨ c.rest ≠ []) : Continues R more c.advance d.advance := by
  obtain ⟨ts, us, e, hrest, hrest', hpeek, hlike, he, hRe, hlegal, hend⟩ := h.exists_of_ne hc
  obtain ⟨hne, hnext, hne', hnext'⟩ := h.legal_next hR hmore hc
  refine ⟨?_, ⟨fault_note_eq_none.2 ⟨h.fault.1, hnext⟩, fault_note_eq_none.2 ⟨h.fault.2, hnext'⟩⟩,
    ts, us, e, ?_, ?_, hlike, he, hRe, hlegal, ?_⟩
  · rwa [cur_advance, cur_advance]
  · rw [ahead_advance hne, hrest]
  · rw [ahead_advance hne', hrest']
  · rwa [cur_advance]

theorem splitShift (hk : c.peek.kind = .shiftRight) :
    Continues R more c.splitShift d.splitShift := by
  have hc : c.rest ≠ [] := by
    intro hnil
    obtain ⟨-, -, ts, us, e, hahead, -, -, he, -⟩ := h
    rw [Cursor.ahead, hnil] at hahead
    obtain ⟨-, hpeek⟩ := append_inj' (show [] ++ [c.peek] = ts ++ [e] from hahead) rfl
    rw [(List.cons.inj hpeek).1, he] at hk
    cases hk
  obtain ⟨ts, us, e, hrest, hrest', hpeek, hlike, he, hRe, hlegal, hend⟩ := h.exists_of_ne (.inr hc)
  obtain ⟨-, hnext, -, hnext'⟩ := h.legal_next hR hmore (.inr hc)
  have hts : ts ≠ [] := hend.ne_nil (by simp [hk])
  refine ⟨?_, ⟨fault_note_eq_none.2 ⟨h.fault.1, hnext⟩, fault_note_eq_none.2 ⟨h.fault.2, hnext'⟩⟩,
    c.peek.left :: c.peek.right :: ts, d.peek.left :: d.peek.right :: us, e, ?_, ?_,
    .cons (hR.greater _ _) (.cons (hR.greater _ _) hlike), he, hRe, ?_, ?_⟩
  · rw [cur_splitShift, cur_splitShift]
    exact h.cur
  · rw [ahead_splitShift, hrest]
    rfl
  · rw [ahead_splitShift, hrest']
    rfl
  · exact forall_mem_cons.2
      ⟨TokenKind.noConfusion, forall_mem_cons.2 ⟨TokenKind.noConfusion, hlegal⟩⟩
  · rw [Token.endsOnSemicolon_cons (cons_ne_nil _ _),
      Token.endsOnSemicolon_cons (cons_ne_nil _ _), Token.endsOnSemicolon_cons hts]
    exact (Token.endsOnSemicolon_cons hts).1 hend

theorem sees : c.Sees (fun f g => f.cause.code = g.cause.code) false d := by
  obtain ⟨-, ⟨hfault, hfault'⟩, ts, us, e, hc, hd, hlike, he, -, -, hend⟩ := h
  refine ⟨by rw [hfault, hfault']; exact .none, ⟨?_, nofun⟩, ?_⟩
  · have hlength := congrArg List.length hc
    have hlength' := congrArg List.length hd
    have hpos := length_pos_iff.2 hmore.ne_nil
    simp only [Cursor.ahead, length_cons, length_append, length_nil,
      ← hlike.length_eq] at hlength hlength'
    rw [bound, bound]
    omega
  · change arrowAfter 0 c.ahead = arrowAfter 0 d.ahead
    rw [hc, hd]
    exact arrowAfter_append hR hmore he hlike
      (fun hts => (Token.endsOnSemicolon_cons hts).1 hend) 0

end

end Continues

/-- The cursor has only the end of input before it, and stands on a semicolon or on the end. -/
def IsStuck (R : Token → Token → Prop) (c : Cursor) : Prop :=
  c.rest = [] ∧ c.peek.kind = .eof ∧ c.cur.kind.isInner = false ∧ (∃ t, R c.cur t) ∧ ∃ t, R c.peek t

theorem Continues.isStuck {c d : Cursor} (h : Continues R more c d)
    (hc : c.cur.kind.isInner = false) (hrest : c.rest = []) : IsStuck R c := by
  obtain ⟨hcur, -, ts, us, e, hahead, -, -, he, hRe, -⟩ := h
  rw [Cursor.ahead, hrest] at hahead
  obtain ⟨-, hpeek⟩ := append_inj' (show [] ++ [c.peek] = ts ++ [e] from hahead) rfl
  obtain rfl := (List.cons.inj hpeek).1
  exact ⟨hrest, he, hc, ⟨_, hcur⟩, hRe⟩

theorem Continues.inner_or_ne {c d : Cursor} (h : Continues R more c d)
    (hc : ¬ IsStuck R c) : c.cur.kind.isInner ∨ c.rest ≠ [] := by
  by_contra hnot
  obtain ⟨hinner, hrest⟩ := not_or.1 hnot
  exact hc (h.isStuck (by simpa using hinner) (not_not.1 hrest))

theorem IsStuck.advance {c : Cursor} (h : IsStuck R c) :
    IsStuck R c.advance ∧ c.advance.advance = c.advance := by
  obtain ⟨hrest, heof, -, -, hpeek⟩ := h
  have hadvance : c.advance = ⟨c.peek, c.peek, [], c.fault⟩ := by
    rw [Cursor.advance, hrest]
    exact if_neg (by simp [headD_nil, heof])
  rw [hadvance]
  refine ⟨⟨rfl, heof, by rw [heof]; rfl, hpeek, hpeek⟩, ?_⟩
  exact if_neg (by simp [headD_nil, heof])

end Cursor

/-- The comparison of a run with one that has more tokens before it. -/
def Simulation.ofContinuation (hR : TokenLike R) {more : List Token} (hmore : IsApart more) :
    Simulation where
  tokens := R
  cursors := Cursor.Continues R more
  faults f g := f.cause.code = g.cause.code
  isStuck := Cursor.IsStuck R
  strict := false
  like := hR.toTokenAlike
  cur h := h.cur
  sees h := h.sees hR hmore
  peek hc h := (h.exists_of_ne (h.inner_or_ne hc)).elim fun _ ⟨_, _, _, _, hpeek, _⟩ => hpeek
  advance hc h := h.advance hR hmore (h.inner_or_ne hc)
  splitShift hk h := h.splitShift hR hmore hk
  faultAt _ hcode := hcode
  faultBehind h _ := rel_getD (h.sees hR hmore).fault rfl
  lax _ := rfl
  stuck_cur hc := hc.2.2.2.1
  stuck_fault _ := rel_iff_map.2 rfl
  stuck_peek hc := ⟨hc.2.1, hc.2.2.2.2⟩
  stuck_advance hc := hc.advance

/-! ### Parsers that end within a statement -/

theorem Cursor.Eats.getLast? (h : Eats c w d) : (c.cur :: w).getLast? = some d.cur := by
  induction h with
  | refl c => rfl
  | @advance w d c h ih =>
    rw [getLast?_cons_cons, ← c.cur_advance]
    exact ih
  | @split w d c hk h ih => rwa [cur_splitShift] at ih

open Covenant.Parser (Ensures)

theorem Phrase.Covers.inner {N : Phrase} (h : N.Covers c ts d)
    (hN : N.isClosed) : d.cur.kind.isInner := by
  obtain ⟨w, hw, hderives⟩ := h
  exact hderives.lands hN _ hw.getLast?

theorem Phrase.Follows.inner {N : Phrase} (h : N.Follows c ts d)
    (hN : N.isClosed) (hc : c.cur.kind.isInner) : d.cur.kind.isInner := by
  obtain ⟨w, hw, hderives⟩ := h
  exact Token.Lands.cons hc (hderives.lands hN) _ hw.getLast?

/-- From within a statement the parser leads to a token within it. -/
def Parser.StaysInner {α : Type} (p : Parser α) : Prop :=
  ∀ c, c.cur.kind.isInner → Ensures p c fun _ d => d.cur.kind.isInner

/-- Wherever it starts, the parser leads to a token within a statement. -/
def Parser.EndsInner {α : Type} (p : Parser α) : Prop :=
  ∀ c, Ensures p c fun _ d => d.cur.kind.isInner

namespace Grammar.Sound

variable {g : Grammar} (hg : g.Sound)
include hg

theorem endsInner_block {β : Type} {k : Tree → Parser β} (hk : ∀ t, Parser.StaysInner (k t)) :
    Parser.EndsInner (discard (Parser.expect .lbrace) >>= fun _ =>
    Grammar.block g >>= k) := fun _ =>
  .pass fun hbrace => .andThen (block hg (by rwa [Cursor.cur_advance])) fun t d h =>
    hk t d (h.inner rfl)

theorem endsInner_functionDecl (ds : List Tree) : Parser.EndsInner (Grammar.functionDecl g ds) :=
  fun _ => .cur (.expect fun _ => .pass fun hparen =>
    .andThen (parameters hg (by rwa [Cursor.cur_advance]) true) fun _ _ _ =>
    .andThen (annotation? hg _) fun _ _ _ => endsInner_block hg (fun _ _ h => .pure h) _)

theorem endsInner_assetDecl (ds : List Tree) : Parser.EndsInner (Grammar.assetDecl g ds) := fun _ =>
  .cur (.expect fun _ => .pass fun _ => .andThen (.many (assetField? hg) _) fun _ d hd =>
    .advance (.pure (by rw [Cursor.cur_advance, hd.2.1]; rfl)))

theorem endsInner_traitDecl : Parser.EndsInner (Grammar.traitDecl g) := fun _ =>
  .cur (.expect fun _ => .pass fun _ => .andThen (.many (signature? hg) _) fun _ d hd =>
    .advance (.pure (by rw [Cursor.cur_advance, hd.2.1]; rfl)))

theorem endsInner_guarded : Parser.EndsInner (Grammar.guarded g) := fun _ =>
  .pass fun _ => .next hg.expression fun _ _ _ _ _ => .pass fun _ =>
    endsInner_block hg (fun _ _ h => .pure h) _

theorem staysInner_branchesWithin (fuel : Nat) :
    Parser.StaysInner (Grammar.branchesWithin g fuel) := by
  induction fuel with
  | zero => exact fun _ _ => .failUnexpected
  | succ fuel ih =>
    refine fun c hc => .ifPeek (fun _ => .advance (.ifPeek (fun _ => .advance ?_) fun _ => ?_))
      fun _ => .pure hc
    · exact .andThen (endsInner_guarded hg _) fun _ d hd => .andThen (ih d hd) fun _ _ h => .pure h
    · exact endsInner_block hg (fun _ _ h => .pure h) _

theorem endsInner_ifStmt : Parser.EndsInner (Grammar.ifStmt g) := fun _ =>
  .cur (.andThen (endsInner_guarded hg _) fun _ d hd => .get
    (.andThen (staysInner_branchesWithin hg _ d hd) fun _ _ h => .pure h))

theorem endsInner_tryStmt : Parser.EndsInner (Grammar.tryStmt g) := fun _ =>
  .cur (endsInner_block hg (fun _ _ _ => .pass fun _ => .pass fun _ => .expect fun _ =>
  .pass fun _ =>
    endsInner_block hg (fun _ _ h => .pure h) _) _)

end Grammar.Sound

namespace Parser

variable {α β γ δ : Type}

theorem Ensures.of_ok {c d : Cursor} {a : α} {Q : α → Cursor → Prop}
    (h : Ensures p c Q) (hp : p c = .ok (a, d)) : Q a d := by
  rw [Ensures, hp] at h
  exact h.1

theorem EndsInner.staysInner (h : EndsInner p) : StaysInner p :=
  fun c _ => h c

theorem endsInner_expect (hk : k.isInner) : EndsInner (expect k) := fun c =>
  (Ensures.token k).mono fun t d h => by
    obtain ⟨ht, rfl, rfl⟩ := h
    rwa [Cursor.cur_advance, ht]

theorem endsInner_pass (hk : k.isInner) : EndsInner (discard (expect k)) :=
  fun c => .andThen (endsInner_expect hk c) fun _ _ h => .pure h

end Parser

/-! ### Parsers that look at nothing behind the last semicolon -/

def Simulation.StopsBetween (S : Simulation) : Prop :=
  ∀ c, S.isStuck c → c.cur.kind.isInner = false

theorem Simulation.stopsBetween_ofContinuation (hR : TokenLike R)
    (hmore : IsApart more) : (ofContinuation hR hmore).StopsBetween :=
  fun _ hstuck => hstuck.2.2.1

namespace Parser

variable {α β γ δ : Type} {A : α → β → Prop} {B : γ → δ → Prop} {S : Simulation}

/-- When the first run can only get stuck between statements, and ends before the end of input, the
second one ends on the corresponding token. -/
def Firm (S : Simulation) (A : α → β → Prop) (p : Parser α) (q : Parser β) : Prop :=
  S.StopsBetween → ∀ ⦃c d : Cursor⦄ ⦃a : α⦄ ⦃c' : Cursor⦄, c.cur.kind.isInner → S.cursors c d →
    p c = .ok (a, c') → c'.cur.kind ≠ .eof → ∃ b d', q d = .ok (b, d') ∧ A a b ∧ S.cursors c' d'

theorem Like.exists_of_inner (h : Like S A p q)
    (hS : S.StopsBetween) {c d c' : Cursor} {a : α} (hc : c.cur.kind.isInner)
    (hcd : S.cursors c d) (hp : p c = .ok (a, c')) (hc' : c'.cur.kind.isInner) :
    ∃ b d', q d = .ok (b, d') ∧ A a b ∧ S.cursors c' d' := by
  have free {x : Cursor} (hx : x.cur.kind.isInner) : ¬ S.isStuck x := fun hstuck =>
    Bool.false_ne_true ((hS x hstuck).symm.trans hx)
  have hrun := h.run (free hc) hcd
  rw [hp] at hrun
  cases hq : q d with
  | error f =>
    rw [hq] at hrun
    exact absurd hrun.1 (free hc')
  | ok y =>
    rw [hq] at hrun
    obtain ⟨hab, hcursors⟩ | hstuck := hrun
    · exact ⟨y.1, y.2, rfl, hab, hcursors⟩
    · exact absurd hstuck.1 (free hc')

namespace Firm

variable {p : Parser α} {q : Parser β} {f : α → Parser γ} {g : β → Parser δ}

theorem of_endsInner (h : Like S A p q) (hp : EndsInner p) : Firm S A p q :=
  fun hS _ _ _ _ hc hcd hpc _ => h.exists_of_inner hS hc hcd hpc ((hp _).of_ok hpc)

theorem bind (h : Like S A p q)
    (hp : ∀ c a c₁ x, c.cur.kind.isInner → p c = .ok (a, c₁) → f a c₁ = .ok x → c₁.cur.kind.isInner)
    (hfg : ∀ a b, A a b → Firm S B (f a) (g b)) : Firm S B (p >>= f) (q >>= g) := by
  intro hS c d x c' hc hcd hpf hc'
  obtain ⟨⟨a, c₁⟩, hpc, hf⟩ := of_bind_eq_ok hpf
  have hc₁ := hp c a c₁ _ hc hpc hf
  obtain ⟨b, d₁, hq, hab, hcd₁⟩ := h.exists_of_inner hS hc hcd hpc hc₁
  obtain ⟨y, d', hg, hxy, hcd'⟩ := hfg a b hab hS hc₁ hcd₁ hf hc'
  refine ⟨y, d', ?_, hxy, hcd'⟩
  change q d >>= (fun x => g x.1 x.2) = _
  rw [hq]
  exact hg

theorem andThen (h : Like S A p q) (hp : StaysInner p)
    (hfg : ∀ a b, A a b → Firm S B (f a) (g b)) : Firm S B (p >>= f) (q >>= g) :=
  .bind h (fun _ _ _ _ hc hpc _ => (hp _ hc).of_ok hpc) hfg

theorem cur {f : Token → Parser γ} {g : Token → Parser δ}
    (hfg : ∀ t u, S.tokens t u → Firm S B (f t) (g u)) :
    Firm S B (Parser.cur >>= f) (Parser.cur >>= g) :=
  .andThen .cur (fun _ hc => ⟨hc, .refl _⟩) hfg

theorem peek {f : Token → Parser γ} {g : Token → Parser δ}
    (hfg : ∀ t u, S.tokens t u → Firm S B (f t) (g u)) :
    Firm S B (Parser.peek >>= f) (Parser.peek >>= g) :=
  .andThen .peek (fun _ hc => ⟨hc, .refl _⟩) hfg

theorem expect {k : TokenKind} (hk : k.isInner) {f : Token → Parser γ} {g : Token → Parser δ}
    (hfg : ∀ t u, S.tokens t u → Firm S B (f t) (g u)) :
    Firm S B (Parser.expect k >>= f) (Parser.expect k >>= g) :=
  .andThen (.expect k) (endsInner_expect hk).staysInner hfg

theorem pass {k : TokenKind} (hk : k.isInner) {f : Unit → Parser γ} {g : Unit → Parser δ}
    (hfg : Firm S B (f ()) (g ())) :
    Firm S B (discard (Parser.expect k) >>= f) (discard (Parser.expect k) >>= g) :=
  .andThen (.discard (.expect k)) (endsInner_pass hk).staysInner fun _ _ _ => hfg

section

variable (h : Parser.Like S A p q) (hp : EndsInner p) (hfg : ∀ a b, A a b → Firm S B (f a) (g b))

include h hp hfg

theorem next : Firm S B (advance >>= fun _ => p >>= f) (advance >>= fun _ => q >>= g) := by
  have hnext : Firm S B ((advance >>= fun _ => p) >>= f)
      ((advance >>= fun _ => q) >>= g) :=
    .andThen (.bind .advance fun _ _ _ => h) (fun c _ => .advance (hp _)) hfg
  rwa [bind_assoc, bind_assoc] at hnext

theorem next₂ : Firm S B (advance >>= fun _ => advance >>= fun _ => p >>= f)
      (advance >>= fun _ => advance >>= fun _ => q >>= g) := by
  have hnext : Firm S B (advance >>= fun _ => (advance >>= fun _ => p) >>= f)
      (advance >>= fun _ => (advance >>= fun _ => q) >>= g) :=
    .next (.bind .advance fun _ _ _ => h) (fun c => .advance (hp _)) hfg
  simpa only [bind_assoc] using hnext

end

theorem pure {a : α} {b : β} (h : A a b) : Firm S A (Pure.pure a) (Pure.pure b) := by
  rintro - c d _ _ - hcd ⟨⟩ -
  exact ⟨b, d, rfl, h, hcd⟩

theorem fail {f : Fault} : Firm S A (Parser.fail f) q := by rintro - _ _ _ _ _ _ ⟨⟩

theorem ite [Decidable P] [Decidable Q]
    (h : P ↔ Q) (hp : P → Firm S A p q) (hp' : ¬P → Firm S A p' q') :
    Firm S A (if P then p else p') (if Q then q else q') := by
  by_cases hP : P
  · rw [if_pos hP, if_pos (h.1 hP)]
    exact hp hP
  · rw [if_neg hP, if_neg (mt h.2 hP)]
    exact hp' hP

theorem last {a : α} {b : β} (h : A a b) : Firm S A (advance >>= fun _ => Pure.pure a)
      (advance >>= fun _ => Pure.pure b) := by
  rintro hS c d _ _ hc hcd ⟨⟩ -
  have hfree : ¬ S.isStuck c := fun hstuck =>
    Bool.false_ne_true ((hS c hstuck).symm.trans hc)
  exact ⟨b, d.advance, rfl, h, S.advance hfree hcd⟩

theorem semicolon {a : α} {b : β} (h : A a b) :
    Firm S A (optionalSemicolon >>= fun _ => Pure.pure a)
      (optionalSemicolon >>= fun _ => Pure.pure b) := by
  have hchoice : Firm S A
      (Parser.peek >>= fun t => if t.kind = .semicolon then advance >>= fun _ => Pure.pure a
        else Pure.pure a)
      (Parser.peek >>= fun t => if t.kind = .semicolon then advance >>= fun _ => Pure.pure b
        else Pure.pure b) :=
    .peek fun t u htu => .ite (by rw [S.like.kind htu]) (fun _ => .last h) fun _ => .pure h
  have heq {γ : Type} (x : γ) : (optionalSemicolon >>= fun _ => Pure.pure x : Parser γ) =
      Parser.peek >>= fun t => if t.kind = .semicolon then advance >>= fun _ => Pure.pure x
        else Pure.pure x := by
    funext c
    change ((if decide (c.peek.kind = .semicolon) = true then _ else _ : Parser Unit) >>=
      fun _ => Pure.pure x : Parser γ) c = (if c.peek.kind = .semicolon then _ else _ : Parser γ) c
    by_cases hk : c.peek.kind = .semicolon <;> simp only [hk, decide_true, decide_false] <;> rfl
  rwa [heq, heq]

end Firm

end Parser

/-! ### Statements -/

namespace Grammar.Like

variable {S : Simulation} {g h : Grammar} (hg : Like S g h) (hsound : g.Sound)

open Covenant.Parser (Firm)

include hg hsound

omit hg in
theorem endsInner_expression : Parser.EndsInner g.expression := fun c =>
  (hsound.expression c).mono fun _ _ h => h.inner rfl

theorem firm_binding (rule : Rule) (hrule : ∀ kids, rule.fits kids)
    (hds : Forall₂ S.trees ds ds') :
    Firm S S.trees (Grammar.binding g rule ds) (Grammar.binding h rule ds') := by
  refine .cur fun _ _ _ => .expect rfl fun _ _ hname => .andThen (annotation? hg)
    (fun c hc => (hsound.annotation? c).mono fun _ _ h => h.1.inner rfl hc) fun _ _ htype =>
    .andThen (.peekIs _) (fun _ hc => ⟨hc, .refl _⟩) fun _ _ hb =>
    .ite (by rw [hb]) (fun _ => ?_) fun _ => ?_
  · exact .next₂ hg.expression (endsInner_expression hsound) fun _ _ he =>
      .andThen (.pure (Forall₂.cons he .nil)) (fun _ hc => .pure hc) fun _ _ hvalue =>
      .semicolon (.node (hrule _) (rel_append (rel_append hds (.cons (.leaf hname) htype)) hvalue))
  · exact .andThen (.pure Forall₂.nil) (fun _ hc => .pure hc) fun _ _ hvalue =>
      .semicolon (.node (hrule _) (rel_append (rel_append hds (.cons (.leaf hname) htype)) hvalue))

theorem firm_mapDecl : Firm S S.trees (Grammar.mapDecl g) (Grammar.mapDecl h) := by
  have hname? : Parser.StaysInner Grammar.mapName? := fun c hc => by
    refine (Sound.mapName? c).mono fun x d hx => ?_
    cases x with
    | none => rwa [hx.1 rfl]
    | some n =>
      obtain ⟨-, colon, k, -, hk, hd⟩ := hx.2 n rfl
      obtain rfl : k = d.cur := Option.some.inj hd.getLast?
      rw [hk]
      rfl
  refine .cur fun _ _ _ => .andThen mapName? hname? fun early early' hearly => .pass rfl
    (.andThen (typeArguments hg)
      (fun c hc => (hsound.typeArguments c).mono fun _ _ h =>
      h.inner rfl hc) fun ts us htypes => ?_)
  refine .ite (by rw [htypes.length_eq]) (fun _ => ?_) fun _ => ?_
  · exact .cur fun _ _ ht => .bind (A := fun _ _ => False) (.fail (S.faultAt ht rfl))
      (fun _ _ _ _ _ hp => by cases hp) nofun
  cases hearly with
  | none =>
    exact .expect rfl fun _ _ hname =>
      .semicolon (.node trivial (rel_append htypes (.cons (.leaf hname) .nil)))
  | some hname =>
    exact .andThen (.pure hname) (fun _ hc => .pure hc) fun _ _ hname =>
      .semicolon (.node trivial (rel_append htypes (.cons (.leaf hname) .nil)))

omit hg hsound in
theorem firm_importDecl : Firm S S.trees Grammar.importDecl Grammar.importDecl := by
  have hnames : Parser.StaysInner (Parser.separated (Parser.expect .ident)
      (discard (Parser.expect .rbrace))) := fun c hc =>
    (Parser.Ensures.separated (N := .name) (f := fun t => [Tree.leaf t])
      (fun c => (Parser.Ensures.token _).mono fun t d ht => by
        obtain ⟨hk, rfl, rfl⟩ := ht
        exact ⟨_, .one c, .name hk⟩)
      (fun c => .closes _ c) c).mono fun _ _ h => h.inner rfl hc
  refine .cur fun _ _ _ => .pass rfl (.andThen
    (.separated (.expect _) (.discard (.expect _))) hnames
    fun ts us hts => .peek fun t u ht => ?_)
  have hleaves : Forall₂ S.trees (ts.map .leaf) (us.map .leaf) :=
    forall₂_map_left_iff.2 (forall₂_map_right_iff.2 (hts.imp fun _ _ => .leaf))
  exact .ite (Simulation.word_iff ht _) (fun _ => .next (.expect _) (Parser.endsInner_expect rfl)
    fun _ _ hsource =>
    .semicolon (.node trivial (rel_append hleaves (.cons (.leaf hsource) .nil))))
    fun _ => .fail

theorem firm_throwStmt : Firm S S.trees (Grammar.throwStmt g) (Grammar.throwStmt h) :=
  .cur fun _ _ _ => .next hg.expression (endsInner_expression hsound) fun _ _ he =>
    .semicolon (.node trivial (.cons he .nil))

theorem firm_returnStmt :
    Firm S S.trees (Grammar.returnStmt g) (Grammar.returnStmt h) := by
  refine .cur fun _ _ _ => .peek fun t u ht => ?_
  rw [← S.like.kind ht]
  generalize t.kind = k
  split
  · exact .last (.node trivial .nil)
  · exact .pure (.node trivial .nil)
  · exact .pure (.node trivial .nil)
  · exact .next hg.expression (endsInner_expression hsound) fun _ _ he =>
      .semicolon (.node trivial (.cons he .nil))

theorem firm_exprStmt : Firm S S.trees (Grammar.exprStmt g) (Grammar.exprStmt h) :=
  .cur fun _ _ _ => .andThen (expressionRule hg)
    (fun c _ => (hsound.expressionRule c).mono fun _ _ h => h.inner rfl) fun _ _ he =>
    .semicolon (.node trivial (.cons he .nil))

theorem firm_decorated : Firm S S.trees (Grammar.decorated g) (Grammar.decorated h) := by
  refine .bind (.many (decorator? hg)) (fun c ds c₁ x _ _ hf => ?_) fun ds ds' hds =>
    .cur fun t u ht => ?_
  · -- only a keyword may follow the decorators
    have hcur (f : Token → Parser Tree) : (Parser.cur >>= f) c₁ = f c₁.cur c₁ := rfl
    rw [hcur] at hf
    generalize c₁.cur.kind = k at hf ⊢
    split at hf
    · rfl
    · rfl
    · rfl
    · cases hf
  · rw [← S.like.kind ht]
    generalize t.kind = k
    split
    · exact .of_endsInner (functionDecl hg hds) (hsound.endsInner_functionDecl ds)
    · exact firm_binding hg hsound .constantDecl (fun _ => trivial) hds
    · exact .of_endsInner (assetDecl hg hds) (hsound.endsInner_assetDecl ds)
    · exact .fail

omit hg in
theorem inner_of_statement {c d : Cursor} (ht : g.statement c = .ok (t, d)) :
    c.cur.kind.isInner := by
  obtain ⟨w, -, hderives, -⟩ := hsound.exists_of_statement ht
  obtain ⟨hempty, -⟩ | hopens := hderives.opens rfl
  · cases hempty
  · exact Token.opens_cons.1 hopens

omit hg in
theorem firm_exportDecl (hstatement : Firm S S.trees g.statement h.statement) :
    Firm S S.trees (Grammar.exportDecl g) (Grammar.exportDecl h) := by
  intro hS c d t c' hc hcd hp hc'
  obtain ⟨⟨s, c₁⟩, hs, hpure⟩ :=
    of_bind_eq_ok (show (g.statement c.advance >>= fun x => _) = _ from hp)
  cases hpure
  have hfree : ¬ S.isStuck c := fun hstuck => Bool.false_ne_true ((hS c hstuck).symm.trans hc)
  obtain ⟨s', d', hs', hlike, hcd'⟩ := hstatement hS (inner_of_statement hsound hs)
    (S.advance hfree hcd) hs hc'
  refine ⟨.ofRule .exportDecl d.cur [s'], d', ?_, .node trivial (.cons hlike .nil), hcd'⟩
  change h.statement d.advance >>= (fun x => _) = _
  rw [hs']
  rfl

theorem firm_statementRule (hstatement : Firm S S.trees g.statement h.statement) :
    Firm S S.trees (Grammar.statementRule g) (Grammar.statementRule h) := by
  refine .cur fun t u ht => ?_
  have hother : Firm S S.trees
      (do
        let next := (← Parser.peek).kind
        if t.kind = .ident ∧ t.literal = Bytes.ofString "map" ∧ (next = .less ∨ next = .ident) then
          Grammar.mapDecl g
        else Grammar.exprStmt g)
      (do
        let next := (← Parser.peek).kind
        if u.kind = .ident ∧ u.literal = Bytes.ofString "map" ∧ (next = .less ∨ next = .ident) then
          Grammar.mapDecl h
        else Grammar.exprStmt h) := by
    refine .peek fun v w hvw => .ite ?_ (fun _ => firm_mapDecl hg hsound)
      fun _ => firm_exprStmt hg hsound
    rw [S.like.kind hvw, ← and_assoc, Simulation.word_iff ht, and_assoc]
  rw [← S.like.kind ht] at hother ⊢
  split
  · exact firm_decorated hg hsound
  · exact .of_endsInner (functionDecl hg .nil) (hsound.endsInner_functionDecl [])
  · exact firm_binding hg hsound .variableDecl (fun _ => trivial) .nil
  · exact firm_binding hg hsound .constantDecl (fun _ => trivial) .nil
  · exact .of_endsInner (assetDecl hg .nil) (hsound.endsInner_assetDecl [])
  · exact .of_endsInner (traitDecl hg) hsound.endsInner_traitDecl
  · exact .of_endsInner (ifStmt hg) hsound.endsInner_ifStmt
  · exact .of_endsInner (tryStmt hg) hsound.endsInner_tryStmt
  · exact firm_throwStmt hg hsound
  · exact firm_returnStmt hg hsound
  · exact firm_importDecl
  · exact firm_exportDecl hsound hstatement
  · exact hother

omit hg hsound in
/-- Statements look at nothing behind the semicolon that ends them. -/
theorem firm_statement (hdepth : Allows S.strict m n) :
    Firm S S.trees (Grammar.ofDepth m).statement (Grammar.ofDepth n).statement := by
  induction m generalizing n with
  | zero => rintro - _ _ _ _ _ _ ⟨⟩
  | succ m ih =>
    obtain ⟨n, rfl, hmn⟩ := hdepth.of_succ
    exact firm_statementRule (ofDepth hmn) (sound_ofDepth m) (ih hmn)

end Grammar.Like

end Covenant
