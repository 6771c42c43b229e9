import Covenant.Proofs.Result
import Covenant.Tree.Parse

/-!
# Likeness of parses

No parser looks at the place of a token, or at the contents of a string.  So token sequences that
differ in nothing else are both accepted or both refused, and give trees of one shape whose tokens
correspond.  A property of single tokens is the special case of a sequence and itself: what holds
of every token holds of every leaf.
-/

namespace Covenant

open List Parser

/-! ### Like results -/

/-- Both results are there and correspond, or both fail.  Failures that are compared strictly have
one code; otherwise one side may fail alone. -/
def Alike (strict : Bool) {α β : Type} (A : α → β → Prop) : Except Fault α → Except Fault β → Prop
  | .ok a, .ok b => A a b
  | .error f, .error g => strict = true → f.cause.code = g.cause.code
  | _, _ => strict = false

namespace Alike

variable {α β γ δ : Type}

theorem bind (h : Alike strict A x y) (hfg : ∀ a b, A a b → Alike strict B (f a) (g b)) :
    Alike strict B (x >>= f) (y >>= g) := by
  match x, y with
  | .ok a, .ok b => exact hfg a b h
  | .error _, .error _ => exact h
  | .ok a, .error e =>
    change Alike strict B (f a) (.error e)
    cases f a with
    | ok _ => exact h
    | error _ => exact fun hs => absurd (h.symm.trans hs) (by decide)
  | .error e, .ok b =>
    change Alike strict B (.error e) (g b)
    cases g b with
    | ok _ => exact h
    | error _ => exact fun hs => absurd (h.symm.trans hs) (by decide)

theorem mono (h : Alike strict A x y) (hA : ∀ a b, A a b → A' a b) : Alike strict A' x y := by
  match x, y with
  | .ok a, .ok b => exact hA a b h
  | .error _, .error _ | .ok _, .error _ | .error _, .ok _ => exact h

theorem map {f : α → γ} {g : β → δ} (h : Alike strict A x y) (hfg : ∀ a b, A a b → B (f a) (g b)) :
    Alike strict B (f <$> x) (g <$> y) := by
  match x, y with
  | .ok a, .ok b => exact hfg a b h
  | .error _, .error _ | .ok _, .error _ | .error _, .ok _ => exact h

theorem refuse [Decidable c] [Decidable c'] (hc : strict = true → (c ↔ c'))
    {f f' : Fault} (hf : f.cause.code = f'.cause.code) (h : Alike strict A x y) :
    Alike strict A (if c then .error f else x) (if c' then .error f' else y) := by
  cases strict with
  | true =>
    rw [if_congr (hc rfl) rfl rfl]
    split
    · exact fun _ => hf
    · exact h
  | false =>
    split <;> split
    · exact fun _ => hf
    · cases y with
      | ok _ => exact rfl
      | error _ => exact nofun
    · cases x with
      | ok _ => exact rfl
      | error _ => exact nofun
    · exact h

theorem mapM (hfg : ∀ a b, A a b → Alike strict B (f a) (g b))
    (h : Forall₂ A as bs) : Alike strict (Forall₂ B) (as.mapM f) (bs.mapM g) := by
  induction h with
  | nil => exact .nil
  | cons hab _ ih =>
    rw [mapM_cons, mapM_cons]
    exact (hfg _ _ hab).bind fun _ _ hx => ih.bind fun _ _ hxs => .cons hx hxs

theorem foldlM {f : γ → α → Except Fault γ} {g : δ → β → Except Fault δ}
    (hfg : ∀ x y a b, B x y → A a b → Alike strict B (f x a) (g y b))
    (h : Forall₂ A as bs) {x : γ} {y : δ} (hxy : B x y) :
    Alike strict B (as.foldlM f x) (bs.foldlM g y) := by
  induction h generalizing x y with
  | nil => exact hxy
  | cons hab _ ih =>
    exact (hfg _ _ _ _ hxy hab).bind fun _ _ hxy' => ih hxy'

theorem and_left (h : Alike strict A x y)
    {P : α → Prop} (hP : ∀ a, x = .ok a → P a) : Alike strict (fun a b => A a b ∧ P a) x y := by
  match x, y with
  | .ok a, .ok b => exact ⟨h, hP a rfl⟩
  | .error _, .error _ | .ok _, .error _ | .error _, .ok _ => exact h

end Alike

/-- A correspondence of tokens that no parser can tell from equality. -/
structure TokenAlike (R : Token → Token → Prop) : Prop where
  kind {t u : Token} (h : R t u) : t.kind = u.kind
  literal {t u : Token} (h : R t u) (hs : t.kind ≠ .string) : t.literal = u.literal

/-- Such a correspondence that does not ask for places. -/
structure TokenLike (R : Token → Token → Prop) : Prop extends TokenAlike R where
  /-- The halves of a `>>` correspond. -/
  greater (p q : Pos) : R ⟨.greater, ">", p⟩ ⟨.greater, ">", q⟩
  eof : R ⟨.eof, [], {}⟩ ⟨.eof, [], {}⟩

def Rule.fits : Rule → List Tree → Prop
  | .binary level, kids =>
    ∃ (first : Tree) (more : List (Tree × Tree)),
    kids = first :: more.flatMap (fun x => [x.1, x.2]) ∧
      ∀ x ∈ more, ∃ op, x.1 = .leaf op ∧ op.kind ∈ level.operators
  | .unary, kids => ∃ op e, kids = [.leaf op, e] ∧ (op.kind = .bang ∨ op.kind = .minus)
  | _, _ => True

/-- Two trees of one shape, with corresponding leaves. -/
inductive Tree.Like (R : Token → Token → Prop) : Tree → Tree → Prop
  | leaf (h : R t u) : Like R (.leaf t) (.leaf u)
  | node {rule : Rule} (hfits : rule.fits ts) (h : Forall₂ (Like R) ts us) :
    Like R (.node rule p ts) (.node rule q us)

/-- Two reading positions with corresponding tokens. -/
structure Cursor.Like (R : Token → Token → Prop) (c d : Cursor) : Prop where
  cur : R c.cur d.cur
  peek : R c.peek d.peek
  rest : Forall₂ R c.rest d.rest
  fault : c.fault.map (·.cause.code) = d.fault.map (·.cause.code)

/-! ### Cursors -/

theorem Token.pos_illegalFault (t : Token) : t.illegalFault.pos = t.pos := by
  rw [illegalFault]
  split
  · rfl
  · split <;> rfl

namespace Cursor

theorem code_illegalFault (hR : TokenAlike R) (h : R t u) (hk : t.kind = .illegal) :
    t.illegalFault.cause.code = u.illegalFault.cause.code := by
  have hl : t.literal = u.literal := hR.literal h (by rw [hk]; decide)
  rw [Token.illegalFault, Token.illegalFault, hl]
  split
  · rfl
  · split <;> rfl

theorem Like.note (hR : TokenLike R) (h : Like R c d) (ht : R t u) :
    Like R (c.note t) (d.note u) := by
  rw [Cursor.note, Cursor.note, ← hR.kind ht]
  split
  · next hk =>
    refine ⟨h.cur, h.peek, h.rest, ?_⟩
    have hcode := code_illegalFault hR.toTokenAlike ht hk
    have hfault := h.fault
    cases hc : c.fault <;> cases hd : d.fault <;> simp_all
  · exact h

theorem Like.next (h : Like R c d) : R (c.rest.headD c.peek) (d.rest.headD d.peek) := by
  obtain ⟨-, hpeek, hrest, -⟩ := h
  generalize c.rest = cs at hrest
  generalize d.rest = ds at hrest
  cases hrest with
  | nil => exact hpeek
  | cons hfirst => exact hfirst

theorem Like.tail (h : Forall₂ R ts us) : Forall₂ R ts.tail us.tail := by
  cases h with
  | nil => exact .nil
  | cons _ hrest => exact hrest

theorem Like.advance (hR : TokenLike R) (h : Like R c d) : Like R c.advance d.advance := by
  have hnext : Like R { c with cur := c.peek, peek := c.rest.headD c.peek, rest := c.rest.tail }
      { d with cur := d.peek, peek := d.rest.headD d.peek, rest := d.rest.tail } :=
    ⟨h.peek, h.next, Like.tail h.rest, h.fault⟩
  exact hnext.note hR h.next

theorem cur_advance (c : Cursor) : c.advance.cur = c.peek := by
  rw [advance, note]
  split <;> rfl

theorem Like.splitShift (hR : TokenLike R) (h : Like R c d) : Like R c.splitShift d.splitShift := by
  have hsplit (p p' q q' : Pos) :
      Like R { c with peek := ⟨.greater, ">", p⟩, rest := ⟨.greater, ">", p'⟩ :: c.rest }
        { d with peek := ⟨.greater, ">", q⟩, rest := ⟨.greater, ">", q'⟩ :: d.rest } :=
    ⟨h.cur, hR.greater _ _, .cons (hR.greater _ _) h.rest, h.fault⟩
  exact (hsplit _ _ _ _).note hR h.next

theorem Like.bound (h : Like R c d) : c.bound = d.bound := by
  rw [Cursor.bound, Cursor.bound, h.rest.length_eq]

theorem Like.closing (hR : TokenLike R) (h : Forall₂ R ts us) (depth : Nat) :
    Option.Rel (Forall₂ R) (Cursor.closing depth ts) (Cursor.closing depth us) := by
  induction h generalizing depth with
  | nil => exact .none
  | cons ht hrest ih =>
    rw [Cursor.closing, Cursor.closing, ← hR.kind ht]
    split
    · exact ih _
    · split
      · exact .some hrest
      · exact ih _
    · exact .none
    · exact .none
    · exact ih _

theorem Like.lambdaAhead (hR : TokenLike R) (h : Like R c d) : c.lambdaAhead = d.lambdaAhead := by
  have hclosing := closing hR (.cons h.peek h.rest) 0
  rw [Cursor.lambdaAhead, Cursor.lambdaAhead]
  generalize Cursor.closing 0 (c.peek :: c.rest) = x at hclosing
  generalize Cursor.closing 0 (d.peek :: d.rest) = y at hclosing
  cases hclosing with
  | none => rfl
  | some hts =>
    cases hts with
    | nil => rfl
    | cons ht => simp only [hR.kind ht]

theorem expect_of_kind (h : c.peek.kind = k) : expect k c = .ok (c.peek, c.advance) := by
  change (if decide (c.peek.kind = k) = true then _ else _ : Parser _) c = _
  rw [if_pos (decide_eq_true h), ← c.cur_advance]
  rfl

theorem expect_of_ne (h : c.peek.kind ≠ k) : expect k c = failExpecting k c := by
  change (if decide (c.peek.kind = k) = true then _ else _ : Parser _) c = _
  rw [if_neg (by simpa using h)]

end Cursor

/-! ### Comparing runs -/

/-- A bound that the second run may exceed, unless the runs are compared strictly. -/
structure Allows (strict : Bool) (m n : Nat) : Prop where
  le : m ≤ n
  eq : strict = true → m = n

theorem Allows.refl (strict : Bool) (n : Nat) : Allows strict n n :=
  ⟨Nat.le_refl n, fun _ => rfl⟩

theorem Allows.of_succ (h : Allows strict (m + 1) n) : ∃ k, n = k + 1 ∧ Allows strict m k := by
  obtain ⟨hle, heq⟩ := h
  cases n with
  | zero => omega
  | succ k => exact ⟨k, rfl, by omega, fun hs => Nat.succ.inj (heq hs)⟩

theorem Allows.of_zero (h : Allows strict 0 n) : n = 0 ∨ strict = false := by
  cases strict with
  | true => exact .inl (h.eq rfl).symm
  | false => exact .inr rfl

/-- What parsers learn of cursors as a whole. -/
structure Cursor.Sees (faults : Fault → Fault → Prop) (strict : Bool) (c d : Cursor) : Prop where
  fault : Option.Rel faults c.fault d.fault
  bound : Allows strict c.bound d.bound
  lambdaAhead : c.lambdaAhead = d.lambdaAhead

theorem rel_getD {R : α → α → Prop} (h : Option.Rel R x y) (hab : R a b) :
    R (x.getD a) (y.getD b) := by
  cases h with
  | none => exact hab
  | some h => exact h

theorem rel_iff_map {f : α → β} :
    Option.Rel (fun a b => f a = f b) x y ↔ x.map f = y.map f := by
  cases x <;> cases y <;> simp

/-- How two runs are compared: which tokens, cursors and faults correspond.  The first run may get
stuck where its input ends although that of the second goes on; nothing more is said of the second
run then. -/
structure Simulation where
  tokens : Token → Token → Prop
  cursors : Cursor → Cursor → Prop
  faults : Fault → Fault → Prop
  /-- The first run is at the end of what corresponds. -/
  isStuck : Cursor → Prop
  /-- Both runs fail, with faults that correspond, or neither does; otherwise the second may
  succeed alone. -/
  strict : Bool
  like : TokenAlike tokens
  cur {c d : Cursor} (h : cursors c d) : tokens c.cur d.cur
  sees {c d : Cursor} (h : cursors c d) : c.Sees faults strict d
  peek {c d : Cursor} (hc : ¬ isStuck c) (h : cursors c d) : tokens c.peek d.peek
  advance {c d : Cursor} (hc : ¬ isStuck c) (h : cursors c d) : cursors c.advance d.advance
  splitShift {c d : Cursor} (hk : c.peek.kind = .shiftRight) (h : cursors c d) :
    cursors c.splitShift d.splitShift
  faultAt {t u : Token} {x y : Cause} (h : tokens t u) (hcode : x.code = y.code) :
    faults ⟨x, t.pos⟩ ⟨y, u.pos⟩
  /-- The fault of a parser that expects another token. -/
  faultBehind {c d : Cursor} (h : cursors c d) (want : TokenKind) :
    faults (c.fault.getD ⟨.expected want.readable c.peek.display, c.cur.stop⟩)
      (d.fault.getD ⟨.expected want.readable d.peek.display, d.cur.stop⟩)
  lax {c : Cursor} (hc : isStuck c) : strict = false
  stuck_cur {c : Cursor} (hc : isStuck c) : ∃ t, tokens c.cur t
  stuck_fault {c : Cursor} (hc : isStuck c) : Option.Rel faults c.fault c.fault
  stuck_peek {c : Cursor} (hc : isStuck c) : c.peek.kind = .eof ∧ ∃ t, tokens c.peek t
  stuck_advance {c : Cursor} (hc : isStuck c) : isStuck c.advance ∧ c.advance.advance = c.advance

namespace Simulation

variable (S : Simulation) {α β γ δ : Type} {A : α → β → Prop} {B : γ → δ → Prop}

/-- Trees of corresponding tokens. -/
abbrev trees : Tree → Tree → Prop :=
  Tree.Like S.tokens

/-- The results of two runs correspond, unless the first run got stuck. -/
def Results (A : α → β → Prop) : Except Fault (α × Cursor) → Except Fault (β × Cursor) → Prop
  | .ok x, .ok y => A x.1 y.1 ∧ S.cursors x.2 y.2 ∨ S.isStuck x.2 ∧ ∃ b, A x.1 b
  | .ok x, .error _ => S.isStuck x.2 ∧ ∃ b, A x.1 b
  | .error f, .error g => S.strict = true → S.faults f g
  | .error _, .ok _ => S.strict = false

variable {S}

theorem word_iff (h : S.tokens t u) (w : Bytes) :
    (t.kind = .ident ∧ t.literal = w) ↔ (u.kind = .ident ∧ u.literal = w) := by
  rw [← S.like.kind h]
  exact and_congr_right fun hk => by rw [S.like.literal h (by rw [hk]; decide)]

theorem illegalFault (h : S.tokens t u) (hk : t.kind = .illegal) :
    S.faults t.illegalFault u.illegalFault := by
  have hfault := S.faultAt h (Cursor.code_illegalFault S.like h hk)
  rwa [← t.pos_illegalFault, ← u.pos_illegalFault] at hfault

theorem Results.of_stuck (hs : S.strict = false)
    (h : ∀ a c, x = .ok (a, c) → S.isStuck c ∧ ∃ b, A a b) (y : Except Fault (β × Cursor)) :
    S.Results A x y := by
  cases x with
  | error f =>
    cases y with
    | error g => exact fun hstrict => absurd (hs.symm.trans hstrict) Bool.false_ne_true
    | ok y => exact hs
  | ok x =>
    have hx := h x.1 x.2 rfl
    cases y with
    | error g => exact hx
    | ok y => exact .inr hx

end Simulation

/-- Parsers whose runs correspond.  From a stuck cursor the first one goes at most to the end. -/
structure Parser.Like (S : Simulation) {α β : Type} (A : α → β → Prop) (p : Parser α)
    (q : Parser β) : Prop where
  run {c d : Cursor} (hc : ¬ S.isStuck c) (h : S.cursors c d) : S.Results A (p c) (q d)
  stuck {c c' : Cursor} {a : α} (hc : S.isStuck c) (hp : p c = .ok (a, c')) :
    (c' = c ∨ c' = c.advance) ∧ ∃ b, A a b

/-! ### Combining parsers -/

namespace Parser.Like

variable {α β γ δ : Type} {A : α → β → Prop} {B : γ → δ → Prop} {p : Parser α} {q : Parser β}
    {n : Nat} {m : Nat} {close : Parser Unit}

theorem isStuck (h : Like S A p q)
    (hc : S.isStuck c) (hp : p c = .ok (a, c')) : S.isStuck c' ∧ ∃ b, A a b := by
  obtain ⟨rfl | rfl, hab⟩ := h.stuck hc hp
  · exact ⟨hc, hab⟩
  · exact ⟨(S.stuck_advance hc).1, hab⟩

theorem results (h : Like S A p q) (hcd : S.cursors c d) : S.Results A (p c) (q d) := by
  by_cases hc : S.isStuck c
  · exact .of_stuck (S.lax hc) (fun _ _ hp => h.isStuck hc hp) _
  · exact h.run hc hcd

theorem pure (h : A a b) : Like S A (Pure.pure a) (Pure.pure b) where
  run _ hcd := .inl ⟨h, hcd⟩
  stuck _ hp := by
    cases hp
    exact ⟨.inl rfl, b, h⟩

theorem rule {rule : Rule} {t u : Token}
    (h : Forall₂ S.trees ts us) (hfits : rule.fits ts) :
    Like S S.trees (Pure.pure (.ofRule rule t ts))
      (Pure.pure (.ofRule rule u us)) :=
  .pure (.node hfits h)

theorem bind (h : Like S A p q) (hfg : ∀ a b, A a b → Like S B (f a) (g b)) :
    Like S B (p >>= f) (q >>= g) where
  run {c d} hc hcd := by
    have hres := h.run hc hcd
    -- once the first run is stuck it stays so
    have hrest {a : α} {c' : Cursor} (ha : S.isStuck c' ∧ ∃ b, A a b)
        (y : Except Fault (δ × Cursor)) : S.Results B (f a c') y := by
      obtain ⟨hc', b, hab⟩ := ha
      exact .of_stuck (S.lax hc') (fun _ _ hp => (hfg a b hab).isStuck hc' hp) y
    change S.Results B (p c >>= fun x => f x.1 x.2) (q d >>= fun y => g y.1 y.2)
    cases hp : p c with
    | error e =>
      rw [hp] at hres
      cases hq : q d with
      | error e' =>
        rw [hq] at hres
        exact hres
      | ok y =>
        rw [hq] at hres
        exact .of_stuck hres (fun _ _ hx => by cases hx) _
    | ok x =>
      rw [hp] at hres
      cases hq : q d with
      | error e' =>
        rw [hq] at hres
        exact hrest hres _
      | ok y =>
        rw [hq] at hres
        obtain ⟨hab, hcursors⟩ | hstuck := hres
        · exact (hfg _ _ hab).results hcursors
        · exact hrest hstuck _
  stuck {c _ _} hc hp := by
    obtain ⟨⟨a, c₁⟩, hpc, hf⟩ := of_bind_eq_ok hp
    obtain ⟨rfl | rfl, b, hab⟩ := h.stuck hc hpc
    · exact (hfg _ _ hab).stuck hc hf
    · obtain ⟨hadvance, hfixed⟩ := S.stuck_advance hc
      obtain ⟨hc₂, hb⟩ := (hfg _ _ hab).stuck hadvance hf
      rw [hfixed, or_self] at hc₂
      exact ⟨.inr hc₂, hb⟩

theorem mono (h : Like S A p q) (hA : ∀ a b, A a b → A' a b) : Like S A' p q where
  run {c d} hc hcd := by
    have hres := h.run hc hcd
    have hex {a : α} : (∃ b, A a b) → ∃ b, A' a b := fun ⟨b, hab⟩ => ⟨b, hA _ _ hab⟩
    cases hp : p c <;> cases hq : q d <;> rw [hp, hq] at hres
    · exact hres
    · exact hres
    · exact ⟨hres.1, hex hres.2⟩
    · exact hres.imp (fun h => ⟨hA _ _ h.1, h.2⟩) fun h => ⟨h.1, hex h.2⟩
  stuck hc hp := by
    obtain ⟨hc', b, hab⟩ := h.stuck hc hp
    exact ⟨hc', b, hA _ _ hab⟩

theorem discard (h : Like S A p q) : Like S Eq (discard p) (discard q) :=
  .bind h fun _ _ _ => .pure rfl

theorem get : Like S (Cursor.Sees S.faults S.strict) MonadState.get MonadState.get where
  run _ hcd := .inl ⟨S.sees hcd, hcd⟩
  stuck {c _ _} hc hp := by
    cases hp
    exact ⟨.inl rfl, c, S.stuck_fault hc, .refl _ _, rfl⟩

theorem cur : Like S S.tokens cur cur where
  run _ hcd := .inl ⟨S.cur hcd, hcd⟩
  stuck hc hp := by
    cases hp
    exact ⟨.inl rfl, S.stuck_cur hc⟩

theorem peek : Like S S.tokens peek peek where
  run hc hcd := .inl ⟨S.peek hc hcd, hcd⟩
  stuck hc hp := by
    cases hp
    exact ⟨.inl rfl, (S.stuck_peek hc).2⟩

theorem advance : Like S Eq advance advance where
  run hc hcd := .inl ⟨rfl, S.advance hc hcd⟩
  stuck _ hp := by
    cases hp
    exact ⟨.inr rfl, _, rfl⟩

theorem start {A : α → α → Prop} (h : ∀ t u, Like S A (f t) (g u)) :
    Like S A (Parser.cur >>= f) (Parser.cur >>= g) :=
  .bind .cur fun t u _ => h t u

theorem skip (h : Like S A p q) : Like S A (do Parser.advance; p) (do Parser.advance; q) :=
  .bind .advance fun _ _ _ => h

theorem ofView (view : Cursor → Token)
    (hview : ∀ {c d}, ¬ S.isStuck c → S.cursors c d → S.tokens (view c) (view d))
    (hstuck : ∀ {c}, S.isStuck c → ∃ t, S.tokens (view c) t)
    (h : ∀ t u, S.tokens t u → ∃ p' q', (∀ c, view c = t → p c = p' c) ∧
      (∀ d, view d = u → q d = q' d) ∧ Like S A p' q') : Like S A p q where
  run {c d} hc hcd := by
    obtain ⟨p', q', hp, hq, hlike⟩ := h _ _ (hview hc hcd)
    rw [hp c rfl, hq d rfl]
    exact hlike.run hc hcd
  stuck {c _ _} hc hpc := by
    obtain ⟨u, hu⟩ := hstuck hc
    obtain ⟨p', q', hp, -, hlike⟩ := h _ _ hu
    rw [hp c rfl] at hpc
    exact hlike.stuck hc hpc

theorem fail (h : S.faults f g) : Like S A (fail f) (fail g) where
  run _ hcd _ := rel_getD (S.sees hcd).fault h
  stuck _ hp := by cases hp

theorem failUnexpected : Like S A failUnexpected failUnexpected :=
  .bind .cur fun _ _ h => .fail (S.faultAt h rfl)

theorem unexpected (hs : S.strict = false) (q : Parser β) : Like S A Parser.failUnexpected q where
  run _ _ := .of_stuck hs (fun _ _ hp => by cases hp) _
  stuck _ hp := by cases hp

theorem outOfFuel (h : Allows S.strict 0 n) {q : Nat → Parser β}
    (hq : q 0 = Parser.failUnexpected) : Like S A Parser.failUnexpected (q n) := by
  obtain rfl | hs := h.of_zero
  · rw [hq]
    exact .failUnexpected
  · exact .unexpected hs _

theorem ite [Decidable P] [Decidable Q]
    (h : P ↔ Q) (hp : P → Like S A p q) (hp' : ¬P → Like S A p' q') :
    Like S A (if P then p else p') (if Q then q else q') := by
  by_cases hP : P
  · rw [if_pos hP, if_pos (h.1 hP)]
    exact hp hP
  · rw [if_neg hP, if_neg (mt h.2 hP)]
    exact hp' hP

theorem curIs (k : TokenKind) : Like S Eq (curIs k) (curIs k) :=
  .bind .cur fun _ _ h => .pure (by rw [S.like.kind h])

theorem peekIs (k : TokenKind) : Like S Eq (peekIs k) (peekIs k) :=
  .bind .peek fun _ _ h => .pure (by rw [S.like.kind h])

theorem ifPeek (hp : Like S A p q) (hp' : Like S A p' q') :
    Like S A (do if ← Parser.peekIs k then p else p')
      (do if ← Parser.peekIs k then q else q') :=
  .bind (peekIs k) fun _ _ h => .ite (by rw [h]) (fun _ => hp) fun _ => hp'

theorem failExpecting (k : TokenKind) :
    Like S A (failExpecting k) (failExpecting k) where
  run _ hcd _ := S.faultBehind hcd k
  stuck _ hp := by cases hp

theorem expectKind (k : TokenKind) :
    Like S (fun t u => S.tokens t u ∧ t.kind = k) (Parser.expect k) (Parser.expect k) := by
  refine .ofView Cursor.peek S.peek (fun hc => (S.stuck_peek hc).2) fun t u htu => ?_
  by_cases hk : t.kind = k
  · refine ⟨Parser.advance >>= fun _ => Pure.pure t, Parser.advance >>= fun _ =>
      Pure.pure u, ?_, ?_,
      .skip (.pure ⟨htu, hk⟩)⟩
    · rintro c rfl
      exact Cursor.expect_of_kind hk
    · rintro d rfl
      exact Cursor.expect_of_kind (S.like.kind htu ▸ hk)
  · refine ⟨Parser.failExpecting k, Parser.failExpecting k, ?_, ?_, .failExpecting k⟩
    · rintro c rfl
      exact Cursor.expect_of_ne hk
    · rintro d rfl
      exact Cursor.expect_of_ne (S.like.kind htu ▸ hk)

theorem expect (k : TokenKind) : Like S S.tokens (expect k) (expect k) :=
  .mono (expectKind k) fun _ _ h => h.1

theorem pass (h : Like S A p q) : Like S A (do Functor.discard (Parser.expect k); p)
      (do Functor.discard (Parser.expect k); q) :=
  .bind (.discard (.expect k)) fun _ _ _ => h

theorem optionalSemicolon : Like S Eq optionalSemicolon optionalSemicolon :=
  .ifPeek .advance (.pure rfl)

theorem manyWithin {p : Parser (Option α)} {q : Parser (Option β)}
    (h : Like S (Option.Rel A) p q) (hfuel : Allows S.strict m n) :
    Like S (Forall₂ A) (manyWithin p m) (manyWithin q n) := by
  induction m generalizing n with
  | zero => exact .outOfFuel hfuel rfl
  | succ m ih =>
    obtain ⟨n, rfl, hmn⟩ := hfuel.of_succ
    refine .bind h fun x y hxy => ?_
    cases hxy with
    | none => exact .pure .nil
    | some hab => exact .bind (ih hmn) fun _ _ hmore => .pure (.cons hab hmore)

theorem many {p : Parser (Option α)} {q : Parser (Option β)}
    (h : Like S (Option.Rel A) p q) : Like S (Forall₂ A) (many p) (many q) :=
  .bind .get fun _ _ hcd => .manyWithin h hcd.bound

theorem separatedWithin (h : Like S A p q) (hclose : Like S Eq close close')
    (hfuel : Allows S.strict m n) : Like S (Forall₂ A) (separatedWithin p close m)
      (separatedWithin q close' n) := by
  induction m generalizing n with
  | zero => exact .outOfFuel hfuel rfl
  | succ m ih =>
    obtain ⟨n, rfl, hmn⟩ := hfuel.of_succ
    exact .bind h fun a b hab => .ifPeek
      (.skip <| .bind (ih hmn) fun _ _ hmore => .pure (.cons hab hmore))
      (.bind hclose fun _ _ _ => .pure (.cons hab .nil))

theorem separated (h : Like S A p q) (hclose : Like S Eq close close') :
    Like S (Forall₂ A) (separated p close) (separated q close') :=
  .bind .get fun _ _ hcd => .separatedWithin h hclose hcd.bound

section

variable (separators : List TokenKind) (close : TokenKind) (h : Parser.Like S A p q)

include h

theorem tailWithin (hfuel : Allows S.strict m n) :
    Like S (Forall₂ A) (tailWithin separators close p m)
      (tailWithin separators close q n) := by
  induction m generalizing n with
  | zero => exact .outOfFuel hfuel rfl
  | succ m ih =>
    obtain ⟨n, rfl, hmn⟩ := hfuel.of_succ
    refine .bind .peek fun t u htu => .ite (by rw [S.like.kind htu]) (fun _ => ?_) fun _ => ?_
    · exact .skip <| .ifPeek (.skip (.pure .nil))
        (.bind h fun _ _ hab => .bind (ih hmn) fun _ _ hmore => .pure (.cons hab hmore))
    · exact .pass (.pure .nil)

theorem tail : Like S (Forall₂ A) (tail separators close p) (tail separators close q) :=
  .bind .get fun _ _ hcd => .tailWithin separators close h hcd.bound

theorem delimited : Like S (Forall₂ A) (Parser.delimited separators close p)
      (Parser.delimited separators close q) :=
  .ifPeek (.skip (.pure .nil))
    (.bind h fun _ _ hab => .bind (.tail separators close h) fun _ _ hmore =>
      .pure (.cons hab hmore))

end

end Parser.Like

/-! ### Runs on corresponding tokens -/

/-- The comparison of runs on token sequences that correspond to their ends. -/
def Simulation.ofTokens {R : Token → Token → Prop} (hR : TokenLike R) (strict : Bool) :
    Simulation where
  tokens := R
  cursors := Cursor.Like R
  faults f g := f.cause.code = g.cause.code
  isStuck _ := False
  strict := strict
  like := hR.toTokenAlike
  cur h := h.cur
  sees h := ⟨rel_iff_map.2 h.fault, h.bound ▸ .refl _ _, h.lambdaAhead hR⟩
  peek _ h := h.peek
  advance _ h := h.advance hR
  splitShift _ h := h.splitShift hR
  faultAt _ hcode := hcode
  faultBehind h _ := rel_getD (rel_iff_map.2 h.fault) rfl
  lax := False.elim
  stuck_cur := False.elim
  stuck_fault := False.elim
  stuck_peek := False.elim
  stuck_advance := False.elim

end Covenant
