import Covenant.Proofs.Token.Progress
import Covenant.Proofs.Tree.Derivation.Grammar

/-!
# Whole sources follow the grammar

A source that parses is derived by the grammar to its last token.  The statements are read one
after the other until the end of input is under the cursor; the bound on their number is never met,
because each of them takes a token.
-/

namespace Covenant

open List Cursor Token TokenKind

/-! ### The end of input -/

def Phrase.marks : Phrase → List TokenKind
  | ending kinds => kinds
  | optional mark N => mark :: N.marks
  | many N => N.marks
  | separated close N => close :: N.marks
  | tail separators close N => separators ++ close :: N.marks
  | delimited separators close N => separators ++ close :: N.marks
  | _ => []

theorem Level.eof_not_mem_operators (level : Level) : eof ∉ level.operators := by
  cases level <;> decide

def Token.EndFree (w : List Token) : Prop :=
  ∀ t ∈ w, t.kind ≠ .eof

@[grind =]
theorem Token.endFree_nil : EndFree [] ↔ True :=
  iff_true_intro (forall_mem_nil _)

@[grind =]
theorem Token.endFree_cons : EndFree (t :: w) ↔ t.kind ≠ .eof ∧ EndFree w :=
  forall_mem_cons

@[grind =]
theorem Token.endFree_append : EndFree (v ++ w) ↔ EndFree v ∧ EndFree w :=
  forall_mem_append

theorem Derives.endFree (h : Derives N ts w) (hN : eof ∉ N.marks) : Token.EndFree w := by
  have hlevel := Level.eof_not_mem_operators
  induction h
  all_goals try simp only [endFree_nil, endFree_cons, endFree_append]
  all_goals grind [Phrase.marks, literals]

/-! ### Cutting shifts -/

namespace Token

def left (t : Token) : Token :=
  ⟨.greater, ">", t.pos⟩

def right (t : Token) : Token :=
  ⟨.greater, ">", t.pos.next⟩

/-- The second tokens are the first ones, with some shifts cut in two. -/
inductive Split : List Token → List Token → Prop
  | nil : Split [] []
  | keep (t : Token) (h : Split ts us) : Split (t :: ts) (t :: us)
  | cut {t : Token} (ht : t.kind = .shiftRight) (h : Split ts us) :
    Split (t :: ts) (t.left :: t.right :: us)

namespace Split

theorem refl (ts : List Token) : Split ts ts := by
  induction ts with
  | nil => exact .nil
  | cons t ts ih => exact .keep t ih

theorem of_cons (ht : t.kind ≠ .shiftRight) (h : Split (t :: ts) us) :
    ∃ vs, us = t :: vs ∧ Split ts vs := by
  cases h with
  | keep _ h => exact ⟨_, rfl, h⟩
  | cut ht' h => exact absurd ht' ht

theorem append_left (h : Split ts us) (vs : List Token) : Split (vs ++ ts) (vs ++ us) := by
  induction vs with
  | nil => exact h
  | cons v vs ih => exact .keep v ih

theorem trans (h : Split ts us) (h' : Split us vs) : Split ts vs := by
  induction h generalizing vs with
  | nil => exact h'
  | keep t h ih =>
    cases h' with
    | keep _ h' => exact .keep t (ih h')
    | cut ht h' => exact .cut ht (ih h')
  | cut ht h ih =>
    obtain ⟨ws, rfl, hws⟩ := h'.of_cons noConfusion
    obtain ⟨us, rfl, hus⟩ := hws.of_cons noConfusion
    exact .cut ht (ih hus)

theorem of_concat (h : Split (ts ++ [t]) us) (ht : t.kind ≠ .shiftRight) :
    ∃ vs, us = vs ++ [t] ∧ Split ts vs := by
  induction ts generalizing us with
  | nil =>
    obtain ⟨vs, rfl, hvs⟩ := h.of_cons ht
    cases hvs
    exact ⟨[], rfl, .nil⟩
  | cons u ts ih =>
    cases h with
    | keep _ h =>
      obtain ⟨vs, rfl, hvs⟩ := ih h
      exact ⟨u :: vs, rfl, .keep u hvs⟩
    | cut hu h =>
      obtain ⟨vs, rfl, hvs⟩ := ih h
      exact ⟨u.left :: u.right :: vs, rfl, .cut hu hvs⟩

theorem mem (h : Split ts us) (ht : t ∈ ts) (hk : t.kind ≠ .shiftRight) : t ∈ us := by
  induction h with
  | nil => exact ht
  | keep u h ih =>
    obtain rfl | ht := mem_cons.1 ht
    · exact mem_cons_self
    · exact mem_cons_of_mem _ (ih ht)
  | cut hu h ih =>
    obtain rfl | ht := mem_cons.1 ht
    · exact absurd hu hk
    · exact mem_cons_of_mem _ (mem_cons_of_mem _ (ih ht))

theorem forall_of_forall {P : Token → Prop} (h : Split ts us) (hP : ∀ t ∈ ts, P t)
    (hleft : ∀ t, P t → P t.left) (hright : ∀ t, P t → P t.right) : ∀ u ∈ us, P u := by
  induction h with
  | nil => exact hP
  | keep t h ih =>
    obtain ⟨ht, hts⟩ := forall_mem_cons.1 hP
    exact forall_mem_cons.2 ⟨ht, ih hts⟩
  | cut ht h ih =>
    obtain ⟨ht, hts⟩ := forall_mem_cons.1 hP
    exact forall_mem_cons.2 ⟨hleft _ ht, forall_mem_cons.2 ⟨hright _ ht, ih hts⟩⟩

theorem pairwise (h : Split ts us) (hts : ts.Pairwise (·.last.Before ·.pos)) :
    us.Pairwise (·.pos.Before ·.pos) := by
  have behind : ∀ {p : Pos} {ts us : List Token}, Split ts us → (∀ t ∈ ts, p.Before t.pos) →
      ∀ u ∈ us, p.Before u.pos := fun h hp =>
    h.forall_of_forall hp (fun _ ht => ht) fun t ht => ht.trans t.pos.before_next
  induction h with
  | nil => exact .nil
  | keep t h ih =>
    obtain ⟨ht, hts⟩ := pairwise_cons.1 hts
    exact pairwise_cons.2 ⟨behind h fun u hu => before_of_last (ht u hu), ih hts⟩
  | @cut ts us t hk h ih =>
    obtain ⟨ht, hts⟩ := pairwise_cons.1 hts
    have hright : ∀ u ∈ us, t.right.pos.Before u.pos := by
      rw [last, if_pos hk] at ht
      exact behind h ht
    have hleft : ∀ u ∈ t.right :: us, t.left.pos.Before u.pos :=
      forall_mem_cons.2 ⟨t.pos.before_next, fun u hu => t.pos.before_next.trans (hright u hu)⟩
    exact pairwise_cons.2 ⟨hleft, pairwise_cons.2 ⟨hright, ih hts⟩⟩

end Split

def weight : List Token → Nat
  | [] => 0
  | t :: ts => (if t.kind = .shiftRight then 2 else 1) + weight ts

theorem weight_cons (t : Token) (ts : List Token) :
    weight (t :: ts) = (if t.kind = .shiftRight then 2 else 1) + weight ts :=
  rfl

theorem weight_append (ts us : List Token) : weight (ts ++ us) = weight ts + weight us := by
  induction ts with
  | nil => rw [nil_append, weight, Nat.zero_add]
  | cons t ts ih => rw [cons_append, weight_cons, weight_cons, ih, Nat.add_assoc]

theorem weight_pos (t : Token) (ts : List Token) : weight ts < weight (t :: ts) := by
  rw [weight_cons]
  split <;> omega

theorem weight_le (ts : List Token) : weight ts ≤ 2 * ts.length := by
  induction ts with
  | nil => exact Nat.le_refl 0
  | cons t ts ih =>
    rw [weight_cons, length_cons]
    split <;> omega

theorem Split.weight_eq (h : Split ts us) : weight us = weight ts := by
  induction h with
  | nil => rfl
  | keep t h ih => rw [weight_cons, weight_cons, ih]
  | cut ht h ih =>
    rw [weight_cons, weight_cons, weight_cons, if_pos ht, ih]
    simp only [left, right, reduceCtorEq, if_false]
    omega

end Token

/-! ### Cursors before the end of input -/

namespace Cursor

def ahead (c : Cursor) : List Token :=
  c.peek :: c.rest

/-- The end of input is the last of the tokens behind the cursor, and only the last. -/
def Ends (c : Cursor) : Prop :=
  ∃ ts e, c.ahead = ts ++ [e] ∧ e.kind = .eof ∧ Token.EndFree ts

theorem peek_advance (c : Cursor) : c.advance.peek = c.rest.headD c.peek := by
  rw [advance, note]
  split <;> rfl

theorem rest_advance (c : Cursor) : c.advance.rest = c.rest.tail := by
  rw [advance, note]
  split <;> rfl

theorem ahead_splitShift (c : Cursor) :
    c.splitShift.ahead = c.peek.left :: c.peek.right :: c.rest := by
  unfold splitShift note
  split <;> rfl

theorem ahead_advance {c : Cursor} (h : c.rest ≠ []) : c.advance.ahead = c.rest := by
  rw [ahead, peek_advance, rest_advance]
  cases hrest : c.rest with
  | nil => exact absurd hrest h
  | cons t ts => rfl

theorem weight_lt_bound (c : Cursor) : weight c.ahead < c.bound := by
  have hle := weight_le c.ahead
  have hlength : c.ahead.length = c.rest.length + 1 := rfl
  rw [bound]
  omega

namespace Ends

variable {c d : Cursor}

theorem rest_eq_nil_iff (h : c.Ends) : c.rest = [] ↔ c.peek.kind = .eof := by
  obtain ⟨ts, e, hahead, he, hts⟩ := h
  cases ts with
  | nil =>
    obtain ⟨hpeek, hrest⟩ := List.cons.inj hahead
    exact iff_of_true hrest (hpeek ▸ he)
  | cons t ts =>
    obtain ⟨hpeek, hrest⟩ := List.cons.inj hahead
    rw [endFree_cons, ← hpeek] at hts
    refine iff_of_false (fun h => ?_) hts.1
    exact append_ne_nil_of_right_ne_nil _ (cons_ne_nil _ _) (hrest.symm.trans h)

theorem advance (h : c.Ends) : c.advance.Ends := by
  by_cases hrest : c.rest = []
  · refine ⟨[], c.peek, ?_, h.rest_eq_nil_iff.1 hrest, endFree_nil.2 trivial⟩
    rw [ahead, peek_advance, rest_advance, hrest]
    rfl
  · obtain ⟨ts, e, hahead, he, hts⟩ := h
    cases ts with
    | nil => exact absurd (List.cons.inj hahead).2 hrest
    | cons t ts =>
      refine ⟨ts, e, ?_, he, (endFree_cons.1 hts).2⟩
      rw [ahead_advance hrest, (List.cons.inj hahead).2]
      rfl

theorem splitShift (h : c.Ends) (hk : c.peek.kind = .shiftRight) : c.splitShift.Ends := by
  obtain ⟨ts, e, hahead, he, hts⟩ := h
  cases ts with
  | nil =>
    obtain ⟨rfl, -⟩ := List.cons.inj hahead
    cases hk.symm.trans he
  | cons t ts =>
    refine ⟨c.peek.left :: c.peek.right :: ts, e, ?_, he, ?_⟩
    · rw [ahead_splitShift, (List.cons.inj hahead).2]
      rfl
    · rw [endFree_cons] at hts
      exact endFree_cons.2
        ⟨noConfusion, endFree_cons.2 ⟨noConfusion, hts.2⟩⟩

theorem of_eats (h : c.Ends) (hw : Eats c w d) (hend : Token.EndFree w) :
    d.Ends ∧ Token.Split c.ahead (w ++ d.ahead) := by
  induction hw with
  | refl c => exact ⟨h, .refl _⟩
  | @advance w d c hw ih =>
    obtain ⟨hpeek, hend⟩ := endFree_cons.1 hend
    obtain ⟨hd, hsplit⟩ := ih h.advance hend
    rw [ahead_advance fun hrest => hpeek (h.rest_eq_nil_iff.1 hrest)] at hsplit
    exact ⟨hd, .keep _ hsplit⟩
  | split hk hw ih =>
    obtain ⟨hd, hsplit⟩ := ih (h.splitShift hk) hend
    rw [ahead_splitShift] at hsplit
    obtain ⟨vs, hvs, hsplit⟩ := hsplit.of_cons noConfusion
    obtain ⟨us, rfl, htail⟩ := hsplit.of_cons noConfusion
    rw [hvs]
    exact ⟨hd, .cut hk htail⟩

theorem weight_advance (h : d.Ends) (hsplit : Token.Split c.ahead (w ++ d.ahead))
    (hfuel : weight c.ahead < fuel + 1) :
    d.advance.cur.kind = .eof ∨ weight d.advance.ahead < fuel := by
  by_cases hrest : d.rest = []
  · rw [cur_advance]
    exact .inl (h.rest_eq_nil_iff.1 hrest)
  · rw [ahead_advance hrest]
    have hless : weight d.rest < weight d.ahead := weight_pos _ _
    rw [← hsplit.weight_eq, weight_append] at hfuel
    exact .inr (by omega)

end Ends

/-! ### Faults of illegal tokens -/

/-- As long as there is no fault, the tokens that were seen are legal. -/
def IsLegal (c : Cursor) : Prop :=
  c.fault = none → c.cur.kind ≠ .illegal ∧ c.peek.kind ≠ .illegal

theorem fault_note_eq_none {c : Cursor} :
    (c.note t).fault = none ↔ c.fault = none ∧ t.kind ≠ .illegal := by
  rw [note]
  split
  · next h => exact iff_of_false (Option.some_ne_none _) fun h' => h'.2 h
  · next h => exact (and_iff_left h).symm

namespace IsLegal

variable {c d : Cursor} {w : List Token}

theorem advance (h : c.IsLegal) : c.advance.IsLegal := by
  intro hfault
  obtain ⟨hc, hnext⟩ := fault_note_eq_none.1 hfault
  rw [cur_advance, peek_advance]
  exact ⟨(h hc).2, hnext⟩

theorem splitShift (h : c.IsLegal) : c.splitShift.IsLegal := by
  intro hfault
  obtain ⟨hc, hnext⟩ := fault_note_eq_none.1 hfault
  unfold Cursor.splitShift note
  rw [if_neg hnext]
  exact ⟨(h hc).1, noConfusion⟩

theorem of_eats (h : c.IsLegal) (hw : Eats c w d) :
    d.IsLegal ∧ (d.fault = none → c.fault = none ∧ ∀ t ∈ w, t.kind ≠ .illegal) := by
  induction hw with
  | refl c => exact ⟨h, fun hfault => ⟨hfault, forall_mem_nil _⟩⟩
  | advance hw ih =>
    obtain ⟨hd, hlegal⟩ := ih h.advance
    refine ⟨hd, fun hfault => ?_⟩
    obtain ⟨hc, hw⟩ := hlegal hfault
    have hc := (fault_note_eq_none.1 hc).1
    exact ⟨hc, forall_mem_cons.2 ⟨(h hc).2, hw⟩⟩
  | split hk hw ih =>
    obtain ⟨hd, hlegal⟩ := ih h.splitShift
    refine ⟨hd, fun hfault => ?_⟩
    obtain ⟨hc, hw⟩ := hlegal hfault
    exact ⟨(fault_note_eq_none.1 hc).1, hw⟩

end IsLegal

theorem isLegal_ofTokens (ts : List Token) : (ofTokens ts).IsLegal := by
  match ts with
  | [] => exact fun _ => ⟨noConfusion, noConfusion⟩
  | [t] =>
    intro hfault
    obtain ⟨-, ht⟩ := fault_note_eq_none.1 hfault
    rw [ofTokens, note, if_neg ht]
    exact ⟨ht, ht⟩
  | t :: u :: ts =>
    intro hfault
    obtain ⟨hfault, hu⟩ := fault_note_eq_none.1 hfault
    obtain ⟨-, ht⟩ := fault_note_eq_none.1 hfault
    rw [ofTokens, note, if_neg hu, note, if_neg ht]
    exact ⟨ht, hu⟩

theorem stays_ofTokens (ts : List Token) : Fault.Stays none (ofTokens ts).fault := by
  match ts with
  | [] => exact .refl none
  | [t] => exact stays_note (by rfl) t
  | t :: u :: ts => exact (stays_note (by rfl) t).trans (stays_note rfl u)

theorem ofTokens_cons (t u : Token) (ts : List Token) :
    (ofTokens (t :: u :: ts)).cur = t ∧ (ofTokens (t :: u :: ts)).ahead = u :: ts := by
  rw [ofTokens, note, note, ahead]
  split <;> split <;> exact ⟨rfl, rfl⟩

theorem ofTokens_singleton (t : Token) : (ofTokens [t]).cur = t ∧ (ofTokens [t]).ahead = [t] := by
  rw [ofTokens, note, ahead]
  split <;> exact ⟨rfl, rfl⟩

end Cursor

/-! ### Runs of statements -/

/-- The statements stand one behind the other between the cursors, and no fault is seen before any
of them. -/
inductive Grammar.Parses (g : Grammar) : Cursor → List Tree → Cursor → Prop
  | done (c : Cursor) : Parses g c [] c
  | step {c d : Cursor} (hcur : c.cur.kind ≠ .eof) (hfault : c.fault = none)
    (ht : g.statement c = .ok (t, d)) (hts : Parses g d.advance ts e) : Parses g c (t :: ts) e

namespace Grammar

variable {g : Grammar} {c d : Cursor} {t : Tree} {ts : List Tree}

theorem Sound.exists_of_statement (hg : g.Sound) (h : g.statement c = .ok (t, d)) :
    ∃ w, Cursor.Eats c w d ∧ Derives .statement [t] (c.cur :: w) ∧ Token.EndFree (c.cur :: w) := by
  have hensures := hg.statement c
  rw [Parser.Ensures, h] at hensures
  obtain ⟨⟨w, hw, ht⟩, -⟩ := hensures
  exact ⟨w, hw, ht, ht.endFree (not_mem_nil)⟩

theorem parses_statements (hg : g.Sound) (hends : c.Ends)
    (hfuel : c.cur.kind = .eof ∨ weight c.ahead < fuel) (h : g.statements fuel c = (ts, none)) :
    ∃ d, g.Parses c ts d ∧ d.cur.kind = .eof ∧ d.fault = none := by
  induction fuel generalizing c ts with
  | zero =>
    obtain ⟨rfl, hfault⟩ := Prod.mk.inj h
    exact ⟨c, .done c, hfuel.resolve_right (Nat.not_lt_zero _), hfault⟩
  | succ fuel ih =>
    rw [statements] at h
    by_cases hstop : c.cur.kind = .eof ∨ c.fault.isSome
    · rw [if_pos hstop] at h
      obtain ⟨rfl, hfault⟩ := Prod.mk.inj h
      refine ⟨c, .done c, hstop.resolve_right ?_, hfault⟩
      simp [hfault]
    · rw [if_neg hstop] at h
      obtain ⟨hcur, hnone⟩ := not_or.1 hstop
      cases hstmt : g.statement c with
      | error f => simp [hstmt] at h
      | ok x =>
        simp only [hstmt] at h
        obtain ⟨rfl, hfault⟩ := Prod.mk.inj h
        obtain ⟨w, hw, -, hfree⟩ := hg.exists_of_statement hstmt
        obtain ⟨hd, hsplit⟩ := hends.of_eats hw (endFree_cons.1 hfree).2
        have hnext := hd.weight_advance hsplit (hfuel.resolve_left hcur)
        obtain ⟨e, he, hend⟩ := ih hd.advance hnext (Prod.ext rfl hfault)
        exact ⟨e, .step hcur (by simpa using hnone) hstmt he, hend⟩

theorem Parses.derives (hg : g.Sound) (h : g.Parses c ts d) (heof : d.cur.kind = .eof)
    (hnone : d.fault = none) (hends : c.Ends) (hlegal : c.IsLegal) (hcur : c.cur.kind ≠ .eof) :
    ∃ v e, Token.Split (c.cur :: c.ahead) (v ++ [e]) ∧ e.kind = .eof ∧
    Derives (.many .statement) ts v ∧
      ∀ t ∈ v, t.kind ≠ .illegal := by
  induction h with
  | done c => exact absurd heof hcur
  | @step t ts e c d _ hfault ht hts ih =>
    obtain ⟨w, hw, hderives, hfree⟩ := hg.exists_of_statement ht
    obtain ⟨hd, hsplit⟩ := hends.of_eats hw (endFree_cons.1 hfree).2
    obtain ⟨hdlegal, hwlegal⟩ := hlegal.of_eats hw
    by_cases hrest : d.rest = []
    · -- the end of input is behind the statement, so it is the last
      have hpeek := hd.rest_eq_nil_iff.1 hrest
      cases hts with
      | step hcur' => exact absurd (cur_advance d ▸ hpeek) hcur'
      | done =>
        have hdnone : d.fault = none := (fault_note_eq_none.1 hnone).1
        refine ⟨c.cur :: w, d.peek, ?_, hpeek, ?_, ?_⟩
        · have hlast : d.ahead = [d.peek] := by rw [ahead, hrest]
          rw [hlast] at hsplit
          exact .keep _ hsplit
        · rw [← append_nil (c.cur :: w)]
          exact .cons hderives .nil
        · exact forall_mem_cons.2 ⟨(hlegal hfault).1, (hwlegal hdnone).2⟩
    · have hpeek := fun h => hrest (hd.rest_eq_nil_iff.2 h)
      have hdnone : d.fault = none := by
        cases hts with
        | done => exact (fault_note_eq_none.1 hnone).1
        | step _ hfault' => exact (fault_note_eq_none.1 hfault').1
      rw [cur_advance, ahead_advance hrest] at ih
      obtain ⟨v, e, hv, he, hmore, hvlegal⟩ := ih heof hnone hd.advance hdlegal.advance hpeek
      refine ⟨(c.cur :: w) ++ v, e, ?_, he, .cons hderives hmore, ?_⟩
      · have hlong := hsplit.trans (hv.append_left w)
        rw [append_assoc]
        exact .keep _ hlong
      · exact forall_mem_append.2
          ⟨forall_mem_cons.2 ⟨(hlegal hfault).1, (hwlegal hdnone).2⟩, hvlegal⟩

end Grammar

/-! ### Whole sources -/

def Cursor.ofSource (source : Bytes) : Cursor :=
  .ofTokens (Token.scan source)

def Grammar.ofSource (source : Bytes) : Grammar :=
  .ofDepth ((Cursor.ofSource source).bound + 1)

theorem Cursor.ends_ofSource (source : Bytes) : (ofSource source).Ends := by
  obtain ⟨ts, e, hscan, he, hts⟩ := scan_eq source
  rw [ofSource, hscan]
  match ts, hts with
  | [], _ => exact ⟨[], e, (ofTokens_singleton e).2, he, endFree_nil.2 trivial⟩
  | [t], _ => exact ⟨[], e, (ofTokens_cons t e []).2, he, endFree_nil.2 trivial⟩
  | t :: u :: ts, hts => exact ⟨u :: ts, e, (ofTokens_cons t u _).2, he, (forall_mem_cons.1 hts).2⟩

/-- A parse without a fault ends on the end of input. -/
theorem Tree.parses_parse {source : Bytes} (h : parse source = .ok t) :
    ∃ p stmts d, t = .node .program p stmts ∧
      (Grammar.ofSource source).Parses (.ofSource source) stmts d ∧ d.cur.kind = .eof ∧
      d.fault = none := by
  have hends := ends_ofSource source
  rw [parse] at h
  split at h
  · cases h
  · next hfault =>
    cases h
    obtain ⟨d, hd⟩ := Grammar.parses_statements (Grammar.sound_ofDepth _) hends
      (.inr (weight_lt_bound _)) (Prod.ext rfl hfault)
    exact ⟨_, _, d, rfl, hd⟩

/-- **A source that parses is derived to its last token**, and all of its tokens are legal. -/
theorem Tree.derives_parse {source : Bytes} (h : parse source = .ok t) :
    ∃ p stmts ts e v, t = .node .program p stmts ∧ scan source = ts ++ [e] ∧
      e.kind = .eof ∧ (∀ u ∈ ts, u.kind ≠ .eof ∧ u.kind ≠ .illegal) ∧ Token.Split ts v ∧
      Derives (.many .statement) stmts v := by
  obtain ⟨p, stmts, d, rfl, hreads, heof, hnone⟩ := parses_parse h
  obtain ⟨ts, e, hscan, he, hts⟩ := scan_eq source
  have hends := ends_ofSource source
  have hlegal : (ofSource source).IsLegal := isLegal_ofTokens _
  rw [ofSource, hscan] at hends hlegal hreads
  match ts, hts with
  | [], hts =>
    cases hreads with
    | done => exact ⟨p, [], [], e, [], rfl, hscan, he, forall_mem_nil _, .nil, .nil⟩
    | step hcur =>
      rw [nil_append, (ofTokens_singleton e).1] at hcur
      exact absurd he hcur
  | t :: ts, hts =>
    have htokens : (ofTokens (t :: ts ++ [e])).cur = t ∧
        (ofTokens (t :: ts ++ [e])).ahead = ts ++ [e] := by
      cases ts with
      | nil => exact ofTokens_cons t e []
      | cons u ts => exact ofTokens_cons t u _
    have hcur := (forall_mem_cons.1 hts).1
    rw [← htokens.1] at hcur
    obtain ⟨w, e', hsplit, he', hderives, hwlegal⟩ :=
      hreads.derives (Grammar.sound_ofDepth _) heof hnone hends hlegal hcur
    rw [htokens.1, htokens.2, ← cons_append] at hsplit
    obtain ⟨v, heq, hsplit⟩ := hsplit.of_concat (by rw [he]; exact noConfusion)
    obtain ⟨rfl, -⟩ := append_inj' heq rfl
    refine ⟨p, stmts, t :: ts, e, w, rfl, hscan, he, fun u hu => ⟨hts u hu, fun hillegal => ?_⟩,
      hsplit, hderives⟩
    exact hwlegal u (hsplit.mem hu (by rw [hillegal]; exact noConfusion)) hillegal

end Covenant
