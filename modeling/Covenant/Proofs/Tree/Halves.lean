import Covenant.Proofs.Token.Spaced
import Covenant.Proofs.Tree.Derivation.Source
import Covenant.Proofs.Tree.Taking

/-!
# Reading shifts in halves

Where type arguments close, a `>>` is two tokens.  A parser takes the first half of it and leaves
the second one, so what it reads is not the sequence of tokens that was scanned.
-/

namespace Covenant

open List Cursor

open Token (SameText Split)

/-! ### Tokens that are cut -/

namespace Token.Split

theorem append (h : Split ts hs) (h' : Split ts' hs') : Split (ts ++ ts') (hs ++ hs') := by
  induction h with
  | nil => exact h'
  | keep t _ ih => exact .keep t ih
  | cut ht _ ih => exact .cut ht ih

theorem cons_cases (hsplit : Split ts (h :: hs)) : ∃ t ts', ts = t :: ts' ∧ (t = h ∧ Split ts' hs ∨
      t.kind = .shiftRight ∧ h = t.left ∧ ∃ hs', hs = t.right :: hs' ∧ Split ts' hs') := by
  cases hsplit with
  | keep _ hrest => exact ⟨_, _, rfl, .inl ⟨rfl, hrest⟩⟩
  | cut ht hrest => exact ⟨_, _, rfl, .inr ⟨ht, rfl, _, rfl, hrest⟩⟩

theorem getLast?_eq (h : Split ts hs) (hy : hs.getLast? = some y) :
    ∃ t, ts.getLast? = some t ∧ (y = t ∨ t.kind = .shiftRight ∧ y = t.right) := by
  induction h with
  | nil => cases hy
  | @keep ts us t h ih =>
    cases us with
    | nil =>
      cases h
      cases hy
      exact ⟨t, rfl, .inl rfl⟩
    | cons u us =>
      obtain ⟨t', hlast, hy⟩ := ih hy
      exact ⟨t', by rw [getLast?_cons, hlast]; rfl, hy⟩
  | @cut ts us t ht h ih =>
    cases us with
    | nil =>
      cases h
      cases hy
      exact ⟨t, rfl, .inr ⟨ht, rfl⟩⟩
    | cons u us =>
      obtain ⟨t', hlast, hy⟩ := ih hy
      exact ⟨t', by rw [getLast?_cons, hlast]; rfl, hy⟩

end Token.Split

theorem Token.length_le_weight (ts : List Token) : ts.length ≤ weight ts := by
  induction ts with
  | nil => exact Nat.le_refl 0
  | cons t ts ih =>
    rw [weight_cons, length_cons]
    split <;> omega

theorem exists_append_of_forall₂ {α β : Type} {R : α → β → Prop} {as : List α} {bs cs : List β}
    (h : Forall₂ R as (bs ++ cs)) :
    ∃ as₁ as₂, as = as₁ ++ as₂ ∧ Forall₂ R as₁ bs ∧ Forall₂ R as₂ cs :=
  ⟨_, _, (take_append_drop bs.length as).symm, forall₂_take_append as bs cs h,
    forall₂_drop_append as bs cs h⟩

theorem exists_concat_of_forall₂ {α β : Type} {R : α → β → Prop} {as : List α} {bs : List β} {b : β}
    (h : Forall₂ R as (bs ++ [b])) : ∃ as' a, as = as' ++ [a] ∧ Forall₂ R as' bs ∧ R a b := by
  obtain ⟨as', _, rfl, hbs, hb⟩ := exists_append_of_forall₂ h
  obtain _ | @⟨a, _, _, _, ha, ⟨⟩⟩ := hb
  exact ⟨as', a, rfl, hbs, ha⟩

/-- However a text is laid out, its tokens can be cut into its words. -/
theorem Spaced.split_tokens {ps : List Spaced} (h : AreApart ps) {ts : List Token}
    (hts : Forall₂ SameText ts (tokens ps)) :
    ∃ hs, Forall₂ SameText hs (ps.map word) ∧ Split ts hs := by
  induction ps using reverseRecOn generalizing ts with
  | nil =>
    cases hts
    exact ⟨[], .nil, .nil⟩
  | append_singleton ps p ih =>
    obtain ⟨hps, -, hword, -⟩ := h.of_concat
    rw [map_append, map_singleton]
    rw [tokens_concat, push] at hts
    split at hts
    · next hp =>
      -- the halves of the shift are the last `>` before and this one
      obtain ⟨vs, v, hvs, hv⟩ := exists_of_isLeftOver hp.2.2
      rw [hvs, dropLast_concat] at hts
      obtain ⟨ts, t, rfl, hts, ht⟩ := exists_concat_of_forall₂ hts
      have hliteral {u : Token} (hu : u.isPlain = true) (hk : u.kind = .greater) :
          u.literal = ">" := by
        rw [Token.isPlain, hk] at hu
        exact eq_of_beq hu
      have hleft : SameText t.left v := by
        obtain rfl | ⟨ps, q, rfl⟩ := ps.eq_nil_or_concat'
        · exact absurd hvs (by simp [tokens])
        have hlast : (tokens (ps ++ [q])).getLast? = some v := by rw [hvs, getLast?_concat]
        obtain rfl | rfl := getLast?_tokens hlast
        · exact ⟨hv.symm, (hliteral (hps.word q (by simp)) hv).symm⟩
        · cases hv
      have hbefore : Forall₂ SameText (ts ++ [t.left]) (tokens ps) := by
        rw [hvs]
        exact rel_append hts (.cons hleft .nil)
      obtain ⟨_, hwords, hsplit⟩ := ih hps hbefore
      obtain ⟨hs, rfl, hbehind⟩ := hsplit.of_concat TokenKind.noConfusion
      refine ⟨hs ++ [t.left] ++ [t.right], rel_append hwords (.cons ?_ .nil), ?_⟩
      · exact ⟨hp.1.symm, (hliteral hword hp.1).symm⟩
      · rw [append_assoc]
        exact hbehind.append (.cut ht.1 .nil)
    · obtain ⟨ts, t, rfl, hts, ht⟩ := exists_concat_of_forall₂ hts
      obtain ⟨hs, hwords, hsplit⟩ := ih hps hts
      exact ⟨hs ++ [t], rel_append hwords (.cons ht .nil), hsplit.append (.keep t .nil)⟩

/-! ### Cursors before tokens and halves -/

/-- The cursor stands on `z`, and before tokens that can be cut into `hs`, up to `us`.  It has seen
no illegal token, and will see none before it stands at `us`. -/
def Cursor.Stands (us : List Token) (z : Token) (hs : List Token) (c : Cursor) : Prop :=
  ∃ ts, c = .on z (ts ++ us) ∧ Split ts hs ∧ us ≠ [] ∧ Legal (hs ++ us.head?.toList)

namespace Cursor

variable {c : Cursor}

theorem advance_on_of_head (h : (us.headD u).kind ≠ .illegal) :
    (on z (u :: us)).advance = on u us := by
  exact if_neg h

theorem splitShift_on {ts : List Token} (h : (ts.headD t).kind ≠ .illegal) :
    (on z (t :: ts)).splitShift = on z (t.left :: t.right :: ts) := by
  exact if_neg h

theorem closeAngle_eq (c : Cursor) : Grammar.closeAngle c = (Parser.expect .greater
    (if c.peek.kind = .shiftRight then c.splitShift else c) >>= fun r => Except.ok ((), r.2)) := by
  change (if decide (c.peek.kind = .shiftRight) = true then _ else _ : Parser Unit) _ = _
  by_cases hk : c.peek.kind = .shiftRight
  · rw [if_pos (decide_eq_true hk), if_pos hk]
    rfl
  · rw [if_neg (by simpa using hk), if_neg hk]
    rfl

namespace Stands

theorem head_cases (h : Split ts hs) (hus : us ≠ []) :
    ∃ t ts' v, ts ++ us = t :: ts' ∧ (hs ++ us).head? = some v ∧
      (t = v ∨ t.kind = .shiftRight ∧ v.kind = .greater) := by
  cases h with
  | nil =>
    obtain ⟨u, us, rfl⟩ := exists_cons_of_ne_nil hus
    exact ⟨u, us, u, rfl, rfl, .inl rfl⟩
  | keep t _ => exact ⟨_, _, _, rfl, rfl, .inl rfl⟩
  | cut ht _ => exact ⟨_, _, _, rfl, rfl, .inr ⟨ht, rfl⟩⟩

theorem peek_cases (hc : c.Stands us z hs) : ∃ v, (hs ++ us).head? = some v ∧
    (c.peek = v ∨ c.peek.kind = .shiftRight ∧ v.kind = .greater) := by
  obtain ⟨ts, rfl, hsplit, hus, -⟩ := hc
  obtain ⟨t, ts', v, hts, hv, ht⟩ := head_cases hsplit hus
  rw [hts]
  exact ⟨v, hv, ht⟩

theorem headD_legal (h : Split ts hs) (hus : us ≠ [])
    (hlegal : Legal (hs ++ us.head?.toList)) (u : Token) :
    ((ts ++ us).headD u).kind ≠ .illegal := by
  obtain ⟨t, ts', v, hts, hv, ht⟩ := head_cases h hus
  have hmem : v ∈ hs ++ us.head?.toList := by
    cases hs with
    | nil => simpa using hv
    | cons h hs =>
      cases hv
      exact mem_cons_self
  rw [hts, headD_cons]
  obtain rfl | ⟨ht, -⟩ := ht
  · exact hlegal t hmem
  · rw [ht]
    decide

theorem advance (hc : c.Stands us z (h :: hs)) (hh : h.kind ≠ .greater) :
    c.advance.Stands us h hs := by
  obtain ⟨_, rfl, hsplit, hus, hlegal⟩ := hc
  have hlegal' := (forall_mem_cons.1 hlegal).2
  obtain ⟨t, ts, rfl, ⟨rfl, hrest⟩ | ⟨-, rfl, -⟩⟩ := hsplit.cons_cases
  · exact ⟨ts, advance_on_of_head (headD_legal hrest hus hlegal' t), hrest, hus, hlegal'⟩
  · exact absurd rfl hh

theorem closeAngle (hc : c.Stands us z (h :: hs)) (hh : h.kind = .greater) :
    ∃ d, Grammar.closeAngle c = .ok ((), d) ∧ d.Stands us h hs := by
  obtain ⟨_, rfl, hsplit, hus, hlegal⟩ := hc
  have hlegal' := (forall_mem_cons.1 hlegal).2
  obtain ⟨t, ts, rfl, ⟨rfl, hrest⟩ | ⟨ht, rfl, hs', rfl, hrest⟩⟩ := hsplit.cons_cases
  · refine ⟨.on t (ts ++ us), ?_, ts, rfl, hrest, hus, hlegal'⟩
    have hk : (on z (t :: ts ++ us)).peek.kind ≠ .shiftRight := by
      change t.kind ≠ _
      rw [hh]
      decide
    rw [closeAngle_eq, if_neg hk, expect_of_kind hh, cons_append,
      advance_on_of_head (headD_legal hrest hus hlegal' t)]
    rfl
  · have hlegal'' := (forall_mem_cons.1 hlegal').2
    refine ⟨.on t.left (t.right :: ts ++ us), ?_, t.right :: ts, rfl, .keep _ hrest, hus, hlegal'⟩
    have hright : ((t.right :: (ts ++ us)).headD t.left).kind ≠ .illegal := TokenKind.noConfusion
    have hk : (on z (t :: ts ++ us)).peek.kind = .shiftRight := ht
    rw [closeAngle_eq, if_pos hk, cons_append,
      splitShift_on (headD_legal hrest hus hlegal'' t), expect_of_kind (k := .greater) rfl,
      advance_on_of_head hright]
    rfl

theorem length_lt_bound (hc : c.Stands us z hs) : hs.length + us.length < c.bound := by
  obtain ⟨ts, rfl, hsplit, hus, -⟩ := hc
  obtain ⟨t, ts', v, hts, -⟩ := head_cases hsplit hus
  have hlt := (on z (ts ++ us)).weight_lt_bound
  have hahead : (on z (ts ++ us)).ahead = ts ++ us := by
    rw [hts]
    rfl
  have hweight := hsplit.weight_eq
  have hhs := Token.length_le_weight hs
  have hus := Token.length_le_weight us
  rw [hahead, Token.weight_append] at hlt
  omega

end Stands

end Cursor

/-! ### Runs of parsers -/

namespace Parser

/-- From a cursor on `z` before `hs`, the parser `p` goes on as `q` does from one on `y` before
`hs'`. -/
def Proceeds {α : Type} (us : List Token) (p : Parser α) (z : Token) (hs : List Token)
    (q : Parser α) (y : Token) (hs' : List Token) : Prop :=
  ∀ c, c.Stands us z hs → ∃ d, p c = q d ∧ d.Stands us y hs'

namespace Proceeds

variable {α β : Type} {f : β → Parser α} {k : TokenKind} {kinds : List TokenKind}

theorem refl (p : Parser α) (z : Token) (hs : List Token) : Proceeds us p z hs p z hs :=
  fun c hc => ⟨c, rfl, hc⟩

theorem trans (h : Proceeds us p z hs q y hs') (h' : Proceeds us q y hs' r x hs'') :
    Proceeds us p z hs r x hs'' := by
  intro c hc
  obtain ⟨d, hd, hstands⟩ := h c hc
  obtain ⟨e, he, hstands'⟩ := h' d hstands
  exact ⟨e, hd.trans he, hstands'⟩

theorem bind {p q : Parser β} (h : Proceeds us p z hs q y hs') (f : β → Parser α) :
    Proceeds us (p >>= f) z hs (q >>= f) y hs' := by
  intro c hc
  obtain ⟨d, hd, hstands⟩ := h c hc
  refine ⟨d, ?_, hstands⟩
  change (p c >>= fun r => f r.1 r.2) = _
  rw [hd]
  rfl

theorem call {p : Parser β} (h : Proceeds us p z hs (pure b) y hs')
    (hf : Proceeds us (f b) y hs' r x hs'') : Proceeds us (p >>= f) z hs r x hs'' :=
  (h.bind f).trans hf

theorem cur {f : Token → Parser α} (hf : Proceeds us (f z) z hs r x hs'') :
    Proceeds us (Parser.cur >>= f) z hs r x hs'' := by
  rintro c ⟨ts, rfl, hc⟩
  exact hf _ ⟨ts, rfl, hc⟩

theorem get {f : Cursor → Parser α}
    (hf : ∀ c, hs.length < c.bound → Proceeds us (f c) z hs r x hs'') :
    Proceeds us (MonadState.get >>= f) z hs r x hs'' :=
  fun c hc => hf c (Nat.lt_of_le_of_lt (Nat.le_add_right _ _) hc.length_lt_bound) c hc

theorem advance {f : Unit → Parser α} (hh : h.kind ≠ .greater)
    (hf : Proceeds us (f ()) h hs r x hs'') :
    Proceeds us (Parser.advance >>= f) z (h :: hs) r x hs'' :=
  fun c hc => hf c.advance (hc.advance hh)

theorem closeAngle {f : Unit → Parser α} (hh : h.kind = .greater)
    (hf : Proceeds us (f ()) h hs r x hs'') :
    Proceeds us (Grammar.closeAngle >>= f) z (h :: hs) r x hs'' := by
  refine call (b := ()) (fun c hc => ?_) hf
  obtain ⟨d, hd, hstands⟩ := hc.closeAngle hh
  exact ⟨d, hd, hstands⟩

theorem expect {f : Token → Parser α} (hk : k ≠ .greater) (hh : h.kind = k)
    (hf : Proceeds us (f h) h hs r x hs'') :
    Proceeds us (Parser.expect k >>= f) z (h :: hs) r x hs'' := by
  refine call (fun c hc => ⟨c.advance, ?_, hc.advance (hh ▸ hk)⟩) hf
  obtain ⟨v, hv, hpeek⟩ := hc.peek_cases
  cases hv
  obtain hpeek | ⟨-, hgreater⟩ := hpeek
  · rw [expect_of_kind (hpeek ▸ hh), hpeek]
    rfl
  · exact absurd (hh.symm.trans hgreater) hk

theorem pass {f : Unit → Parser α} (hk : k ≠ .greater) (hh : h.kind = k)
    (hf : Proceeds us (f ()) h hs r x hs'') :
    Proceeds us (discard (Parser.expect k) >>= f) z (h :: hs) r x hs'' :=
  call (expect (f := fun _ => pure ()) hk hh (refl (pure ()) h hs)) hf

theorem peek {f : Token → Parser α} (hh : h.kind ≠ .greater)
    (hf : Proceeds us (f h) z (h :: hs) r x hs'') :
    Proceeds us (Parser.peek >>= f) z (h :: hs) r x hs'' := by
  intro c hc
  obtain ⟨v, hv, hpeek⟩ := hc.peek_cases
  cases hv
  obtain hpeek | ⟨-, hgreater⟩ := hpeek
  · change ∃ d, f c.peek c = _ ∧ _
    rw [hpeek]
    exact hf c hc
  · exact absurd hgreater hh

theorem peekIs {f : Bool → Parser α} (hk : k ≠ .greater) (hh : h.kind = k)
    (hf : Proceeds us (f true) z (h :: hs) r x hs'') :
    Proceeds us (Parser.peekIs k >>= f) z (h :: hs) r x hs'' := by
  refine peek (f := fun t => f (decide (t.kind = k))) (hh ▸ hk) ?_
  rw [decide_eq_true hh]
  exact hf

theorem ifPeek (hk : k ≠ .greater) (hh : h.kind = k) (hp : Proceeds us p z (h :: hs) r x hs'') :
    Proceeds us (Parser.peekIs k >>= fun b => if b = true then p else q) z (h :: hs) r x hs'' :=
  peekIs hk hh hp

theorem unlessPeek (hk : k ≠ .shiftRight)
    (hh : ∀ t ∈ (hs ++ us).head?, t.kind ≠ k) (hq : Proceeds us q z hs r x hs'') :
    Proceeds us (Parser.peekIs k >>= fun b => if b = true then p else q) z hs r x hs'' := by
  intro c hc
  obtain ⟨v, hv, hpeek⟩ := hc.peek_cases
  have hc' : c.peek.kind ≠ k := by
    obtain hpeek | ⟨hshift, -⟩ := hpeek
    · exact hpeek ▸ hh v hv
    · exact hshift ▸ hk.symm
  change ∃ d, (if decide (c.peek.kind = k) = true then p else q) c = _ ∧ _
  rw [if_neg (by simpa using hc')]
  exact hq c hc

theorem ifPeekIn (hkinds : kinds.contains .greater = false) (hh : kinds.contains h.kind = true)
    (hp : Proceeds us p z (h :: hs) r x hs'') :
    Proceeds us (Parser.peek >>= fun t => if kinds.contains t.kind = true then p else q) z (h :: hs)
      r x hs'' := by
  refine peek (fun hgreater => ?_) ?_
  · rw [hgreater, hkinds] at hh
    cases hh
  · rw [if_pos hh]
    exact hp

theorem unlessPeekIn (hkinds : kinds.contains .shiftRight = false)
    (hh : ∀ t ∈ (hs ++ us).head?, kinds.contains t.kind = false)
    (hq : Proceeds us q z hs r x hs'') :
    Proceeds us (Parser.peek >>= fun t => if kinds.contains t.kind = true then p else q) z hs
      r x hs'' := by
  intro c hc
  obtain ⟨v, hv, hpeek⟩ := hc.peek_cases
  have hc' : kinds.contains c.peek.kind = false := by
    obtain hpeek | ⟨hshift, -⟩ := hpeek
    · exact hpeek ▸ hh v hv
    · exact hshift ▸ hkinds
  change ∃ d, (if kinds.contains c.peek.kind = true then p else q) c = _ ∧ _
  rw [if_neg (by simp only [hc', Bool.false_eq_true, not_false_iff])]
  exact hq c hc

end Proceeds

end Parser

end Covenant
