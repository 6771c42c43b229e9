import Covenant.Tree.Parse
import Mathlib.Data.List.Forall2

/-!
# Runs of parsers

What a parser takes of a token sequence, said without its cursor: it starts on a token, answers, and
leaves a rest of the sequence behind.  None of the tokens is illegal.
-/

namespace Covenant

open List Cursor Parser

def Cursor.on (z : Token) (ts : List Token) : Cursor :=
  ⟨z, ts.headD z, ts.tail, none⟩

def Legal (ts : List Token) : Prop :=
  ∀ t ∈ ts, t.kind ≠ .illegal

theorem Cursor.advance_on (h : Legal (u :: us)) : (on z (u :: us)).advance = on u us := by
  have hnext : (us.headD u).kind ≠ .illegal := by
    cases us with
    | nil => exact h u (.head _)
    | cons v vs => exact h v (.tail _ (.head _))
  exact if_neg hnext

theorem Cursor.ofTokens_eq_on (h : Legal (t :: u :: ts)) :
    ofTokens (t :: u :: ts) = on t (u :: ts) := by
  rw [ofTokens, note, if_neg (h u (.tail _ (.head _))), note, if_neg (h t (.head _))]
  rfl

namespace Parser

/-- On the token `z` before the legal tokens `ts`, the parser answers `a` and leaves `us`. -/
def Takes {α : Type} (p : Parser α) (z : Token) (ts : List Token) (a : α) (us : List Token) :
    Prop :=
  Legal ts → Legal us ∧ ∃ y, p (Cursor.on z ts) = .ok (a, Cursor.on y us)

namespace Takes

variable {α β : Type}

theorem pure (a : α) (z : Token) (ts : List Token) : Takes (Pure.pure a) z ts a ts :=
  fun h => ⟨h, z, rfl⟩

theorem bind {p : Parser α} {f : α → Parser β} (h : Takes p z ts a us)
    (hf : ∀ y, Takes (f a) y us b vs) : Takes (p >>= f) z ts b vs := by
  intro hts
  obtain ⟨hus, y, hy⟩ := h hts
  obtain ⟨hvs, x, hx⟩ := hf y hus
  refine ⟨hvs, x, ?_⟩
  change (p (on z ts) >>= fun r => f r.1 r.2) = _
  rw [hy]
  exact hx

/-! ### Looking and advancing -/

theorem cur (h : Takes (f z) z ts b vs) : Takes (Parser.cur >>= f) z ts b vs :=
  h

theorem get {f : Cursor → Parser β} (h : Takes (f (on z ts)) z ts b vs) :
    Takes (MonadState.get >>= f) z ts b vs :=
  h

theorem curIs {f : Bool → Parser β} (h : Takes (f (decide (z.kind = k))) z ts b vs) :
    Takes (curIs k >>= f) z ts b vs :=
  h

theorem peek (h : Takes (f u) z (u :: us) b vs) : Takes (peek >>= f) z (u :: us) b vs :=
  h

theorem peekIs {f : Bool → Parser β} (h : Takes (f (decide (u.kind = k))) z (u :: us) b vs) :
    Takes (Parser.peekIs k >>= f) z (u :: us) b vs :=
  h

theorem ifPeek (hk : u.kind = k) (h : Takes p z (u :: us) b vs) :
    Takes (Parser.peekIs k >>= fun x => if x = true then p else q) z (u :: us) b vs := by
  refine peekIs ?_
  rw [if_pos (decide_eq_true hk)]
  exact h

theorem unlessPeek (hk : u.kind ≠ k) (h : Takes q z (u :: us) b vs) :
    Takes (Parser.peekIs k >>= fun x => if x = true then p else q) z (u :: us) b vs := by
  refine peekIs ?_
  rw [if_neg (by simpa using hk)]
  exact h

theorem advance {f : Unit → Parser β} (h : Takes (f ()) u us b vs) :
    Takes (Parser.advance >>= f) z (u :: us) b vs := by
  intro hts
  obtain ⟨hvs, y, hy⟩ := h fun t ht => hts t (.tail _ ht)
  refine ⟨hvs, y, ?_⟩
  change f () (on z (u :: us)).advance = _
  rw [advance_on hts, hy]

theorem expect (hk : u.kind = k) (h : Takes (f u) u us b vs) :
    Takes (Parser.expect k >>= f) z (u :: us) b vs := by
  intro hts
  have hexpect : Parser.expect k (on z (u :: us)) = .ok (u, on u us) := by
    change (if decide (u.kind = k) = true then Parser.advance >>= fun _ => Parser.cur
      else failExpecting k : Parser Token) (on z (u :: us)) = _
    rw [if_pos (decide_eq_true hk)]
    change Except.ok ((on z (u :: us)).advance.cur, (on z (u :: us)).advance) = _
    rw [advance_on hts]
    rfl
  obtain ⟨hvs, y, hy⟩ := h fun t ht => hts t (.tail _ ht)
  refine ⟨hvs, y, ?_⟩
  change (Parser.expect k (on z (u :: us)) >>= fun r => f r.1 r.2) = _
  rw [hexpect]
  exact hy

theorem pass (hk : u.kind = k) : Takes (discard (Parser.expect k)) z (u :: us) () us :=
  expect (f := fun _ => Pure.pure ()) hk (.pure _ _ _)

end Takes

/-! ### Repetition -/

/-- From the tokens `ts` on, the items `as` stand one after the other, up to the tokens `us`. -/
inductive Items {α : Type} (item? : Parser (Option α)) : List Token → List α → List Token → Prop
  | nil : Items item? us [] us
  | cons {ts us : List Token} (hlength : us.length < ts.length)
    (h : ∀ z, Takes item? z ts (some a) us) (hrest : Items item? us as vs) :
    Items item? ts (a :: as) vs

namespace Items

variable {α : Type} {item? : Parser (Option α)} {a : α} {as : List α}

section

variable (h : Items item? ts as us)

include h

theorem concat (hlength : vs.length < us.length)
    (ha : ∀ z, Takes item? z us (some a) vs) : Items item? ts (as ++ [a]) vs := by
  induction h with
  | nil => exact .cons hlength ha .nil
  | cons hlength' h _ ih => exact .cons hlength' h (ih hlength ha)

theorem length_le : as.length + us.length ≤ ts.length := by
  induction h with
  | nil => simp
  | cons hlength _ _ ih =>
    rw [length_cons]
    omega

theorem manyWithin (hdone : ∀ z, Takes item? z us none us)
    (hn : as.length < n) (z : Token) : Takes (manyWithin item? n) z ts as us := by
  induction h generalizing n z with
  | nil =>
    cases n with
    | zero => cases hn
    | succ n => exact (hdone z).bind fun y => .pure _ _ _
  | cons _ h _ ih =>
    cases n with
    | zero => cases hn
    | succ n =>
      exact (h z).bind fun y => (ih hdone (Nat.lt_of_succ_lt_succ hn) y).bind fun _ => .pure _ _ _

theorem many (hdone : ∀ z, Takes item? z us none us) (z : Token) :
    Takes (many item?) z ts as us := by
  have hlength := h.length_le
  refine .get (h.manyWithin hdone ?_ z)
  simp only [bound, on, length_tail]
  omega

end

end Items

/-! ### Items with separators -/

/-- The parser reads the tokens as `a`, from the token in front of them on, when a comma or the
closing token follows. -/
structure ReadsItem {α : Type} (item : Parser α) (close : TokenKind) (ws : List Token) (a : α) :
    Prop where
  start : ∃ w ws', ws = w :: ws' ∧ w.kind ≠ close
  takes : ∀ z u us, u.kind = .comma ∨ u.kind = close → Takes item z (ws ++ u :: us) a (u :: us)

section

variable {α : Type} {item : Parser α} {close : TokenKind} {separators : List TokenKind}
    {wss : List (List Token)} {ws : List Token} {a : α} {as : List α} {comma last : Token}

theorem exists_cons_tail (hcomma : comma.kind = .comma) (hlast : last.kind = close)
    (wss : List (List Token)) (us : List Token) :
    ∃ v vs, wss.flatMap (comma :: ·) ++ last :: us = v :: vs ∧
    (v.kind = .comma ∨ v.kind = close) := by
  cases wss with
  | nil => exact ⟨last, us, rfl, .inr hlast⟩
  | cons ws wss => exact ⟨comma, _, rfl, .inl hcomma⟩

theorem ReadsItem.before_tail (h : ReadsItem item close ws a) (hcomma : comma.kind = .comma)
    (hlast : last.kind = close) (wss : List (List Token)) (z : Token) (us : List Token) :
    Takes item z (ws ++ (wss.flatMap (comma :: ·) ++ last :: us)) a
      (wss.flatMap (comma :: ·) ++ last :: us) := by
  obtain ⟨v, vs, heq, hv⟩ := exists_cons_tail hcomma hlast wss us
  rw [heq]
  exact h.takes z v vs hv

theorem length_le_flatMap (h : Forall₂ (ReadsItem item close) wss as) (comma : Token) :
    as.length ≤ (wss.flatMap (comma :: ·)).length := by
  rw [← h.length_eq]
  clear h
  induction wss with
  | nil => exact Nat.zero_le _
  | cons ws wss ih =>
    rw [flatMap_cons, length_append, length_cons, length_cons]
    omega

section

variable (hcomma' : separators.contains .comma = true) (hclose : separators.contains close = false)
    (hcomma : comma.kind = .comma) (hlast : last.kind = close)

include hcomma' hclose hcomma hlast

theorem Takes.tailWithin (h : Forall₂ (ReadsItem item close) wss as)
    (hn : as.length < n) (z : Token) (us : List Token) :
    Takes (tailWithin separators close item n) z
      (wss.flatMap (comma :: ·) ++ last :: us) as us := by
  induction h generalizing n z with
  | nil =>
    cases n with
    | zero => cases hn
    | succ n =>
      refine .peek ?_
      rw [hlast, hclose]
      exact (pass hlast).bind fun y => .pure _ _ _
  | @cons ws a wss as hws _ ih =>
    cases n with
    | zero => cases hn
    | succ n =>
      obtain ⟨w, ws', rfl, hw⟩ := hws.start
      rw [flatMap_cons, append_assoc, cons_append]
      refine .peek ?_
      rw [hcomma, hcomma']
      refine .advance (.unlessPeek hw ?_)
      exact (hws.before_tail hcomma hlast wss comma us).bind fun y =>
        (ih (Nat.lt_of_succ_lt_succ hn) y).bind fun y => .pure _ _ _

theorem Takes.tail (h : Forall₂ (ReadsItem item close) wss as) (z : Token) (us : List Token) :
    Takes (tail separators close item) z (wss.flatMap (comma :: ·) ++ last :: us) as us := by
  have hlength := length_le_flatMap h comma
  refine .get (.tailWithin hcomma' hclose hcomma hlast h ?_ z us)
  simp only [bound, on, length_tail, length_append, length_cons]
  omega

theorem Takes.delimited (hws : ReadsItem item close ws a)
    (h : Forall₂ (ReadsItem item close) wss as) (z : Token) (us : List Token) :
    Takes (Parser.delimited separators close item) z
      (ws ++ wss.flatMap (comma :: ·) ++ last :: us) (a :: as) us := by
  have hitem := hws.before_tail hcomma hlast wss z us
  obtain ⟨w, ws', rfl, hw⟩ := hws.start
  rw [append_assoc]
  exact .unlessPeek hw (hitem.bind fun y =>
    (Takes.tail hcomma' hclose hcomma hlast h y us).bind fun y => .pure _ _ _)

end

theorem Takes.delimited_nil (hlast : last.kind = close) (z : Token) (us : List Token) :
    Takes (Parser.delimited separators close item) z (last :: us) [] us :=
  .ifPeek hlast (.advance (.pure _ _ _))

end

/-! ### Tokens that are read as a whole -/

def closers : List TokenKind :=
  [.rparen, .rbracket, .rbrace, .greater]

/-- The tokens `ws` are read as `a`, from the first of them on, when no token follows that the
parser would take as well. -/
def Reads {α : Type} (p : Parser α) (more : TokenKind → Bool) (ws : List Token) (a : α) : Prop :=
  ∃ w ws', ws = w :: ws' ∧ w.kind ∉ closers ∧
    ∀ u us, more u.kind = false → Takes p w (ws' ++ u :: us) a (u :: us)

/-- The tokens `ws` are read as a first operand and then items, when no token follows that would
belong to the last of them. -/
def Chains {α β : Type} (operand : Parser α) (item? : Parser (Option β)) (more : TokenKind → Bool)
    (ws : List Token) (first : α) (items : List β) : Prop :=
  ∃ w ws', ws = w :: ws' ∧ w.kind ∉ closers ∧ ∀ u us, more u.kind = false →
    ∃ mid, Takes operand w (ws' ++ u :: us) first mid ∧ Items item? mid items (u :: us)

section

variable {α β : Type} {p : Parser α} {item? : Parser (Option β)} {more more' : TokenKind → Bool}
    {ws : List Token} {a : α} {b : β} {bs : List β} {us : List Token}

theorem Reads.cons {w : Token} (hw : w.kind ∉ closers)
    (h : ∀ u us, more u.kind = false → Takes p w (ws ++ u :: us) a (u :: us)) :
    Reads p more (w :: ws) a :=
  ⟨w, ws, rfl, hw, h⟩

theorem Reads.takes (h : Reads p more (w :: ws) a) (hu : more u.kind = false) :
    Takes p w (ws ++ u :: us) a (u :: us) := by
  obtain ⟨_, _, hws, -, htakes⟩ := h
  cases hws
  exact htakes u us hu

section

variable (h : Reads p more ws a)

include h

theorem Reads.exists_cons : ∃ w ws', ws = w :: ws' ∧ w.kind ∉ closers := by
  obtain ⟨w, ws', hws, hw, -⟩ := h
  exact ⟨w, ws', hws, hw⟩

theorem Reads.mono (hmore : ∀ k, more' k = false → more k = false) : Reads p more' ws a := by
  obtain ⟨w, ws', rfl, hw, htakes⟩ := h
  exact ⟨w, ws', rfl, hw, fun u us hu => htakes u us (hmore _ hu)⟩

theorem Reads.item (hcomma : more .comma = false) (hclose : more close = false)
    (hclosers : close ∈ closers) : ReadsItem (do advance; p) close ws a := by
  obtain ⟨w, ws', rfl, hw, htakes⟩ := h
  refine ⟨⟨w, ws', rfl, fun hk => hw (hk ▸ hclosers)⟩, fun z u us hu => .advance (htakes u us ?_)⟩
  obtain hu | hu := hu <;> rwa [hu]

theorem Reads.chains : Chains p item? more ws a [] := by
  obtain ⟨w, ws', rfl, hw, htakes⟩ := h
  exact ⟨w, ws', rfl, hw, fun u us hu => ⟨_, htakes u us hu, .nil⟩⟩

theorem Reads.next (hu : more u.kind = false) (hf : ∀ y, Takes (f a) y (u :: us) b vs) :
    Takes (advance >>= fun _ => p >>= f) z (ws ++ u :: us) b vs := by
  obtain ⟨w, ws', rfl, -, htakes⟩ := h
  exact .advance ((htakes u us hu).bind hf)

end

theorem Reads.bind (h : Reads p more ws a) (hv : more v.kind = false)
    (hf : ∀ y u us, more' u.kind = false → Takes (f a) y (v :: vs ++ u :: us) b (u :: us)) :
    Reads (p >>= f) more' (ws ++ v :: vs) b := by
  obtain ⟨w, ws', rfl, hw, htakes⟩ := h
  refine ⟨w, ws' ++ v :: vs, rfl, hw, fun u us hu => ?_⟩
  rw [append_assoc]
  exact (htakes v (vs ++ u :: us) hv).bind fun y => hf y u us hu

theorem Chains.concat (h : Chains p item? more ws a bs) (hv : more v.kind = false)
    (hitem : ∀ z u us, more' u.kind = false →
      Takes item? z (v :: vs ++ u :: us) (some b) (u :: us)) :
    Chains p item? more' (ws ++ v :: vs) a (bs ++ [b]) := by
  obtain ⟨w, ws', rfl, hw, htakes⟩ := h
  refine ⟨w, ws' ++ v :: vs, rfl, hw, fun u us hu => ?_⟩
  obtain ⟨mid, hfirst, hitems⟩ := htakes v (vs ++ u :: us) hv
  have hlength : (u :: us).length < (v :: vs ++ u :: us).length := by
    simp only [length_append, length_cons]
    omega
  refine ⟨mid, ?_, hitems.concat hlength fun z => hitem z u us hu⟩
  rw [append_assoc]
  exact hfirst

theorem Chains.reads {γ : Type} {f : α → List β → Parser γ} {c : γ}
    (h : Chains p item? more ws a bs) (hmore : ∀ k, more' k = false → more k = false)
    (hdone : ∀ z u us, more' u.kind = false → Takes item? z (u :: us) none (u :: us))
    (hf : ∀ z ts, Takes (f a bs) z ts c ts) :
    Reads (p >>= fun x => many item? >>= fun xs => f x xs) more' ws c := by
  obtain ⟨w, ws', rfl, hw, htakes⟩ := h
  refine ⟨w, ws', rfl, hw, fun u us hu => ?_⟩
  obtain ⟨mid, hfirst, hitems⟩ := htakes u us (hmore _ hu)
  exact hfirst.bind fun y => (hitems.many (fun z => hdone z u us hu) y).bind fun y => hf y _

end

end Parser

/-! ### Parentheses -/

def Balanced (ws : List Token) : Prop :=
  ∀ depth rest, Cursor.closing depth (ws ++ rest) = Cursor.closing depth rest

namespace Balanced

theorem nil : Balanced [] :=
  fun _ _ => rfl

variable {ws : List Token}

theorem append (hws : Balanced ws) (hvs : Balanced vs) : Balanced (ws ++ vs) := by
  intro depth rest
  rw [append_assoc, hws, hvs]

theorem cons {t : Token}
    (ht : t.kind ∉ [TokenKind.lparen, .rparen, .eof, .illegal]) (hws : Balanced ws) :
    Balanced (t :: ws) := by
  intro depth rest
  simp only [mem_cons, not_mem_nil, or_false, not_or] at ht
  obtain ⟨hopen, hclose, heof, hillegal⟩ := ht
  rw [cons_append, Cursor.closing]
  split
  · exact absurd ‹_› hopen
  · exact absurd ‹_› hclose
  · exact absurd ‹_› heof
  · exact absurd ‹_› hillegal
  · exact hws depth rest

theorem parens (hl : l.kind = .lparen) (hr : r.kind = .rparen) (hws : Balanced ws) :
    Balanced (l :: ws ++ [r]) := by
  intro depth rest
  rw [cons_append, cons_append, Cursor.closing, hl]
  rw [append_assoc, hws, singleton_append, Cursor.closing, hr]
  simp

theorem lambdaAhead (hws : Balanced ws) (hr : r.kind = .rparen) (l : Token) (us : List Token) :
    (on l (ws ++ r :: u :: us)).lambdaAhead = decide (u.kind = .arrow) := by
  have htokens : (on l (ws ++ r :: u :: us)).peek ::
      (on l (ws ++ r :: u :: us)).rest = ws ++ r :: u :: us := by
    cases ws <;> rfl
  rw [Cursor.lambdaAhead, htokens, hws, Cursor.closing, hr]
  rfl

end Balanced

theorem Grammar.statements_one (hc : c.cur.kind ≠ .eof) (hfault : c.fault = none)
    (h : g.statement c = .ok (t, d)) (hd : d.advance.cur.kind = .eof) (fuel : Nat) :
    statements g (fuel + 2) c = ([t], d.advance.fault) := by
  have hgo : ¬ (c.cur.kind = .eof ∨ c.fault.isSome) := by
    rw [hfault]
    exact not_or.2 ⟨hc, Bool.false_ne_true⟩
  rw [statements, if_neg hgo, h]
  dsimp only
  rw [statements, if_pos (.inl hd)]

theorem Grammar.statements_of_takes (hz : z.kind ≠ .eof) (hts : Legal ts)
    (h : Parser.Takes g.statement z ts t [u]) (hu : u.kind = .eof) (fuel : Nat) :
    statements g (fuel + 2) (.on z ts) = ([t], none) := by
  obtain ⟨hlegal, y, hy⟩ := h hts
  have hadvance := advance_on (z := y) hlegal
  rw [statements_one hz rfl hy (by rw [hadvance]; exact hu), hadvance]
  rfl

end Covenant
