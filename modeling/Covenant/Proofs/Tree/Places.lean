import Covenant.Proofs.Token.Writing
import Covenant.Proofs.Tree.Taking

/-!
# Places in an expression

The rules for expressions form a ladder: each of them reads what the next one reads, and more.  The
places on it are numbered from the loosest to the tightest.
-/

namespace Covenant

open List

open Covenant.Parser (Reads Chains ReadsItem Takes)
open Token (symbol word keyword)

/-- A tree with further parts, which leave no trace when there are none. -/
def Tree.group (rule : Rule) (first : Tree) : List Tree → Tree
  | [] => first
  | t :: ts => .node rule first.pos (first :: t :: ts)

def operationKids (more : List (Tree × Tree)) : List Tree :=
  more.flatMap fun x => [x.1, x.2]

/-! ### What goes on -/

def suffixKinds : List TokenKind :=
  [.lparen, .dot, .kwIs, .kwAs]

/-- The kinds of tokens with which an expression at the place `n` would go on. -/
def continues (n : Nat) (k : TokenKind) : Bool :=
  suffixKinds.contains k || k == .arrow || (Level.all.drop (n - 2)).any (·.operators.contains k) ||
    (n ≤ 1 && k == .question) || (n == 0 && k == .assign)

/-- Behind a name, an arrow would make it the parameter of a function value. -/
def isArrow (k : TokenKind) : Bool :=
  k == .arrow

def isLess (k : TokenKind) : Bool :=
  k == .less

def isInside (k : TokenKind) : Bool :=
  k != .rparen

theorem eq_rparen_of_isInside (h : isInside k = false) : k = .rparen := by simpa [isInside] using h

theorem continues_mono (h : m ≤ n) (hk : continues m k = false) : continues n k = false := by
  simp only [continues, Bool.or_eq_false_iff] at hk ⊢
  obtain ⟨⟨⟨hsuffix, hlevels⟩, hquestion⟩, hassign⟩ := hk
  refine ⟨⟨⟨hsuffix, ?_⟩, ?_⟩, ?_⟩
  · rw [any_eq_false] at hlevels ⊢
    exact fun level hlevel => hlevels level (drop_subset_drop_left _ (by omega) hlevel)
  · rw [Bool.and_eq_false_iff, decide_eq_false_iff_not] at hquestion ⊢
    exact hquestion.imp (fun h' => by omega) id
  · rw [Bool.and_eq_false_iff, beq_eq_false_iff_ne] at hassign ⊢
    exact hassign.imp (fun h' => by omega) id

theorem continues_of_zero (hk : continues 0 k = false) (n : Nat) : continues n k = false :=
  continues_mono (Nat.zero_le n) hk

theorem continues_of_isInside (hk : isInside k = false) (n : Nat) : continues n k = false := by
  rw [eq_rparen_of_isInside hk]
  exact continues_of_zero (by decide) n

theorem contains_suffixKinds (hk : continues n k = false) :
    suffixKinds.contains k = false ∧ isArrow k = false := by
  simp only [continues, Bool.or_eq_false_iff] at hk
  exact hk.1.1.1

namespace Grammar

variable {g : Grammar}

/-! ### The ladder -/

def place (g : Grammar) : Nat → Parser Tree
  | 0 => expressionRule g
  | 1 => conditionalRule g
  | n + 2 => if n ≤ 10 then binary g (Level.all.drop n) else suffixed g

def levelAt (n : Nat) (h : n < 10) : Level :=
  Level.all[n]

theorem place_level (h : n < 10) :
    g.place (n + 2) = binary g (levelAt n h :: Level.all.drop (n + 1)) := by
  rw [place, if_pos (by omega), drop_eq_getElem_cons (by simpa [Level.all] using h)]
  rfl

theorem contains_operators (h : n < 10) (hk : continues (n + 2) k = false) :
    (levelAt n h).operators.contains k = false := by
  simp only [continues, Bool.or_eq_false_iff] at hk
  have hlevels := any_eq_false.1 hk.1.1.2 (levelAt n h) (by
    rw [Nat.add_sub_cancel, drop_eq_getElem_cons (by simpa [Level.all] using h)]
    exact .head _)
  simpa using hlevels

theorem takes_operation?_none (hu : level.operators.contains u.kind = false) :
    Takes (operation? level operand) z (u :: us) none (u :: us) := by
  refine .peek ?_
  rw [hu]
  exact .pure _ _ _

theorem takes_suffix?_none (hu : suffixKinds.contains u.kind = false) :
    Takes (suffix? g) z (u :: us) none (u :: us) := by
  refine .peek ?_
  generalize u.kind = k at hu
  split
  · cases hu
  · cases hu
  · cases hu
  · cases hu
  · exact .pure _ _ _

theorem reads_of_chains (h : n < 10)
    (hmore : ∀ k, more k = false → continues (n + 2) k = false ∧ ends k = false)
    (hchains : Chains (g.place (n + 3)) (operation? (levelAt n h) (g.place (n + 3))) ends
    ws first xs) :
    Reads (g.place (n + 2)) more ws (.group (.binary (levelAt n h)) first (operationKids xs)) := by
  have htighter : g.place (n + 3) = binary g (Level.all.drop (n + 1)) := by
    rw [place, if_pos (by omega)]
  rw [htighter] at hchains
  rw [place_level h, binary]
  refine hchains.reads (fun k hk => (hmore k hk).2)
    (fun z u us hu => takes_operation?_none (contains_operators h (hmore _ hu).1)) fun z ts => ?_
  cases xs with
  | nil | cons x xs => exact .pure _ _ _

theorem reads_of_suffixes (hmore : ∀ k, more k = false → continues n k = false ∧ ends k = false)
    (hchains : Chains (primary g) (suffix? g) ends ws first ts) :
    Reads (suffixed g) more ws (.group .suffixed first ts) := by
  rw [suffixed]
  refine hchains.reads (fun k hk => (hmore k hk).2)
    (fun z u us hu => takes_suffix?_none (contains_suffixKinds (hmore _ hu).1).1) fun z us => ?_
  cases ts with
  | nil | cons t ts => exact .pure _ _ _

theorem not_sign_of_suffixed (h : suffixed g (.on z ts) = .ok (t, .on y us)) :
    ¬ (z.kind = .bang ∨ z.kind = .minus) := by
  intro hz
  have hprimary : primary g (.on z ts) = .error ⟨.unexpectedToken z.display, z.pos⟩ := by
    have hcur (f : Token → Parser Tree) : (Parser.cur >>= f) (.on z ts) = f z (.on z ts) := rfl
    rw [primary, hcur]
    obtain hz | hz := hz <;> rw [hz] <;> rfl
  have herror : suffixed g (.on z ts) = .error ⟨.unexpectedToken z.display, z.pos⟩ := by
    change (primary g (.on z ts) >>= fun r => _) = _
    rw [hprimary]
    rfl
  rw [herror] at h
  cases h

theorem reads_of_succ (hmore : ∀ k, more k = false → continues n k = false)
    (h : Reads (g.place (n + 1)) more ws t) : Reads (g.place n) more ws t := by
  match n with
  | 0 =>
    obtain ⟨w, ws', rfl, hw, htakes⟩ := h
    refine ⟨w, ws', rfl, hw, fun u us hu => ?_⟩
    have hassign : u.kind ≠ .assign := by
      intro hk
      have hcontinues := hmore _ hu
      rw [hk] at hcontinues
      cases hcontinues
    exact (htakes u us hu).bind fun y => .unlessPeek hassign (.pure _ _ _)
  | 1 =>
    obtain ⟨w, ws', rfl, hw, htakes⟩ := h
    refine ⟨w, ws', rfl, hw, fun u us hu => ?_⟩
    have hquestion : u.kind ≠ .question := by
      intro hk
      have hcontinues := hmore _ hu
      rw [hk] at hcontinues
      cases hcontinues
    exact (htakes u us hu).bind fun y => .unlessPeek hquestion (.pure _ _ _)
  | n + 2 =>
    by_cases hlevel : n < 10
    · exact reads_of_chains hlevel (fun k hk => ⟨hmore k hk, hk⟩) h.chains
    by_cases hunary : n = 10
    · subst hunary
      obtain ⟨w, ws', rfl, hw, htakes⟩ := h
      refine ⟨w, ws', rfl, hw, fun u us hu hlegal => ?_⟩
      obtain ⟨hus, y, hy⟩ := htakes u us hu hlegal
      refine ⟨hus, y, ?_⟩
      change (if w.kind = .bang ∨ w.kind = .minus then _ else suffixed g : Parser Tree) _ = _
      rw [if_neg (not_sign_of_suffixed hy)]
      exact hy
    · have hplace (m : Nat) (hm : 10 < m) : g.place (m + 2) = suffixed g := by
        rw [place, if_neg (by omega)]
      rw [hplace (n + 1) (by omega)] at h
      rw [hplace n (by omega)]
      exact h

/-- What is read at a place is read at every looser one. -/
theorem reads_of_le (hmn : m ≤ n) (hmore : ∀ k, more k = false → continues m k = false)
    (h : Reads (g.place n) more ws t) : Reads (g.place m) more ws t := by
  induction hmn with
  | refl => exact h
  | step hle ih => exact ih (reads_of_succ (fun k hk => continues_mono hle (hmore k hk)) h)

/-! ### Lists of parts -/

theorem takes_delimited (hcomma : separators.contains .comma = true)
    (hclose : separators.contains close = false) (hlast : last.kind = close)
    (h : Forall₂ (ReadsItem item close) wss ts) (z : Token) (us : List Token) :
    Takes (Parser.delimited separators close item) z (commas wss ++ last :: us) ts us := by
  cases h with
  | nil => exact .delimited_nil hlast z us
  | cons hws h => exact .delimited hcomma hclose rfl hlast hws h z us

theorem takes_arguments
    (h : Forall₂ (ReadsItem (do Parser.advance; g.expression) .rparen) wss ts) (z : Token)
    (us : List Token) : Takes (arguments g) z (commas wss ++ symbol .rparen :: us) ts us :=
  takes_delimited (by rfl) (by rfl) (by rfl) h z us

/-! ### Types -/

theorem kind_word_not_mem_closers (w : Bytes) : (word w).kind ∉ Parser.closers := by
  change TokenKind.ident ∉ Parser.closers
  decide

section

variable {wss : List (List Token)} {t : Tree} {ts : List Tree} {w : Bytes}

theorem readsItem_parameter (w : Bytes) : ReadsItem (parameter g false) .rparen [word w]
      (.ofRule .parameter (word w) [.leaf (word w)]) where
  start := ⟨_, _, rfl, by change TokenKind.ident ≠ _; decide⟩
  takes := fun z u us hu => by
    have hcolon : u.kind ≠ .colon := by obtain hu | hu := hu <;> rw [hu] <;> decide
    exact .expect (by rfl) (.peekIs ((Takes.unlessPeek hcolon (.pure _ _ _)).bind fun y =>
      .pure _ _ _))

theorem readsItem_typedParameter (w : Bytes) (h : Reads g.type isLess ws t) :
    ReadsItem (parameter g false) .rparen (word w :: symbol .colon :: ws)
      (.ofRule .parameter (word w) [.leaf (word w), t]) where
  start := ⟨_, _, rfl, by change TokenKind.ident ≠ _; decide⟩
  takes := fun z u us hu => by
    have hless : isLess u.kind = false := by obtain hu | hu := hu <;> rw [hu] <;> rfl
    have htype (z : Token) : Takes (annotation? g) z (symbol .colon :: (ws ++ u :: us)) [t]
        (u :: us) :=
      .ifPeek (by rfl) (.advance (h.next hless fun y => .pure _ _ _))
    exact .expect (by rfl) (.peekIs ((htype _).bind fun y => .pure _ _ _))

end

/-! ### Primary expressions -/

section

variable {ws : List Token} {wss pss : List (List Token)} {t : Tree} {ts ps : List Tree}

theorem reads_name (w : Bytes) : Reads (primary g) isArrow [word w] (.leaf (word w)) := by
  refine .cons (kind_word_not_mem_closers w) fun u us hu => ?_
  have harrow : u.kind ≠ .arrow := by simpa [isArrow] using hu
  exact .cur (.unlessPeek harrow (.pure _ _ _))

def literalKinds : List TokenKind :=
  [.int, .string, .kwTrue, .kwFalse, .kwNone, .principal]

theorem reads_literal (hw : w.kind ∈ literalKinds) :
    Reads (primary g) isArrow [w] (.ofRule .literal w [.leaf w]) := by
  refine .cons ?_ fun u us _ => .cur ?_
  · generalize w.kind = k at hw
    revert k
    decide
  · have htakes : Takes (Pure.pure (Tree.ofRule .literal w [.leaf w]) : Parser Tree) w (u :: us)
        (.ofRule .literal w [.leaf w]) (u :: us) := .pure _ _ _
    simp only [literalKinds, mem_cons, not_mem_nil, or_false] at hw
    obtain hw | hw | hw | hw | hw | hw := hw <;> rw [hw] <;> exact htakes

theorem reads_parens (hws : Balanced ws) (h : Reads g.expression isInside ws t) :
    Reads (primary g) isArrow (parens ws) t := by
  refine .cons (by decide) fun u us hu => .cur (.get ?_)
  have hahead : (Cursor.on (symbol .lparen) (ws ++ symbol .rparen :: u :: us)).lambdaAhead
      = false := by
    rw [hws.lambdaAhead rfl]
    simpa [isArrow] using hu
  rw [append_assoc, singleton_append, hahead]
  exact h.next rfl fun y => (Takes.pass (by rfl)).bind fun y => .pure _ _ _

theorem reads_lambda (hpss : Balanced (commas pss))
    (hparams : Forall₂ (ReadsItem (parameter g false) .rparen) pss ps)
    (h : Reads g.expression more (parens ws) t) : Reads (primary g) more
      (symbol .lparen :: (commas pss ++ symbol .rparen :: symbol .arrow :: parens ws))
      (.ofRule .lambda (symbol .lparen) [.ofRule .parameters (symbol .lparen) ps, t]) := by
  refine .cons (by decide) fun u us hu => .cur (.get ?_)
  have hparameters (z : Token) (vs : List Token) : Takes (parameters g false) z
      (commas pss ++ symbol .rparen :: vs) (.ofRule .parameters z ps) vs :=
    .cur ((takes_delimited (by rfl) (by rfl) (by rfl) hparams _ _).bind fun y => .pure _ _ _)
  rw [append_assoc, cons_append, cons_append, hpss.lambdaAhead rfl]
  have hbody : Takes g.expression (symbol .lparen) (ws ++ [symbol .rparen] ++ u :: us) t
      (u :: us) :=
    Reads.takes h hu
  exact .cur ((hparameters _ _).bind fun y => (Takes.pass (by rfl)).bind fun y =>
    .advance (.curIs (hbody.bind fun y => .pure _ _ _)))

theorem reads_emptyList : Reads (primary g) isArrow [symbol .lbracket, symbol .rbracket]
      (.ofRule .listLit (symbol .lbracket) []) :=
  .cons (by decide) fun u us _ => .cur (.cur (.ifPeek (by rfl) (.advance (.pure _ _ _))))

theorem reads_list (hws : Reads g.expression (continues 0) ws t)
    (h : Forall₂ (ReadsItem (do Parser.advance; g.expression) .rbracket) wss ts) :
    Reads (primary g) isArrow (symbol .lbracket :: (commas (ws :: wss) ++ [symbol .rbracket]))
      (.ofRule .listLit (symbol .lbracket) (t :: ts)) := by
  refine .cons (by decide) fun u us _ => .cur (.cur ?_)
  have htail (z : Token) : Takes (Parser.tail [.comma] .rbracket
    (do Parser.advance; g.expression)) z
      (wss.flatMap (symbol .comma :: ·) ++ symbol .rbracket :: u :: us) ts (u :: us) :=
    Takes.tail (by rfl) (by rfl) (by rfl) (by rfl) h z (u :: us)
  obtain ⟨v, vs, heq, hv⟩ := Parser.exists_cons_tail (by rfl : (symbol .comma).kind = .comma)
    (by rfl : (symbol .rbracket).kind = .rbracket) wss (u :: us)
  have hends : continues 0 v.kind = false := by obtain hv | hv := hv <;> rw [hv] <;> decide
  have hfor : v.kind ≠ .kwFor := by obtain hv | hv := hv <;> rw [hv] <;> decide
  obtain ⟨w, ws', rfl, hw⟩ := hws.exists_cons
  have hclose : w.kind ≠ .rbracket := fun hk => hw (hk ▸ by decide)
  rw [commas, append_assoc, append_assoc, singleton_append]
  rw [heq] at htail ⊢
  refine .unlessPeek hclose (.advance ((hws.takes hends).bind fun y => .unlessPeek hfor ?_))
  exact (htail y).bind fun y => .pure _ _ _

section

variable {vs cs : List Token} {v c : Tree}

theorem kind_for : (keyword "for").kind = .kwFor := by decide

theorem kind_in : (keyword "in").kind = .kwIn := by decide

theorem kind_if : (keyword "if").kind = .kwIf := by decide

theorem reads_of_comprehension (hws : Reads g.expression (continues 0) ws t)
    (h : ∀ z u us, Takes (comprehension g (symbol .lbracket) t) z
    (keyword "for" :: (vs ++ u :: us)) c
      (u :: us)) :
    Reads (primary g) isArrow (symbol .lbracket :: (ws ++ keyword "for" :: vs)) c := by
  refine .cons (by decide) fun u us _ => .cur (.cur ?_)
  obtain ⟨w, ws', rfl, hw⟩ := hws.exists_cons
  have hclose : w.kind ≠ .rbracket := fun hk => hw (hk ▸ by decide)
  rw [append_assoc, cons_append]
  exact .unlessPeek hclose (.advance ((hws.takes (by rw [kind_for]; decide)).bind fun y =>
    .ifPeek kind_for (h y u us)))

section

variable (x : Bytes) (hws : Reads g.expression (continues 0) ws t)
    (hvs : Reads g.expression (continues 0) vs v)

include hws hvs

theorem reads_comprehension : Reads (primary g) isArrow
      (symbol .lbracket :: (ws ++ keyword "for" :: word x :: keyword "in" :: (vs ++
        [symbol .rbracket])))
      (.ofRule .comprehension (symbol .lbracket) [t, .leaf (word x), v]) := by
  refine reads_of_comprehension hws fun z u us => ?_
  simp only [append_assoc, cons_append, nil_append]
  exact .advance (.expect (by rfl) ((Takes.pass kind_in).bind fun y => hvs.next (by decide) fun y =>
    .unlessPeek (by decide) ((Takes.pure [] y _).bind fun y =>
      (Takes.pass (by rfl)).bind fun y => .pure _ _ _)))

theorem reads_filteredComprehension (hcs : Reads g.expression (continues 0) cs c) :
    Reads (primary g) isArrow
      (symbol .lbracket :: (ws ++ keyword "for" :: word x :: keyword "in" :: (vs ++
        keyword "if" :: (cs ++ [symbol .rbracket]))))
      (.ofRule .comprehension (symbol .lbracket) [t, .leaf (word x), v, c]) := by
  refine reads_of_comprehension hws fun z u us => ?_
  simp only [append_assoc, cons_append, nil_append]
  refine .advance (.expect (by rfl) ((Takes.pass kind_in).bind fun y =>
    hvs.next (by rw [kind_if]; decide) fun y => .ifPeek kind_if (.advance ?_)))
  exact hcs.next (by decide) fun y => (Takes.pure [c] y _).bind fun y =>
    (Takes.pass (by rfl)).bind fun y => .pure _ _ _

end

end

theorem readsItem_field (key : Bytes) (h : Reads g.expression (continues 0) ws t) :
    ReadsItem (tupleItem g) .rbrace (⟨.string, key, {}⟩ :: symbol .colon :: ws)
      (.ofRule .tupleItem ⟨.string, key, {}⟩ [.leaf ⟨.string, key, {}⟩, t]) where
  start := ⟨_, _, rfl, nofun⟩
  takes := fun z u us hu => by
    have hends : continues 0 u.kind = false := by obtain hu | hu := hu <;> rw [hu] <;> decide
    refine .advance (.cur ?_)
    rw [if_pos (.inr rfl)]
    exact (Takes.pass (by rfl)).bind fun y => h.next hends fun y => .pure _ _ _

theorem reads_tuple (h : Forall₂ (ReadsItem (tupleItem g) .rbrace) wss ts) :
    Reads (primary g) isArrow (symbol .lbrace :: (commas wss ++ [symbol .rbrace]))
      (.ofRule .tupleLit (symbol .lbrace) ts) := by
  refine .cons (by decide) fun u us _ => ?_
  rw [append_assoc]
  exact .cur (.cur ((takes_delimited (by rfl) (by rfl) (by rfl) h _ _).bind fun y => .pure _ _ _))

end

/-! ### Operators and suffixes -/

section

variable {ws ls vs : List Token} {wss : List (List Token)} {l t v : Tree} {ts : List Tree}
    {more : TokenKind → Bool}

theorem takes_operation? (hop : op.kind ∈ level.operators) (h : Reads operand more ws t)
    (z u : Token) (us : List Token) (hu : more u.kind = false) :
    Takes (operation? level operand) z (op :: ws ++ u :: us) (some (.leaf op, t)) (u :: us) := by
  refine .peek ?_
  rw [contains_iff_mem.2 hop]
  exact .advance (.cur (h.next hu fun y => .pure _ _ _))

theorem takes_call (h : Forall₂ (ReadsItem (do Parser.advance; g.expression) .rparen) wss ts)
    (z : Token) (us : List Token) :
    Takes (suffix? g) z (parens (commas wss) ++ us)
    (some (.ofRule .call (symbol .lparen) ts)) us := by
  rw [parens, cons_append, append_assoc]
  exact .peek (.advance (.cur ((takes_arguments h _ us).bind fun y => .pure _ _ _)))

theorem takes_member (x : Bytes) (z : Token) (us : List Token) :
    Takes (suffix? g) z ([symbol .dot, word x] ++ us)
      (some (.ofRule .member (word x) [.leaf (word x)])) us :=
  .peek (.advance (.expect (by rfl) (.pure _ _ _)))

theorem kind_is : (keyword "is").kind = .kwIs := by decide

theorem kind_as : (keyword "as").kind = .kwAs := by decide

section

variable (h : Reads g.type more ws t) (z u : Token) (us : List Token) (hu : more u.kind = false)

include h hu

theorem takes_isSuffix : Takes (suffix? g) z (keyword "is" :: ws ++ u :: us)
      (some (.ofRule .isSuffix (keyword "is") [t])) (u :: us) := by
  refine .peek ?_
  rw [kind_is]
  exact .advance (.cur (h.next hu fun y => .pure _ _ _))

theorem takes_asSuffix : Takes (suffix? g) z (keyword "as" :: ws ++ u :: us)
      (some (.ofRule .asSuffix (keyword "as") [t])) (u :: us) := by
  refine .peek ?_
  rw [kind_as]
  exact .advance (.cur (h.next hu fun y => .pure _ _ _))

end

theorem reads_unary (hop : op.kind = .bang ∨ op.kind = .minus) (h : Reads g.unary more ws t) :
    Reads (g.place 12) more (op :: ws) (.ofRule .unary op [.leaf op, t]) := by
  refine .cons ?_ fun u us hu => ?_
  · obtain hop | hop := hop <;> rw [hop] <;> decide
  · refine .cur ?_
    rw [if_pos hop]
    exact h.next hu fun y => .pure _ _ _

theorem reads_conditional (hls : Reads (g.place 2) (continues 2) ls l)
    (hws : Reads g.expression (continues 0) ws t) (hvs : Reads g.conditional (continues 1) vs v) :
    Reads (g.place 1) (continues 1) (ls ++ symbol .question :: (ws ++ symbol .colon :: vs))
      (.ofRule .conditional (symbol .question) [l, t, v]) := by
  refine hls.bind (by decide) fun y u us hu => ?_
  rw [cons_append, append_assoc, cons_append]
  exact .ifPeek (by rfl) (.advance (.cur (hws.next (by decide) fun y =>
    (Takes.pass (by rfl)).bind fun y =>
    hvs.next hu fun y => .pure _ _ _)))

theorem reads_assignment (hls : Reads (g.place 1) (continues 1) ls l)
    (hws : Reads g.expression (continues 0) ws t) :
    Reads (g.place 0) (continues 0) (ls ++ symbol .assign :: ws)
      (.ofRule .assignment (symbol .assign) [l, t]) :=
  hls.bind (by decide) fun y u us hu =>
    .ifPeek (by rfl) (.advance (.cur (hws.next hu fun y => .pure _ _ _)))

end

end Grammar

end Covenant
