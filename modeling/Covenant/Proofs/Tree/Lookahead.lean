import Covenant.Proofs.Token.Segmentation
import Covenant.Proofs.Token.Spaced
import Covenant.Proofs.Tree.Continuation

/-!
# Looking ahead for a function

An open parenthesis starts a function when an arrow follows its closing one.  To find out, a parser
keeps its state, takes token after token, and puts every part of the state back.  A cursor shows
what such a parser has before it, and answers the same question without taking anything.

* `Cursor.arrowAfter_iff` : what the scan for the closing parenthesis decides.
* `Parser.State.Shows.next`, `Parser.State.Shows.splitShift` : a cursor goes along with a state.
* `Parser.State.restore_save` : as faults are only ever added, a state that is put back is the old
  one.
* `Parser.State.lookAhead_exact` : looking ahead is exact and leaves no trace.
-/

namespace Covenant

open List Cursor
open Covenant.Parser

namespace Cursor

/-- How a token changes the number of open parentheses. -/
def weight (t : Token) : Int :=
  if t.kind = .lparen then 1 else if t.kind = .rparen then -1 else 0

def depth : List Token → Int
  | [] => 0
  | t :: ts => weight t + depth ts

/-- With `n` parentheses open, one of the tokens closes all of them for the first time and an arrow
follows it, with neither the end of input nor an illegal token up to there. -/
def Closes (n : Int) (ts : List Token) : Prop :=
  ∃ w t u rest, ts = w ++ t :: u :: rest ∧ n + depth (w ++ [t]) = 0 ∧
    (∀ v, v <+: w → 0 < n + depth v) ∧
    (∀ v ∈ w ++ [t], v.kind ≠ .eof ∧ v.kind ≠ .illegal) ∧ u.kind = .arrow

theorem depth_cons : depth (t :: ts) = weight t + depth ts :=
  rfl

theorem closes_cons : Closes n (t :: ts) ↔ 0 < n ∧ (t.kind ≠ .eof ∧ t.kind ≠ .illegal) ∧
    (n + weight t = 0 ∧ ts.head?.any (·.kind = .arrow) ∨ Closes (n + weight t) ts) := by
  constructor
  · rintro ⟨w, a, u, rest, heq, hclose, hbefore, hlegal, harrow⟩
    refine ⟨by simpa [depth] using hbefore [] nil_prefix, ?_⟩
    cases w with
    | nil =>
      cases heq
      exact ⟨hlegal t (.head _), .inl ⟨by simpa [depth] using hclose, by simp [harrow]⟩⟩
    | cons b w =>
      cases heq
      refine ⟨hlegal t (.head _), .inr ⟨w, a, u, rest, rfl, ?_, fun v hv => ?_,
        fun v hv => hlegal v (.tail _ hv), harrow⟩⟩
      · rwa [cons_append, depth_cons, ← Int.add_assoc] at hclose
      · rw [Int.add_assoc, ← depth_cons]
        exact hbefore (t :: v) (prefix_cons_inj t |>.2 hv)
  · rintro ⟨hn, ht, ⟨hclose, harrow⟩ | ⟨w, a, u, rest, rfl, hclose, hbefore, hlegal, harrow⟩⟩
    · cases ts with
      | nil => cases harrow
      | cons u rest =>
        refine ⟨[], t, u, rest, rfl, by simpa [depth] using hclose, fun v hv => ?_,
          by simpa using ht,
          by simpa using harrow⟩
        rw [prefix_nil.1 hv]
        simpa [depth] using hn
    · refine ⟨t :: w, a, u, rest, rfl, ?_, fun v hv => ?_, forall_mem_cons.2 ⟨ht, hlegal⟩, harrow⟩
      · rwa [cons_append, depth_cons, ← Int.add_assoc]
      · cases v with
        | nil => simpa [depth] using hn
        | cons b v =>
          obtain ⟨rfl, hvw⟩ := cons_prefix_cons.1 hv
          rw [depth_cons, ← Int.add_assoc]
          exact hbefore v hvw

theorem arrowAfter_iff (ts : List Token) (n : Nat) :
    arrowAfter n ts = true ↔ Closes (n + 1) ts := by
  induction ts generalizing n with
  | nil => simp [arrowAfter, closing, Closes]
  | cons t ts ih =>
    have hn : (0 : Int) < n + 1 := by omega
    rw [arrowAfter_cons, closes_cons]
    split
    · next hk =>
      have hopen : ¬ (n : Int) + 1 + 1 = 0 := by omega
      simp [weight, hk, hn, hopen, ih]
    · next hk =>
      split
      · next hzero =>
        have hnone : ¬ Closes 0 ts := by
          rintro ⟨w, _, _, _, _, _, hbefore, _⟩
          simpa [depth] using hbefore [] nil_prefix
        subst hzero
        simp [weight, hk, hnone]
      · next hne =>
        have hpred : ((n - 1 : Nat) : Int) + 1 = n := by omega
        have hclosed : (n : Int) + 1 + -1 = n := by omega
        simp [weight, hk, hn, hne, ih, hpred, hclosed]
    · next hk => simp [hk]
    · next hk => simp [hk]
    · next hopen hclose heof hillegal => simp_all [weight, Int.ne_of_gt]

theorem arrowAfter_singleton (n : Nat) (t : Token) : arrowAfter n [t] = false := by
  rw [arrowAfter_cons]
  split
  · rfl
  · split <;> rfl
  all_goals rfl

theorem arrowAfter_rest (c : Cursor) (n : Nat) :
    arrowAfter n c.rest = arrowAfter n c.advance.ahead := by
  cases hrest : c.rest with
  | nil =>
    rw [ahead, rest_advance, hrest]
    exact (arrowAfter_singleton n _).symm
  | cons t ts => rw [← hrest, ahead_advance (by simp [hrest])]

end Cursor

/-! ### States of a parser -/

/-- What a parser keeps while it reads: the token before, the one it stands on and the one behind
it, the tokens that were pushed back, what went wrong, and the scanner. -/
structure Parser.State where
  prev : Token
  cur : Token
  peek : Token
  pending : List Token
  faults : List Fault
  scanner : Scanner

/-- A copy of a state.  Of the faults it keeps the number. -/
structure Parser.Saved where
  prev : Token
  cur : Token
  peek : Token
  pending : List Token
  faults : Nat
  rest : List Glyph
  pos : Pos

namespace Parser.State

variable {s s' : State} {c : Cursor}

/-- Add a fault, unless there is one. -/
def addFault (s : State) (f : Fault) : State :=
  if s.faults.isEmpty then { s with faults := s.faults ++ [f] } else s

/-- Complain about a token that is no word of the language. -/
def note (s : State) (t : Token) : State :=
  if t.kind = .illegal then s.addFault t.illegalFault else s

/-- The next token: the first that was pushed back, or else what the scanner answers. -/
def pull (s : State) : Token × State :=
  match s.pending with
  | t :: rest => (t, { s with pending := rest })
  | [] => (s.scanner.next.1, { s with scanner := s.scanner.next.2 })

/-- Go on by one token. -/
def next (s : State) : State :=
  { s.pull.2 with prev := s.cur, cur := s.peek, peek := s.pull.1 }.note s.pull.1

/-- Take the first half of the `>>` behind the state; the second is next, and what follows it is
pushed back. -/
def splitShift (s : State) : State :=
  let s' := { s with peek := s.peek.left }.next
  { s' with peek := s.peek.right, pending := s'.peek :: s'.pending }

/-- The state on the first token of a source. -/
def ofSource (source : Bytes) : State :=
  (State.mk default default default [] [] (.ofBytes source)).next.next

/-- Copy the state. -/
def save (s : State) : Saved :=
  ⟨s.prev, s.cur, s.peek, s.pending, s.faults.length, s.scanner.rest, s.scanner.pos⟩

/-- Put everything back as it was, and drop the faults that came since. -/
def restore (s : State) (old : Saved) : State :=
  { s with
    prev := old.prev
    cur := old.cur
    peek := old.peek
    pending := old.pending
    faults := s.faults.take old.faults
    scanner := ⟨old.rest, old.pos⟩ }

/-- Take tokens until the open parentheses are closed, at most `fuel` of them; is an arrow next? -/
def search : (fuel depth : Nat) → State → Bool × State
  | 0, _, s => (false, s)
  | fuel + 1, depth, s =>
    match s.next.cur.kind with
    | .lparen => search fuel (depth + 1) s.next
    | .rparen => if depth = 0 then (s.next.peek.kind = .arrow, s.next)
      else search fuel (depth - 1) s.next
    | .eof | .illegal => (false, s.next)
    | _ => search fuel depth s.next

/-- Search from here, and go back. -/
def lookAhead (s : State) : Bool × State :=
  let (found, s') := s.search (s.pending ++ s.scanner.tokens).length 0
  (found, s'.restore s.save)

/-! ### Going back -/

theorem faults_pull (s : State) : s.pull.2.faults = s.faults := by
  rw [pull]
  split <;> rfl

theorem faults_note (s : State) (t : Token) : s.faults <+: (s.note t).faults := by
  unfold note addFault
  split
  · split
    · exact prefix_append _ _
    · exact prefix_rfl
  · exact prefix_rfl

theorem faults_next (s : State) : s.faults <+: s.next.faults := by
  rw [← faults_pull s]
  exact faults_note { s.pull.2 with prev := s.cur, cur := s.peek, peek := s.pull.1 } s.pull.1

theorem faults_search (fuel depth : Nat) (s : State) :
    s.faults <+: (search fuel depth s).2.faults := by
  induction fuel generalizing depth s with
  | zero => exact prefix_rfl
  | succ fuel ih =>
    have hstep (n : Nat) : s.faults <+: (search fuel n s.next).2.faults :=
      s.faults_next.trans (ih n s.next)
    rw [search]
    split
    · exact hstep _
    · split
      · exact s.faults_next
      · exact hstep _
    · exact s.faults_next
    · exact s.faults_next
    · exact hstep _

/-- Faults are only added, so the old ones are those in front. -/
theorem restore_save (h : s.faults <+: s'.faults) : s'.restore s.save = s := by
  have hfaults := (prefix_iff_eq_take.1 h).symm
  rw [restore, save]
  rw [hfaults]

/-! ### The cursor that goes along -/

/-- The tokens that the state has yet to pull are the given ones.  Behind the end of input the
scanner stays. -/
def Feeds (s : State) (peek : Token) (rest : List Token) : Prop :=
  s.pending ++ s.scanner.tokens = rest ∨
    s.pending = rest ∧ s.scanner.next = ((peek :: rest).getLast (cons_ne_nil _ _), s.scanner) ∧
      s.scanner.next.1.kind = .eof

/-- A cursor stands where the state stands. -/
structure Shows (s : State) (c : Cursor) : Prop where
  cur : s.cur = c.cur
  peek : s.peek = c.peek
  fault : s.faults.head? = c.fault
  feeds : s.Feeds c.peek c.rest

theorem Feeds.pull {peek : Token} {rest : List Token} (h : s.Feeds peek rest) :
    s.pull.1 = rest.headD peek ∧ s.pull.2.Feeds s.pull.1 rest.tail := by
  rw [State.pull]
  cases hpending : s.pending with
  | cons t pending =>
    rw [Feeds, hpending] at h
    obtain rfl | ⟨rfl, hstays⟩ := h
    · exact ⟨rfl, .inl rfl⟩
    · exact ⟨rfl, .inr ⟨rfl, hstays⟩⟩
  | nil =>
    rw [Feeds, hpending] at h
    obtain rfl | ⟨rfl, hstays, heof⟩ := h
    · by_cases heof : s.scanner.next.1.kind = .eof
      · have htokens : s.scanner.tokens = [s.scanner.next.1] := by
          exact if_pos heof
        have hstays : s.scanner.next.2.next = s.scanner.next := by
          obtain ⟨-, hstays, -⟩ | ⟨_, _, -, -, hread⟩ := s.scanner.next_cases
          · exact hstays
          · exact absurd heof hread.kind_ne_eof
        rw [nil_append, htokens]
        exact ⟨rfl, .inr ⟨rfl, hstays, by dsimp only; rwa [hstays]⟩⟩
      · rw [nil_append, Scanner.tokens_of_next heof]
        exact ⟨rfl, .inl rfl⟩
    · rw [hstays] at heof ⊢
      exact ⟨rfl, .inr ⟨rfl, hstays, by rwa [hstays]⟩⟩

theorem Shows.note (h : s.Shows c) (t : Token) : (s.note t).Shows (c.note t) := by
  unfold State.note Cursor.note
  by_cases ht : t.kind = .illegal
  · rw [if_pos ht, if_pos ht, addFault]
    obtain ⟨hcur, hpeek, hfault, hfeeds⟩ := h
    cases hfaults : s.faults with
    | nil => exact ⟨hcur, hpeek, by simp [← hfault, hfaults], hfeeds⟩
    | cons f fs => exact ⟨hcur, hpeek, by simp [← hfault, hfaults], hfeeds⟩
  · rwa [if_neg ht, if_neg ht]

theorem Shows.next (h : s.Shows c) : s.next.Shows c.advance := by
  obtain ⟨htoken, hfeeds⟩ := h.feeds.pull
  rw [State.next, Cursor.advance, htoken]
  refine Shows.note ⟨h.peek, rfl, ?_, htoken ▸ hfeeds⟩ _
  rw [← h.fault, ← s.faults_pull]

theorem Shows.splitShift (h : s.Shows c) (hpeek : s.peek.kind = .shiftRight) :
    s.splitShift.Shows c.splitShift.advance := by
  obtain ⟨hcur, hpeek', hfault, hfeeds⟩ := h
  obtain ⟨cur, peek, rest, fault⟩ := c
  obtain rfl : s.peek = peek := hpeek'
  cases rest with
  | nil =>
    obtain hnil | ⟨-, hstays, heof⟩ := hfeeds
    · obtain ⟨ts, e, htokens, -⟩ := Scanner.tokensWithin_eq (Nat.lt_succ_self s.scanner.rest.length)
      exact absurd ((append_eq_nil_iff.1 hnil).2.symm.trans htokens) (by simp)
    · rw [hstays] at heof
      cases hpeek.symm.trans heof
  | cons t ts =>
    -- the first half is taken as any other token would be
    have hfirst : ({ s with peek := s.peek.left } : State).Shows
        ⟨cur, s.peek.left, t :: ts, fault⟩ :=
      ⟨hcur, rfl, hfault, hfeeds⟩
    obtain ⟨hcur, hpeek, hfault, hfeeds⟩ := hfirst.next
    have hback : (Cursor.mk cur s.peek (t :: ts) fault).splitShift.advance =
        { (Cursor.mk cur s.peek.left (t :: ts) fault).advance with
          peek := s.peek.right, rest := t :: ts } := by
      by_cases ht : t.kind = .illegal <;>
        simp [Cursor.splitShift, Cursor.advance, Cursor.note, Token.left, Token.right, Pos.next, ht]
    rw [hback]
    refine ⟨hcur, rfl, hfault, ?_⟩
    rw [Cursor.peek_advance] at hpeek hfeeds
    rw [Cursor.rest_advance] at hfeeds
    obtain hrest | ⟨hrest, hstays⟩ := hfeeds
    · exact .inl (congrArg₂ cons hpeek hrest)
    · exact .inr ⟨congrArg₂ cons hpeek hrest, hstays⟩

theorem shows_ofSource (source : Bytes) :
    (ofSource source).Shows (.ofTokens (Token.scan source)) := by
  have hstart : (State.mk default default default [] [] (.ofBytes source)).Shows
      ⟨default, default, Token.scan source, none⟩ :=
    ⟨rfl, rfl, rfl, .inl rfl⟩
  obtain ⟨ts, e, hscan, he, -⟩ := Token.scan_eq source
  have hcursor : Cursor.ofTokens (Token.scan source) =
      (Cursor.mk default default (Token.scan source) none).advance.advance := by
    rw [hscan]
    match ts with
    | [] => simp [Cursor.ofTokens, Cursor.advance, Cursor.note, he]
    | t :: ts =>
      obtain ⟨u, us, hu⟩ : ∃ u us, ts ++ [e] = u :: us := exists_cons_of_ne_nil (by simp)
      rw [cons_append, hu]
      by_cases ht : t.kind = .illegal <;> by_cases hu : u.kind = .illegal <;>
        simp [Cursor.ofTokens, Cursor.advance, Cursor.note, ht, hu]
  rw [hcursor]
  exact hstart.next.next

theorem Shows.search {fuel : Nat} (h : s.Shows c) (hfuel : c.rest.length ≤ fuel) (n : Nat) :
    (search fuel n s).1 = arrowAfter n c.ahead := by
  induction fuel generalizing s c n with
  | zero =>
    rw [ahead, length_eq_zero_iff.1 (Nat.le_zero.1 hfuel), arrowAfter_singleton]
    rfl
  | succ fuel ih =>
    have hnext (m : Nat) : (search fuel m s.next).1 = arrowAfter m c.rest := by
      rw [arrowAfter_rest]
      exact ih h.next (by rw [rest_advance, length_tail]; omega) m
    rw [State.search, ahead, arrowAfter_cons, h.next.cur, cur_advance]
    cases hk : c.peek.kind
    case rparen =>
      by_cases hn : n = 0
      · simp only [if_pos hn, h.next.peek, peek_advance]
        cases c.rest <;> simp [hk]
      · simp only [if_neg hn]
        exact hnext _
    case eof | illegal => rfl
    all_goals exact hnext _

theorem Shows.lookAhead (h : s.Shows c) : s.lookAhead.1 = c.lambdaAhead := by
  refine h.search ?_ 0
  obtain hrest | ⟨hrest, -⟩ := h.feeds
  · rw [hrest]
  · rw [← hrest, length_append]
    exact Nat.le_add_right _ _

theorem snd_lookAhead (s : State) : s.lookAhead.2 = s :=
  restore_save (faults_search _ _ s)

/-- The states that a parser comes to on a source, each with the cursor that goes along. -/
inductive Reads (source : Bytes) : State → Cursor → Prop
  | start : Reads source (ofSource source) (.ofTokens (Token.scan source))
  | next {s : State} {c : Cursor} : Reads source s c → Reads source s.next c.advance
  | splitShift {s : State} {c : Cursor} : Reads source s c → s.peek.kind = .shiftRight →
      Reads source s.splitShift c.splitShift.advance
  | lookAhead {s : State} {c : Cursor} : Reads source s c → Reads source s.lookAhead.2 c

theorem Reads.shows (h : Reads source s c) : s.Shows c := by
  induction h with
  | start => exact shows_ofSource source
  | next _ ih => exact ih.next
  | splitShift _ hpeek ih => exact ih.splitShift hpeek
  | lookAhead _ ih => rwa [snd_lookAhead]

/-- **Looking ahead is exact and leaves no trace.**  At an open parenthesis the answer is whether an
arrow follows the closing one, with neither the end of input nor an illegal token up to there.  The
state is the same afterwards, in all its parts; and a rule that goes by the cursor reads on as one
that has looked. -/
theorem lookAhead_exact (h : Reads source s c) (hcur : s.cur.kind = .lparen) :
    (s.lookAhead.1 = true ↔ Cursor.Closes 1 c.ahead) ∧ s.lookAhead.2 = s ∧ s.Shows c ∧
      ∀ g : Grammar, g.primary c = (if s.lookAhead.1 then g.lambda else g.parenthesized) c := by
  have hshows := h.shows
  refine ⟨?_, s.snd_lookAhead, hshows, fun g => ?_⟩
  · rw [hshows.lookAhead]
    exact arrowAfter_iff c.ahead 0
  · rw [hshows.lookAhead]
    rw [hshows.cur] at hcur
    obtain ⟨⟨k, _, _⟩, _⟩ := c
    obtain rfl : k = .lparen := hcur
    rfl

/-- Behind the halves of a `>>`. -/
theorem lookAhead_exact_halves :
    let s := (ofSource "a>>(d)=>1").splitShift.next.next
    s.cur.kind = .lparen ∧ s.lookAhead.1 = true ∧ s.lookAhead.2 = s := by
  have hcur : (ofSource "a>>(d)=>1").splitShift.next.next.cur.kind = .lparen := by decide
  obtain ⟨-, hsame, -⟩ := lookAhead_exact
    (.next (.next (.splitShift (@Reads.start "a>>(d)=>1") (by decide)))) hcur
  exact ⟨hcur, by decide, hsame⟩

end Parser.State

end Covenant
