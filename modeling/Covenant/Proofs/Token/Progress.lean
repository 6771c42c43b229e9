import Covenant.Proofs.Token.Lexeme
import Mathlib.Data.List.Pairwise
import Mathlib.Logic.Function.Iterate

/-!
# Scanning goes forward

Every step of the scanner passes glyphs of the source, and only the end of input passes none.  So a
scan ends with the end of input, and its tokens stand at increasing places.
-/

namespace Covenant

open List TokenKind

/-! ### Places -/

def Pos.Before (p q : Pos) : Prop :=
  p.line < q.line ∨ (p.line = q.line ∧ p.column < q.column)

theorem Pos.Before.trans {p q r : Pos} (h : p.Before q) (h' : q.Before r) : p.Before r := by
  unfold Before at *
  omega

theorem Pos.before_enter (p : Pos) (g : Glyph) : p.Before (p.enter (some g)) := by
  rw [enter]
  split
  · exact .inl (Int.lt_succ _)
  · exact .inr ⟨rfl, Int.lt_succ _⟩

def Pos.next (p : Pos) : Pos :=
  ⟨p.line, p.column + 1⟩

theorem Pos.before_next (p : Pos) : p.Before p.next :=
  .inr ⟨rfl, Int.lt_succ _⟩

namespace Scanner

/-! ### Passing glyphs -/

theorem rest_iterate_advance (n : Nat) (s : Scanner) : (advance^[n] s).rest = s.rest.drop n := by
  induction n generalizing s with
  | zero => rfl
  | succ n ih =>
    rw [Function.iterate_succ_apply, ih, advance]
    split
    · next h => rw [h, drop_nil, drop_nil]
    · next h => rw [h, drop_succ_cons]

def Behind (s : Scanner) (p : Pos) : Prop :=
  s.rest = [] ∨ p.Before s.pos

variable {s : Scanner} {rest : List Glyph}

theorem Behind.advance {p : Pos} (h : s.Behind p) : s.advance.Behind p := by
  obtain ⟨rest, pos⟩ := s
  match rest with
  | [] | [_] => exact .inl rfl
  | g :: g' :: rest =>
    obtain h | h := h
    · cases h
    · exact .inr (h.trans (pos.before_enter g'))

theorem Behind.iterate (h : s.Behind p) (n : Nat) : (Scanner.advance^[n] s).Behind p := by
  induction n generalizing s with
  | zero => exact h
  | succ n ih => exact ih h.advance

theorem behind_advance (s : Scanner) : s.advance.Behind s.pos := by
  obtain ⟨rest, pos⟩ := s
  match rest with
  | [] | [_] => exact .inl rfl
  | g :: g' :: rest => exact .inr (pos.before_enter g')

/-! ### Runs, strings and comments -/

theorem spanFrom_snd (p : Glyph → Bool) (gs : List Glyph) (pos : Pos) :
    (spanFrom p gs pos).2 = advance^[(spanFrom p gs pos).1.length] ⟨gs, pos⟩ := by
  induction gs generalizing pos with
  | nil => rfl
  | cons g gs ih =>
    rw [spanFrom]
    split
    · exact ih _
    · rfl

theorem span_snd (p : Glyph → Bool) (s : Scanner) :
    (s.span p).2 = advance^[(s.span p).1.length] s :=
  spanFrom_snd p s.rest s.pos

theorem span_forward (hs : s.rest = g :: rest) (hg : p g = true) :
    ∃ n, (s.span p).2 = advance^[n + 1] s := by
  refine ⟨(spanFrom p rest (s.pos.enter rest.head?)).1.length, ?_⟩
  have hlength : (s.span p).1.length = (spanFrom p rest (s.pos.enter rest.head?)).1.length + 1 := by
    rw [span, hs, spanFrom, if_pos hg, length_cons]
  rw [span_snd, hlength]

theorem number_forward (hs : s.rest = g :: rest)
    (hg : isDigit g = true) : ∃ n, s.number.2 = advance^[n + 1] s := by
  obtain ⟨n, hn⟩ := span_forward hs hg
  unfold number
  split
  next whole s₁ hspan =>
  rw [hspan] at hn
  subst hn
  split
  · split
    · refine ⟨((advance (advance^[n + 1] s)).span isDigit).1.length + (n + 1), ?_⟩
      rw [span_snd, ← Function.iterate_succ_apply' advance, ← Function.iterate_add_apply]
      rfl
    · exact ⟨n, rfl⟩
  · exact ⟨n, rfl⟩

theorem principal_forward (s : Scanner) : ∃ n, s.principal.2 = advance^[n] s := by
  unfold principal
  split
  next address s₁ hspan =>
  have hn : s₁ = advance^[(s.span isAddressPart).1.length] s := by rw [← span_snd, hspan]
  subst hn
  split
  · refine ⟨((advance (advance^[(s.span isAddressPart).1.length] s)).span isContractPart).1.length +
      ((s.span isAddressPart).1.length + 1), ?_⟩
    rw [span_snd, ← Function.iterate_succ_apply' advance, ← Function.iterate_add_apply]
  · exact ⟨_, rfl⟩

theorem stringBody_forward (quote : Char) (gs : List Glyph) (pos : Pos) :
    ∃ n, (stringBody quote gs pos).2 = advance^[n] ⟨gs, pos⟩ := by
  fun_induction stringBody quote gs pos with
  | case1 pos | case2 g rest pos hquote | case3 g rest pos hquote hend => exact ⟨0, rfl⟩
  | case4 g pos => exact ⟨1, rfl⟩
  | case5 g pos _ _ _ e rest' body s heq ih =>
    obtain ⟨n, hn⟩ := ih
    rw [heq] at hn
    exact ⟨n + 2, hn⟩
  | case6 g rest pos _ _ _ body s heq ih =>
    obtain ⟨n, hn⟩ := ih
    rw [heq] at hn
    exact ⟨n + 1, hn⟩

theorem string_forward (quote : Char) (s : Scanner) :
    (s.string quote).1.pos = s.pos ∧ ∃ n, (s.string quote).2 = advance^[n + 1] s := by
  obtain ⟨n, hn⟩ := stringBody_forward quote s.advance.rest s.advance.pos
  unfold string
  dsimp only
  split
  · next body s' heq =>
    rw [heq] at hn
    refine ⟨rfl, n + 1, ?_⟩
    rw [Function.iterate_succ_apply' advance (n + 1)]
    exact congrArg advance hn
  · next s' heq =>
    rw [heq] at hn
    exact ⟨rfl, n, hn⟩

/-- The glyphs that skipping has passed.  A comment without an end was opened, so some were. -/
def Skipped.Passed (s : Scanner) (mode : Mode) : Skipped → Prop
  | .ready s' => ∃ n, s' = advance^[n] s
  | .openComment _ s' =>
    match mode with
    | .block _ => ∃ n, s' = advance^[n] s
    | _ => s.rest ≠ [] ∧ ∃ n, s' = advance^[n + 1] s

theorem Skipped.Passed.of_advance {mode mode' : Mode} {r : Skipped} (k : Nat)
    (hs : s.rest ≠ []) (h : r.Passed (advance^[k + 1] s) mode') : r.Passed s mode := by
  have one : ∀ {s' n}, s' = advance^[n] (advance^[k + 1] s) → s' = advance^[n + k + 1] s :=
    fun h => by rw [h, ← Function.iterate_add_apply, Nat.add_assoc]
  have some : ∀ {s'}, (∃ n, s' = advance^[n] (advance^[k + 1] s)) → ∃ n, s' = advance^[n] s := by
    rintro s' ⟨n, hn⟩
    exact ⟨_, one hn⟩
  cases r with
  | ready s' => exact some h
  | openComment p s' =>
    cases mode <;> cases mode' <;> simp only [Passed] at h ⊢ <;> grind

theorem skip_passed (mode : Mode) (gs : List Glyph) (pos : Pos) :
    (skip mode gs pos).Passed ⟨gs, pos⟩ mode := by
  fun_induction skip mode gs pos with
  | case1 start p | case2 mode p hmode => exact ⟨0, rfl⟩
  | case3 rest p ih | case4 rest p ih => exact ih.of_advance (s := ⟨_, p⟩) 1 (cons_ne_nil _ _)
  | case5 g rest p _ _ _ ih => exact ih.of_advance (s := ⟨_, p⟩) 0 (cons_ne_nil _ _)
  | case6 g rest p => exact ⟨0, rfl⟩
  | case7 g rest p _ ih => exact ih.of_advance (s := ⟨_, p⟩) 0 (cons_ne_nil _ _)
  | case8 g rest p => exact ⟨0, rfl⟩
  | case9 g rest p _ _ ih => exact ih.of_advance (s := ⟨_, p⟩) 0 (cons_ne_nil _ _)
  | case10 start rest p ih => exact ih.of_advance (s := ⟨_, p⟩) 1 (cons_ne_nil _ _)
  | case11 start g rest p => exact ⟨0, rfl⟩
  | case12 start g rest p _ _ ih => exact ih.of_advance (s := ⟨_, p⟩) 0 (cons_ne_nil _ _)

end Scanner

/-! ### Tokens -/

/-- The place of the second half of a shift, and the first place of any other token. -/
def Token.last (t : Token) : Pos :=
  if t.kind = .shiftRight then t.pos.next else t.pos

theorem Token.before_of_last {t u : Token} (h : t.last.Before u.pos) : t.pos.Before u.pos := by
  unfold last at h
  split at h
  · exact t.pos.before_next.trans h
  · exact h

namespace Scanner

/-- The token starts at the first scanner, and the second stands behind it. -/
structure Passes (s : Scanner) (t : Token) (s' : Scanner) : Prop where
  pos : t.pos = s.pos
  rest : s.rest ≠ []
  forward : ∃ n, s' = advance^[n + 1] s
  behind : s'.Behind t.last

variable {s : Scanner}

theorem Passes.of_forward {t : Token} (hpos : t.pos = s.pos) (hs : s.rest ≠ [])
    (hkind : t.kind ≠ .shiftRight) (h : ∃ n, s' = advance^[n + 1] s) : s.Passes t s' := by
  refine ⟨hpos, hs, h, ?_⟩
  obtain ⟨n, rfl⟩ := h
  rw [Token.last, if_neg hkind, hpos]
  exact s.behind_advance.iterate n

theorem kind_string_ne_shiftRight (quote : Char) (s : Scanner) :
    (s.string quote).1.kind ≠ .shiftRight := by
  rw [string]
  split <;> exact noConfusion

theorem ofWord_ne_shiftRight (w : Bytes) : ofWord w ≠ .shiftRight := by
  have hkeyword : shiftRight ∉ keywords.map Prod.snd := by decide
  intro h
  obtain hw | hw := ofWord_mem w
  · cases h.symm.trans hw
  · exact hkeyword (h ▸ hw)

theorem symbol_eq_shiftRight {next : Option Glyph} {two : Bool}
    (h : symbol c next = some (.shiftRight, two)) : next = some (.char '>') ∧ two = true := by
  unfold symbol at h
  dsimp only at h
  split at h <;> (repeat' split at h) <;> cases h
  next h => exact ⟨eq_of_beq h, rfl⟩

theorem passes_symbol {rest : List Glyph} {two : Bool}
    (hs : s.rest = g :: rest) (h : symbol g.rune rest.head? = some (k, two)) :
    s.Passes ⟨k, k.name, s.pos⟩ (if two then s.advance.advance else s.advance) := by
  have hrest : s.rest ≠ [] := hs ▸ cons_ne_nil _ _
  by_cases hk : k = .shiftRight
  · subst hk
    obtain ⟨hnext, rfl⟩ := symbol_eq_shiftRight h
    have hpos : s.advance.pos = s.pos.next := by
      rw [advance, hs]
      dsimp only
      rw [hnext]
      rfl
    refine ⟨rfl, hrest, ⟨1, rfl⟩, ?_⟩
    rw [Token.last, if_pos rfl, ← hpos]
    exact s.advance.behind_advance
  · refine .of_forward rfl hrest hk ?_
    split
    · exact ⟨1, rfl⟩
    · exact ⟨0, rfl⟩

theorem passes_token (h : s.token.1.kind ≠ .eof) : s.Passes s.token.1 s.token.2 := by
  revert h
  rw [token]
  split
  · exact fun h => absurd rfl h
  next g rest hs =>
  have hrest : s.rest ≠ [] := hs ▸ cons_ne_nil _ _
  split
  · exact fun h => absurd rfl h
  intro _
  split
  · next hsymbol => exact passes_symbol hs hsymbol
  have hstring : ∀ quote, s.Passes (s.string quote).1 (s.string quote).2 := fun quote =>
    .of_forward (string_forward quote s).1 hrest (kind_string_ne_shiftRight quote s)
      (string_forward quote s).2
  split
  · exact hstring _
  split
  · split
    · exact .of_forward rfl hrest noConfusion (principal_forward s.advance)
    · exact hstring _
  split
  · split
    · split
      · exact .of_forward rfl hrest noConfusion ⟨_, span_snd isNamePart s.advance⟩
      · exact .of_forward rfl hrest noConfusion ⟨0, rfl⟩
    · exact .of_forward rfl hrest noConfusion ⟨0, rfl⟩
  split
  · next hg =>
    have hpart : isNamePart g = true := by rw [isNamePart, hg, Bool.true_or]
    exact .of_forward rfl hrest (ofWord_ne_shiftRight _) (span_forward hs hpart)
  split
  · next hg =>
    refine .of_forward rfl hrest ?_ (number_forward hs hg)
    dsimp only
    split <;> exact noConfusion
  · exact .of_forward rfl hrest noConfusion ⟨0, rfl⟩

/-- Skipping what stands before it, the scanner finds a token and passes it. -/
theorem next_forward (h : s.next.1.kind ≠ .eof) (hlegal : s.next.1.kind ≠ .illegal) :
    ∃ n, (advance^[n] s).Passes s.next.1 s.next.2 := by
  have hskip := skip_passed .blank s.rest s.pos
  rw [next, skipTrivia] at h hlegal ⊢
  cases hs : skip .blank s.rest s.pos with
  | ready s' =>
    rw [hs] at h hskip
    obtain ⟨n, rfl⟩ := hskip
    exact ⟨n, passes_token h⟩
  | openComment start s' =>
    rw [hs] at hlegal
    exact absurd rfl hlegal

theorem length_next_lt (h : s.next.1.kind ≠ .eof) : s.next.2.rest.length < s.rest.length := by
  have hskip := skip_passed .blank s.rest s.pos
  have shorter : ∀ (s : Scanner) n, s.rest ≠ [] →
      (advance^[n + 1] s).rest.length < s.rest.length := fun s n hs => by
    have := length_pos_iff.2 hs
    rw [rest_iterate_advance, length_drop]
    omega
  rw [next, skipTrivia] at h ⊢
  cases hs : skip .blank s.rest s.pos with
  | ready s' =>
    rw [hs] at h hskip
    obtain ⟨m, rfl⟩ := hskip
    obtain ⟨-, hrest, ⟨n, hn⟩, -⟩ := passes_token h
    have hle : (advance^[m] s).rest.length ≤ s.rest.length := by
      rw [rest_iterate_advance, length_drop]
      exact Nat.sub_le _ _
    rw [hn]
    exact Nat.lt_of_lt_of_le (shorter _ n hrest) hle
  | openComment start s' =>
    rw [hs] at hskip
    obtain ⟨hrest, n, rfl⟩ := hskip
    exact shorter s n hrest

/-! ### The whole scan -/

theorem tokensWithin_eq (h : s.rest.length < fuel) :
    ∃ ts e, tokensWithin fuel s = ts ++ [e] ∧ e.kind = .eof ∧ ∀ t ∈ ts, t.kind ≠ .eof := by
  induction fuel generalizing s with
  | zero => exact absurd h (Nat.not_lt_zero _)
  | succ fuel ih =>
    rw [tokensWithin]
    dsimp only
    split
    · next heof => exact ⟨[], _, rfl, heof, fun t ht => absurd ht not_mem_nil⟩
    · next heof =>
      obtain ⟨ts, e, hts, he, hall⟩ := ih (Nat.lt_of_lt_of_le (length_next_lt heof)
        (Nat.le_of_lt_succ h))
      exact ⟨s.next.1 :: ts, e, by rw [hts, cons_append], he,
        forall_mem_cons.2 ⟨heof, hall⟩⟩

theorem pairwise_tokensWithin
    (h : tokensWithin fuel s = ts ++ [e]) (hts : ∀ t ∈ ts, t.kind ≠ .illegal) :
    ts.Pairwise (·.last.Before ·.pos) ∧ ∀ p, s.Behind p → ∀ t ∈ ts, p.Before t.pos := by
  induction fuel generalizing s ts with
  | zero => exact absurd h.symm (append_ne_nil_of_right_ne_nil _ (cons_ne_nil _ _))
  | succ fuel ih =>
    cases ts with
    | nil => exact ⟨.nil, fun p _ t ht => absurd ht not_mem_nil⟩
    | cons t ts =>
      rw [tokensWithin] at h
      dsimp only at h
      split at h
      · exact absurd (List.cons.inj h).2.symm (by simp)
      · next heof =>
        obtain ⟨rfl, hnext⟩ := List.cons.inj h
        obtain ⟨hlegal, hts⟩ := forall_mem_cons.1 hts
        obtain ⟨n, hpasses⟩ := next_forward heof hlegal
        obtain ⟨hpairwise, hbehind⟩ := ih hnext hts
        have hlast := hbehind _ hpasses.behind
        refine ⟨pairwise_cons.2 ⟨hlast, hpairwise⟩, fun p hp => ?_⟩
        have hp' : p.Before s.next.1.pos := by
          obtain hend | hbefore := hp.iterate n
          · exact absurd hend hpasses.rest
          · exact hpasses.pos ▸ hbefore
        exact forall_mem_cons.2
          ⟨hp', fun t ht => hp'.trans (Token.before_of_last (hlast t ht))⟩

end Scanner

theorem Token.scan_eq (source : Bytes) :
    ∃ ts e, scan source = ts ++ [e] ∧ e.kind = .eof ∧ ∀ t ∈ ts, t.kind ≠ .eof :=
  Scanner.tokensWithin_eq (Nat.lt_succ_self _)

theorem Token.pairwise_scan {source : Bytes} (h : scan source = ts ++ [e])
    (hts : ∀ t ∈ ts, t.kind ≠ .illegal) : ts.Pairwise (·.last.Before ·.pos) :=
  (Scanner.pairwise_tokensWithin h hts).1

end Covenant
