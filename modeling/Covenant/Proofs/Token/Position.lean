import Covenant.Proofs.Token.Segmentation
import Mathlib.Data.List.DropRight

/-!
# Places of tokens

A token tells the line and the column at which its text starts.  The scanner keeps the place of the
glyph on which it stands, one glyph ahead of what it has taken, and only `Scanner.advance` changes
it: so whatever has been scanned, saved and restored before, the place is that of the glyph in the
source.
-/

namespace Covenant

open List Bytes

/-! ### Glyphs that were read -/

def Glyph.AreRead (gs : List Glyph) : Prop :=
  (ofGlyphs gs).glyphs = gs

namespace Glyph.AreRead

theorem of_glyphs (s : Bytes) : AreRead s.glyphs := by rw [AreRead, ofGlyphs_glyphs]

theorem stray_iff {b : UInt8} {s : Bytes} :
    glyphs (b :: s) = .stray b :: s.glyphs ↔ read b s = (.stray b, 0) := by
  rw [glyphs, glyphsFrom]
  obtain ⟨-, h⟩ | ⟨c, bs, tail, -, -, h⟩ := read_cases b s
  · rw [h]
    exact iff_of_true rfl rfl
  · rw [h]
    simp

theorem tail (h : AreRead (g :: gs)) : AreRead gs := by
  rw [AreRead, ofGlyphs_cons] at h
  cases g with
  | char c =>
    rw [bytes, glyphs_ofChar_append] at h
    exact (List.cons.inj h).2
  | stray b =>
    change glyphs (b :: ofGlyphs gs) = _ at h
    obtain ⟨-, hread⟩ | ⟨c, bs, rest, -, -, hread⟩ := read_cases b (ofGlyphs gs)
    · rw [stray_iff.2 hread] at h
      exact (List.cons.inj h).2
    · rw [glyphs, glyphsFrom, hread] at h
      cases (List.cons.inj h).1

theorem right (h : AreRead (gs ++ hs)) : AreRead hs := by
  induction gs with
  | nil => exact h
  | cons g gs ih => exact ih h.tail

theorem left (h : AreRead (gs ++ hs)) : AreRead gs := by
  induction gs with
  | nil => rfl
  | cons g gs ih =>
    have hgs := ih (tail h)
    rw [AreRead, ofGlyphs_cons]
    cases g with
    | char c => rw [bytes, glyphs_ofChar_append, hgs]
    | stray b =>
      have hread : Glyph.read b (ofGlyphs gs) = (.stray b, 0) := by
        obtain ⟨-, hread⟩ | ⟨c, bs, rest, hrest, hc, -⟩ := read_cases b (ofGlyphs gs)
        · exact hread
        · -- an encoding that is complete before what follows is read as a character
          have hchar : ofGlyphs (.stray b :: (gs ++ hs)) =
              ofChar c ++ (rest ++ ofGlyphs hs) := by
            rw [ofGlyphs_cons, ofGlyphs_append, hrest, hc, append_assoc]
            rfl
          rw [cons_append, AreRead, hchar, glyphs_ofChar_append] at h
          cases (List.cons.inj h).1
      change glyphs (b :: ofGlyphs gs) = _
      rw [stray_iff.2 hread, hgs]

theorem newline_mem_iff (h : AreRead [g]) : 10 ∈ g.bytes ↔ g = .char '\n' := by
  cases g with
  | char c =>
    refine ⟨fun hmem => ?_, fun hc => ?_⟩
    · rw [eq_of_mem_ofChar hmem (by decide)]
      rfl
    · rw [hc]
      exact .head _
  | stray b =>
    refine iff_of_false (fun hmem => ?_) Glyph.noConfusion
    obtain rfl := mem_singleton.1 hmem
    exact absurd h (by rw [AreRead]; decide)

theorem of_mem (h : AreRead gs) (hg : g ∈ gs) : AreRead [g] := by
  obtain ⟨before, after, rfl⟩ := append_of_mem hg
  exact left (show AreRead ([g] ++ after) from h.right)

end Glyph.AreRead

/-! ### Places in a text -/

def Bytes.lastLine (s : Bytes) : Bytes :=
  s.rtakeWhile (· != 10)

/-- The place of the last character of a text; before the first one of a line it is column zero. -/
def Bytes.lastPlace (s : Bytes) : Pos :=
  ⟨1 + s.count 10, s.lastLine.glyphs.length⟩

def Pos.ofGlyphs (gs : List Glyph) : Pos :=
  gs.foldl (fun p g => p.enter (some g)) ⟨1, 0⟩

theorem Pos.ofGlyphs_concat (gs : List Glyph) (g : Glyph) :
    ofGlyphs (gs ++ [g]) = (ofGlyphs gs).enter (some g) := by
  rw [ofGlyphs, foldl_concat]
  rfl

theorem Pos.ofGlyphs_eq (h : Glyph.AreRead gs) : ofGlyphs gs = (Bytes.ofGlyphs gs).lastPlace := by
  -- along the glyphs, the last line of their bytes is made of glyphs that are read back
  suffices hline : ∃ front line, gs = front ++ line ∧
      (Bytes.ofGlyphs gs).lastLine = Bytes.ofGlyphs line ∧
      ofGlyphs gs = ⟨1 + (Bytes.ofGlyphs gs).count 10, line.length⟩ by
    obtain ⟨front, line, rfl, hlast, hpos⟩ := hline
    rw [hpos, Bytes.lastPlace, hlast, h.right]
  induction gs using reverseRecOn with
  | nil => exact ⟨[], [], rfl, rfl, rfl⟩
  | append_singleton gs g ih =>
    obtain ⟨front, line, rfl, hlast, hpos⟩ := ih h.left
    have hbytes : Bytes.ofGlyphs [g] = g.bytes := flatMap_singleton ..
    rw [ofGlyphs_concat, hpos, enter, ofGlyphs_append, hbytes, count_append]
    by_cases hg : g = .char '\n'
    · subst hg
      refine ⟨front ++ line ++ [.char '\n'], [], (append_nil _).symm, ?_, ?_⟩
      · exact rtakeWhile_concat_neg _ _ _ (by decide)
      · rw [if_pos (by rfl), show (Glyph.char '\n').bytes.count 10 = 1 from by decide]
        simp only [Pos.mk.injEq, Int.natCast_add, length_nil]
        omega
    · have hnone : 10 ∉ g.bytes := mt (h.of_mem (by simp)).newline_mem_iff.1 hg
      refine ⟨front, line ++ [g], append_assoc .., ?_, ?_⟩
      · rw [lastLine] at hlast ⊢
        rw [ofGlyphs_append line, hbytes, ← hlast, rtakeWhile, rtakeWhile,
          reverse_append, takeWhile_append_of_pos, reverse_append,
          reverse_reverse]
        intro b hb
        rw [bne_iff_ne]
        rintro rfl
        exact hnone (mem_reverse.1 hb)
      · rw [if_neg (by simpa [Glyph.is] using hg), count_eq_zero_of_not_mem hnone]
        simp

/-! ### Scanners at their places -/

namespace Scanner

variable {s : Scanner}

/-- The scanner stands in the source, at the place that it tells. -/
def StandsIn (source : Bytes) (s : Scanner) : Prop :=
  ∃ passed, source.glyphs = passed ++ s.rest ∧ s.pos = .ofGlyphs (passed ++ s.rest.head?.toList)

namespace StandsIn

theorem ofBytes (source : Bytes) : StandsIn source (.ofBytes source) := by
  refine ⟨[], rfl, ?_⟩
  rw [Scanner.ofBytes]
  cases source.glyphs <;> rfl

theorem advance (h : StandsIn source s) : StandsIn source s.advance := by
  obtain ⟨passed, hsource, hpos⟩ := h
  rw [Scanner.advance]
  split
  · exact ⟨passed, hsource, hpos⟩
  · next g rest hs =>
    rw [hs] at hsource hpos
    refine ⟨passed ++ [g], by rw [hsource, append_assoc]; rfl, ?_⟩
    rw [hpos]
    cases rest with
    | nil => simp [Pos.enter]
    | cons g' rest => exact (Pos.ofGlyphs_concat (passed ++ [g]) g').symm

theorem iterate (h : StandsIn source s) (n : Nat) : StandsIn source (Scanner.advance^[n] s) := by
  induction n generalizing s with
  | zero => exact h
  | succ n ih => exact ih h.advance

theorem pos_eq_next (h : StandsIn source s) {passed rest : List Glyph}
    (hs : s.rest = g :: rest) (hg : g ≠ .char '\n') (hsource : source.glyphs = passed ++ s.rest) :
    s.pos = (ofGlyphs passed).lastPlace.next := by
  obtain ⟨passed', hsource', hpos⟩ := h
  obtain rfl := append_cancel_right (hsource.symm.trans hsource')
  have hread : Glyph.AreRead passed := by
    have hsource := Glyph.AreRead.of_glyphs source
    rw [hsource'] at hsource
    exact hsource.left
  rw [hpos, hs, head?_cons, Option.toList_some, Pos.ofGlyphs_concat, Pos.ofGlyphs_eq hread,
    Pos.enter, if_neg (by simpa [Glyph.is] using hg)]
  rfl

theorem pos_eq_last (h : StandsIn source s) (hs : s.rest = []) : s.pos = source.lastPlace := by
  obtain ⟨passed, hsource, hpos⟩ := h
  rw [hs, append_nil] at hsource
  rw [hpos, hs, head?_nil, Option.toList_none, append_nil, ← hsource,
    Pos.ofGlyphs_eq (.of_glyphs source), ofGlyphs_glyphs]

end StandsIn

/-! ### Where tokens start -/

/-- A comment without an end starts behind a gap, at the place that is kept for it. -/
def Skipped.Opens (s : Scanner) : Skipped → Prop
  | .ready _ => True
  | .openComment start s' => ∃ n gap body, start = (advance^[n] s).pos ∧
      (advance^[n] s).rest = .char '/' :: .char '*' :: body ++ s'.rest ∧
      s.rest = gap ++ (advance^[n] s).rest ∧ IsGap gap ∧ IsBlockBody body ∧ IsStop s'.rest

theorem Skipped.Opens.prepend {r : Skipped} {gap : List Glyph}
    (h : r.Opens s') (hs : advance^[k] s = s') (hrest : s.rest = gap ++ s'.rest)
    (hgap : IsGap gap) : r.Opens s := by
  subst hs
  cases r with
  | ready s' => trivial
  | openComment start s' =>
    obtain ⟨n, gap', body, hpos, hn, hbehind, hgap', hbody, hstop⟩ := h
    rw [← Function.iterate_add_apply] at hpos hn hbehind
    refine ⟨n + k, gap ++ gap', body, hpos, hn, ?_, hgap.append hgap', hbody, hstop⟩
    rw [hrest, hbehind, append_assoc]

theorem iterate_trans (h : advance^[m] s = s')
    (h' : advance^[n] s' = s'') : advance^[m + n] s = s'' := by
  rw [Nat.add_comm, Function.iterate_add_apply, h, h']

theorem skip_opens {mode : Mode} {pos : Pos}
    (hs : advance^[(mode.opening ++ v).length] s = ⟨gs, pos⟩)
    (hrest : s.rest = mode.opening ++ v ++ gs) (hstart : ∀ p, mode = .block p → p = s.pos)
    (h : mode.Holds v gs) : (skip mode gs pos).Opens s := by
  fun_induction skip mode gs pos generalizing v s with
  | case1 start p =>
    exact ⟨0, [], v, hstart _ rfl, by simpa [Mode.opening] using hrest, rfl, .nil, h.1, .inl rfl⟩
  | case2 mode p hmode => trivial
  | case3 rest p ih =>
    obtain rfl := h
    obtain rfl : s = _ := hs
    exact ih (v := []) rfl rfl (by simp) (show IsLineBody [] by simp [IsLineBody])
  | case4 rest p ih =>
    obtain rfl := h
    obtain rfl : s = _ := hs
    exact ih (v := []) rfl rfl (by rintro _ ⟨⟩; rfl) (holds_block_nil p rest)
  | case5 g rest p _ _ hblank ih =>
    obtain rfl := h
    obtain rfl : s = _ := hs
    have hopens := ih (s := ⟨rest, p.enter rest.head?⟩) (v := []) rfl rfl (by simp) rfl
    exact hopens.prepend (k := 1) rfl hrest (.blank (isBlank_iff.1 hblank) .nil)
  | case6 g rest p => trivial
  | case7 g rest p hend ih =>
    obtain rfl := eq_of_beq hend
    have hopens := ih (s := ⟨rest, p.enter rest.head?⟩) (v := []) rfl rfl (by simp) rfl
    exact hopens.prepend (iterate_trans (n := 1) hs rfl) (by simpa [Mode.opening] using hrest)
      (.line h .nil)
  | case8 g rest p hend hnul => trivial
  | case9 g rest p hend hnul ih =>
    refine ih (v := v ++ [g]) ?_ (by simpa using hrest) (by simp) (h.concat hend hnul)
    rw [← append_assoc, length_append]
    exact iterate_trans hs rfl
  | case10 start rest p ih =>
    have hopens := ih (s := ⟨rest, (p.enter (some (.char '/'))).enter rest.head?⟩) (v := []) rfl
      rfl (by simp) rfl
    exact hopens.prepend (iterate_trans (n := 2) hs rfl) (by simpa [Mode.opening] using hrest)
      (.block h.1 .nil)
  | case11 start g rest p hclose hnul =>
    exact ⟨0, [], v, hstart _ rfl, by simpa [Mode.opening] using hrest, rfl, .nil, h.1,
      isStop_of_is hnul rest⟩
  | case12 start g rest p hclose hnul ih =>
    refine ih (v := v ++ [g]) ?_ (by simpa using hrest) hstart
      (holds_block_concat h hclose hnul)
    rw [← append_assoc, length_append]
    exact iterate_trans hs rfl

theorem isBlank_of_skip {mode : Mode} {pos : Pos}
    (h : skip mode gs pos = .ready s') : Avoids isBlank s'.rest := by
  fun_induction skip mode gs pos with
  | case1 start p => cases h
  | case2 mode p hmode =>
    cases h
    simp [Avoids]
  | case3 rest p ih | case4 rest p ih | case5 g rest p _ _ hblank ih => exact ih h
  | case6 g rest p _ _ hblank =>
    cases h
    rintro _ ⟨⟩
    exact Bool.eq_false_iff.2 hblank
  | case7 g rest p hend ih => exact ih h
  | case8 g rest p hend hnul =>
    cases h
    rintro _ ⟨⟩
    rw [eq_of_beq hnul]
    decide
  | case9 g rest p hend hnul ih | case10 start rest p ih => exact ih h
  | case11 start g rest p hclose hnul => cases h
  | case12 start g rest p hclose hnul ih => exact ih h

theorem next_starts (h : s.next.1.kind ≠ .eof) :
    ∃ n gap g text, s.next.1.pos = (advance^[n] s).pos ∧ g ≠ .char '\n' ∧
      (advance^[n] s).rest = g :: text ++ s.next.2.rest ∧ s.rest = gap ++ (advance^[n] s).rest ∧
      IsGap gap ∧ s.next.1.ReadFrom (g :: text) s.next.2.rest := by
  have hopens : (skip .blank s.rest s.pos).Opens s := skip_opens (v := []) rfl rfl nofun rfl
  have hpassed := skip_passed .blank s.rest s.pos
  have hdivides := skip_divides s.pos (show Mode.blank.Holds [] s.rest from rfl)
  rw [next, skipTrivia] at h ⊢
  cases hskip : skip .blank s.rest s.pos with
  | openComment start s₁ =>
    rw [hskip] at hopens
    obtain ⟨n, gap, body, hpos, hn, hrest, hgap, hbody, hstop⟩ := hopens
    exact ⟨n, gap, .char '/', _, hpos, by decide, hn, hrest, hgap, .openComment hbody hstop⟩
  | ready s₁ =>
    rw [hskip] at h hpassed hdivides
    obtain ⟨n, rfl⟩ := hpassed
    obtain ⟨gap, hrest, hgap⟩ := hdivides
    obtain ⟨hstop, htoken⟩ | ⟨text, htext, hread⟩ := token_cases (advance^[n] s)
    · exact absurd (congrArg (·.1.kind) htoken) h
    · have hgap : IsGap gap := hgap.resolve_right fun hend =>
        hread.kind_ne_eof (by rw [token_of_isStop hend.2])
      obtain ⟨g, text, rfl⟩ := exists_cons_of_ne_nil hread.ne_nil
      refine ⟨n, gap, g, text, (passes_token h).pos, ?_, htext, hrest, hgap, hread⟩
      rintro rfl
      exact absurd (isBlank_of_skip hskip (.char '\n') (by rw [htext]; rfl)) (by decide)

theorem next_ends (h : s.next.1.kind = .eof) :
    ∃ last, s.next.1.pos = s.next.2.pos ∧ s.rest = last ++ s.next.2.rest ∧ IsLastGap last ∧
      IsStop s.next.2.rest := by
  obtain ⟨-, hstays, last, hrest, hlast, hstop⟩ | ⟨_, _, -, -, hread⟩ := s.next_cases
  · refine ⟨last, ?_, hrest, hlast, hstop⟩
    rw [← hstays, next, skipTrivia_of_isStop hstop]
    dsimp only
    rw [token_of_isStop hstop]
  · exact absurd h hread.kind_ne_eof

theorem StandsIn.next (hs : StandsIn source s) : StandsIn source s.next.2 := by
  have hpassed := skip_passed .blank s.rest s.pos
  rw [Scanner.next, skipTrivia]
  cases hskip : skip .blank s.rest s.pos with
  | openComment start s₁ =>
    rw [hskip] at hpassed
    obtain ⟨-, n, rfl⟩ := hpassed
    exact hs.iterate _
  | ready s₁ =>
    rw [hskip] at hpassed
    obtain ⟨n, rfl⟩ := hpassed
    by_cases heof : (Scanner.advance^[n] s).token.1.kind = .eof
    · obtain ⟨-, htoken⟩ | ⟨_, -, hread⟩ := token_cases (Scanner.advance^[n] s)
      · dsimp only
        rw [htoken]
        exact hs.iterate n
      · exact absurd heof hread.kind_ne_eof
    · obtain ⟨m, hm⟩ := (passes_token heof).forward
      rw [hm]
      exact (hs.iterate n).iterate _

/-- How the next token lies in the source, and which place it tells. -/
inductive Placed (source : Bytes) (s : Scanner) : Prop
  /-- A token is read from the text behind the bytes `before`. -/
  | token (before : Bytes) (gap text : List Glyph)
      (source_eq : source = before ++ (ofGlyphs text ++ ofGlyphs s.next.2.rest))
      (rest_eq : s.rest = gap ++ (text ++ s.next.2.rest)) (isGap : IsGap gap)
      (readFrom : s.next.1.ReadFrom text s.next.2.rest)
      (line_eq : s.next.1.pos.line = 1 + before.count 10)
      (column_eq : s.next.1.pos.column = 1 + before.lastLine.glyphs.length)
  /-- Input ends at a NUL byte behind the bytes `before`. -/
  | nul (before behind : Bytes) (last : List Glyph) (kind_eq : s.next.1.kind = .eof)
      (source_eq : source = before ++ 0 :: behind)
      (rest_eq : s.rest = last ++ s.next.2.rest) (isLastGap : IsLastGap last)
      (bytes_eq : ofGlyphs s.next.2.rest = 0 :: behind)
      (line_eq : s.next.1.pos.line = 1 + before.count 10)
      (column_eq : s.next.1.pos.column = 1 + before.lastLine.glyphs.length)
  /-- Input ends with the source. -/
  | done (kind_eq : s.next.1.kind = .eof) (isLastGap : IsLastGap s.rest)
      (rest_eq : s.next.2.rest = [])
      (line_eq : s.next.1.pos.line = 1 + source.count 10)
      (column_eq : s.next.1.pos.column = source.lastLine.glyphs.length)

theorem StandsIn.placed (hs : StandsIn source s) : Placed source s := by
  obtain ⟨passed, hsource, -⟩ := id hs
  have hbytes {front rest : List Glyph} (h : source.glyphs = front ++ rest) :
      source = ofGlyphs front ++ ofGlyphs rest := by
    rw [← ofGlyphs_append, ← h, ofGlyphs_glyphs]
  by_cases hkind : s.next.1.kind = .eof
  · obtain ⟨last, hpos, hrest, hlast, hstop⟩ := next_ends hkind
    obtain hend | ⟨behind, hend⟩ := hstop
    · have hplace := hs.next.pos_eq_last hend
      rw [hend, append_nil] at hrest
      refine .done hkind (hrest ▸ hlast) hend ?_ ?_ <;> rw [hpos, hplace] <;> rfl
    · have hfront : source.glyphs = passed ++ last ++ s.next.2.rest := by
        rw [hsource, hrest, append_assoc]
      have hplace := hs.next.pos_eq_next hend (by decide) hfront
      have hnul : ofGlyphs s.next.2.rest = 0 :: ofGlyphs behind := by
        rw [hend]
        rfl
      refine .nul (ofGlyphs (passed ++ last)) (ofGlyphs behind) last hkind
        (hnul ▸ hbytes hfront) hrest hlast hnul ?_ ?_ <;> rw [hpos, hplace]
      · rfl
      · exact Int.add_comm ..
  · obtain ⟨n, gap, g, text, hpos, hg, hn, hrest, hgap, hread⟩ := next_starts hkind
    have hfront : source.glyphs = passed ++ gap ++ (Scanner.advance^[n] s).rest := by
      rw [hsource, hrest, append_assoc]
    have hplace := (hs.iterate n).pos_eq_next hn hg hfront
    refine .token (ofGlyphs (passed ++ gap)) gap (g :: text) ?_ (hn ▸ hrest) hgap hread ?_ ?_
    · rw [← ofGlyphs_append, ← hn]
      exact hbytes hfront
    · rw [hpos, hplace]
      rfl
    · rw [hpos, hplace]
      exact Int.add_comm ..

end Scanner

/-! ### Reading with returns -/

/-- One use of a scanner. -/
inductive Reader.Use
  /-- Take the next token. -/
  | next
  /-- Keep the state. -/
  | save
  /-- Go back to a state that was kept; without one of that number, stay. -/
  | restore (i : Nat)

/-- A scanner and the states of it that were kept. -/
structure Reader where
  scanner : Scanner
  saved : List Scanner

namespace Reader

def ofBytes (source : Bytes) : Reader :=
  ⟨.ofBytes source, []⟩

def step (r : Reader) : Use → Reader
  | .next => { r with scanner := r.scanner.next.2 }
  | .save => { r with saved := r.saved ++ [r.scanner] }
  | .restore i => { r with scanner := r.saved.getD i r.scanner }

def run (r : Reader) (uses : List Use) : Reader :=
  uses.foldl step r

/-- The scanner and all that were kept stand in the source. -/
structure StandsIn (source : Bytes) (r : Reader) : Prop where
  scanner : r.scanner.StandsIn source
  saved : ∀ s ∈ r.saved, s.StandsIn source

variable {r : Reader}

theorem StandsIn.step (h : r.StandsIn source) (use : Use) : (r.step use).StandsIn source := by
  cases use with
  | next => exact ⟨h.scanner.next, h.saved⟩
  | save =>
    refine ⟨h.scanner, fun s hs => ?_⟩
    obtain hs | hs := mem_append.1 hs
    · exact h.saved s hs
    · exact mem_singleton.1 hs ▸ h.scanner
  | restore i =>
    refine ⟨?_, h.saved⟩
    change Scanner.StandsIn source (r.saved.getD i r.scanner)
    rw [getD_eq_getElem?_getD]
    cases hi : r.saved[i]? with
    | none => exact h.scanner
    | some s => exact h.saved s (mem_of_getElem? hi)

theorem StandsIn.run (h : r.StandsIn source) (uses : List Use) : (r.run uses).StandsIn source := by
  induction uses generalizing r with
  | nil => exact h
  | cons use uses ih => exact ih (h.step use)

/-- **Places of tokens are exact.**  After any uses of a scanner on a source, the next token tells
the place at which its text starts in the source, or the end of input the place of the NUL byte at
which it stops, or that of the last character. -/
theorem placed_run (source : Bytes) (uses : List Use) :
    ((ofBytes source).run uses).scanner.Placed source :=
  (StandsIn.run ⟨.ofBytes source, forall_mem_nil _⟩ uses).scanner.placed

end Reader

end Covenant
