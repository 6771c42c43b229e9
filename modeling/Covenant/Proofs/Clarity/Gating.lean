import Covenant.Proofs.Clarity.Capture
import Covenant.Proofs.Clarity.Vocabulary
import Covenant.Proofs.Program.Order
import Covenant.Proofs.Version

/-!
# Targets

The target matters to the operators on bits alone: below the version that brought them they are
refused.  So a newer target renders all that an older one does, and alike, and for an older one no
function on bits is written that the program does not itself spell.
-/

namespace Covenant

open List

open Form (atom row apply stack)

/-! ### Programs -/

variable {older newer : Version}

theorem Version.gates_of_le (h : older ≤ newer) : older.Gates newer := by
  intro hnewer
  have hlt := (isBefore_iff_lt rfl).1 hnewer
  exact (isBefore_iff_lt rfl).2 (h.trans_lt hlt)

theorem Stmt.gated_topForm_self (h : older.Gates newer) (s : Stmt) :
    Gated older newer (s.topForm older false) (s.topForm newer false) :=
  topForm_explicit [] older s false ▸ gated_topForm h [] s false

theorem Program.gated_renderRest (h : older.Gates newer) (ss : List Stmt) :
    Gated older newer (renderRest older ss) (renderRest newer ss) := by
  induction ss with
  | nil => exact .refl _
  | cons s ss ih =>
    rw [renderRest, renderRest]
    exact ((Stmt.gated_topForm_self h s).bind fun _ => .refl _).bind fun _ =>
      ih.bind fun _ => .refl _

theorem Program.gated_render (h : older.Gates newer) (p : Program) :
    Gated older newer (p.render older) (p.render newer) := by
  obtain ⟨ss⟩ := p
  cases ss with
  | nil => exact .refl _
  | cons s ss =>
    rw [render, render]
    exact ((Stmt.gated_topForm_self h s).bind fun _ => .refl _).bind fun _ =>
      (gated_renderRest h ss).bind fun _ => .refl _

/-! ### Functions on bits -/

theorem isMark_of_mem_bitWords (h : v ∈ bitWords) : (Bytes.ofString v).IsMark :=
  ⟨v, mem_append_left _ h, rfl⟩

theorem count_marks_of_isBefore (h : older.isBefore BinOp.bitwiseSince = true)
    (hv : v ∈ bitWords) (os : List Occurrence) : (marks older os).count (Bytes.ofString v) = 0 := by
  have hconversion {u : String} (hu : u ∉ bitWords) : Bytes.ofString v ≠ Bytes.ofString u :=
    fun heq => hu (Bytes.ofString_injective heq ▸ hv)
  refine count_eq_zero.2 fun hmem => ?_
  obtain ⟨o, -, ho⟩ := mem_filterMap.1 hmem
  obtain ⟨u, hmark, hu⟩ := Option.map_eq_some_iff.1 ho
  have hbits : u ∈ bitWords := by
    by_contra hne
    exact hconversion hne hu.symm
  -- a cast writes a conversion or nothing
  have hcast {t : Ty} {known : Option Ty} (ht : t.mark? known = some u) : False := by
    rw [Ty.mark?] at ht
    split at ht
    · cases ht
      simp at hbits
    · split at ht
      · cases ht
        simp at hbits
      · cases ht
  rw [Occurrence.mark?] at hmark
  split at hmark
  · rw [BinOp.mark?, h, Bool.not_true, Bool.and_false] at hmark
    cases hmark
  · exact hcast hmark
  · cases hmark

theorem Program.exists_forms_of_render {p : Program} (h : p.render target = .ok out) :
    ∃ code : Stmt → Form, (∀ s ∈ p.statements, s.topForm target false = .ok (code s)) ∧
      out = layout (fun s => (code s).print 0) p.statements := by
  obtain ⟨text, htext, rfl⟩ := exists_texts_of_render h
  have hforms : ∀ s ∈ p.statements, ∃ f, s.topForm target false = .ok f := by
    intro s hs
    obtain ⟨f, hf, -⟩ := of_bind_eq_ok (htext s hs)
    exact ⟨f, hf⟩
  choose! code hcode using hforms
  have htexts : ∀ s ∈ p.statements, renderOne target s = .ok ((code s).print 0) := by
    intro s hs
    rw [renderOne, hcode s hs]
    rfl
  exact ⟨code, hcode, Except.ok.inj (h.symm.trans (render_of_texts htexts))⟩

/-- **All that a target decides.**  What an older target renders, a newer one renders, and alike.
An error for the older that is none for the newer says that the target lacks an operator.  And below
the version that brought the operators on bits, their functions stand in the code of a statement
only as often as the statement spells them, as the names of members that it calls or as other
names. -/
theorem Program.render_newer (p : Program) (h : older ≤ newer) :
    (∀ out, p.render older = .ok out → p.render newer = .ok out) ∧
      (∀ f, p.render older = .error f → p.render newer ≠ .error f → f.cause.code = "GEN-0002") ∧
      (∀ out, older < BinOp.bitwiseSince → p.render older = .ok out →
        ∃ code : Stmt → Form, out = Program.layout (fun s => (code s).print 0) p.statements ∧
          ∀ s ∈ p.statements, s.topForm older false = .ok (code s) ∧
            ∀ v ∈ bitWords,
              (code s).uses (Bytes.ofString v) = s.topTexts.count (Bytes.ofString v)) := by
  have hgated := Program.gated_render (Version.gates_of_le h) p
  refine ⟨fun out hout => ?_, fun f hf hne => ?_, fun out hbefore hout => ?_⟩
  · obtain heq | ⟨-, f, hf, -⟩ := hgated
    · exact heq ▸ hout
    · cases hf.symm.trans hout
  · obtain heq | ⟨-, g, hg, hgate⟩ := hgated
    · exact absurd (heq ▸ hf) hne
    · cases hg.symm.trans hf
      exact hgate
  have hisBefore := (Version.isBefore_iff_lt rfl).2 hbefore
  obtain ⟨code, hcode, rfl⟩ := Program.exists_forms_of_render hout
  refine ⟨code, rfl, fun s hs => ⟨hcode s hs, fun v hv => ?_⟩⟩
  have huses := Stmt.yields_uses_topForm (isMark_of_mem_bitWords hv) s false _ (hcode s hs)
  rwa [Tallies, tally, count_marks_of_isBefore hisBefore hv, Nat.add_zero] at huses

/-- A member that is called, and whose name becomes a function on bits. -/
def calledAnd : Program where
  statements := [.exprStmt {} (.call {} (.member {} (.ident ⟨"x", {}⟩) ⟨"bitAnd", {}⟩)
    [.ident ⟨"y", {}⟩])]

def lambdaAnd : Program where
  statements := [.exprStmt {} (.lambda {} [⟨⟨"x", {}⟩, none⟩]
    (.expr (.binary {} .bitAnd (.ident ⟨"x", {}⟩) (.ident ⟨"y", {}⟩))))]

theorem Version.one_lt_bitwiseSince : ({ major := 1 } : Version) < BinOp.bitwiseSince :=
  (isBefore_iff_lt rfl).1 rfl

theorem Program.render_newer_calledAnd :
    ({ major := 1 } : Version) ≤ BinOp.bitwiseSince ∧
      calledAnd.render { major := 1 } = .ok "(bit-and x y)" ∧
      calledAnd.render BinOp.bitwiseSince = .ok "(bit-and x y)" ∧
      (∃ code : Stmt → Form, ∀ s ∈ calledAnd.statements,
        s.topForm { major := 1 } false = .ok (code s) ∧ (code s).uses "bit-and" = 1) ∧
      ∃ f, lambdaAnd.render { major := 1 } = .error f ∧
        lambdaAnd.render BinOp.bitwiseSince = .ok "(lambda (x) (bit-and x y))" ∧
        f.cause.code = "GEN-0002" := by
  have hle := Version.one_lt_bitwiseSince.le
  have hcalled : calledAnd.render { major := 1 } = .ok "(bit-and x y)" :=
    eq_ok_of_toOption (by decide)
  obtain ⟨hsame, -, hwords⟩ := Program.render_newer calledAnd hle
  obtain ⟨code, -, hcode⟩ := hwords _ Version.one_lt_bitwiseSince hcalled
  have hlambda : lambdaAnd.render BinOp.bitwiseSince = .ok "(lambda (x) (bit-and x y))" :=
    eq_ok_of_toOption (by decide)
  refine ⟨hle, hcalled, hsame _ hcalled, ⟨code, fun s hs => ⟨(hcode s hs).1, ?_⟩⟩, ?_⟩
  · rw [(hcode s hs).2 "bit-and" (by simp)]
    obtain rfl := mem_singleton.1 hs
    decide
  · have hfault : lambdaAnd.render { major := 1 } =
        .error ⟨.needsTarget "&" "2.0.0" "1.0.0", {}⟩ := rfl
    refine ⟨_, hfault, hlambda, (Program.render_newer lambdaAnd hle).2.1 _ hfault ?_⟩
    rw [hlambda]
    exact nofun

/-- The name of a member is broken at its humps for every target, so a function on bits can stand in
the code for an old one. -/
theorem Options.compile_called_bitAnd :
    Target.parse "1.0.0" = .ok { major := 1 } ∧ ({ major := 1 } : Version) < BinOp.bitwiseSince ∧
      ({ target := "1.0.0" } : Options).compile "x.bitAnd(y);" = .ok "(bit-and x y)" :=
  ⟨by decide, Version.one_lt_bitwiseSince, eq_ok_of_toOption (by decide)⟩

end Covenant
