import Covenant.Proofs.Clarity.Limits
import Covenant.Proofs.Tree.Leaves

/-!
# What a compilation reports

A compilation has three stages, and the first that refuses the source ends it with one diagnostic.
The diagnostic names the stage that refused and the file that was given, and reading and building
report the same when nothing is rendered.  The steps that are traced on the way are worked out apart
from the result.
-/

namespace Covenant

open Program (ofTree)

/-! ### Stages of faults -/

variable {cause : Cause} {t : Tree}

theorem Tree.Refuses.stage (h : t.Refuses cause) : cause.stage = .building := by
  cases h <;> rfl

theorem Cause.IsLimit.stage (h : cause.IsLimit) : cause.stage = .rendering := by
  cases cause <;> first | rfl | simp [IsLimit, code] at h

theorem Program.stage_of_ofTree {f : Fault}
    (ht : Tree.parse source = .ok t) (hf : ofTree assets t = .error f) :
    f.cause.stage = .building := by
  have hanswers := answers_ofTree ht assets
  rw [hf] at hanswers
  obtain ⟨u, -, hrefuses⟩ := hanswers
  exact hrefuses.stage

theorem Program.stage_of_render {target : Version} {f : Fault} (ht : Tree.parse source = .ok t)
    (hp : ofTree assets t = .ok p) (hf : p.render target = .error f) : f.cause.stage = .rendering :=
  ((settled_render target (renderable_of_parse ht hp)).isLimit hf).stage

namespace Options

variable (o : Options) (source : Bytes) {target : Version}

/-! ### One run -/

theorem stage_diagnostic (f : Fault) : (o.diagnostic f).stage = f.cause.stage := by
  rw [diagnostic, Diagnostic.stage_inFile, Diagnostic.stage_ofFault]

theorem file_diagnostic (f : Fault) : (o.diagnostic f).file = o.filename :=
  Diagnostic.file_inFile (Diagnostic.file_ofFault f) o.filename

/-- How a compilation for the given version ends. -/
inductive Ends (target : Version) : Except Failure Program → Except Failure Bytes → Prop
  /-- The source is refused while it is read. -/
  | reading {f : Fault} (ht : Tree.parse source = .error f) (hf : f.cause.stage = .reading) :
    Ends target (.error (.stage (o.diagnostic f))) (.error (.stage (o.diagnostic f)))
  /-- The tree is refused while it is built. -/
  | building {t : Tree} {f : Fault} (ht : Tree.parse source = .ok t)
    (hp : Program.ofTree o.assets t = .error f) (hf : f.cause.stage = .building) :
    Ends target (.error (.stage (o.diagnostic f))) (.error (.stage (o.diagnostic f)))
  /-- The program is refused while it is rendered. -/
  | rendering {t : Tree} {p : Program} {f : Fault} (ht : Tree.parse source = .ok t)
    (hp : Program.ofTree o.assets t = .ok p) (hr : p.render target = .error f)
    (hf : f.cause.stage = .rendering) :
    Ends target (.ok p) (.error (.stage (o.diagnostic f)))
  /-- The program is rendered. -/
  | done {t : Tree} {p : Program} {text : Bytes} (ht : Tree.parse source = .ok t)
    (hp : Program.ofTree o.assets t = .ok p) (hr : p.render target = .ok text) :
    Ends target (.ok p) (.ok text)

theorem ends (hv : o.version = .ok target) :
    o.Ends source target (o.program source) (o.compile source) := by
  have hcompile : o.compile source = o.program source >>= o.renderFor target := by
    rw [compile, hv]
    rfl
  rw [hcompile, program, programOrFault]
  cases ht : Tree.parse source with
  | error f => exact .reading ht (Tree.stage_of_parse ht)
  | ok t =>
    change o.Ends source target ((ofTree o.assets t).mapError _)
      ((ofTree o.assets t).mapError _ >>= _)
    cases hp : ofTree o.assets t with
    | error f => exact .building ht hp (Program.stage_of_ofTree ht hp)
    | ok p =>
      change o.Ends source target (.ok p) ((p.render target).mapError _)
      cases hr : p.render target with
      | error f => exact .rendering ht hp hr (Program.stage_of_render ht hp hr)
      | ok text => exact .done ht hp hr

def refusedBy : Except Failure Bytes → Option Stage
  | .error (.stage d) => some d.stage
  | _ => none

/-- What the results say: there is an output, or one diagnostic that names the file and the first
stage to refuse; the program alone is refused with the same diagnostic, unless rendering is what
refused. -/
structure Reports (target : Version) : Prop where
  outcome : (∃ text, o.compile source = .ok text) ∨
    ∃ d, o.compile source = .error (.stage d) ∧ d.file = o.filename
  reading : refusedBy (o.compile source) = some .reading ↔ ∃ f, Tree.parse source = .error f
  building : refusedBy (o.compile source) = some .building ↔
    ∃ t, Tree.parse source = .ok t ∧ ∃ f, Program.ofTree o.assets t = .error f
  rendering : refusedBy (o.compile source) = some .rendering ↔
    ∃ t, Tree.parse source = .ok t ∧ ∃ p, Program.ofTree o.assets t = .ok p ∧
      ∃ f, p.render target = .error f
  accepted : (∃ p, o.program source = .ok p) ↔
    refusedBy (o.compile source) ≠ some .reading ∧ refusedBy (o.compile source) ≠ some .building
  refused : ∀ d, o.compile source = .error (.stage d) → d.stage = .reading ∨ d.stage = .building →
    o.program source = .error (.stage d)

theorem reports (hv : o.version = .ok target) : o.Reports source target := by
  have hends := o.ends source hv
  generalize hprogram : o.program source = built at hends
  generalize hcompile : o.compile source = result at hends
  cases hends with
  | reading ht hf =>
    constructor <;>
      simp [hcompile, hprogram, refusedBy, stage_diagnostic, file_diagnostic, ht, hf]
  | building ht hp hf =>
    constructor <;>
      simp [hcompile, hprogram, refusedBy, stage_diagnostic, file_diagnostic, ht, hp, hf]
  | rendering ht hp hr hf =>
    constructor <;>
      simp [hcompile, hprogram, refusedBy, stage_diagnostic, file_diagnostic, ht, hp, hr, hf]
  | done ht hp hr => constructor <;> simp [hcompile, hprogram, refusedBy, ht, hp, hr]

/-! ### Two runs -/

/-- The results are one output, or failures that agree in all that is not the file. -/
inductive AgreeButFile {α : Type} : Except Failure α → Except Failure α → Prop
  | ok (a : α) : AgreeButFile (.ok a) (.ok a)
  | target (e : Target.Error) : AgreeButFile (.error (.target e)) (.error (.target e))
  | stage {d : Diagnostic} (h : d.SameButFile e) :
    AgreeButFile (.error (.stage d)) (.error (.stage e))

theorem AgreeButFile.refl {α : Type} : ∀ x : Except Failure α, AgreeButFile x x
  | .ok a => .ok a
  | .error (.target e) => .target e
  | .error (.stage _) => .stage rfl

theorem AgreeButFile.bind {α β : Type} {x y : Except Failure α} {k k' : α → Except Failure β}
    (h : AgreeButFile x y) (hk : ∀ a, AgreeButFile (k a) (k' a)) :
    AgreeButFile (x >>= k) (y >>= k') := by
  cases h with
  | ok a => exact hk a
  | target e => exact .target e
  | stage h => exact .stage h

theorem agreeButFile_mapError {α : Type} (o o' : Options) (x : Except Fault α) :
    AgreeButFile (x.mapError fun f => .stage (o.diagnostic f))
      (x.mapError fun f => .stage (o'.diagnostic f)) := by
  cases x with
  | ok a => exact .ok a
  | error f => exact .stage (Diagnostic.sameButFile_inFile _ _ _)

theorem agreeButFile_compile {o o' : Options} (hassets : o'.assets = o.assets)
    (htarget : o'.target = o.target) (source : Bytes) :
    AgreeButFile (o.compile source) (o'.compile source) := by
  have hversion : o'.version = o.version := by rw [version, version, htarget]
  have hprogram : o'.programOrFault source = o.programOrFault source := by
    rw [programOrFault, programOrFault, hassets]
  rw [compile, compile, hversion]
  refine (AgreeButFile.refl o.version).bind fun target => ?_
  refine AgreeButFile.bind ?_ fun p => agreeButFile_mapError o o' _
  rw [program, program, hprogram]
  exact agreeButFile_mapError o o' _

/-- **The error contract of compilation.** For a valid target, what a compilation returns says which
stage refused the source and in which file, as far as it goes the program alone is refused alike,
and another file name changes nothing but the file of the diagnostic. -/
theorem compile_contract (o o' : Options) (source : Bytes) {target : Version}
    (hv : o.version = .ok target) (hassets : o'.assets = o.assets)
    (htarget : o'.target = o.target) :
    o.Reports source target ∧ AgreeButFile (o.compile source) (o'.compile source) :=
  ⟨o.reports source hv, agreeButFile_compile hassets htarget source⟩

/-- A variable whose type is not known is refused by rendering, in whichever file it is. -/
theorem compile_contract_untyped :
    (⟨"a.stx", [], "2.1"⟩ : Options).version = .ok { major := 2, minor := 1 } ∧
      refusedBy ((⟨"a.stx", [], "2.1"⟩ : Options).compile "let x = f(1);") = some .rendering ∧
      (⟨"a.stx", [], "2.1"⟩ : Options).Reports "let x = f(1);" { major := 2, minor := 1 } ∧
      AgreeButFile ((⟨"a.stx", [], "2.1"⟩ : Options).compile "let x = f(1);")
        ((⟨[], [], "2.1"⟩ : Options).compile "let x = f(1);") :=
  ⟨by rfl, by decide, compile_contract _ _ _ (by rfl) rfl rfl⟩

end Options

end Covenant
