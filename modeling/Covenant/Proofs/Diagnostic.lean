import Covenant.Diagnostic

/-!
# What diagnostics say about faults

Each cause of failure belongs to one stage of the compiler.  The diagnostic of a fault names that
stage, the code of the cause and the place of the fault, and its file is the one that it is told.
-/

namespace Covenant

def Cause.stage : Cause → Stage
  | expected .. | unexpectedToken _ | openString | illegalChar _ | openBlock | expectedType _
  | openComment => .reading
  | noName _ | missing .. | incompletePair _ | unknownDecorator _ | misplacedNew _ | plainClass _
  | untypedMap _ | noRule _ | unexpected .. | badNumber _ => .building
  | noRendering _ | needsTarget .. | unknownOperator _ | untypedVariable _ | ifWithoutElse =>
    .rendering

theorem Catalogue.entry?_code (cause : Cause) :
    (Catalogue.entry? cause.code).map (·.stage) = some cause.stage := by
  cases cause <;> simp only [Cause.code, Cause.stage] <;> rfl

namespace Diagnostic

theorem ofCode_code (cause : Cause) (data : Option Data) (pos : Pos) :
    (ofCode cause.code data pos).stage = cause.stage ∧
      (ofCode cause.code data pos).code = cause.code ∧ (ofCode cause.code data pos).pos = pos := by
  obtain ⟨entry, hentry, hstage⟩ := Option.map_eq_some_iff.1 (Catalogue.entry?_code cause)
  rw [ofCode, hentry]
  exact ⟨hstage, rfl, rfl⟩

theorem ofFault_eq (f : Fault) : ∃ hints,
    ofFault f = { ofCode f.cause.code f.cause.data f.pos with hints } := by
  unfold ofFault
  split
  · exact ⟨_, rfl⟩
  · exact ⟨_, rfl⟩

theorem stage_ofFault (f : Fault) : (ofFault f).stage = f.cause.stage := by
  obtain ⟨hints, h⟩ := ofFault_eq f
  rw [h]
  exact (ofCode_code _ _ _).1

theorem code_ofFault (f : Fault) : (ofFault f).code = f.cause.code := by
  obtain ⟨hints, h⟩ := ofFault_eq f
  rw [h]
  exact (ofCode_code _ _ _).2.1

theorem file_ofFault (f : Fault) : (ofFault f).file = [] := by
  obtain ⟨hints, h⟩ := ofFault_eq f
  rw [h, ofCode]
  split <;> rfl

@[simp]
theorem stage_inFile (d : Diagnostic) (file : Bytes) : (d.inFile file).stage = d.stage := by
  unfold inFile
  split <;> rfl

@[simp]
theorem code_inFile (d : Diagnostic) (file : Bytes) : (d.inFile file).code = d.code := by
  unfold inFile
  split <;> rfl

theorem file_inFile {d : Diagnostic} (h : d.file = []) (file : Bytes) :
    (d.inFile file).file = file := by
  unfold inFile
  split
  · next hfile => rw [h, List.isEmpty_iff.1 hfile]
  · rfl

def SameButFile (d e : Diagnostic) : Prop :=
  { d with file := [] } = { e with file := [] }

theorem sameButFile_inFile (d : Diagnostic) (file file' : Bytes) :
    (d.inFile file).SameButFile (d.inFile file') := by
  unfold inFile SameButFile
  split <;> split <;> rfl

end Diagnostic

end Covenant
