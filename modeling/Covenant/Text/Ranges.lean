/-!
# Sets of code points

Character classes are given as runs of code points: `lo` to `hi` in steps of `stride`.
-/

namespace Covenant

/-- The code points `lo, lo + stride, …` up to `hi`. -/
structure CodeRun where
  lo : Nat
  hi : Nat
  stride : Nat := 1

def CodeRun.contains (r : CodeRun) (n : Nat) : Bool :=
  r.lo ≤ n && n ≤ r.hi && (n - r.lo) % r.stride == 0

abbrev CodeSet := List CodeRun

/-- Runs of neighbours above `behind`, each given by the distance of its first member from the run
before it and that of its last member from the first. -/
def CodeSet.ofGaps (behind : Nat) : List Nat → CodeSet
  | gap :: length :: gaps =>
    ⟨behind + gap, behind + gap + length, 1⟩ :: ofGaps (behind + gap + length) gaps
  | _ => []

def CodeSet.ofRuns (behind : Nat) : List Nat → CodeSet
  | gap :: length :: stride :: runs =>
    ⟨behind + gap, behind + gap + length, stride⟩ :: ofRuns (behind + gap + length) runs
  | _ => []

def CodeSet.contains (s : CodeSet) (n : Nat) : Bool :=
  s.any (·.contains n)

/-- A run of code points whose images lie at a fixed distance. -/
structure CodeShift where
  run : CodeRun
  delta : Int

/-- Shifts given by their runs, as for `CodeSet.ofRuns`, each with its distance. -/
def CodeShift.ofRows (behind : Nat) : List Int → List CodeShift
  | gap :: length :: stride :: delta :: rows =>
    let lo := behind + gap.toNat
    let hi := lo + length.toNat
    ⟨⟨lo, hi, stride.toNat⟩, delta⟩ :: ofRows hi rows
  | _ => []

def CodeShift.apply (shifts : List CodeShift) (n : Nat) : Nat :=
  match shifts.find? (·.run.contains n) with
  | some s => ((n : Int) + s.delta).toNat
  | none => n

end Covenant
