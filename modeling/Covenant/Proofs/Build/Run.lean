import Covenant.Build
import Mathlib.Data.Option.Basic

/-!
# Runs of a builder

A builder notes which source writes which output before it reads the source, and keeps the note
when the source is refused.  So a refused job can be seen later, by another source with the same
output.
-/

namespace Covenant.Builder

open List

/-- A file to build, and when. -/
structure Job where
  now : Nat := 0
  source : Bytes
  deriving DecidableEq, Repr, Inhabited

/-- Build the files one after another: what comes of each, and the builder and the disk after the
last one. -/
def run (b : Builder) (d : Disk) : List Job → List Result × Builder × Disk
  | [] => ([], b, d)
  | j :: js =>
    let (r, b', d') := b.build j.now d j.source
    let (rs, after) := run b' d' js
    (r :: rs, after)

/-- The builder with other notes. -/
def noting (b : Builder) (writers : List (Bytes × Bytes)) : Builder :=
  { b with writers }

/-- The output of a job. -/
def outputFor (b : Builder) (j : Job) : Bytes :=
  b.layout.outputPath j.source

variable {b : Builder}

theorem lookup_note (o out src : Bytes) (w : List (Bytes × Bytes)) :
    ((out, src) :: w).lookup o = if o = out then some src else w.lookup o := by
  by_cases h : o = out
  · rw [h, lookup_cons_self, if_pos rfl]
  · rw [lookup_cons, beq_false_of_ne h, if_neg h]

/-! ### One job -/

theorem transpile_noting (filename text : Bytes) : (b.noting w).transpile now filename text =
      ((b.transpile now filename text).1, (b.transpile now filename text).2.1,
        { b with store := (b.transpile now filename text).2.2.store, writers := w }) := by
  obtain ⟨assets, target, layout, store, gauge, writers⟩ := b
  cases store with
  | none =>
    simp only [noting, transpile, lookUp, keep, options]
    cases Options.compile _ text <;> rfl
  | some s =>
    simp only [noting, transpile, lookUp, keep, options, key]
    rcases s.get now (Store.key compilerVersion target assets text) with ⟨e | _ | found, s'⟩
    · dsimp only
      cases Options.compile _ text <;> rfl
    · dsimp only
      cases Options.compile _ text <;> rfl
    · rfl

/-- What comes of a job that does not clash: the result, the store and the disk after it. -/
def made (b : Builder) (d : Disk) (j : Job) : Result × Option Store × Disk :=
  match d.read j.source with
  | .error e => ({ source := j.source, error := some (.read j.source e) }, b.store, d)
  | .ok text =>
    match b.transpile j.now j.source text with
    | (.error f, log, b') => ({ source := j.source, error := some (.compile f), log }, b'.store, d)
    | (.ok out, log, b') =>
      match writeOutput d (b.outputFor j) out.text with
      | .error e =>
        ({ source := j.source, cached := out.cached, error := some e, log }, b'.store, d)
      | .ok d' =>
        ({ source := j.source, output := b.outputFor j, cached := out.cached, log }, b'.store, d')

theorem made_noting (j : Job) : (b.noting w).made d j = b.made d j := by
  simp only [made, transpile_noting, outputFor]
  cases d.read j.source with
  | error e => rfl
  | ok text =>
    dsimp only
    rcases b.transpile j.now j.source text with ⟨f | out, log, b'⟩
    · rfl
    · rfl

/-- The builder after a job that does not clash, but for the notes. -/
def next (b : Builder) (d : Disk) (j : Job) : Builder :=
  { b with store := (b.made d j).2.1 }

theorem next_noting (j : Job) : (b.noting w).next d j = (b.next d j).noting w := by
  rw [next, made_noting]
  rfl

theorem build_of_reserve (h : b.reserve (b.outputFor j) j.source = .ok (b.noting w)) :
    b.build j.now d j.source = ((b.made d j).1, (b.next d j).noting w, (b.made d j).2.2) := by
  rw [outputFor] at h
  simp only [build, h, transpile_noting, next, made, outputFor]
  cases d.read j.source with
  | error e => rfl
  | ok text =>
    dsimp only
    rcases b.transpile j.now j.source text with ⟨f | out, log, b'⟩
    · rfl
    · dsimp only
      cases writeOutput d (b.layout.outputPath j.source) out.text <;> rfl

/-- **The notes decide whether a job clashes, and nothing else.** -/
theorem build_eq (b : Builder) (d : Disk) (j : Job) : b.build j.now d j.source =
      match b.writers.lookup (b.outputFor j) with
      | none =>
        ((b.made d j).1, (b.next d j).noting ((b.outputFor j, j.source) :: b.writers),
          (b.made d j).2.2)
      | some first =>
        if first = j.source then ((b.made d j).1, b.next d j, (b.made d j).2.2)
        else ({ source := j.source, error := some (.clash first j.source (b.outputFor j)) },
          b, d) := by
  cases hlook : b.writers.lookup (b.outputFor j) with
  | none => exact build_of_reserve (by rw [reserve, hlook]; rfl)
  | some first =>
    by_cases hfirst : first = j.source
    · simp only [hfirst, if_true]
      exact build_of_reserve (w := b.writers) (by rw [reserve, hlook]; simp [hfirst, noting])
    · rw [outputFor] at hlook
      simp only [build, reserve, hlook, hfirst, if_false, outputFor]

/-! ### Whose an output is -/

/-- The source that writes an output, as far as the builder has noted. -/
def owner (b : Builder) (output : Bytes) : Option Bytes :=
  b.writers.lookup output

theorem owner_build (b : Builder) (d : Disk) (j : Job) (output : Bytes) :
    (b.build j.now d j.source).2.1.owner output =
      (b.owner output).or (if b.outputFor j = output then some j.source else none) := by
  rw [build_eq, owner, owner]
  cases hlook : b.writers.lookup (b.outputFor j) with
  | none =>
    by_cases h : b.outputFor j = output
    · subst h
      simp [hlook, noting]
    · simp [noting, lookup_note, h, Ne.symm h]
  | some first =>
    have hown : (b.writers.lookup output).or (if b.outputFor j =
      output then some j.source else none)
        = b.writers.lookup output := by
      by_cases h : b.outputFor j = output
      · rw [← h, hlook]
        rfl
      · simp [h]
    rw [hown]
    dsimp only
    split <;> rfl

theorem layout_build (b : Builder) (d : Disk) (j : Job) :
    (b.build j.now d j.source).2.1.layout = b.layout := by
  rw [build_eq]
  split
  · rfl
  · split <;> rfl

theorem outputFor_run (js : List Job) (b : Builder) (d : Disk) :
    (b.run d js).2.1.outputFor = b.outputFor := by
  induction js generalizing b d with
  | nil => rfl
  | cons j js ih =>
    funext k
    rw [run, ih, outputFor, layout_build, outputFor]

/-- An output belongs to whoever had it, and else to the source of the first job for it. -/
theorem owner_run (js : List Job) (b : Builder) (d : Disk) (output : Bytes) :
    (b.run d js).2.1.owner output =
      (b.owner output).or ((js.find? (b.outputFor · = output)).map Job.source) := by
  induction js generalizing b d with
  | nil => simp [run]
  | cons j js ih =>
    have htarget : (b.build j.now d j.source).2.1.outputFor = b.outputFor := outputFor_run [j] b d
    rw [run, ih, owner_build, htarget, Option.or_assoc]
    by_cases h : b.outputFor j = output <;> simp [h]

/-! ### Notes that cannot be seen -/

/-- What can be seen of a run: the results, and the disk after it. -/
abbrev Outcome := List Result × Disk

def Outcome.cons (r : Result) (o : Outcome) : Outcome :=
  (r :: o.1, o.2)

theorem Outcome.cons_inj : cons r o = cons r' o' ↔ r = r' ∧ o = o' := by
  simp [cons, Prod.ext_iff, and_assoc]

/-- What can be seen of the jobs. -/
def outcome (b : Builder) (d : Disk) (js : List Job) : Outcome :=
  ((b.run d js).1, (b.run d js).2.2)

theorem outcome_cons (b : Builder) (d : Disk) (j : Job) (js : List Job) :
    b.outcome d (j :: js) = .cons (b.build j.now d j.source).1
      ((b.build j.now d j.source).2.1.outcome (b.build j.now d j.source).2.2 js) :=
  rfl

theorem run_append (xs ys : List Job) (b : Builder) (d : Disk) :
    b.run d (xs ++ ys) = ((b.run d xs).1 ++ ((b.run d xs).2.1.run (b.run d xs).2.2 ys).1,
        ((b.run d xs).2.1.run (b.run d xs).2.2 ys).2) := by
  induction xs generalizing b d with
  | nil => rfl
  | cons x xs ih => simp only [cons_append, run, ih]

theorem length_run (js : List Job) (b : Builder) (d : Disk) :
    (b.run d js).1.length = js.length := by
  induction js generalizing b d with
  | nil => rfl
  | cons j js ih => simp only [run, length_cons, ih]

theorem outcome_noting (js : List Job) (b : Builder) (d : Disk) (w : List (Bytes × Bytes))
    (hw : ∀ o, w.lookup o = b.writers.lookup o) : (b.noting w).outcome d js = b.outcome d js := by
  induction js generalizing b d w with
  | nil => rfl
  | cons j js ih =>
    have hj : (b.noting w).writers.lookup (b.outputFor j) = b.writers.lookup (b.outputFor j) := hw _
    have htarget : (b.noting w).outputFor j = b.outputFor j := rfl
    rw [outcome_cons, outcome_cons, build_eq, build_eq, made_noting, next_noting, htarget, hj]
    cases b.writers.lookup (b.outputFor j) with
    | none =>
      exact congrArg _ (ih ((b.next d j).noting (_ :: b.writers)) _ (_ :: w) fun o => by
        simp only [noting, lookup_note, hw])
    | some first =>
      dsimp only
      split
      · exact congrArg _ (ih (b.next d j) _ w hw)
      · exact congrArg _ (ih b d w hw)

/-- The job ends before it writes: in a clash, or with an unreadable or faulty source. -/
def isRefusal : BuildError → Bool
  | .clash .. | .read .. | .compile .. => true
  | .makeDirectory .. | .write .. => false

theorem not_isRefusal_writeOutput {path text : Bytes}
    (h : writeOutput d path text = .error e) : isRefusal e = false := by
  rw [writeOutput] at h
  cases hd : d.makeDirectories (Path.directory path) with
  | error _ =>
    simp only [hd, Except.mapError, bind, Except.bind, Except.error.injEq] at h
    rw [← h, isRefusal]
  | ok d' =>
    simp only [hd, Except.mapError, bind, Except.bind] at h
    split at h <;> cases h
    rfl

theorem made_ne_clash (j : Job) (first second output : Bytes) :
    (b.made d j).1.error ≠ some (.clash first second output) := by
  unfold made
  split
  · simp
  · split
    · simp
    · split
      · next e he =>
        intro h
        obtain rfl := Option.some.inj h
        cases not_isRefusal_writeOutput he
      · simp

/-- **One more note, for an output that was free, is not seen exactly if the next job for the output
is one of its source.** -/
theorem outcome_ahead {out src : Bytes} (js : List Job) (b : Builder) (d : Disk)
    (w : List (Bytes × Bytes)) (hfree : b.writers.lookup out = none)
    (hw : ∀ o, w.lookup o = if o = out then some src else b.writers.lookup o) :
    (b.noting w).outcome d js = b.outcome d js ↔
      ∀ j, js.find? (b.outputFor · = out) = some j → j.source = src := by
  induction js generalizing b d w with
  | nil => simp [outcome, run]
  | cons j js ih =>
    have hj : (b.noting w).writers.lookup (b.outputFor j) = w.lookup (b.outputFor j) := rfl
    have htarget : (b.noting w).outputFor j = b.outputFor j := rfl
    rw [outcome_cons, outcome_cons, build_eq, build_eq, made_noting, next_noting, htarget, hj, hw]
    by_cases hout : b.outputFor j = out
    · simp only [hout, if_true, hfree, find?_cons_of_pos, decide_true, Option.some.injEq,
        forall_eq']
      by_cases hsrc : j.source = src
      · simp only [hsrc, if_true, iff_true]
        exact congrArg _ (outcome_noting js ((b.next d j).noting ((out, src) :: b.writers)) _ w
          fun o => by simp only [hw, noting, lookup_note])
      · simp only [Ne.symm hsrc, hsrc, if_false, iff_false, Outcome.cons_inj, not_and]
        exact fun h => absurd (congrArg Result.error h).symm (made_ne_clash j src j.source out)
    · have hfind : (j :: js).find? (b.outputFor · = out) = js.find? (b.outputFor · = out) := by
        simp [hout]
      rw [if_neg hout, hfind]
      cases b.writers.lookup (b.outputFor j) with
      | none =>
        rw [Outcome.cons_inj, and_iff_right rfl]
        refine ih ((b.next d j).noting (_ :: b.writers)) _ (_ :: w) ?_ fun o => ?_
        · simp only [noting, lookup_note]
          grind
        · simp only [noting, lookup_note, hw]
          by_cases ho : o = out
          · rw [if_pos ho, if_pos ho, if_neg fun h => hout (h.symm.trans ho)]
          · rw [if_neg ho, if_neg ho]
      | some first =>
        dsimp only
        split <;> rw [Outcome.cons_inj, and_iff_right rfl]
        · exact ih (b.next d j) _ w hfree hw
        · exact ih b d w hfree hw

/-! ### Refused jobs -/

/-- The entry of the job's source in the store, if there is one, can be read. -/
def Intact (b : Builder) (d : Disk) (j : Job) : Prop :=
  ∀ s text r, b.store = some s → d.read j.source = .ok text →
  s.row? (b.key text) = some r → r.intact

theorem store_of_compile {filename text : Bytes} {log : Log}
    (hrow : ∀ s r, b.store = some s → s.row? (b.key text) = some r → r.intact)
    (h : b.transpile now filename text = (.error f, log, b')) : b'.store = b.store := by
  obtain ⟨assets, target, layout, store, gauge, writers⟩ := b
  cases store with
  | none =>
    simp only [transpile, lookUp, keep] at h
    split at h <;> cases h
    rfl
  | some s =>
    have hget : (s.get now (Store.key compilerVersion target assets text)).2 = s ∨
        ∃ out, (s.get now (Store.key compilerVersion target assets text)).1 = .ok (some out) := by
      unfold Store.get
      split
      · exact .inl rfl
      · split
        · exact .inl rfl
        · next r hr => simp [hrow s r rfl hr]
    simp only [transpile, lookUp, keep, key] at h
    rcases hg : s.get now (Store.key compilerVersion target assets text) with ⟨e | _ | found, s'⟩
    all_goals
      rw [hg] at h hget
      dsimp only at h
    · split at h <;> cases h
      simpa using hget
    · split at h <;> cases h
      simpa using hget
    · cases h

/-- A refused job that does not clash leaves the store and the disk alone. -/
theorem made_of_refusal (h : (b.made d j).1.error = some e)
    (he : isRefusal e) (hintact : b.Intact d j) : (b.made d j).2 = (b.store, d) := by
  unfold made at h ⊢
  cases hread : d.read j.source with
  | error _ => rfl
  | ok text =>
    simp only [hread] at h ⊢
    rcases htrans : b.transpile j.now j.source text with ⟨f | out, log, b'⟩
    · simp only
      rw [store_of_compile (fun s r hs hr => hintact s text r hs hread hr) htrans]
    · simp only [htrans] at h ⊢
      cases hwrite : writeOutput d (b.outputFor j) out.text with
      | ok d' => simp [hwrite] at h
      | error e' =>
        simp only [hwrite, Option.some.injEq] at h
        rw [← h, not_isRefusal_writeOutput hwrite] at he
        cases he

/-- **A refused job in the middle of a run cannot be seen in the other results and on the disk,
exactly if its output was taken before, or the next job for the output is one of its source.  A
clash is reported against the owner of the output: whoever had it at the start, or else the source
of the first job for it.** -/
theorem run_insert (b : Builder) (d : Disk) (xs : List Job) (x : Job) (ys : List Job)
    (e : BuildError) :
    let before := b.run d xs
    let result := (before.2.1.build x.now before.2.2 x.source).1
    result.error = some e → isRefusal e → before.2.1.Intact before.2.2 x →
      (((b.run d (xs ++ x :: ys)).1.eraseIdx xs.length = (b.run d (xs ++ ys)).1 ∧
          (b.run d (xs ++ x :: ys)).2.2 = (b.run d (xs ++ ys)).2.2) ↔
        (b.owner (b.outputFor x)).isSome ∨ (∃ j ∈ xs, b.outputFor j = b.outputFor x) ∨
          ∀ j, ys.find? (b.outputFor · = b.outputFor x) = some j → j.source = x.source) ∧
      ∀ first second output, e = .clash first second output →
        second = x.source ∧ output = b.outputFor x ∧
          (b.owner output).or ((xs.find? (b.outputFor · = output)).map Job.source) =
          some first := by
  intro before result hresult he hintact
  have htarget := outputFor_run xs b d
  have howner : before.2.1.owner (b.outputFor x) =
      (b.owner (b.outputFor x)).or ((xs.find? (b.outputFor · = b.outputFor x)).map Job.source) :=
    owner_run xs b d _
  have hsplit : ∀ js, b.run d (xs ++ js) = (before.1 ++ (before.2.1.run before.2.2 js).1,
      (before.2.1.run before.2.2 js).2) := fun js => run_append xs js b d
  have herase (r : Result) (rs : List Result) :
      (before.1 ++ r :: rs).eraseIdx xs.length = before.1 ++ rs := by
    rw [← length_run xs b d, eraseIdx_append_of_length_le (Nat.le_refl _)]
    simp [before]
  -- all that counts is what the jobs behind it show
  have hseen : ((b.run d (xs ++ x :: ys)).1.eraseIdx xs.length = (b.run d (xs ++ ys)).1 ∧
      (b.run d (xs ++ x :: ys)).2.2 = (b.run d (xs ++ ys)).2.2) ↔
      (before.2.1.build x.now before.2.2 x.source).2.1.outcome
        (before.2.1.build x.now before.2.2 x.source).2.2 ys = before.2.1.outcome before.2.2 ys := by
    rw [hsplit, hsplit, run]
    simp only [herase, append_cancel_left_eq, outcome, Prod.mk.injEq]
  have hbuild := build_eq before.2.1 before.2.2 x
  rw [htarget] at hbuild
  rw [hseen]
  cases hlook : before.2.1.writers.lookup (b.outputFor x) with
  | none =>
    rw [hlook] at hbuild
    simp only [result, hbuild] at hresult
    have hfree : ¬(b.owner (b.outputFor x)).isSome ∧ ∀ j ∈ xs, b.outputFor j ≠ b.outputFor x := by
      rw [owner, hlook, eq_comm, Option.or_eq_none_iff, Option.map_eq_none_iff] at howner
      simpa using howner
    have hmade := made_of_refusal hresult he hintact
    have hnext : before.2.1.next before.2.2 x = before.2.1 := by rw [next, hmade]
    refine ⟨?_, fun _ _ _ h => absurd (h ▸ hresult) (made_ne_clash _ _ _ _)⟩
    rw [hbuild, hnext, hmade, or_iff_right hfree.1,
      or_iff_right (by simpa using hfree.2), ← htarget]
    exact outcome_ahead ys _ _ _ (htarget ▸ hlook) fun o => lookup_note o _ _ _
  | some first =>
    have htaken : (b.owner (b.outputFor x)).isSome ∨ ∃ j ∈ xs, b.outputFor j = b.outputFor x := by
      rw [owner, hlook, eq_comm, Option.or_eq_some_iff] at howner
      grind
    have hsame : before.2.1.outcome before.2.2 ys = before.2.1.outcome before.2.2 ys ↔
        (b.owner (b.outputFor x)).isSome ∨ (∃ j ∈ xs, b.outputFor j = b.outputFor x) ∨
          ∀ j, ys.find? (b.outputFor · = b.outputFor x) = some j → j.source = x.source :=
      iff_of_true rfl (or_assoc.mp (.inl htaken))
    rw [hlook] at hbuild
    by_cases hfirst : first = x.source
    · simp only [hfirst, if_true] at hbuild
      simp only [result, hbuild] at hresult
      have hmade := made_of_refusal hresult he hintact
      have hnext : before.2.1.next before.2.2 x = before.2.1 := by rw [next, hmade]
      refine ⟨?_, fun _ _ _ h => absurd (h ▸ hresult) (made_ne_clash _ _ _ _)⟩
      rw [hbuild, hnext, hmade]
      exact hsame
    · simp only [hfirst, if_false] at hbuild
      refine ⟨by rw [hbuild]; exact hsame, fun first' second output h => ?_⟩
      simp only [result, hbuild, h, Option.some.injEq, BuildError.clash.injEq] at hresult
      obtain ⟨rfl, rfl, rfl⟩ := hresult
      exact ⟨rfl, rfl, howner ▸ hlook⟩

/-- A source that is not there, before one with another output. -/
theorem run_insert_apart :
    let b : Builder := { layout := { outDir := "build" } }
    let x : Job := ⟨0, "a/token.stx"⟩
    let y : Job := ⟨0, "b/other.stx"⟩
    (b.run {} [x, y]).1.eraseIdx 0 = (b.run {} [y]).1 ∧
      (b.run {} [x, y]).2.2 = (b.run {} [y]).2.2 := by
  intro b x y
  have hread : ({} : Disk).read x.source = .error ⟨"open", x.source, .missing⟩ := rfl
  have hmissing : (b.build x.now {} x.source).1.error =
      some (.read x.source ⟨"open", x.source, .missing⟩) := by
    rw [build_eq]
    simp [b, made, hread]
  have hother : [y].find? (b.outputFor · = b.outputFor x) = none := by decide
  have h := (run_insert b {} [] x [y] _ hmissing rfl fun _ _ _ hs => by cases hs).1.mpr
    (.inr (.inr fun j hj => by rw [hother] at hj; cases hj))
  simpa only [nil_append, length_nil] using h

/-- A source that is not there keeps the output from the one that is. -/
theorem run_insert_missing :
    let b : Builder := { layout := { outDir := "build" } }
    let d : Disk := { entries := [(["b"], .directory),
      (["b", "token.stx"], .file "const B: int = 2;")] }
    let told (js : List Job) := (b.run d js).1.map fun r => r.error.map BuildError.message
    let written (js : List Job) := ((b.run d js).2.2.read "build/token.clar").toOption
    told [⟨0, "b/token.stx"⟩] = [none] ∧
    written [⟨0, "b/token.stx"⟩] = some (Bytes.ofString "(define-constant B 2)\n") ∧
    told [⟨0, "a/token.stx"⟩, ⟨0, "b/token.stx"⟩] =
      [some (Bytes.ofString "reading a/token.stx: open a/token.stx: no such file or directory"),
        some (Bytes.ofString "a/token.stx and b/token.stx both write build/token.clar")] ∧
    written [⟨0, "a/token.stx"⟩, ⟨0, "b/token.stx"⟩] = none := by
  decide

end Covenant.Builder
