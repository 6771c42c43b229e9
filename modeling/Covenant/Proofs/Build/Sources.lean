import Covenant.Config
import Covenant.Proofs.Build.Run
import Covenant.Proofs.Build.Transparency
import Covenant.Proofs.Disk.Place

/-!
# Sources survive their builds

Building a file writes one file, its output, and nothing else on the disk changes but for new
directories.  The output may still be a source: its name is made of the source's name and the
extension, and any file can be built.
-/

namespace Covenant

open List

/-! ### Places of outputs -/

/-- A text without slashes at the end stays in the last part. -/
theorem Path.exists_splitOn_append (hext : 47 ∉ ext) (s : Bytes) :
    ∃ front name, (s ++ ext).splitOn 47 = front ++ [name ++ ext] := by
  induction s with
  | nil => exact ⟨[], [], by simp [Bytes.splitOn_of_notMem hext]⟩
  | cons b s ih =>
    obtain ⟨front, name, h⟩ := ih
    by_cases hb : b = 47
    · exact ⟨[] :: front, name, by simp [Bytes.splitOn, hb, h]⟩
    · cases front with
      | nil => exact ⟨[], b :: name, by simp [Bytes.splitOn, hb, h]⟩
      | cons part front => exact ⟨(b :: part) :: front, name, by simp [Bytes.splitOn, hb, h]⟩

theorem Path.exists_join_append (hext : ext ≠ []) (x : Bytes) (ps : List Bytes) :
    ∃ s, join (ps ++ [x ++ ext]) = clean (s ++ ext) := by
  have hjoin : ∀ qs : List Bytes, ∃ s, Bytes.join "/" (qs ++ [x ++ ext]) = s ++ ext := by
    intro qs
    induction qs with
    | nil => exact ⟨x, rfl⟩
    | cons q qs ih =>
      obtain ⟨s, hs⟩ := ih
      refine ⟨q ++ "/" ++ s, ?_⟩
      rw [cons_append, append_assoc, append_assoc, ← hs]
      cases hqs : qs ++ [x ++ ext] with
      | nil => simp at hqs
      | cons y rest => rw [Bytes.join, append_assoc]
  induction ps with
  | nil => exact ⟨x, by simp [join, hext, Bytes.join]⟩
  | cons p ps ih =>
    by_cases hp : p = []
    · simpa [join, hp] using ih
    · obtain ⟨s, hs⟩ := hjoin (p :: ps)
      exact ⟨s, by rw [← hs]; simp [join, hp]⟩

namespace Disk

variable {d d' : Disk} {p : Bytes}

def file? (d : Disk) (place : Place) : Option Bytes :=
  match d.entry? place with
  | some (.file content) => some content
  | _ => none

theorem getLast?_placeOf_clean (hext : Path.IsEnding ext) (d : Disk) (s : Bytes) :
    ∃ name, (d.placeOf (Path.clean (s ++ ext))).getLast? = some (name ++ ext) := by
  obtain ⟨front, name, hsplit⟩ := Path.exists_splitOn_append hext.1 s
  obtain ⟨hnil, hhere, hup⟩ := hext.append name
  refine ⟨name, ?_⟩
  rw [placeOf_clean, placeOf, hsplit, foldl_append]
  simp [step, hnil, hhere, hup]

/-! ### What an operation leaves alone -/

/-- The working directory and all directories are still there. -/
structure Grows (d d' : Disk) : Prop where
  cwd : d'.cwd = d.cwd
  directory : ∀ place, d.entry? place = some .directory → d'.entry? place = some .directory

theorem Grows.walk {names : List Bytes} (h : Grows d d') (hw : d.walk place names = .ok q) :
    d'.walk place names = .ok q := by
  induction names generalizing place with
  | nil => exact hw
  | cons name names ih =>
    rw [Disk.walk] at hw ⊢
    split at hw
    · cases hw
    · cases hw
    · next hdir =>
      rw [h.directory place hdir]
      exact ih hw

theorem Grows.placeOf (h : Grows d d') (p : Bytes) : d'.placeOf p = d.placeOf p := by
  rw [Disk.placeOf, Disk.placeOf, h.cwd]

theorem Grows.trans (h : Grows d d') (h' : Grows d' d'') : Grows d d'' :=
  ⟨h'.cwd.trans h.cwd, fun place hdir => h'.directory place (h.directory place hdir)⟩

theorem read_eq_ok_iff : d.read p = .ok content ↔
      d.locate p = .ok (d.placeOf p) ∧ d.file? (d.placeOf p) = some content := by
  have hlocate := @eq_placeOf_of_locate d p
  simp only [read, find, bind, Except.bind]
  cases hl : d.locate p with
  | error c => simp
  | ok place =>
    obtain rfl := hlocate hl
    simp only [file?, true_and]
    cases d.entry? (d.placeOf p) with
    | none => simp [throw, throwThe, MonadExceptOf.throw]
    | some e => cases e <;> simp [pure, Except.pure]

theorem Grows.read (h : Grows d d') (hread : d.read p = .ok content)
    (hfile : d'.file? (d.placeOf p) = d.file? (d.placeOf p)) : d'.read p = .ok content := by
  obtain ⟨hlocate, hcontent⟩ := read_eq_ok_iff.mp hread
  rw [read_eq_ok_iff, h.placeOf, hfile]
  refine ⟨?_, hcontent⟩
  rw [locate] at hlocate ⊢
  split at hlocate
  · cases hlocate
  · next hne =>
    rw [if_neg hne, h.cwd]
    exact h.walk hlocate

theorem lookup_replace (entries : List (Place × Entry)) (e : Entry) :
    (entries.map fun (p, old) => if p = place then (p, e) else (p, old)).lookup q =
      if q = place then (entries.lookup q).map fun _ => e else entries.lookup q := by
  induction entries with
  | nil => simp
  | cons x entries ih =>
    obtain ⟨p, old⟩ := x
    by_cases hp : p = place <;> by_cases hq : q = p <;> simp_all [lookup_cons] <;> grind

theorem entry?_put (hplace : place ≠ []) (e : Entry) :
    Disk.entry? (d.put place e) q = if q = place then some e else d.entry? q := by
  by_cases hq : q = []
  · simp [ entry?, hq, Ne.symm hplace]
  · have hempty : q.isEmpty = false := by simpa using hq
    unfold put
    split
    · next hsome =>
      simp only [ entry?, hempty, lookup_replace, Bool.false_eq_true, if_false]
      split
      · next heq =>
        obtain ⟨old, hold⟩ := Option.isSome_iff_exists.mp hsome
        simp [heq, hold]
      · rfl
    · next hnone =>
      simp only [ entry?, hempty, lookup_append]
      by_cases heq : q = place
      · simp [heq, Option.not_isSome_iff_eq_none.mp hnone]
      · have hne : (q == place) = false := by simpa using heq
        simp [heq, lookup_cons, hne]

theorem ne_nil_of_file (h : d.entry? place = e) (he : e ≠ some .directory) : place ≠ [] := by
  rintro rfl
  exact he h.symm

theorem makeDirectory_frame (h : d.makeDirectory p = .ok d') :
    Grows d d' ∧ ∀ q, d'.file? q = d.file? q := by
  rw [makeDirectory] at h
  split at h
  · cases h
  · next place hlocate =>
    split at h
    · cases h
      exact ⟨⟨rfl, fun _ => id⟩, fun _ => rfl⟩
    · cases h
    · next hnone =>
      cases h
      have hput (q) := entry?_put (d := d) (q := q) (ne_nil_of_file hnone (by simp)) .directory
      refine ⟨⟨by unfold put; split <;> rfl, fun q hq => ?_⟩, fun q => ?_⟩
      · rw [hput]
        split
        · rfl
        · exact hq
      · by_cases heq : q = place <;> simp [file?, hput, heq, hnone]

theorem makeDirectories_frame (h : d.makeDirectories p = .ok d') :
    Grows d d' ∧ ∀ q, d'.file? q = d.file? q := by
  rw [makeDirectories] at h
  generalize ancestors p = ps at h
  induction ps generalizing d with
  | nil =>
    cases h
    exact ⟨⟨rfl, fun _ => id⟩, fun _ => rfl⟩
  | cons p ps ih =>
    cases hp : d.makeDirectory p with
    | error e => simp [hp, bind, Except.bind] at h
    | ok d₁ =>
      obtain ⟨hgrows, hfiles⟩ := makeDirectory_frame hp
      obtain ⟨hgrows', hfiles'⟩ := ih (d := d₁) (by simpa [hp, bind, Except.bind] using h)
      exact ⟨hgrows.trans hgrows', fun q => (hfiles' q).trans (hfiles q)⟩

theorem write_frame (h : d.write p content = .ok d') :
    Grows d d' ∧ ∀ q, d'.file? q = if q = d.placeOf p then some content else d.file? q := by
  rw [write, update] at h
  split at h
  · cases h
  · next place hlocate =>
    obtain rfl := eq_placeOf_of_locate hlocate
    have hfile : d.entry? (d.placeOf p) ≠ some .directory ∧
        d' = d.put (d.placeOf p) (.file content) := by
      split at h <;> cases h <;> simp_all
    obtain ⟨hdir, rfl⟩ := hfile
    have hput (q) := entry?_put (d := d) (q := q) (ne_nil_of_file rfl hdir) (.file content)
    refine ⟨⟨by unfold put; split <;> rfl, fun q hq => ?_⟩, fun q => ?_⟩
    · rw [hput, if_neg (fun heq : q = d.placeOf p => hdir (heq ▸ hq)), hq]
    · by_cases heq : q = d.placeOf p <;> simp [file?, hput, heq]

/-- **Putting an output in its place changes one file.** -/
theorem file?_writeOutput {path text : Bytes} (h : Builder.writeOutput d path text = .ok d') :
    Grows d d' ∧
      ∀ q, d'.file? q = if q = d.placeOf path then some (text ++ "\n") else d.file? q := by
  rw [Builder.writeOutput] at h
  cases hdirs : d.makeDirectories (Path.directory path) with
  | error e => simp [hdirs, Except.mapError, bind, Except.bind] at h
  | ok d₁ =>
    obtain ⟨hgrows, hfiles⟩ := makeDirectories_frame hdirs
    simp only [hdirs, Except.mapError, bind, Except.bind] at h
    split at h
    · cases h
    · next hwrite =>
      cases h
      obtain ⟨hgrows', hfiles'⟩ := write_frame hwrite
      exact ⟨hgrows.trans hgrows', fun q => by rw [hfiles', hgrows.placeOf, hfiles]⟩

end Disk

theorem Layout.suffix_ne_nil (l : Layout) : l.suffix ≠ [] := by
  unfold suffix
  split
  · decide
  · next h => simpa using h

/-- **The name of an output ends in the extension.** -/
theorem Layout.getLast?_placeOf_outputPath {l : Layout} (hext : Path.IsEnding l.suffix) (d : Disk)
    (source : Bytes) :
    ∃ name, (d.placeOf (l.outputPath source)).getLast? = some (name ++ l.suffix) := by
  have hpath : ∃ s, l.outputPath source = Path.clean (s ++ l.suffix) := by
    unfold outputPath
    split
    · exact Path.exists_join_append l.suffix_ne_nil _ [_]
    · exact Path.exists_join_append l.suffix_ne_nil _ [_, _]
  obtain ⟨s, hs⟩ := hpath
  rw [hs]
  exact Disk.getLast?_placeOf_clean hext d s

namespace Builder

variable {b : Builder} {d : Disk} {text : Bytes}

/-! ### What a job writes -/

/-- A job does its work, whatever is noted, or is refused for a clash. -/
theorem build_cases {Q : Result × Builder × Disk → Prop} (j : Job)
    (hmade : ∀ w, Q ((b.made d j).1, (b.next d j).noting w, (b.made d j).2.2))
    (hclash : ∀ r : Result, r.error ≠ none → Q (r, b, d)) : Q (b.build j.now d j.source) := by
  rw [build_eq]
  split
  · exact hmade _
  · split
    · exact hmade (b.next d j).writers
    · exact hclash _ (by simp)

/-- A job leaves an error and the disk as it was, or its output on the disk. -/
def Leaves (b : Builder) (d : Disk) (j : Job) (r : Result) (d' : Disk) : Prop :=
  (r.error ≠ none ∧ d' = d) ∨
    r.error = none ∧ r.output = b.outputFor j ∧ ∃ text out, d.read j.source = .ok text ∧
      (b.transpile j.now j.source text).1 = .ok out ∧
      writeOutput d (b.outputFor j) out.text = .ok d'

theorem leaves_made (b : Builder) (d : Disk) (j : Job) :
    b.Leaves d j (b.made d j).1 (b.made d j).2.2 := by
  unfold made
  cases hread : d.read j.source with
  | error e => exact .inl ⟨by simp, rfl⟩
  | ok text =>
    dsimp only
    rcases htrans : b.transpile j.now j.source text with ⟨f | out, log, b'⟩
    · exact .inl ⟨by simp, rfl⟩
    · dsimp only
      cases hwrite : writeOutput d (b.outputFor j) out.text with
      | error e => exact .inl ⟨by simp, rfl⟩
      | ok d' => exact .inr ⟨rfl, rfl, text, out, hread, by rw [htrans], hwrite⟩

theorem leaves_build (b : Builder) (d : Disk) (j : Job) :
    b.Leaves d j (b.build j.now d j.source).1 (b.build j.now d j.source).2.2 :=
  build_cases (Q := fun x => b.Leaves d j x.1 x.2.2) j (fun _ => leaves_made b d j)
    fun _ he => .inl ⟨he, rfl⟩

/-- A store that is in use tells the calls `P` apart, and every entry of it was compiled for one of
them. -/
def Sound (P : Call → Prop) (b : Builder) : Prop :=
  ∀ s, b.store = some s → DigestsDiffer P ∧ KeysDecide P ∧ s.From P

theorem transpile_of_none (h : b.store = none) :
    b.transpile now filename text = ((b.transpile now filename text).1,
      (b.transpile now filename text).2.1, b) ∧ ∀ out, (b.transpile now filename text).1 = .ok out →
      (b.options filename).compile text = .ok out.text := by
  simp only [transpile, lookUp, keep, h]
  cases (b.options filename).compile text with
  | error f | ok t => simp

theorem on_of_some (h : b.store = some s) : (⟨b, now, filename, text⟩ : Call).on s =
      ((b.transpile now filename text).1, (b.transpile now filename text).2.2.store.getD s) := by
  rw [Call.on, ← h]

theorem Sound.transpile (hb : b.Sound P) (hc : P ⟨b, now, filename, text⟩) :
    (b.transpile now filename text).2.2.Sound P := by
  intro s' hs'
  cases hs : b.store with
  | none =>
    rw [(transpile_of_none hs).1, hs] at hs'
    cases hs'
  | some s =>
    obtain ⟨hd, hk, hfrom⟩ := hb s hs
    have hfrom := hfrom.on hc
    rw [on_of_some hs, hs'] at hfrom
    exact ⟨hd, hk, hfrom⟩

theorem Sound.compile {out : Output} (hb : b.Sound P) (hc : P ⟨b, now, filename, text⟩)
    (h : (b.transpile now filename text).1 = .ok out) :
    (b.options filename).compile text = .ok out.text := by
  cases hs : b.store with
  | none => exact (transpile_of_none hs).2 out h
  | some s =>
    obtain ⟨hd, hk, hfrom⟩ := hb s hs
    have hout := Call.outputOf_on hd hk hfrom hc
    rw [on_of_some hs, h, ← Call.toOption_compile_filename] at hout
    cases hcomp : (b.options filename).compile text with
    | error f => simp [hcomp, outputOf, Except.toOption] at hout
    | ok t =>
      simp only [hcomp, outputOf, Except.toOption, Option.map_some, Option.some.injEq] at hout
      rw [hout]

theorem assets_build (b : Builder) (d : Disk) (j : Job) :
    (b.build j.now d j.source).2.1.assets = b.assets ∧
      (b.build j.now d j.source).2.1.target = b.target :=
  build_cases (Q := fun x => x.2.1.assets = b.assets ∧ x.2.1.target = b.target) j
    (fun _ => ⟨rfl, rfl⟩) fun _ _ => ⟨rfl, rfl⟩

theorem Sound.build {j : Job} (hb : b.Sound P)
    (hc : ∀ text, d.read j.source = .ok text → P ⟨b, j.now, j.source, text⟩) :
    (b.build j.now d j.source).2.1.Sound P := by
  have hmade : Sound P { b with store := (b.made d j).2.1 } := by
    unfold made
    cases hread : d.read j.source with
    | error e => exact hb
    | ok text =>
      have htrans := hb.transpile (hc text hread)
      dsimp only
      rcases hcall : b.transpile j.now j.source text with ⟨f | out, log, b'⟩ <;>
        rw [hcall] at htrans
      · exact htrans
      · dsimp only
        cases writeOutput d (b.outputFor j) out.text <;> exact htrans
  exact build_cases (Q := fun x => x.2.1.Sound P) j (fun _ => hmade) fun _ _ => hb

/-! ### Runs -/

/-- Nothing that a job of `js` needs has changed since the builder `b₀` and the disk `d₀`. -/
structure Keeps (P : Call → Prop) (js : List Job) (b₀ : Builder) (d₀ : Disk) (b : Builder)
    (d : Disk) : Prop where
  layout : b.layout = b₀.layout
  assets : b.assets = b₀.assets ∧ b.target = b₀.target
  sound : b.Sound P
  grows : Disk.Grows d₀ d
  read : ∀ j ∈ js, ∀ text, d₀.read j.source = .ok text → d.read j.source = .ok text

variable {js : List Job} {b₀ : Builder} {d₀ : Disk}

theorem Keeps.build {j : Job} (h : Keeps P js b₀ d₀ b d)
    (hc : ∀ text, d.read j.source = .ok text → P ⟨b, j.now, j.source, text⟩)
    (hplace : ∀ k ∈ js, d₀.placeOf k.source ≠ d₀.placeOf (b₀.outputFor j)) :
    Keeps P js b₀ d₀ (b.build j.now d j.source).2.1 (b.build j.now d j.source).2.2 := by
  have hassets := assets_build b d j
  have htarget : b.outputFor j = b₀.outputFor j := by rw [outputFor, h.layout, outputFor]
  have hdisk : Disk.Grows d (b.build j.now d j.source).2.2 ∧ ∀ q, q ≠ d₀.placeOf (b₀.outputFor j) →
      (b.build j.now d j.source).2.2.file? q = d.file? q := by
    rcases leaves_build b d j with ⟨-, hsame⟩ | ⟨-, -, text, out, -, -, hwrite⟩
    · rw [hsame]
      exact ⟨⟨rfl, fun _ => id⟩, fun _ _ => rfl⟩
    · obtain ⟨hgrows, hfiles⟩ := Disk.file?_writeOutput hwrite
      refine ⟨hgrows, fun q hq => ?_⟩
      rw [hfiles, h.grows.placeOf, htarget, if_neg hq]
  refine ⟨(layout_build b d j).trans h.layout, ⟨hassets.1.trans h.assets.1,
    hassets.2.trans h.assets.2⟩, h.sound.build hc, h.grows.trans hdisk.1, fun k hk text hread => ?_⟩
  refine hdisk.1.read (h.read k hk text hread) (hdisk.2 _ ?_)
  rw [h.grows.placeOf]
  exact hplace k hk

theorem Keeps.run (hc : ∀ c : Call, c.builder.assets = b₀.assets → c.builder.target = b₀.target →
      (∃ j ∈ js, d₀.read j.source = .ok c.source) → P c)
    (hfiles : ∀ j ∈ js, ∃ text, d₀.read j.source = .ok text)
    (hplace : ∀ j ∈ js, ∀ k ∈ js, d₀.placeOf k.source ≠ d₀.placeOf (b₀.outputFor j))
    (xs : List Job) (hxs : ∀ x ∈ xs, x ∈ js) (h : Keeps P js b₀ d₀ b d) :
    Keeps P js b₀ d₀ (b.run d xs).2.1 (b.run d xs).2.2 := by
  induction xs generalizing b d with
  | nil => exact h
  | cons x xs ih =>
    have hx : x ∈ js := hxs x mem_cons_self
    refine ih (fun y hy => hxs y (mem_cons_of_mem x hy)) (h.build (fun text hread => ?_)
      (hplace x hx))
    obtain ⟨text₀, hread₀⟩ := hfiles x hx
    have hsame := h.read x hx text₀ hread₀
    rw [hread] at hsame
    cases hsame
    exact hc _ h.assets.1 h.assets.2 ⟨x, hx, hread₀⟩

def constants (files : List Bytes) : Disk :=
  { entries := files.map fun f => ([f], .file "const A: int = 1;") }

end Builder

end Covenant
