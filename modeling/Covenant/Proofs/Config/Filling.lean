import Covenant.Config.Placeholder
import Mathlib

/-!
# Texts with placeholders

A text falls, in one way only, into bytes that stand for themselves and placeholders, each at the
first place where one starts.  Filling a text copies the former and replaces the latter; what is put
in is not looked at again.
-/

namespace Covenant.Placeholder

open List

/-! ### Placeholders as they are written -/

/-- A placeholder as it is written: a name, and perhaps a default behind `:-`. -/
structure Hole where
  name : Bytes
  default? : Option Bytes
  name_ne_nil : name ≠ []
  name_free : ∀ b ∈ name, b ≠ 125 ∧ b ≠ 58
  default_free : ∀ d ∈ default?, ∀ b ∈ d, b ≠ 125

namespace Hole

/-- What stands behind the name, with the closing brace. -/
def ending : Option Bytes → Bytes
  | none => [125]
  | some d => 58 :: 45 :: (d ++ [125])

def text (h : Hole) : Bytes :=
  36 :: 123 :: (h.name ++ ending h.default?)

def value (h : Hole) (env : Environment) : Bytes :=
  if env h.name = [] then h.default?.getD [] else env h.name

def placeholder (h : Hole) : Placeholder :=
  ⟨h.name, h.default?.getD [], h.name.length + (ending h.default?).length + 1⟩

theorem takeWhile_until (h : ∀ b ∈ s, p b) (hb : p b = false) (r : Bytes) :
    (s ++ b :: r).takeWhile p = s := by
  rw [takeWhile_append_of_pos h, takeWhile_cons_of_neg (by simp [hb]), append_nil]

theorem ofBody?_ending (h : Hole) (rest : Bytes) :
    ofBody? (h.name ++ (ending h.default? ++ rest)) = some h.placeholder := by
  obtain ⟨name, d, hne, hname, hd⟩ := h
  have hempty : ¬ name.isEmpty := by simpa using hne
  have hname : ∀ b ∈ name, decide (b ≠ 125 ∧ b ≠ 58) = true := by simpa using hname
  cases d with
  | none =>
    have htake := takeWhile_until hname (b := 125) rfl rest
    simp only [ofBody?, ending, singleton_append, htake, if_neg hempty, drop_left]
    rfl
  | some d =>
    have hd : ∀ b ∈ d, decide (b ≠ 125) = true := by simpa using hd d rfl
    have htake := takeWhile_until hname (b := 58) rfl (45 :: (d ++ 125 :: rest))
    have hdefault := takeWhile_until hd (b := 125) rfl rest
    have hending : ending (some d) ++ rest = 58 :: 45 :: (d ++ 125 :: rest) := by simp [ending]
    have hlt : d.length < (d ++ 125 :: rest).length := by simp
    simp only [ofBody?, hending, htake, if_neg hempty, drop_left, hdefault, if_pos hlt]
    simp [placeholder, ending]
    omega

theorem exists_of_ofBody? (h : ofBody? body = some p) :
    ∃ hole : Hole, ∃ rest, body = hole.name ++ (ending hole.default? ++ rest) := by
  unfold ofBody? at h
  have hfree (b : UInt8) (hb : b ∈ body.takeWhile fun b => b ≠ 125 ∧ b ≠ 58) :
      b ≠ 125 ∧ b ≠ 58 := by simpa using mem_takeWhile_imp hb
  have hbody := takeWhile_append_dropWhile (p := fun b => b ≠ 125 ∧ b ≠ 58) (l := body)
  generalize body.takeWhile _ = name at h hfree hbody
  generalize body.dropWhile _ = tail at hbody
  subst hbody
  dsimp only at h
  rw [drop_left] at h
  split at h
  · cases h
  next hne =>
  split at h
  · next r => exact ⟨⟨name, none, by simpa using hne, hfree, by simp⟩, r, rfl⟩
  · next r =>
    split at h
    · next hlt =>
      obtain ⟨r', hr⟩ : ∃ r', r = r.takeWhile (· ≠ 125) ++ 125 :: r' := by
        have hr := takeWhile_append_dropWhile (p := (· ≠ 125)) (l := r)
        have hstop := head?_dropWhile_not (· ≠ (125 : UInt8)) r
        cases hdrop : r.dropWhile (· ≠ 125) with
        | nil =>
          rw [hdrop, append_nil] at hr
          exact absurd hlt (by rw [hr]; exact Nat.lt_irrefl _)
        | cons b r' =>
          rw [hdrop] at hstop hr
          obtain rfl : b = 125 := by simpa using hstop
          exact ⟨r', hr.symm⟩
      refine ⟨⟨name, some (r.takeWhile (· ≠ 125)), by simpa using hne, hfree, ?_⟩, r',
        congrArg (name ++ 58 :: 45 :: ·) (hr.trans (append_cons _ _ _))⟩
      rintro _ ⟨⟩ b hb
      simpa using mem_takeWhile_imp hb
    · cases h
  · cases h

end Hole

/-! ### Pieces -/

def StartsHole (s : Bytes) : Prop :=
  ∃ (h : Hole) (rest : Bytes), s = h.text ++ rest

/-- A part of a text: a byte that stands for itself, or a placeholder. -/
inductive Piece where
  | byte (b : UInt8)
  | hole (h : Hole)

def Piece.source : Piece → Bytes
  | byte b => [b]
  | hole h => h.text

def Piece.filled (env : Environment) : Piece → Bytes
  | byte b => [b]
  | hole h => h.value env

/-- The text falls into the pieces, read from the left: a placeholder is taken where one starts. -/
inductive Splits : Bytes → List Piece → Prop
  | nil : Splits [] []
  | hole (h : Hole) (hrest : Splits rest ps) : Splits (h.text ++ rest) (.hole h :: ps)
  | byte (b : UInt8) (hb : ¬ StartsHole (b :: rest)) (hrest : Splits rest ps) :
    Splits (b :: rest) (.byte b :: ps)

theorem Hole.text_inj {g h : Hole} (heq : g.text ++ r = h.text ++ s) : g = h ∧ r = s := by
  simp only [text, cons_append, cons.injEq, true_and, append_assoc] at heq
  have hsame := g.ofBody?_ending r
  rw [heq, h.ofBody?_ending, Option.some.injEq] at hsame
  simp only [placeholder, Placeholder.mk.injEq] at hsame
  obtain ⟨hname, hdefault, hlength⟩ := hsame
  obtain ⟨name, d, _⟩ := g
  obtain ⟨name', d', _⟩ := h
  subst hname
  -- no default and an empty one differ in the length of the placeholder
  obtain rfl : d = d' := by
    cases d <;> cases d' <;> simp_all [ending]
  exact ⟨rfl, by simpa using heq⟩

theorem exists_splits (s : Bytes) : ∃ ps, Splits s ps := by
  induction hn : s.length using Nat.strong_induction_on generalizing s with
  | h n ih =>
  by_cases hs : StartsHole s
  · obtain ⟨h, rest, rfl⟩ := hs
    obtain ⟨ps, hps⟩ := ih rest.length (by simp [← hn, Hole.text]; omega) rest rfl
    exact ⟨_, .hole h hps⟩
  · cases s with
    | nil => exact ⟨_, .nil⟩
    | cons b rest =>
      obtain ⟨ps, hps⟩ := ih rest.length (by simp [← hn]) rest rfl
      exact ⟨_, .byte b hs hps⟩

theorem Splits.unique (hp : Splits s ps) (hq : Splits s qs) : ps = qs := by
  induction hp generalizing qs with
  | nil =>
    cases hq
    rfl
  | @hole rest _ h hrest ih =>
    generalize hs : h.text ++ rest = s at hq
    cases hq with
    | nil => cases hs
    | hole g hrest' =>
      obtain ⟨rfl, rfl⟩ := Hole.text_inj hs
      rw [ih hrest']
    | byte b hb => exact absurd ⟨h, rest, hs.symm⟩ hb
  | @byte rest _ b hb hrest ih =>
    generalize hs : b :: rest = s at hq
    cases hq with
    | nil => cases hs
    | hole g hrest' => exact absurd ⟨g, _, hs⟩ hb
    | byte b' _ hrest' =>
      obtain ⟨rfl, rfl⟩ := cons.inj hs
      rw [ih hrest']

/-! ### Filling -/

theorem fillFrom_eq_drop (env : Environment) (n : Nat) (s : Bytes) :
    fillFrom env n s = fill env (s.drop n) := by
  induction n generalizing s with
  | zero => rfl
  | succ n ih =>
    cases s with
    | nil => rfl
    | cons b s => exact ih s

theorem fill_hole (env : Environment) (h : Hole) (rest : Bytes) :
    fill env (h.text ++ rest) = h.value env ++ fill env rest := by
  have hvalue : h.placeholder.value env = h.value env := by
    simp [Placeholder.value, Hole.placeholder, Hole.value]
  have hdrop : (123 :: (h.name ++ (Hole.ending h.default? ++ rest))).drop h.placeholder.length =
      rest := by
    rw [Hole.placeholder, drop_succ_cons, ← append_assoc, ← length_append, drop_left]
  rw [fill, Hole.text, cons_append, cons_append, append_assoc, fillFrom]
  simp only [h.ofBody?_ending, hvalue, fillFrom_eq_drop, hdrop]

theorem fill_byte (hb : ¬ StartsHole (b :: rest)) : fill env (b :: rest) = b :: fill env rest := by
  rw [fill, fillFrom.eq_def]
  dsimp only
  split
  · next body =>
    cases hbody : ofBody? body with
    | none => rfl
    | some p =>
      obtain ⟨h, rest, rfl⟩ := Hole.exists_of_ofBody? hbody
      exact absurd ⟨h, rest, by simp [Hole.text]⟩ hb
  · rfl

theorem Splits.fill_eq (h : Splits s ps) (env : Environment) :
    fill env s = ps.flatMap (·.filled env) := by
  induction h with
  | nil => rfl
  | hole h _ ih => rw [fill_hole, ih, flatMap_cons, Piece.filled]
  | byte b hb _ ih => rw [fill_byte hb, ih, flatMap_cons, Piece.filled, singleton_append]

theorem Splits.source_eq (h : Splits s ps) : ps.flatMap Piece.source = s := by
  induction h with
  | nil => rfl
  | hole h _ ih => rw [flatMap_cons, ih, Piece.source]
  | byte b hb _ ih => rw [flatMap_cons, ih, Piece.source, singleton_append]

theorem fill_of_plain (h : ∀ back, back <:+ s → ¬ StartsHole back) : fill env s = s := by
  induction s with
  | nil => rfl
  | cons b s ih =>
    have hrest := ih fun back hback => h back (hback.trans (suffix_cons b s))
    rw [fill_byte (h _ (suffix_refl _)), hrest]

/-- **Filling is one pass over the text**: the text falls into pieces in exactly one way, whatever
the environment, and is put together from what is filled in for each of them.  A text in which no
placeholder starts stays as it is. -/
theorem fill_pieces (s : Bytes) :
    (∃ ps, Splits s ps ∧ (∀ qs, Splits s qs → qs = ps) ∧ ps.flatMap Piece.source = s ∧
      ∀ env, fill env s = ps.flatMap (·.filled env)) ∧
    ((∀ back, back <:+ s → ¬ StartsHole back) → ∀ env, fill env s = s) := by
  obtain ⟨ps, hps⟩ := exists_splits s
  exact ⟨⟨ps, hps, fun qs hqs => hqs.unique hps, hps.source_eq, hps.fill_eq⟩,
    fun h env => fill_of_plain h⟩

end Covenant.Placeholder
