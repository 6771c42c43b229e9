import Covenant.Clarity.Name
import Covenant.Proofs.Text.Escaping
import Mathlib.Data.List.Chain

/-!
# Where hyphens stand

A name in camel case falls into words.  On ASCII the words are read off the name itself
(`hyphenated_words`): its letters stay in order, each in lower case, and a hyphen stands where a
word starts and nowhere else.
-/

namespace Covenant

open List Bytes

variable {s front : Bytes} {o after : Option UInt8}

/-! ### Letters of ASCII -/

def isCapital (b : UInt8) : Bool :=
  65 ≤ b && b ≤ 90

def isSmall (b : UInt8) : Bool :=
  97 ≤ b && b ≤ 122

def isFigure (b : UInt8) : Bool :=
  48 ≤ b && b ≤ 57

/-- A letter, a digit or the underscore. -/
def isPlain (b : UInt8) : Bool :=
  isCapital b || isSmall b || isFigure b || b == 95

def lowered (b : UInt8) : UInt8 :=
  if isCapital b then b + 32 else b

/-- A capital starts a word behind a small letter or a digit, and as the last of a run of capitals
in front of a small letter. -/
def startsWord (before : Option UInt8) (b : UInt8) (after : Option UInt8) : Bool :=
  isCapital b &&
    (before.any (fun a => isSmall a || isFigure a) || before.any isCapital && after.any isSmall)

theorem ascii_classes : ∀ b : UInt8, b.toNat < 0x80 →
    Rune.isUpper (Char.ofNat b.toNat) = isCapital b ∧
    Rune.isLower (Char.ofNat b.toNat) = isSmall b ∧
    Rune.isDigit (Char.ofNat b.toNat) = isFigure b ∧
    ofChar (Rune.toLower (Char.ofNat b.toNat)) = [lowered b] ∧
    (isCapital b = false → ofChar (Char.ofNat b.toNat) = [lowered b]) ∧
    isCapital (lowered b) = false ∧ (lowered b).toNat < 0x80 :=
  forall_ascii (by decide)

theorem lt_of_isPlain (h : isPlain b = true) : b.toNat < 0x80 ∧ lowered b ≠ 45 := by
  have hall : ∀ n < 256, isPlain (UInt8.ofNat n) = true →
      (UInt8.ofNat n).toNat < 0x80 ∧ lowered (UInt8.ofNat n) ≠ 45 := by decide +kernel
  simpa only [UInt8.ofNat_toNat] using hall b.toNat b.toNat_lt (by simpa using h)

/-! ### Marking the words -/

def mark (before : Option UInt8) (b : UInt8) (after : Option UInt8) : Bytes :=
  if startsWord before b after then [45] else []

/-- The letters in lower case, each behind its mark. -/
def marked (before : Option UInt8) : Bytes → Bytes
  | [] => []
  | b :: s => mark before b s.head? ++ lowered b :: marked (some b) s

theorem go_eq_marked (ho : ∀ a ∈ o, a.toNat < 0x80) (h : ∀ b ∈ s, b.toNat < 0x80) :
    hyphenated.go (o.map (Char.ofNat ·.toNat)) (s.glyphs.map Glyph.rune) = marked o s := by
  induction s generalizing o with
  | nil => rfl
  | cons b s ih =>
    obtain ⟨hb, hs⟩ := forall_mem_cons.1 h
    have hrest := ih (o := some b) (by simpa using hb) hs
    obtain ⟨hupper, -, -, hlower, hkeep, -⟩ := ascii_classes b hb
    have hafter : (((glyphs s).map Glyph.rune).head?.map Rune.isLower).getD false =
        s.head?.any isSmall := by
      cases s with
      | nil => rfl
      | cons c s =>
        have hc := hs c mem_cons_self
        simp [glyphs_cons_of_lt hc, Glyph.rune, (ascii_classes c hc).2.1]
    rw [glyphs_cons_of_lt hb, map_cons, Glyph.rune, marked, mark, startsWord]
    unfold hyphenated.go
    rw [hupper, hlower, hafter]
    cases hcapital : isCapital b with
    | false =>
      rw [if_neg (by simp), hkeep hcapital]
      exact congrArg _ hrest
    | true =>
      cases o with
      | none => exact congrArg _ hrest
      | some a =>
        obtain ⟨hu, hl, hd, -⟩ := ascii_classes a (ho a rfl)
        simp only [Option.map_some, hu, hl, hd, Option.any_some, Bool.true_and, append_assoc]
        exact congrArg (_ ++ lowered b :: ·) hrest

theorem hyphenated_eq_marked (h : ∀ b ∈ s, b.toNat < 0x80) : hyphenated s = marked none s :=
  go_eq_marked (o := none) (by simp) h

theorem lower_eq_map (h : ∀ b ∈ s, b.toNat < 0x80) : s.lower = s.map lowered := by
  induction s with
  | nil => rfl
  | cons b s ih =>
    obtain ⟨hb, hs⟩ := forall_mem_cons.1 h
    rw [lower, mapRunes, glyphs_cons_of_lt hb, flatMap_cons, Glyph.rune,
      (ascii_classes b hb).2.2.2.1]
    exact congrArg _ (ih hs)

theorem mem_marked (h : x ∈ marked o s) : x = 45 ∨ ∃ b ∈ s, x = lowered b := by
  induction s generalizing o with
  | nil => cases h
  | cons b s ih =>
    obtain h | rfl | h : x ∈ mark o b s.head? ∨ x = lowered b ∨ x ∈ marked (some b) s := by
      simpa [marked] using h
    · rw [mark] at h
      split at h <;> simp_all
    · exact .inr ⟨b, mem_cons_self, rfl⟩
    · obtain rfl | ⟨c, hc, rfl⟩ := ih h
      · exact .inl rfl
      · exact .inr ⟨c, mem_cons_of_mem b hc, rfl⟩

/-- A name without capitals is one word. -/
theorem marked_of_small (h : ∀ b ∈ s, isCapital b = false) : marked o s = s := by
  induction s generalizing o with
  | nil => rfl
  | cons b s ih =>
    obtain ⟨hb, hs⟩ := forall_mem_cons.1 h
    simp [marked, mark, startsWord, lowered, hb, ih hs]

theorem filter_mark : (mark o b after).filter (· ≠ 45) = [] := by
  rw [mark]
  split <;> rfl

section Plain

variable {name : Bytes} (h : ∀ b ∈ name, lowered b ≠ 45)
include h

theorem filter_marked : (marked o name).filter (· ≠ 45) = name.map lowered := by
  induction name generalizing o with
  | nil => rfl
  | cons b s ih =>
    obtain ⟨hb, hs⟩ := forall_mem_cons.1 h
    rw [marked, filter_append, filter_mark, filter_cons_of_pos (by simpa using hb), ih hs]
    rfl

theorem isChain_marked : (marked o name).IsChain fun x y => ¬ (x = 45 ∧ y = 45) := by
  induction name generalizing o with
  | nil => exact .nil
  | cons b s ih =>
    obtain ⟨hb, hs⟩ := forall_mem_cons.1 h
    have hletter : (lowered b :: marked (some b) s).IsChain fun x y => ¬ (x = 45 ∧ y = 45) :=
      (ih hs).cons fun y _ hxy => hb hxy.1
    rw [marked, mark]
    split
    · exact hletter.cons (by simpa using hb)
    · exact hletter

end Plain

/-- What stands in front of a letter: the letters before it, and a hyphen last where a word
starts. -/
theorem exists_marked_append (h : ∀ a ∈ front, lowered a ≠ 45) (b : UInt8) (rest : Bytes) :
    ∃ p, marked o (front ++ b :: rest) = p ++ lowered b :: marked (some b) rest ∧
      p.filter (· ≠ 45) = front.map lowered ∧
      (p.getLast? = some 45 ↔ startsWord (front.getLast?.or o) b rest.head? = true) := by
  induction front generalizing o with
  | nil =>
    refine ⟨mark o b rest.head?, rfl, filter_mark, ?_⟩
    rw [mark]
    split <;> simp_all
  | cons a front ih =>
    obtain ⟨ha, hfront⟩ := forall_mem_cons.1 h
    obtain ⟨p, heq, hfilter, hlast⟩ := ih (o := some a) hfront
    refine ⟨mark o a (front ++ b :: rest).head? ++ lowered a :: p, ?_, ?_, ?_⟩
    · rw [cons_append, marked, heq, append_assoc, cons_append]
    · rw [filter_append, filter_mark, filter_cons_of_pos (by simpa using ha), hfilter]
      rfl
    · have hback : (front.getLast?.or (some a)) = (a :: front).getLast?.or o := by
        cases hf : front.getLast? <;> simp [getLast?_cons, hf]
      rw [← hback, ← hlast]
      cases hp : p.getLast? <;> simp [getLast?_append, getLast?_cons, hp, ha]

/-- **Hyphens mark the words of a name and nothing is lost**: there is no capital left, the hyphens
taken out leave the name in lower case, none of them is first, last or beside another, one stands in
front of a letter exactly if a word starts there, and the result is its own hyphenated form. -/
theorem hyphenated_words (name : Bytes) (h : ∀ b ∈ name, isPlain b = true) :
    (∀ b ∈ hyphenated name, isCapital b = false) ∧
    (hyphenated name).filter (· ≠ 45) = name.lower ∧
    (hyphenated name).head? ≠ some 45 ∧ (hyphenated name).getLast? ≠ some 45 ∧
    (hyphenated name).IsChain (fun x y => ¬ (x = 45 ∧ y = 45)) ∧
    (∀ front b rest, name = front ++ b :: rest →
      ∃ p q, hyphenated name = p ++ lowered b :: q ∧ p.filter (· ≠ 45) = lower front ∧
        q.filter (· ≠ 45) = lower rest ∧
        (p.getLast? = some 45 ↔ startsWord front.getLast? b rest.head? = true)) ∧
    hyphenated (hyphenated name) = hyphenated name := by
  have hascii (b : UInt8) (hb : b ∈ name) : b.toNat < 0x80 := (lt_of_isPlain (h b hb)).1
  have hletter (b : UInt8) (hb : b ∈ name) : lowered b ≠ 45 := (lt_of_isPlain (h b hb)).2
  have hmem (x : UInt8) (hx : x ∈ marked none name) : isCapital x = false ∧ x.toNat < 0x80 := by
    obtain rfl | ⟨b, hb, rfl⟩ := mem_marked hx
    · decide
    · exact (ascii_classes b (hascii b hb)).2.2.2.2.2
  rw [hyphenated_eq_marked hascii, lower_eq_map hascii,
    hyphenated_eq_marked fun x hx => (hmem x hx).2]
  refine ⟨fun x hx => (hmem x hx).1, filter_marked hletter, ?_, ?_, isChain_marked hletter, ?_,
    marked_of_small fun x hx => (hmem x hx).1⟩
  · cases name with
    | nil => simp [marked]
    | cons b s => simpa [marked, mark, startsWord] using hletter b mem_cons_self
  · obtain rfl | ⟨front, b, rfl⟩ := name.eq_nil_or_concat'
    · simp [marked]
    · obtain ⟨p, heq, -⟩ := exists_marked_append (o := none)
        (fun a ha => hletter a (mem_append_left _ ha)) b []
      simpa [heq, marked] using hletter b (by simp)
  · rintro front b rest rfl
    obtain ⟨hfront, hrest⟩ := forall_mem_append.1 hletter
    obtain ⟨p, heq, hfilter, hlast⟩ := exists_marked_append (o := none) hfront b rest
    have hlow := forall_mem_append.1 hascii
    refine ⟨p, _, heq, ?_, ?_, by simpa using hlast⟩
    · rw [hfilter, lower_eq_map hlow.1]
    · rw [filter_marked (forall_mem_cons.1 hrest).2, lower_eq_map (forall_mem_cons.1 hlow.2).2]

theorem hyphenated_words_acronym :
    hyphenated "get2NFTOwner_ID" = ofString "get2-nft-owner_id" ∧
    hyphenated (hyphenated "get2NFTOwner_ID") = hyphenated "get2NFTOwner_ID" :=
  ⟨by decide, (hyphenated_words "get2NFTOwner_ID" (by decide +kernel)).2.2.2.2.2.2⟩

end Covenant
