import Covenant.Clarity.Form
import Covenant.Proofs.Text.Encoding
import Mathlib

/-!
# Reading code back

Code is text; what it says is a tree of atoms, strings and lists.  A `Reader` goes through a text
byte by byte: blanks, parentheses, atoms, and strings in double quotes with escapes behind a
backslash.  It knows nothing of layout.
-/

namespace Covenant

open List

/-- A tree of code: a form without its layout. -/
inductive SExpr where
  | atom (text : Bytes)
  /-- A string with the given contents. -/
  | string (contents : Bytes)
  | list (items : List SExpr)
  deriving Repr, Inhabited

namespace SExpr

def isBlank (b : UInt8) : Bool :=
  b = 32 || (9 ≤ b && b ≤ 13)

/-- A byte of an atom: no blank, parenthesis, double quote or semicolon. -/
def isAtomByte (b : UInt8) : Bool :=
  !(isBlank b || b = 40 || b = 41 || b = 34 || b = 59)

def isAtom (text : Bytes) : Bool :=
  !text.isEmpty && text.all isAtomByte

/-- No atom goes on here: the text is over, or starts with a byte that is in none. -/
def stops (s : Bytes) : Bool :=
  s.head?.all (!isAtomByte ·)

/-! ### The reader -/

/-- What the reader is in. -/
inductive Mode where
  /-- Nothing: items may start here. -/
  | between
  /-- An atom that starts with `text`. -/
  | atom (text : Bytes)
  /-- A string that starts with `contents`. -/
  | string (contents : Bytes)
  /-- An escape, right behind its backslash. -/
  | escape (contents : Bytes)
  /-- An escape that lacks `digits` hexadecimal digits of a byte or of the number of a character. -/
  | hex (contents : Bytes) (isByte : Bool) (digits value : Nat)
  deriving DecidableEq, Repr

/-- A reader of code. -/
structure Reader where
  /-- What stands before each open parenthesis in its list, the innermost first. -/
  outer : List (List SExpr) := []
  /-- The items of the innermost list so far, the last one first. -/
  inner : List SExpr := []
  mode : Mode := .between

def hexValue? (b : UInt8) : Option Nat :=
  if 48 ≤ b ∧ b ≤ 57 then some (b.toNat - 48)
  else if 97 ≤ b ∧ b ≤ 102 then some (b.toNat - 87)
  else if 65 ≤ b ∧ b ≤ 70 then some (b.toNat - 55)
  else none

def escape? (b : UInt8) : Option UInt8 :=
  lookup b
    [(97, 7), (98, 8), (116, 9), (110, 10), (118, 11), (102, 12), (114, 13), (92, 92), (34, 34),
     (39, 39)]

namespace Reader

def enter (r : Reader) (mode : Mode) : Reader :=
  { r with mode }

def push (r : Reader) (t : SExpr) : Reader :=
  { r with inner := t :: r.inner, mode := .between }

def delimit (r : Reader) (b : UInt8) : Option Reader :=
  if isBlank b then some (r.enter .between)
  else if b = 40 then some ⟨r.inner :: r.outer, [], .between⟩
  else if b = 41 then
    match r.outer with
    | [] => none
    | items :: outer => some ⟨outer, .list r.inner.reverse :: items, .between⟩
  else if b = 34 then some (r.enter (.string []))
  else if b = 59 then none
  else some (r.enter (.atom [b]))

def step (r : Reader) (b : UInt8) : Option Reader :=
  match r.mode with
  | .between => r.delimit b
  | .atom text =>
    if isAtomByte b then some (r.enter (.atom (text ++ [b])))
    else (r.push (.atom text)).delimit b
  | .string contents =>
    if b = 34 then some (r.push (.string contents))
    else if b = 92 then some (r.enter (.escape contents))
    else some (r.enter (.string (contents ++ [b])))
  | .escape contents =>
    if b = 120 then some (r.enter (.hex contents true 2 0))
    else if b = 117 then some (r.enter (.hex contents false 4 0))
    else if b = 85 then some (r.enter (.hex contents false 8 0))
    else (escape? b).map fun x => r.enter (.string (contents ++ [x]))
  | .hex contents isByte digits value =>
    (hexValue? b).map fun d =>
      let value := 16 * value + d
      if 1 < digits then r.enter (.hex contents isByte (digits - 1) value)
      else if isByte then r.enter (.string (contents ++ [UInt8.ofNat value]))
      else r.enter (.string (contents ++ Bytes.ofChar (Char.ofNat value)))

def finish (r : Reader) : Option (List SExpr) :=
  match r.outer, r.mode with
  | [], .between => some r.inner.reverse
  | [], .atom text => some (r.push (.atom text)).inner.reverse
  | _, _ => none

def run (r : Reader) : Bytes → Option (List SExpr)
  | [] => r.finish
  | b :: s => (r.step b).bind (run · s)

end Reader

def readAll (s : Bytes) : Option (List SExpr) :=
  ({} : Reader).run s

/-! ### Blanks and atoms -/

namespace Reader

variable {r : Reader}

@[simp] theorem mode_enter (m : Mode) : (r.enter m).mode = m := rfl

@[simp] theorem enter_enter (m m' : Mode) : (r.enter m).enter m' = r.enter m' := rfl

@[simp] theorem push_enter (m : Mode) (t : SExpr) : (r.enter m).push t = r.push t := rfl

@[simp] theorem mode_push (t : SExpr) : (r.push t).mode = .between := rfl

theorem enter_self (hr : r.mode = m) : r.enter m = r := by
  subst hr
  rfl

theorem run_blanks (hr : r.mode = .between) (hs : s.all isBlank = true) :
    r.run (s ++ rest) = r.run rest := by
  induction s with
  | nil => rfl
  | cons b s ih =>
    obtain ⟨hb, hs⟩ : isBlank b = true ∧ s.all isBlank = true := by simpa using hs
    rw [cons_append, run, step, hr, delimit, if_pos hb, enter_self hr]
    exact ih hs

theorem run_atom_bytes (hs : s.all isAtomByte = true) :
    (r.enter (.atom text)).run (s ++ rest) = (r.enter (.atom (text ++ s))).run rest := by
  induction s generalizing text with
  | nil => rw [append_nil, nil_append]
  | cons b s ih =>
    obtain ⟨hb, hs⟩ : isAtomByte b = true ∧ s.all isAtomByte = true := by simpa using hs
    rw [cons_append, run, step]
    simp only [mode_enter, hb, ↓reduceIte, Option.bind_some, enter_enter]
    rw [ih hs, append_assoc, singleton_append]

theorem run_atom_stops (hrest : stops rest = true) :
    (r.enter (.atom text)).run rest = (r.push (.atom text)).run rest := by
  cases rest with
  | nil => cases h : r.outer <;> simp [run, finish, push, enter, h]
  | cons b rest =>
    have hb : isAtomByte b = false := by simpa [stops] using hrest
    rw [run, run, step, step]
    simp only [mode_enter, hb, Bool.false_eq_true, ↓reduceIte, push_enter, mode_push]

theorem run_atom (hr : r.mode = .between) (ht : isAtom text = true)
    (hrest : stops rest = true) : r.run (text ++ rest) = (r.push (.atom text)).run rest := by
  cases text with
  | nil => simp [isAtom] at ht
  | cons b text =>
    obtain ⟨hb, ht⟩ : isAtomByte b = true ∧ text.all isAtomByte = true := by simpa [isAtom] using ht
    obtain ⟨⟨⟨⟨h₁, h₂⟩, h₃⟩, h₄⟩, h₅⟩ :
        (((isBlank b = false ∧ ¬b = 40) ∧ ¬b = 41) ∧ ¬b = 34) ∧ ¬b = 59 := by
      simpa [isAtomByte] using hb
    rw [cons_append, run, step, hr, delimit, if_neg (by simp [h₁]), if_neg h₂, if_neg h₃,
      if_neg h₄, if_neg h₅]
    exact (run_atom_bytes ht).trans (run_atom_stops hrest)

end Reader

/-! ### Strings -/

theorem hexValue?_hexDigit : ∀ n < 16, hexValue? (Quoted.hexDigit n) = some n := by decide

namespace Reader

variable {r : Reader}

theorem run_string_bytes (hs : ∀ b ∈ s, b ≠ 34 ∧ b ≠ 92) :
    (r.enter (.string contents)).run (s ++ rest) =
      (r.enter (.string (contents ++ s))).run rest := by
  induction s generalizing contents with
  | nil => rw [append_nil, nil_append]
  | cons b s ih =>
    obtain ⟨⟨h₁, h₂⟩, hs⟩ := forall_mem_cons.1 hs
    rw [cons_append, run, step]
    simp only [mode_enter, if_neg h₁, if_neg h₂, Option.bind_some, enter_enter]
    rw [ih hs, append_assoc, singleton_append]

theorem run_hex_digits {digits value : Nat} (hd : 0 < digits) (width n : Nat) :
    (r.enter (.hex contents isByte (digits + width) value)).run
        (Quoted.hex width n ++ rest) =
      (r.enter (.hex contents isByte digits (16 ^ width * value + n % 16 ^ width))).run rest := by
  induction width generalizing n digits rest with
  | zero => simp [Quoted.hex, Nat.mod_one]
  | succ width ih =>
    have hvalue : 16 * (16 ^ width * value + n / 16 % 16 ^ width) + n % 16 =
        16 ^ (width + 1) * value + n % 16 ^ (width + 1) := by
      have := Nat.mod_mul (x := n) (a := 16) (b := 16 ^ width)
      grind
    have hcount : digits + (width + 1) = (digits + 1) + width := by omega
    rw [Quoted.hex, append_assoc, hcount, ih (by omega), singleton_append, run, step]
    simp only [mode_enter, hexValue?_hexDigit _ (Nat.mod_lt n (by omega)), Option.map_some,
      Option.bind_some, enter_enter]
    rw [if_pos (by omega), hvalue]
    rfl

theorem run_hex (width : Nat) (hn : n < 16 ^ (width + 1)) :
    (r.enter (.hex contents isByte (width + 1) 0)).run
        (Quoted.hex (width + 1) n ++ rest) = (r.enter (.string (contents ++
        if isByte then [UInt8.ofNat n] else Bytes.ofChar (Char.ofNat n)))).run rest := by
  have hdiv : n / 16 < 16 ^ width := by
    omega
  rw [Quoted.hex, append_assoc, Nat.add_comm, run_hex_digits (by omega), singleton_append,
    run, step]
  simp only [mode_enter, hexValue?_hexDigit _ (Nat.mod_lt n (by omega)), Option.map_some,
    Option.bind_some, enter_enter]
  rw [if_neg (by omega), Nat.mul_zero, Nat.zero_add, Nat.mod_eq_of_lt hdiv, Nat.div_add_mod]
  cases isByte <;> rfl

theorem run_escape (h : b ≠ 120 ∧ b ≠ 117 ∧ b ≠ 85) (hb : escape? b = some x) :
    (r.enter (.string contents)).run (92 :: b :: rest) =
      (r.enter (.string (contents ++ [x]))).run rest := by
  simp [run, step, h, hb]

theorem run_glyph (g : Glyph) : (r.enter (.string contents)).run (Quoted.glyph g ++ rest) =
      (r.enter (.string (contents ++ g.bytes))).run rest := by
  cases g with
  | stray b =>
    have hb : UInt8.ofNat b.toNat = b := UInt8.ofNat_toNat
    refine (run_hex 1 b.toNat_lt).trans ?_
    rw [if_pos rfl, hb]
    rfl
  | char c =>
    have hc : Char.ofNat c.toNat = c := Char.ofNat_toNat c
    rw [Quoted.glyph, Glyph.bytes]
    split
    · next h =>
      obtain rfl | rfl := h
      · exact run_escape (by decide) (by decide)
      · exact run_escape (by decide) (by decide)
    next hquote =>
    split
    · -- a printable character, of which no byte is a quote or a backslash
      refine run_string_bytes fun b hb => ⟨?_, ?_⟩
      · rintro rfl
        exact hquote (.inl (Bytes.eq_of_mem_ofChar hb (by decide)))
      · rintro rfl
        exact hquote (.inr (Bytes.eq_of_mem_ofChar hb (by decide)))
    split
    · next e he =>
      rw [Quoted.shortEscape] at he
      split at he <;> cases he
      all_goals
        next hn =>
        rw [← hc, hn]
        exact run_escape (by decide) (by decide)
    split
    · next hascii =>
      have hlt : c.toNat < 0x80 := by simpa [Rune.isAscii] using hascii
      obtain ⟨-, he⟩ | ⟨hge, -⟩ := Bytes.ofChar_cases c
      · rw [he, append_assoc]
        exact run_hex 1 (by omega)
      · omega
    have hlt : c.toNat < 0x110000 := by
      have hv : c.toNat < 0xD800 ∨ (0xDFFF < c.toNat ∧ c.toNat < 0x110000) := c.valid
      omega
    split
    · refine (run_hex 3 (by omega)).trans ?_
      rw [if_neg (by decide), hc]
      rfl
    · rw [append_assoc]
      refine (run_hex 7 (by omega)).trans ?_
      rw [if_neg (by decide), hc]
      rfl

theorem run_encode (hr : r.mode = .between) (s : Bytes) :
    r.run (Quoted.encode s ++ rest) = (r.push (.string s)).run rest := by
  have hglyphs : ∀ (gs : List Glyph) (contents : Bytes),
      (r.enter (.string contents)).run (gs.flatMap Quoted.glyph ++ (34 :: rest)) =
        (r.push (.string (contents ++ Bytes.ofGlyphs gs))).run rest := by
    intro gs
    induction gs with
    | nil => intro contents; simp [run, step, Bytes.ofGlyphs]
    | cons g gs ih =>
      intro contents
      rw [flatMap_cons, append_assoc, run_glyph, ih, append_assoc]
      rfl
  have hopen : r.run (34 :: (s.glyphs.flatMap Quoted.glyph ++ (34 :: rest))) =
      (r.enter (.string [])).run (s.glyphs.flatMap Quoted.glyph ++ (34 :: rest)) := by
    rw [run, step, hr]
    rfl
  have henc : Quoted.encode s ++ rest =
      34 :: (s.glyphs.flatMap Quoted.glyph ++ (34 :: rest)) := by
    rw [Quoted.encode, append_assoc, append_assoc]
    rfl
  rw [henc, hopen, hglyphs, nil_append, Bytes.ofGlyphs_glyphs]

def pushAll (r : Reader) (ts : List SExpr) : Reader :=
  ts.foldl push r

theorem pushAll_eq (hr : r.mode = .between) (ts : List SExpr) :
    r.pushAll ts = { r with inner := ts.reverse ++ r.inner } := by
  induction ts generalizing r with
  | nil => rfl
  | cons t ts ih =>
    rw [pushAll, foldl_cons, ← pushAll, ih rfl]
    simp [push, hr]

theorem run_close (ts : List SExpr) :
    (({ outer := r.inner :: r.outer } : Reader).pushAll ts).run (41 :: rest) =
      (r.push (.list ts)).run rest := by
  rw [pushAll_eq rfl, run, step]
  simp [delimit, isBlank, push]

end Reader

end SExpr

/-! ### Forms -/

namespace Form

mutual

def tree : Form → SExpr
  | atom text => .atom text
  | quoted contents => .string contents
  | list items => .list (trees items)

def trees : List (Gap × Form) → List SExpr
  | [] => []
  | (_, f) :: items => f.tree :: trees items

end

def isWord : Form → Bool
  | atom _ => true
  | _ => false

mutual

/-- The text of the form can be read: its atoms are atoms, and no two of them touch. -/
def isReadable : Form → Bool
  | atom text => SExpr.isAtom text
  | quoted _ => true
  | list items => areReadable false items

/-- The items of a list can be read behind an item that is an atom, or is none. -/
def areReadable (afterWord : Bool) : List (Gap × Form) → Bool
  | [] => true
  | (gap, f) :: items =>
    !(afterWord && gap == .glued && f.isWord) && f.isReadable && areReadable f.isWord items

end

theorem printItems_cons (depth : Nat) (gap : Gap) (f : Form) (items : List (Gap × Form)) :
    ∃ lead d, lead.all SExpr.isBlank = true ∧ (lead = [] → gap = .glued) ∧
      printItems depth ((gap, f) :: items) = lead ++ (f.print d ++ printItems depth items) := by
  have hblanks (n : Nat) : (indent n).all SExpr.isBlank = true := by
    induction n with
    | zero => rfl
    | succ n ih =>
      exact ih
  cases gap with
  | glued => exact ⟨[], depth, rfl, fun _ => rfl, rfl⟩
  | space => exact ⟨[32], depth, rfl, nofun, rfl⟩
  | line =>
    refine ⟨10 :: indent (depth + 1), depth + 1, ?_, nofun, ?_⟩
    · rw [all_cons, hblanks]
      rfl
    · rw [printItems, append_assoc, append_assoc]
      rfl
  | aligned =>
    refine ⟨10 :: (indent depth ++ [32]), depth, ?_, nofun, ?_⟩
    · rw [all_cons, all_append, hblanks]
      rfl
    · rw [printItems]
      simp only [append_assoc, cons_append]
      rfl

theorem stops_printItems {items : List (Gap × Form)} (h : areReadable true items = true)
    (depth : Nat) (rest : Bytes) : SExpr.stops (printItems depth items ++ 41 :: rest) = true := by
  cases items with
  | nil => rfl
  | cons item items =>
    obtain ⟨gap, f⟩ := item
    obtain ⟨lead, d, hlead, hgap, heq⟩ := printItems_cons depth gap f items
    rw [heq]
    cases lead with
    | nil =>
      obtain rfl := hgap rfl
      cases f with
      | atom text => simp [areReadable, isWord] at h
      | quoted contents | list items => rfl
    | cons b lead =>
      have hb : SExpr.isBlank b = true := by
        rw [all_cons, Bool.and_eq_true] at hlead
        exact hlead.1
      simp [SExpr.stops, SExpr.isAtomByte, hb]

mutual

/-- A form is read as its tree, at any depth. -/
theorem run_print (f : Form) (hf : f.isReadable = true) (depth : Nat) {r : SExpr.Reader}
    {rest : Bytes} (hr : r.mode = .between) (hrest : f.isWord = true → SExpr.stops rest = true) :
    r.run (f.print depth ++ rest) = (r.push f.tree).run rest :=
  match f with
  | atom text => SExpr.Reader.run_atom hr hf (hrest rfl)
  | quoted contents => SExpr.Reader.run_encode hr contents
  | list items => by
    have hopen : r.run ((list items).print depth ++ rest) =
        ({ outer := r.inner :: r.outer } : SExpr.Reader).run
          (printItems depth items ++ 41 :: rest) := by
      rw [print, append_assoc, append_assoc]
      change SExpr.Reader.run r (40 :: (printItems depth items ++ 41 :: rest)) = _
      rw [SExpr.Reader.run, SExpr.Reader.step, hr]
      rfl
    rw [hopen, run_printItems items hf depth rfl]
    exact SExpr.Reader.run_close (trees items)

theorem run_printItems (items : List (Gap × Form))
    (hitems : areReadable afterWord items = true) (depth : Nat) {r : SExpr.Reader} {rest : Bytes}
    (hr : r.mode = .between) :
    r.run (printItems depth items ++ 41 :: rest) = (r.pushAll (trees items)).run (41 :: rest) :=
  match items with
  | [] => rfl
  | (gap, f) :: items => by
    obtain ⟨lead, d, hlead, -, heq⟩ := printItems_cons depth gap f items
    simp only [areReadable, Bool.and_eq_true] at hitems
    obtain ⟨⟨-, hf⟩, hitems⟩ := hitems
    have hstops : f.isWord = true →
        SExpr.stops (printItems depth items ++ 41 :: rest) = true := fun hword =>
      stops_printItems (hword ▸ hitems) depth rest
    rw [heq, append_assoc, SExpr.Reader.run_blanks hr hlead, append_assoc,
      run_print f hf d hr hstops, run_printItems items hitems depth rfl]
    rfl

end

end Form

end Covenant
