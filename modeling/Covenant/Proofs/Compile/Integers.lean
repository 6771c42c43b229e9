import Covenant.Proofs.Compile.Append
import Covenant.Proofs.Tree.Single
import Mathlib.Data.Nat.Digits.Defs

/-!
# Integers survive, but for the least one

A numeral is read before the signs in front of it are looked at, so its value has to fit into 64
bits without a sign.  The signs are then folded into the value one by one, which takes no such value
out of range.  The least integer of 64 bits is the one that cannot be written: it is the negative of
a number that does not fit.
-/

namespace Covenant

open List Bytes Numeral

open Covenant.Parser (Proceeds)
open Scanner (Gives)

/-! ### Values -/

namespace Numeral

def value (d : Bytes) : Nat :=
  Nat.ofDigits 10 (d.reverse.map fun b => b.toNat - 48)

theorem value_concat (d : Bytes) (b : UInt8) :
    value (d ++ [b]) = 10 * value d + (b.toNat - 48) := by
  rw [value, reverse_append, reverse_singleton, singleton_append, map_cons,
    Nat.ofDigits_cons, ← value, Nat.add_comm]

theorem nat?_eq {d : Bytes} (hd : d.isNumeral = true) : nat? d = some (value d) := by
  obtain ⟨hne, hdigits⟩ := forall_isDigit hd
  have hfold : d.foldl (fun n b => n.bind fun n => (digit? b).map (10 * n + ·)) (some 0) =
      some (value d) := by
    clear hd hne
    induction d using reverseRecOn with
    | nil => rfl
    | append_singleton d b ih =>
      obtain ⟨hd, hb⟩ := forall_mem_append.1 hdigits
      rw [foldl_concat, ih hd, Option.bind_some,
        digit?_of_isDigit (forall_mem_singleton.1 hb), Option.map_some, value_concat]
  rw [nat?, if_neg (by simpa using hne)]
  exact hfold

theorem value_ofNat (n : Nat) : value (ofNat n) = n :=
  Option.some.inj ((nat?_eq (isNumeral_ofNat n)).symm.trans (nat?_ofNat n))

theorem int64?_eq {d : Bytes} (hd : d.isNumeral = true) :
    int64? d = if value d < 2 ^ 63 then some (Int64.ofInt (value d)) else none := by
  have hint : int? d = some (value d : Int) := by
    rw [int?, sign_of_isNumeral hd]
    simp [nat?_eq hd]
  have hrange : Int64.minValue.toInt ≤ value d ∧ (value d : Int) ≤ Int64.maxValue.toInt ↔
      value d < 2 ^ 63 := by
    have hmin : Int64.minValue.toInt = -2 ^ 63 := by decide
    have hmax : Int64.maxValue.toInt = 2 ^ 63 - 1 := by decide
    omega
  rw [int64?, hint, Option.bind_some]
  simp only [hrange]

theorem toInt_signed (m : Nat) {v : Nat} (hv : v < 2 ^ 63) :
    (Int64.ofInt ((-1) ^ m * v)).toInt = (-1) ^ m * v := by
  have hbounds : -(2 ^ 63 : Int) ≤ (-1) ^ m * v ∧ (-1) ^ m * (v : Int) < 2 ^ 63 := by
    obtain h | h := neg_one_pow_eq_or Int m <;> rw [h] <;> omega
  rw [Int64.toInt_ofInt]
  exact Int.bmod_eq_of_le (by simpa using hbounds.1) (by simpa using hbounds.2)

end Numeral

theorem Scanner.Gives.map_lexeme_scan (h : Gives source.glyphs vs []) :
    (Token.scan source).map Token.lexeme = vs.map Token.lexeme ++ [(.eof, [])] := by
  obtain ⟨ts, pos, hscan, hts⟩ := h.scan_eq
  rw [hscan, List.map_append, Token.map_lexeme hts]
  rfl

/-! ### Trees -/

namespace Tree

variable {signs : List Token} {d : Token} (hsigns : ∀ m ∈ signs, m.kind = .minus)
  (hd : d.kind = .int) (hnumeral : d.literal.isNumeral = true)

include hsigns hd hnumeral

/-- A numeral behind signs is a literal, into which they are folded. -/
theorem build_signed (hvalue : value d.literal < 2 ^ 63) :
    ∃ text p, ∀ assets, (signed signs (.ofRule .literal d [.leaf d])).build assets =
      .ok (.ofExpr (.literal text p
        (.int (Int64.ofInt ((-1) ^ signs.length * value d.literal))))) := by
  induction signs with
  | nil =>
    refine ⟨d.literal, d.pos, fun assets => ?_⟩
    have hitem : Item.ofToken d = .ok (.ofExpr (.literal d.literal d.pos
        (.int (Int64.ofInt (value d.literal))))) := by
      rw [Item.ofToken, hd]
      simp only [int64?_eq hnumeral, hvalue, if_true]
    rw [length_nil, pow_zero, one_mul]
    change (do let items ← buildAll assets [.leaf d]; Site.build assets ⟨.literal, d.pos⟩ items) = _
    rw [buildAll, buildAll, build, hitem]
    rfl
  | cons m signs ih =>
    obtain ⟨hm, hsigns⟩ := forall_mem_cons.1 hsigns
    obtain ⟨text, p, ih⟩ := ih hsigns
    have hitem : Item.ofToken m = .ok (.token m) := by rw [Item.ofToken, hm]
    refine ⟨m.literal, m.pos, fun assets => ?_⟩
    rw [length_cons, pow_succ, mul_neg_one, neg_mul, Int64.ofInt_neg]
    change (do
      let items ← buildAll assets [.leaf m, signed signs (.ofRule .literal d [.leaf d])]
      Site.build assets ⟨.unary, m.pos⟩ items) = _
    rw [buildAll, buildAll, buildAll, build, hitem, ih]
    obtain ⟨kind, _, _⟩ := m
    obtain rfl : kind = .minus := hm
    rfl

/-- A numeral that does not fit is refused, whatever stands before it. -/
theorem build_signed_of_le (hvalue : 2 ^ 63 ≤ value d.literal) (assets : List Bytes) :
    (signed signs (.ofRule .literal d [.leaf d])).build assets =
      .error ⟨.badNumber d.literal, d.pos⟩ := by
  induction signs with
  | nil =>
    have hitem : Item.ofToken d = .error ⟨.badNumber d.literal, d.pos⟩ := by
      rw [Item.ofToken, hd]
      simp only [int64?_eq hnumeral, Nat.not_lt.2 hvalue, if_false]
    change (do let items ← buildAll assets [.leaf d]; Site.build assets ⟨.literal, d.pos⟩ items) = _
    rw [buildAll, build, hitem]
    rfl
  | cons m signs ih =>
    obtain ⟨hm, hsigns⟩ := forall_mem_cons.1 hsigns
    have hitem : Item.ofToken m = .ok (.token m) := by rw [Item.ofToken, hm]
    change (do
      let items ← buildAll assets [.leaf m, signed signs (.ofRule .literal d [.leaf d])]
      Site.build assets ⟨.unary, m.pos⟩ items) = _
    rw [buildAll, buildAll, build, hitem, ih hsigns]
    rfl

end Tree

theorem Tree.parse_signed {d s e : Token}
    (hscan : Token.scan source = signs ++ [d, s] ++ [e]) (hsigns : ∀ m ∈ signs, m.kind = .minus)
    (hd : d.kind = .int) (hs : s.kind = .semicolon) (he : e.kind = .eof) :
    ∃ z, parse source = .ok (.ofRule .program z
      [.ofRule .exprStmt z [signed signs (.ofRule .literal d [.leaf d])]]) := by
  obtain ⟨z, vs, hz⟩ := exists_cons_of_ne_nil (append_ne_nil_of_right_ne_nil _ (cons_ne_nil d []))
  obtain ⟨t, ws, ht⟩ := exists_cons_of_ne_nil (append_ne_nil_of_right_ne_nil _ (cons_ne_nil s []))
  have htokens : signs ++ [d, s] = z :: t :: ws := by
    rw [← ht, ← cons_append, ← hz, List.append_assoc]
    rfl
  have hkinds : ∀ x ∈ z :: t :: ws, x.kind ∈ [TokenKind.minus, .int, .semicolon] := by
    rw [← htokens]
    refine forall_mem_append.2 ⟨fun m hm => ?_, ?_⟩
    · rw [hsigns m hm]
      decide
    · simp [hd, hs]
  have hne {k : TokenKind} (hk : k ∉ [TokenKind.minus, .int, .semicolon]) :
      ∀ x ∈ z :: t :: ws, x.kind ≠ k := fun x hx h => hk (h ▸ hkinds x hx)
  have hfirst : z.kind = .minus ∨ z.kind = .int := by
    have hmem : z ∈ signs ++ [d] := hz ▸ mem_cons_self
    obtain hmem | hmem := mem_append.1 hmem
    · exact .inl (hsigns z hmem)
    · exact .inr (mem_singleton.1 hmem ▸ hd)
  rw [htokens] at hscan
  obtain ⟨_, hparse, rfl⟩ := exists_parse_one
    (P := (· = .ofRule .exprStmt z [signed signs (.ofRule .literal d [.leaf d])])) hscan he
    (.refl _) (hne (by decide)) ⟨hne (by decide) z (.head _), hne (by decide) z (.head _)⟩
    fun depth hdepth => by
      have hlength : signs.length ≤ depth := by
        have := congrArg length htokens
        simp at this hdepth
        omega
      have hunary (us : List Token) : Proceeds us (Grammar.unaryRule (.ofDepth depth)) z (t :: ws)
          (pure (signed signs (.ofRule .literal d [.leaf d]))) d [s] :=
        ht ▸ .signed hsigns hd hs hlength hz
      exact ⟨s, _, rfl, fun us =>
        .statement_expr hfirst (hne (by decide) t (.tail _ (.head _))) hs (hunary us)⟩
  exact ⟨z, hparse⟩

/-! ### Programs -/

theorem Program.ofTree_expr (assets : List Bytes) (z : Token) {t : Tree} {r : Except Fault Expr}
    (ht : ∀ known, t.build known = r.map Item.ofExpr) :
    ofTree assets (.ofRule .program z [.ofRule .exprStmt z [t]]) =
      r.map fun e => ⟨[.exprStmt z.pos e]⟩ := by
  change (do
    let items ← Tree.buildAll _ [.node .exprStmt z.pos [t]]
    Site.program ⟨.program, z.pos⟩ items) = _
  rw [Tree.buildAll, Tree.buildAll, Tree.build, Tree.buildAll, Tree.buildAll, ht]
  cases r <;> rfl

theorem Options.programOrFault_eq {o : Options}
    (h : Tree.parse source = .ok t) : o.programOrFault source = Program.ofTree o.assets t := by
  rw [programOrFault, h]
  rfl

def Bytes.IsSigned (source : Bytes) (m : Nat) (d : Bytes) : Prop :=
  (Token.scan source).map Token.lexeme =
    List.replicate m (.minus, ofString "-") ++ [(.int, d), (.semicolon, ";"), (.eof, [])]

instance (source : Bytes) (m : Nat) (d : Bytes) : Decidable (source.IsSigned m d) :=
  inferInstanceAs (Decidable (_ = _))

namespace Bytes.IsSigned

variable {source : Bytes} {m : Nat} {d : Bytes} (h : source.IsSigned m d)

include h

theorem exists_parse : ∃ (signs : List Token) (t z : Token), signs.length = m ∧
    (∀ s ∈ signs, s.kind = .minus) ∧ t.kind = .int ∧ t.literal = d ∧ d.isNumeral = true ∧
    Tree.parse source = .ok (.ofRule .program z
      [.ofRule .exprStmt z [Tree.signed signs (.ofRule .literal t [.leaf t])]]) := by
  obtain ⟨signs, behind, hscan, hsigns, hbehind⟩ := map_eq_append_iff.1 h
  obtain ⟨t, _, rfl, ht, hbehind⟩ := map_eq_cons_iff.1 hbehind
  obtain ⟨s, _, rfl, hs, hbehind⟩ := map_eq_cons_iff.1 hbehind
  obtain ⟨e, _, rfl, he, hnil⟩ := map_eq_cons_iff.1 hbehind
  obtain rfl := map_eq_nil_iff.1 hnil
  obtain ⟨ht, hliteral⟩ := Prod.mk.inj ht
  have hkinds : ∀ s ∈ signs, s.kind = .minus := fun s hmem =>
    congrArg Prod.fst (eq_of_mem_replicate (hsigns ▸ mem_map_of_mem hmem))
  have hmem : t ∈ Token.scan source := by simp [hscan]
  have hnumeral := Token.isSound_of_mem_scan hmem
  rw [Token.isSound, ht] at hnumeral
  obtain ⟨z, hparse⟩ := Tree.parse_signed (by rw [hscan, List.append_assoc]; rfl) hkinds ht
    (Prod.mk.inj hs).1 (Prod.mk.inj he).1
  exact ⟨signs, t, z, by simpa using congrArg length hsigns, hkinds, ht, hliteral,
    hliteral ▸ hnumeral, hparse⟩

theorem exists_program (hvalue : value d < 2 ^ 63) (o : Options) :
    ∃ p text q w, o.programOrFault source = .ok ⟨[.exprStmt p (.literal text q (.int w))]⟩ ∧
      w.toInt = (-1) ^ m * value d := by
  obtain ⟨signs, t, z, rfl, hsigns, ht, rfl, hnumeral, hparse⟩ := h.exists_parse
  obtain ⟨text, q, hbuild⟩ := Tree.build_signed hsigns ht hnumeral hvalue
  refine ⟨z.pos, text, q, _, ?_, toInt_signed signs.length hvalue⟩
  rw [Options.programOrFault_eq hparse]
  exact Program.ofTree_expr o.assets z (r := .ok _) hbuild

theorem exists_fault (hvalue : 2 ^ 63 ≤ value d) (o : Options) :
    ∃ p, o.programOrFault source = .error ⟨.badNumber d, p⟩ := by
  obtain ⟨signs, t, z, -, hsigns, ht, rfl, hnumeral, hparse⟩ := h.exists_parse
  refine ⟨t.pos, ?_⟩
  rw [Options.programOrFault_eq hparse]
  exact Program.ofTree_expr o.assets z (r := .error _)
    (Tree.build_signed_of_le hsigns ht hnumeral hvalue)

theorem compile_eq {o : Options} {target : Version} (hversion : o.version = .ok target) :
    o.compile source = .ok (ofInt ((-1) ^ m * value d)) ↔ value d < 2 ^ 63 := by
  constructor
  · intro hcompile
    by_contra hlarge
    obtain ⟨p, hfault⟩ := h.exists_fault (Nat.not_lt.1 hlarge) o
    rw [Options.compile_eq, hversion, hfault] at hcompile
    cases hcompile
  · intro hvalue
    obtain ⟨p, text, q, w, hprogram, hw⟩ := h.exists_program hvalue o
    rw [Options.compile_eq, hversion, hprogram, ← hw]
    change Except.ok (ofInt w.toInt ++ []) = _
    rw [append_nil]

end Bytes.IsSigned

/-! ### Texts -/

def Bytes.signed (m : Nat) (d : Bytes) : Bytes :=
  List.replicate m 45 ++ (d ++ ofString ";")

theorem Bytes.glyphs_signed (m : Nat) (d : Bytes) :
    (signed m d).glyphs = List.replicate m (.char '-') ++ (d.glyphs ++ [.char ';']) := by
  have hhead : ∀ b, (ofString ";").head? = some b → isContinuation b = false := by
    rintro _ ⟨⟩
    decide
  induction m with
  | zero => exact glyphs_append hhead
  | succ m ih =>
    change glyphs (45 :: signed m d) = _
    rw [glyphs_cons_of_lt (by decide), ih]
    rfl

theorem Scanner.gives_signs (m : Nat) (more : List Glyph) :
    Gives (List.replicate m (.char '-') ++ more) (List.replicate m (Token.symbol .minus)) more := by
  induction m with
  | zero => exact .nil more
  | succ m ih =>
    have hone : Gives (.char '-' :: (List.replicate m (.char '-') ++ more)) [Token.symbol .minus]
        (List.replicate m (.char '-') ++ more) :=
      .one TokenKind.noConfusion fun pos => ⟨pos, _, rfl⟩
    exact hone.trans ih

theorem Bytes.isSigned_signed (m : Nat) {d : Bytes} (hd : d.isNumeral = true) :
    (signed m d).IsSigned m d := by
  have hnumeral : Gives (d.glyphs ++ [.char ';']) [⟨.int, d, {}⟩] [.char ';'] := by
    have hstop : Scanner.Avoids Scanner.isDigit [.char ';'] := by
      rintro _ ⟨⟩
      decide
    refine .one TokenKind.noConfusion fun pos => ?_
    obtain ⟨pos', hnext⟩ := Scanner.next_numeral hd hstop rfl pos
    exact ⟨pos, pos', hnext⟩
  have hgives := (Scanner.gives_signs m _).trans (hnumeral.trans .semicolon)
  rw [← glyphs_signed] at hgives
  rw [IsSigned, hgives.map_lexeme_scan, List.map_append, List.map_replicate, List.append_assoc]
  rfl

theorem Bytes.ofInt_append (n : Int) :
    ∃ m, ofInt n ++ ofString ";" = signed m (ofNat n.natAbs) ∧ n = (-1) ^ m * n.natAbs := by
  rw [ofInt_eq]
  split
  · next hn =>
    have habs : n.toNat = n.natAbs := by omega
    exact ⟨0, by rw [habs]; rfl, by omega⟩
  · next hn =>
    have habs : (-n).toNat = n.natAbs := by omega
    exact ⟨1, by rw [habs]; rfl, by omega⟩

/-- Of the integers of 64 bits all but the least come out as they were written.  A source that is
a numeral behind any number of signs, in any layout, is the literal whose value the signs say, or
is refused because the numeral without them does not fit; and so is such an expression wherever it
stands in a source. -/
theorem Options.compile_integer {o : Options} {target : Version}
    (hversion : o.version = .ok target) :
    (∀ n : Int, -2 ^ 63 ≤ n → n < 2 ^ 63 →
      (o.compile (ofInt n ++ ofString ";") = .ok (ofInt n) ↔ n ≠ -2 ^ 63)) ∧
    (∀ m d, d.isNumeral = true → (signed m d).IsSigned m d) ∧
    (∀ source m d, source.IsSigned m d →
      (Numeral.value d < 2 ^ 63 →
        (∃ p text q w, o.programOrFault source = .ok ⟨[.exprStmt p (.literal text q (.int w))]⟩ ∧
          w.toInt = (-1) ^ m * Numeral.value d) ∧
        o.compile source = .ok (ofInt ((-1) ^ m * Numeral.value d))) ∧
      (2 ^ 63 ≤ Numeral.value d → ∃ p, o.programOrFault source = .error ⟨.badNumber d, p⟩)) ∧
    ∀ assets signs (d : Token) item, (∀ s ∈ signs, s.kind = .minus) → d.kind = .int →
      d.literal.isNumeral = true →
      (Tree.signed signs (.ofRule .literal d [.leaf d])).build assets = .ok item →
      ∃ text p w, item = .ofExpr (.literal text p (.int w)) ∧
        w.toInt = (-1) ^ signs.length * Numeral.value d.literal := by
  refine ⟨fun n hmin hmax => ?_, fun m d => isSigned_signed m, fun source m d h => ?_,
    fun assets signs d item hsigns hd hnumeral hbuild => ?_⟩
  · obtain ⟨m, htext, hn⟩ := ofInt_append n
    have hsigned := isSigned_signed m (isNumeral_ofNat n.natAbs)
    have hcompile := hsigned.compile_eq hversion
    rw [Numeral.value_ofNat, ← hn, ← htext] at hcompile
    rw [hcompile]
    omega
  · exact ⟨fun hvalue => ⟨h.exists_program hvalue o, (h.compile_eq hversion).2 hvalue⟩,
      fun hvalue => h.exists_fault hvalue o⟩
  · obtain hvalue | hvalue := Nat.lt_or_ge (Numeral.value d.literal) (2 ^ 63)
    · obtain ⟨text, p, hsigned⟩ := Tree.build_signed hsigns hd hnumeral hvalue
      rw [hsigned] at hbuild
      exact ⟨text, p, _, (Except.ok.inj hbuild).symm, Numeral.toInt_signed signs.length hvalue⟩
    · rw [Tree.build_signed_of_le hsigns hd hnumeral hvalue] at hbuild
      cases hbuild

/-- The ends of what can be written, three signs in an odd layout, and a numeral that is too
large. -/
theorem Options.compile_integer_ends :
    (({} : Options).compile (ofInt (2 ^ 63 - 1) ++ ofString ";") =
        .ok (ofInt (2 ^ 63 - 1)) ∧
      ({} : Options).compile (ofInt (-2 ^ 63 + 1) ++ ofString ";") =
        .ok (ofInt (-2 ^ 63 + 1))) ∧
    (signed 2 "9223372036854775808").IsSigned 2 "9223372036854775808" ∧
    (({} : Options).compile "- -\n-007 ;" = .ok (ofInt ((-1) ^ 3 * Numeral.value "007")) ∧
      ∃ p, ({} : Options).programOrFault "9223372036854775808;" =
        .error ⟨.badNumber "9223372036854775808", p⟩) ∧
    ∃ text p w, Item.ofExpr (.literal "-" {} (.int (-7))) = .ofExpr (.literal text p (.int w)) ∧
      w.toInt = (-1) ^ 1 * Numeral.value "7" := by
  obtain ⟨hints, hsigned, hsources, htrees⟩ := Options.compile_integer (o := {}) rfl
  refine ⟨⟨(hints _ (by decide) (by decide)).2 (by decide),
    (hints _ (by decide) (by decide)).2 (by decide)⟩, hsigned 2 _ (by decide),
    ⟨((hsources _ 3 _ (by decide)).1 (by decide)).2,
      (hsources _ 0 _ (by decide)).2 (by decide)⟩, ?_⟩
  exact htrees [] [⟨.minus, "-", {}⟩] ⟨.int, "7", {}⟩ _ (by decide) rfl (by decide) rfl

/-- The least integer of 64 bits cannot be written. -/
theorem Options.compile_integer_least :
    ofInt (-2 ^ 63) ++ ofString ";" = "-9223372036854775808;" ∧
    (({} : Options).compile "-9223372036854775808;").toOption = none := by
  decide

end Covenant
