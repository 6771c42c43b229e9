import Covenant.Proofs.Program.RoundTrip.TypeSource

/-!
# Reading types back

The tokens of a type, and those of a parameter, are read back as that type or parameter, up to
places.  The grammar has to be unrolled no deeper than there are tokens.
-/

namespace Covenant

open List TokenKind

open Covenant.Parser (Reads ReadsItem Takes)
open Token (symbol)

/-! ### Tokens that can be written -/

/-- All tokens are scanned back from their texts, and every parenthesis is closed. -/
structure Tidy (ws : List Token) : Prop where
  writable : ∀ w ∈ ws, w.isWritable = true
  balanced : Balanced ws

theorem Token.kind_ne_illegal {t : Token} (ht : t.isWritable = true) : t.kind ≠ .illegal := by
  intro hk
  simp [isWritable, hk, symbols, keywords] at ht

theorem Token.isWritable_symbol {k : TokenKind} (hk : symbols.contains k = true) :
    (symbol k).isWritable = true := by
  have hall : ∀ k ∈ symbols, (symbol k).isWritable = true := by decide
  exact hall k (contains_iff_mem.1 hk)

theorem Token.keyword_of_mem {k : TokenKind} (h : (w, k) ∈ keywords) :
    (keyword w).kind = k ∧ (keyword w).isWritable = true ∧ k ≠ .lparen ∧ k ≠ .rparen := by
  have hall : ∀ x ∈ keywords, (keyword x.1).kind = x.2 ∧
      (keyword x.1).isWritable = true ∧ x.2 ≠ .lparen ∧ x.2 ≠ .rparen := by decide
  exact hall (w, k) h

namespace Tidy

theorem nil : Tidy [] :=
  ⟨nofun, .nil⟩

theorem append (hws : Tidy ws) (hvs : Tidy vs) : Tidy (ws ++ vs) :=
  ⟨forall_mem_append.2 ⟨hws.writable, hvs.writable⟩, hws.balanced.append hvs.balanced⟩

theorem cons (ht : t.isWritable = true) (hl : t.kind ≠ .lparen) (hr : t.kind ≠ .rparen)
    (hws : Tidy ws) : Tidy (t :: ws) := by
  refine ⟨forall_mem_cons.2 ⟨ht, hws.writable⟩, hws.balanced.cons ?_⟩
  simp only [mem_cons, not_mem_nil, or_false, not_or]
  exact ⟨hl, hr, Scanner.kind_ne_eof ht, Token.kind_ne_illegal ht⟩

theorem name {w : Bytes} (hw : w.isName = true) (hws : Tidy ws) : Tidy (Token.word w :: ws) :=
  hws.cons hw (by change ident ≠ _; decide) (by change ident ≠ _; decide)

theorem symbol (hk : symbols.contains k = true ∧ k ≠ .lparen ∧ k ≠ .rparen) (hws : Tidy ws) :
    Tidy (symbol k :: ws) :=
  hws.cons (Token.isWritable_symbol hk.1) hk.2.1 hk.2.2

theorem keyword (h : (w, k) ∈ keywords) (hws : Tidy ws) : Tidy (Token.keyword w :: ws) := by
  obtain ⟨hkind, hwritable, hl, hr⟩ := Token.keyword_of_mem h
  exact hws.cons hwritable (hkind ▸ hl) (hkind ▸ hr)

theorem parens (hws : Tidy ws) : Tidy (parens ws) := by
  refine ⟨?_, hws.balanced.parens rfl rfl⟩
  simp only [Covenant.parens, forall_mem_cons, forall_mem_append]
  exact ⟨by decide, hws.writable, by decide, forall_mem_nil _⟩

theorem commas (h : ∀ ws ∈ wss, Tidy ws) : Tidy (commas wss) := by
  cases wss with
  | nil => exact nil
  | cons ws wss =>
    obtain ⟨hws, hwss⟩ := forall_mem_cons.1 h
    refine hws.append ?_
    clear hws h
    induction wss with
    | nil => exact nil
    | cons ws wss ih =>
      obtain ⟨hws, hwss⟩ := forall_mem_cons.1 hwss
      exact (hws.symbol (by decide)).append (ih hwss)

theorem commas_close (h : ∀ ws ∈ wss, Tidy ws)
    (hk : symbols.contains k = true ∧ k ≠ .lparen ∧ k ≠ .rparen) :
    Tidy (Covenant.commas wss ++ [Token.symbol k]) :=
  (commas h).append (nil.symbol hk)

end Tidy

/-! ### Types -/

theorem Parser.Answers.reads {α : Type} {p : Parser α} {w : Token} {ws : List Token} {a : α}
    (h : (do advance; p).Answers (w :: ws) a) (hw : w.kind ∉ closers)
    (hillegal : w.kind ≠ .illegal) : Reads p isLess (w :: ws) a := by
  refine .cons hw fun u us hu hlegal => ?_
  have hall : Legal (w :: (ws ++ u :: us)) := forall_mem_cons.2 ⟨hillegal, hlegal⟩
  have hstands : (Cursor.on w (w :: ws ++ u :: us)).Stands (u :: us) w (w :: ws ++ []) := by
    rw [append_nil]
    refine ⟨w :: ws, rfl, .refl _, cons_ne_nil _ _, fun t ht => hall t ?_⟩
    simp only [head?_cons, Option.toList_some, mem_append, mem_cons] at ht ⊢
    tauto
  have hclear : Clear (w :: ws) ([] ++ u :: us) := clear_of_head (by
    rintro _ ⟨⟩
    simpa [isLess] using hu)
  obtain ⟨_, hd, _, rfl, hnil, -⟩ := h (u :: us) w [] hclear _ hstands
  cases hnil
  rw [← Cursor.advance_on (z := w) hall]
  exact ⟨(forall_mem_append.1 hlegal).2, _, hd⟩

/-- The tokens of the type are read as it. -/
structure Ty.ReadBack (assets : List Bytes) (t : Ty) : Prop where
  tidy : Tidy t.words
  reads : ∀ depth, t.words.length ≤ depth →
    ∃ u, Reads (Grammar.typeRule (.ofDepth depth)) isLess t.words u ∧ u.Means assets (.ofType t)

namespace Ty

theorem ReadBack.below {t : Ty} (h : t.ReadBack assets) (depth : Nat)
    (hd : t.words.length < depth) :
    ∃ u, Reads (Grammar.ofDepth depth).type isLess t.words u ∧ u.Means assets (.ofType t) := by
  cases depth with
  | zero => cases hd
  | succ depth => exact h.reads depth (Nat.le_of_lt_succ hd)

theorem tidy_words (t : Ty) (h : (Node.type t).All (Node.Sound assets)) : Tidy t.words := by
  have happlied {w : String} (us : List Ty) (hw : (Bytes.ofString w).isName = true)
      (hus : ∀ u ∈ us, Tidy u.words) :
      Tidy (Token.word w :: symbol .less :: (commas (us.map words) ++ [symbol .greater])) :=
    .name hw (.symbol (by decide)
      (.commas_close (forall_mem_map.2 hus) (by decide)))
  induction t using induction_below with
  | step t ih =>
    have hbelow (c : Ty) (hc : Node.type c ∈ t.children) : Tidy c.words := ih c hc (h.below _ hc)
    cases t with
    | named n => exact .name (h.below n.node (.head _)).self .nil
    | list p u | optional p u =>
      exact happlied [u] (isName_of_mem (by simp)) (by simpa using hbelow u (.head _))
    | response p ok err =>
      exact happlied [ok, err] (isName_of_mem (by simp))
        (by simpa using ⟨hbelow ok (.head _), hbelow err (.tail _ (.head _))⟩)
    | tuple p fields =>
      rw [words_tuple]
      refine .symbol (by decide)
        (.commas_close (forall_mem_map.2 fun f hf => ?_) (by decide))
      exact .name (h.self.1 f hf)
        (.symbol (by decide) (hbelow f.2 (mem_map_of_mem hf)))

/-- **The tokens of a type with sound parts are read as it**, since the grammar derives it from
them. -/
theorem readBack (t : Ty) (h : (Node.type t).All (Node.Sound assets)) : t.ReadBack assets := by
  refine ⟨t.tidy_words h, fun depth hd => ?_⟩
  obtain ⟨hplain, u, hu, hmeans⟩ := t.isPhrase h
  have halike := Token.alike_of_isSound (fun w hw => Token.isSound_of_isPlain (hplain w hw))
      (forall₂_same.2 fun _ _ => ⟨rfl, rfl⟩)
  obtain ⟨u', hlike, hanswers⟩ := hu.isRead _ halike depth hd
  obtain ⟨w, hw, hstart⟩ := hu.runs.first
  obtain ⟨ws, hws⟩ := head?_eq_some_iff.1 hw
  rw [hws] at hplain hanswers ⊢
  have hlegal := Token.kind_ne_illegal_of_isPlain (hplain w (.head _))
  refine ⟨u', hanswers.reads ?_ hlegal, hmeans.type_of_like (forall₂_cons.1 hlike).1⟩
  have hclosers : ∀ k ∈ [ident, .lbrace], k ∉ Parser.closers := by decide
  exact hclosers _ hstart

end Ty

/-! ### Parameters -/

/-- The tokens of the parameter are read as it. -/
structure Parameter.ReadBack (assets : List Bytes) (p : Parameter) : Prop where
  tidy : Tidy p.words
  reads : ∀ depth, p.words.length ≤ depth →
    ∃ u, ReadsItem (Grammar.parameter (.ofDepth depth) false) .rparen p.words u ∧
      u.Means assets (.node (.parameter p))

theorem Parameter.readBack (p : Parameter) (h : (Node.parameter p).All (Node.Sound assets)) :
    p.ReadBack assets := by
  obtain ⟨n, type⟩ := p
  have hn : n.name.isName = true := (h.below n.node (.head _)).self
  cases type with
  | none =>
    refine ⟨.name hn .nil, fun depth _ => ⟨_, Grammar.readsItem_parameter n.name, ?_⟩⟩
    exact Tree.means_node (by simp) trivial (.cons (Tree.means_name hn) .nil) (q := {}) rfl
  | some t =>
    have ht := t.readBack (h.below (.type t) (.tail _ (.head _)))
    refine ⟨.name hn (.symbol (by decide) ht.tidy), fun depth hd => ?_⟩
    change t.words.length + 2 ≤ depth at hd
    obtain ⟨u, hreads, hmeans⟩ := ht.below depth (by omega)
    refine ⟨_, Grammar.readsItem_typedParameter n.name hreads, ?_⟩
    exact Tree.means_node (by simp) trivial (.cons (Tree.means_name hn) (.cons hmeans .nil))
      (q := {}) rfl

end Covenant
