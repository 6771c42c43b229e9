import Covenant.Proofs.Program.RoundTrip.Type
import Mathlib

/-!
# Reading expressions back

An expression that occurs in a program is written with parentheses only where they are needed, and
read back as the same expression, up to places.  Left out are expressions with floats, with function
values that answer by a block, or with a NUL byte in a string.

The induction is over the expression.  Its tokens are read at the place that the expression needs,
as a chain of operators or suffixes at whose end one more may follow: this is how operators that
group to the left are found again.  At a tighter place they stand in parentheses.
-/

namespace Covenant

open List Grammar Token
open TokenKind (keywords)
open Tree (ofRule means_node)

open Covenant.Parser (Reads Chains ReadsItem Takes)
open Token (symbol keyword)

variable {assets : List Bytes}

theorem Site.exprs_eq (s : Site) (es : List Expr) : s.exprs (es.map .ofExpr) = .ok es :=
  mapM_map_eq_ok (f := s.expr) (g := Item.ofExpr) (fun _ => rfl) es

theorem Site.unary_eq (s : Site) {t : Token} {e : Expr} (h : t.kind = .minus → e.isNumber = false) :
    s.unary [.token t, .ofExpr e] = .ok (.ofExpr (.unary t.pos (.ofText t.literal) e)) := by
  simp only [unary, token, expr, Item.ofExpr, bind, Except.bind]
  split
  · next hk => cases h hk
  · next hk => cases h hk
  · rfl

/-! ### Tokens at a place -/

namespace Grammar

variable {g : Grammar} {ws : List Token} {e f : Expr} {n : Nat} {t : Tree}

/-- At the place `n` the tokens are read as a tree that means the expression. -/
def ReadsAt (g : Grammar) (assets : List Bytes) (n : Nat) (ws : List Token) (e : Expr) : Prop :=
  ∃ t, Reads (g.place n) (continues n) ws t ∧ t.Means assets (.ofExpr e)

/-- The tokens are read as operators of a level in a row, which mean the expression. -/
def OperationsAt (g : Grammar) (assets : List Bytes) (n : Nat) (h : n < 10) (ws : List Token)
    (e : Expr) : Prop :=
  ∃ first more,
    Chains (g.place (n + 3)) (operation? (levelAt n h) (g.place (n + 3)))
    (continues (n + 3)) ws first
      more ∧
    MeansOperations assets (levelAt n h) first more e

/-- The tokens are read as suffixes in a row, which mean the expression. -/
def Suffixes (g : Grammar) (assets : List Bytes) (ws : List Token) (e : Expr) : Prop :=
  ∃ first more, Chains (primary g) (suffix? g) isArrow ws first more ∧
    MeansSuffixes assets first more e

/-- At the place `n` the tokens are read as something that means the expression, and to which one
more operator or suffix can be added. -/
def Spells (g : Grammar) (assets : List Bytes) (ws : List Token) (e : Expr) : Nat → Prop
  | 0 => g.ReadsAt assets 0 ws e
  | 1 => g.ReadsAt assets 1 ws e
  | n + 2 =>
    if h : n < 10 then g.OperationsAt assets n h ws e
    else if n = 10 then g.ReadsAt assets 12 ws e
    else g.Suffixes assets ws e

theorem spells_level (h : n < 10) :
    g.Spells assets ws e (n + 2) = g.OperationsAt assets n h ws e := by
  rw [Spells, dif_pos h]

theorem place_of_le (h : 13 ≤ n) : g.place n = suffixed g := by
  obtain ⟨n, rfl⟩ := Nat.exists_eq_add_of_le' (show 2 ≤ n by omega)
  rw [place, if_neg (by omega)]

theorem spells_of_le (h : 13 ≤ n) : g.Spells assets ws e n = g.Suffixes assets ws e := by
  obtain ⟨n, rfl⟩ := Nat.exists_eq_add_of_le' (show 2 ≤ n by omega)
  rw [Spells, dif_neg (by omega), if_neg (by omega)]

theorem Suffixes.readsAt (h : g.Suffixes assets ws e) (hn : 13 ≤ n) : g.ReadsAt assets n ws e := by
  obtain ⟨first, more, hchains, hmeans⟩ := h
  refine ⟨_, ?_, hmeans.group⟩
  rw [place_of_le hn]
  exact reads_of_suffixes (fun k hk => ⟨hk, (contains_suffixKinds hk).2⟩) hchains

theorem OperationsAt.readsAt (h : g.OperationsAt assets n hn ws e) :
    g.ReadsAt assets (n + 2) ws e := by
  obtain ⟨first, more, hchains, hmeans⟩ := h
  exact ⟨_, reads_of_chains hn (fun k hk => ⟨hk, continues_mono (by omega) hk⟩) hchains,
    hmeans.group⟩

theorem Spells.readsAt {n : Nat} (h : g.Spells assets ws e n) : g.ReadsAt assets n ws e := by
  match n with
  | 0 | 1 => exact h
  | n + 2 =>
    by_cases hlevel : n < 10
    · rw [spells_level hlevel] at h
      exact h.readsAt
    by_cases hunary : n = 10
    · subst hunary
      exact h
    · rw [spells_of_le (by omega)] at h
      exact h.readsAt (by omega)

theorem ReadsAt.of_le (h : g.ReadsAt assets n ws e) (hmn : m ≤ n) : g.ReadsAt assets m ws e := by
  obtain ⟨t, hreads, hmeans⟩ := h
  have hreads' := hreads.mono fun k (hk : continues m k = false) => continues_mono hmn hk
  exact ⟨t, reads_of_le hmn (fun _ hk => hk) hreads', hmeans⟩

theorem Spells.of_le {m n : Nat} (h : g.Spells assets ws e n) (hmn : m ≤ n) :
    g.Spells assets ws e m := by
  obtain rfl | hlt := Nat.eq_or_lt_of_le hmn
  · exact h
  match m with
  | 0 | 1 => exact h.readsAt.of_le (by omega)
  | m + 2 =>
    by_cases hlevel : m < 10
    · rw [spells_level hlevel]
      obtain ⟨t, hreads, hmeans⟩ := h.readsAt.of_le (show m + 3 ≤ n by omega)
      exact ⟨t, [], hreads.chains, .of_means hmeans⟩
    by_cases hunary : m = 10
    · subst hunary
      exact h.readsAt.of_le (by omega)
    · rw [spells_of_le (by omega)] at h ⊢
      exact h

/-! ### Rows of suffixes -/

theorem Suffixes.of_primary (h : Reads (primary g) isArrow ws t)
    (hmeans : t.Means assets (.ofExpr e)) : g.Suffixes assets ws e :=
  ⟨t, [], h.chains, .of_means hmeans⟩

theorem suffixes_name {n : Ident} (hn : n.name.isName = true) :
    g.Suffixes assets [Token.word n.name] (.ident n) :=
  .of_primary (reads_name n.name) (Tree.means_name hn)

theorem suffixes_parens (hws : Balanced ws) (h : Reads g.expression isInside ws t)
    (hmeans : t.Means assets (.ofExpr e)) : g.Suffixes assets (parens ws) e :=
  .of_primary (reads_parens hws h) hmeans

theorem reads_inside {first : Tree} (h : Chains (primary g) (suffix? g) isInside ws first more) :
    Reads (g.place 0) isInside ws (.group .suffixed first more) := by
  have hreads : Reads (g.place 13) isInside ws (.group .suffixed first more) := by
    exact reads_of_suffixes (n := 0) (fun k hk => ⟨continues_of_isInside hk 0, hk⟩) h
  exact reads_of_le (by omega) (fun k hk => continues_of_isInside hk 0) hreads

theorem Suffixes.call (h : g.Suffixes assets ws f) {args : List Expr}
    (hreads : Forall₂ (ReadsItem (do Parser.advance; g.expression) .rparen) wss ts)
    (hmeans : Forall₂ (Tree.Means assets) ts (args.map .ofExpr)) (p : Pos) :
    g.Suffixes assets (ws ++ parens (commas wss)) (callOf assets f p args) := by
  obtain ⟨first, more, hchains, hsuffixes⟩ := h
  have hcall : (ofRule .call (symbol .lparen) ts).Means assets (.call p args) := by
    refine means_node (by simp) trivial hmeans (q := p) ?_
    change Item.call p <$> Site.exprs ⟨.call, p⟩ (args.map .ofExpr) = _
    rw [Site.exprs_eq]
    rfl
  exact ⟨first, _, hchains.concat (by rfl) fun z u us _ => takes_call hreads z (u :: us),
    hsuffixes.concat hcall fun _ => rfl⟩

theorem Suffixes.member (h : g.Suffixes assets ws f) {n : Ident} (hn : n.name.isName = true)
    (p : Pos) : g.Suffixes assets (ws ++ [symbol .dot, Token.word n.name]) (.member p f n) := by
  obtain ⟨first, more, hchains, hsuffixes⟩ := h
  have hmember : (ofRule .member (Token.word n.name) [.leaf (Token.word n.name)]).Means assets
      (.member p n) :=
    means_node (by simp) trivial (.cons (Tree.means_name hn) .nil) (q := p) rfl
  exact ⟨first, _, hchains.concat (by rfl) fun z u us _ => takes_member n.name z (u :: us),
    hsuffixes.concat hmember fun _ => rfl⟩

theorem Suffixes.typed (h : g.Suffixes assets ws e) {w : Token}
    (hw : isArrow w.kind = false) (htakes : ∀ z u us, isInside u.kind = false →
      Takes (suffix? g) z (w :: vs ++ u :: us) (some t) (u :: us))
    (hmeans : t.Means assets i) (hi : ∀ s : Site, s.suffix assets e i = .ok f) :
    ∃ u, Reads (g.place 0) isInside (ws ++ w :: vs) u ∧ u.Means assets (.ofExpr f) := by
  obtain ⟨first, more, hchains, hsuffixes⟩ := h
  exact ⟨_, reads_inside (hchains.concat hw htakes), (hsuffixes.concat hmeans hi).group⟩

/-! ### Rows of operators -/

theorem exists_level (h : op ∈ BinOp.all) (hassign : op ≠ .assign) :
    ∃ (n : Nat) (hn : n < 10), op.place = n + 2 ∧ op.kind ∈ (levelAt n hn).operators ∧
      continues (n + 3) op.kind = false := by
  have hall : ∀ op ∈ BinOp.all, op ≠ .assign → ∃ n : Fin 10, op.place = n.val + 2 ∧
      op.kind ∈ (levelAt n.val n.isLt).operators ∧ continues (n.val + 3) op.kind = false := by
    decide
  obtain ⟨n, hplace, hkind, hcontinues⟩ := hall op h hassign
  exact ⟨n.val, n.isLt, hplace, hkind, hcontinues⟩

theorem ofText_kind (h : op ∈ BinOp.all) :
    BinOp.ofText op.kind.name = op ∧ ∀ p, (Token.mk op.kind op.kind.name p).isSound = true := by
  have hall : ∀ op ∈ BinOp.all, BinOp.ofText op.kind.name = op ∧
      op.kind ∉ [TokenKind.ident, .int, .principal] := by decide
  obtain ⟨htext, hkind⟩ := hall op h
  refine ⟨htext, fun p => ?_⟩
  generalize op.kind = k at hkind
  unfold isSound
  split <;> simp_all

theorem OperationsAt.operation (h : g.OperationsAt assets n hn ws l)
    (hop : op ∈ BinOp.all) (hkind : op.kind ∈ (levelAt n hn).operators)
    (hcontinues : continues (n + 3) op.kind = false)
    (hr : g.ReadsAt assets (n + 3) vs r) (p : Pos) :
    g.OperationsAt assets n hn (ws ++ symbol op.kind :: vs) (.binary p op l r) := by
  obtain ⟨first, more, hchains, hoperations⟩ := h
  obtain ⟨t, hreads, hmeans⟩ := hr
  obtain ⟨htext, hsound⟩ := ofText_kind hop
  have halike : Token.Alike true (symbol op.kind) ⟨op.kind, op.kind.name, p⟩ :=
    ⟨rfl, fun _ => rfl, hsound _⟩
  have hconcat := hoperations.concat hkind halike hmeans
  rw [operate, htext] at hconcat
  exact ⟨first, _, hchains.concat hcontinues fun z u us hu =>
    takes_operation? hkind hreads z u us hu,
    hconcat⟩

end Grammar

/-! ### Expressions -/

/-- The expression can be written: it is no float, no function value that answers by a block, and
has no NUL byte in a string. -/
def Node.Writable : Node → Prop
  | .expr (.literal _ _ (.float _)) => False
  | .expr (.literal _ _ (.string s)) => s.contains 0 = false
  | .expr (.tuple _ fields) => ∀ f ∈ fields, f.1.contains 0 = false
  | .expr (.lambda _ _ (.block _)) => False
  | _ => True

/-- The tokens of the expression are read as it. -/
structure Expr.ReadBack (assets : List Bytes) (e : Expr) : Prop where
  tidy : Tidy e.words
  spells : ∀ depth, e.words.length ≤ depth → (Grammar.ofDepth depth).Spells assets e.words e e.place

namespace Expr.ReadBack

variable {e f : Expr} {es : List Expr} {depth : Nat}

section

variable (h : e.ReadBack assets)

include h

theorem tidyAt (n : Nat) : Tidy (wordsAt n e.place e.words) := by
  rw [wordsAt]
  split
  · exact h.tidy.parens
  · exact h.tidy

theorem below (depth : Nat) (hd : e.words.length < depth) :
    ∃ t, Reads (ofDepth depth).expression (continues 0) e.words t ∧ t.Means assets (.ofExpr e) := by
  cases depth with
  | zero => cases hd
  | succ depth => exact ((h.spells depth (Nat.le_of_lt_succ hd)).of_le (Nat.zero_le _)).readsAt

theorem parens (depth : Nat) (hd : e.words.length < depth) :
    (ofDepth depth).Suffixes assets (parens e.words) e := by
  obtain ⟨t, hreads, hmeans⟩ := h.below depth hd
  exact suffixes_parens h.tidy.balanced
    (hreads.mono fun _ hk => continues_of_isInside hk 0) hmeans

theorem spellsAt (n depth : Nat) (hn : n ≤ 14) (hd : (wordsAt n e.place e.words).length ≤ depth) :
    (ofDepth depth).Spells assets (wordsAt n e.place e.words) e n := by
  rw [wordsAt] at hd ⊢
  split
  · next hlt =>
    rw [if_pos hlt] at hd
    have hsuffixes := h.parens depth (by simp [Covenant.parens] at hd; omega)
    rw [← spells_of_le (n := 14) (by omega)] at hsuffixes
    exact hsuffixes.of_le hn
  · next hlt =>
    rw [if_neg hlt] at hd
    exact (h.spells depth hd).of_le (by omega)

theorem suffixes (depth : Nat) (hd : (wordsAt 14 e.place e.words).length ≤ depth) :
    (ofDepth depth).Suffixes assets (wordsAt 14 e.place e.words) e := by
  have hspells := h.spellsAt 14 depth (Nat.le_refl 14) hd
  rwa [spells_of_le (by omega)] at hspells

end

theorem items (h : ∀ e ∈ es, e.ReadBack assets) (depth : Nat)
    (hd : (commas (es.map words)).length < depth) (close : TokenKind)
    (hclose : continues 0 close = false) (hclosers : close ∈ Parser.closers) :
    ∃ ts, Forall₂ (ReadsItem (do Parser.advance; (ofDepth depth).expression) close)
        (es.map words) ts ∧ Forall₂ (Tree.Means assets) ts (es.map .ofExpr) := by
  refine exists_forall₂ fun e he => ?_
  have hle := length_le_commas (mem_map_of_mem (f := words) he)
  obtain ⟨t, hreads, hmeans⟩ := (h e he).below depth (Nat.lt_of_le_of_lt hle hd)
  exact ⟨t, hreads.item (by decide) hclose hclosers, hmeans⟩

theorem of_suffixes (htidy : Tidy e.words) (hplace : e.place = 14)
    (h : ∀ depth, e.words.length ≤ depth → (ofDepth depth).Suffixes assets e.words e) :
    e.ReadBack assets := by
  refine ⟨htidy, fun depth hd => ?_⟩
  rw [hplace, spells_of_le (by omega)]
  exact h depth hd

theorem of_call (ws : List Token) {args : List Expr}
    (hwords : e.words = ws ++ Covenant.parens (commas (args.map words))) (hplace : e.place = 14)
    (hcall : callOf assets f p args = e) (hargs : ∀ a ∈ args, a.ReadBack assets) (hws : Tidy ws)
    (h : ∀ depth, ws.length ≤ depth → (ofDepth depth).Suffixes assets ws f) :
    e.ReadBack assets := by
  refine of_suffixes ?_ hplace fun depth hd => ?_
  · rw [hwords]
    exact hws.append (Tidy.commas (forall_mem_map.2 fun a ha => (hargs a ha).tidy)).parens
  · rw [hwords] at hd ⊢
    simp only [Covenant.parens, length_append, length_cons] at hd
    obtain ⟨ts, hreads, hmeans⟩ := items hargs depth (by omega) TokenKind.rparen
      (by decide) (by decide)
    rw [← hcall]
    exact (h depth (by omega)).call hreads hmeans p

theorem of_builtin (n : Ident) (p : Pos) (args : List Expr)
    (hwords : e.words = Token.word n.name :: Covenant.parens (commas (args.map words)))
    (hplace : e.place = 14) (hcall : callOf assets (.ident n) p args = e)
    (hn : n.name.isName = true) (hargs : ∀ a ∈ args, a.ReadBack assets) : e.ReadBack assets :=
  of_call [Token.word n.name] hwords hplace hcall hargs (.name hn .nil)
    fun _ _ => suffixes_name hn

theorem of_memberCall (n : Ident) {function : Bytes} (p : Pos) (args : List Expr)
    (hwords : e.words = Token.word n.name :: symbol .dot :: Token.word function ::
      Covenant.parens (commas (args.map words)))
    (hplace : e.place = 14) (hcall : callOf assets (.member p (.ident n) ⟨function, {}⟩) p args = e)
    (hn : n.name.isName = true) (hfunction : function.isName = true)
    (hargs : ∀ a ∈ args, a.ReadBack assets) : e.ReadBack assets := by
  have htidy : Tidy [Token.word n.name, symbol .dot, Token.word function] :=
    .name hn (.symbol (by decide) (.name hfunction .nil))
  refine of_call [Token.word n.name, symbol .dot, Token.word function] hwords hplace hcall hargs
    htidy fun depth _ => ?_
  exact (suffixes_name hn).member (n := ⟨function, {}⟩) hfunction p

end Expr.ReadBack

/-! ### The cases of the induction -/

namespace Expr

variable {e : Expr} {es : List Expr} {p : Pos} {first : Expr} {v : Int64}

theorem readBack_literal (hwords : e.words = [w]) (hplace : 13 ≤ e.place)
    (hw : w.isWritable = true) (hkind : w.kind ∈ literalKinds)
    (htoken : Item.ofToken w = .ok (.ofExpr first)) (hlike : Via true assets .expr first e) :
    e.ReadBack assets := by
  have hparens : w.kind ≠ .lparen ∧ w.kind ≠ .rparen := by
    generalize w.kind = k at hkind
    revert k
    decide
  refine ⟨?_, fun depth _ => ?_⟩
  · rw [hwords]
    exact Tidy.nil.cons hw hparens.1 hparens.2
  · have hleaf : (Tree.leaf w).Means assets (.ofExpr e) := ⟨⟨_, htoken, .expr hlike⟩, rfl⟩
    rw [spells_of_le hplace, hwords]
    exact .of_primary (reads_literal hkind)
      (means_node (by simp) trivial (.cons hleaf .nil) (q := {}) rfl)

theorem readBack_keyword {k : TokenKind} (hw : (w, k) ∈ keywords)
    (hk : k ∈ literalKinds) (hwords : e.words = [keyword w]) (hplace : e.place = 14)
    (htoken : Item.ofToken (keyword w) = .ok (.ofExpr first))
    (hlike : Via true assets .expr first e) : e.ReadBack assets := by
  obtain ⟨hkind, hwritable, -⟩ := keyword_of_mem hw
  exact readBack_literal hwords (by omega) hwritable (hkind ▸ hk) htoken hlike

theorem readBack_list (h : ∀ e ∈ es, e.ReadBack assets) : (list p es).ReadBack assets := by
  refine .of_suffixes ?_ rfl fun depth hd => ?_
  · rw [words_list]
    exact .symbol (by decide) (.commas_close
      (forall_mem_map.2 fun e he => (h e he).tidy) (by decide))
  rw [words_list] at hd ⊢
  rw [length_cons, length_append] at hd
  have hbuild : Site.build assets ⟨.listLit, p⟩ (es.map .ofExpr) = .ok (.ofExpr (.list p es)) := by
    change (fun es => Item.ofExpr (.list p es)) <$> Site.exprs ⟨.listLit, p⟩ (es.map .ofExpr) = _
    rw [Site.exprs_eq]
    rfl
  cases es with
  | nil => exact .of_primary reads_emptyList (means_node (by simp) trivial .nil hbuild)
  | cons e es =>
    obtain ⟨he, hes⟩ := forall_mem_cons.1 h
    rw [map_cons, commas, length_append] at hd
    obtain ⟨t, ht, hmeans⟩ := he.below depth (by omega)
    have hitems : ∀ e ∈ es, ∃ t,
        ReadsItem (do Parser.advance; (ofDepth depth).expression) .rbracket e.words t ∧
          t.Means assets (.ofExpr e) := by
      intro f hf
      have hle := length_le_commas (mem_map_of_mem (f := words) (mem_cons_of_mem e hf))
      rw [map_cons, commas, length_append] at hle
      obtain ⟨t, hreads, hmeans⟩ := (hes f hf).below depth (by omega)
      exact ⟨t, hreads.item (by decide) (by decide) (by decide), hmeans⟩
    obtain ⟨ts, hts, hmeans'⟩ := exists_forall₂ hitems
    exact .of_primary (reads_list ht hts)
      (means_node (by simp) trivial (.cons hmeans hmeans') hbuild)

theorem readBack_tuple {fields : List (Bytes × Expr)} (hnodup : (fields.map Prod.fst).Nodup)
    (hkeys : ∀ f ∈ fields, f.1.contains 0 = false) (h : ∀ f ∈ fields, f.2.ReadBack assets) :
    (tuple p fields).ReadBack assets := by
  refine .of_suffixes ?_ rfl fun depth hd => ?_
  · rw [words_tuple]
    refine .symbol (by decide) (.commas_close ?_ (by decide))
    refine forall_mem_map.2 fun f hf => .cons ?_ (by simp) (by simp)
      (.symbol (by decide) (h f hf).tidy)
    simpa [isWritable] using hkeys f hf
  rw [words_tuple] at hd ⊢
  rw [length_cons, length_append] at hd
  have hitems : ∀ f ∈ fields, ∃ u,
      ReadsItem (tupleItem (.ofDepth depth)) .rbrace
        (⟨.string, f.1, {}⟩ :: symbol .colon :: f.2.words) u ∧ u.Means assets (.field f.1 f.2) := by
    intro f hf
    have hle := length_le_commas (mem_map_of_mem
      (f := fun f : Bytes × Expr => ⟨.string, f.1, {}⟩ :: symbol .colon :: f.2.words) hf)
    rw [length_cons, length_cons] at hle
    obtain ⟨u, hreads, hmeans⟩ := (h f hf).below depth (by omega)
    have hkey : (Tree.leaf ⟨.string, f.1, {}⟩).Means assets
        (.ofExpr (.literal f.1 {} (.string f.1))) :=
      ⟨⟨_, rfl, .expr (.of_leaf rfl trivial rfl)⟩, rfl⟩
    exact ⟨_, readsItem_field f.1 hreads, means_node (by simp) trivial
      (.cons hkey (.cons hmeans .nil)) (q := {}) rfl⟩
  obtain ⟨us, hreads, hmeans⟩ := exists_forall₂ hitems
  refine .of_primary (reads_tuple hreads) (means_node (by simp) trivial hmeans (q := p) ?_)
  change (fun fs => Item.ofExpr (.tuple p fs)) <$> Site.keyed ⟨.tupleLit, p⟩ _ _ [] _ = _
  rw [Site.keyed_eq _ _ (fun _ => rfl) hnodup fun _ _ => not_mem_nil]
  rfl

theorem readBack_binary {op : BinOp} (hop : op ∈ BinOp.all) (hl : l.ReadBack assets)
    (hr : r.ReadBack assets) : (binary p op l r).ReadBack assets := by
  have hkind : ∀ op ∈ BinOp.all, TokenKind.symbols.contains op.kind = true ∧ op.kind ≠ .lparen ∧
      op.kind ≠ .rparen := by decide
  refine ⟨?_, fun depth hd => ?_⟩
  · exact (hl.tidyAt _).append (.symbol (hkind op hop) (hr.tidyAt _))
  rw [words] at hd ⊢
  rw [length_append, length_cons] at hd
  change Grammar.Spells _ _ _ _ op.place
  by_cases hassign : op = .assign
  · -- assignments group to the right: the right operand stands where the assignment does
    subst hassign
    have hleft := (hl.spellsAt 1 depth (by omega) (by
      simp only [BinOp.leftPlace, if_true] at hd; omega)).readsAt
    obtain ⟨t, ht, htmeans⟩ := hleft
    have hright : wordsAt BinOp.assign.rightPlace r.place r.words = r.words := by
      rw [wordsAt, if_neg (by simp [BinOp.rightPlace])]
    rw [hright] at hd ⊢
    obtain ⟨u, hu, humeans⟩ := hr.below depth (by omega)
    exact ⟨_, reads_assignment ht hu, means_node (by simp) trivial
      (.cons htmeans (.cons humeans .nil)) (q := p) rfl⟩
  · obtain ⟨n, hn, hplace, hlevel, hcontinues⟩ := exists_level hop hassign
    have hleftPlace : op.leftPlace = n + 2 := by rw [BinOp.leftPlace, if_neg hassign, hplace]
    have hrightPlace : op.rightPlace = n + 3 := by rw [BinOp.rightPlace, if_neg hassign, hplace]
    rw [hleftPlace, hrightPlace] at hd ⊢
    have hleft := hl.spellsAt (n + 2) depth (by omega) (by omega)
    have hright := hr.spellsAt (n + 3) depth (by omega) (by omega)
    rw [hplace]
    rw [spells_level hn] at hleft ⊢
    exact hleft.operation hop hlevel hcontinues hright.readsAt p

theorem readBack_unary {op : UnOp} (hop : op = .not ∨ op = .neg)
    (hnumber : op = .neg → e.isNumber = false) (he : e.ReadBack assets) :
    (unary p op e).ReadBack assets := by
  have hsymbol : (op.kind = .bang ∨ op.kind = .minus) ∧ UnOp.ofText op.kind.name = op := by
    obtain rfl | rfl := hop <;> decide
  refine ⟨?_, fun depth hd => ?_⟩
  · rw [words]
    obtain hk | hk := hsymbol.1 <;> rw [hk] <;>
      exact .symbol (by decide) (he.tidyAt 12)
  rw [words, length_cons] at hd
  obtain ⟨depth, rfl⟩ := Nat.exists_eq_add_of_lt (Nat.lt_of_lt_of_le (Nat.zero_lt_succ _) hd)
  rw [Nat.zero_add] at hd ⊢
  obtain ⟨t, ht, hmeans⟩ := (he.spellsAt 12 depth (by omega) (by omega)).readsAt
  have hoperator : (Tree.leaf (symbol op.kind)).Means assets
      (.token ⟨op.kind, op.kind.name, p⟩) := by
    obtain hk | hk := hsymbol.1 <;> rw [hk] <;>
      exact Tree.means_token (by rfl) ⟨rfl, fun _ => rfl, by rfl⟩
  refine ⟨_, reads_unary hsymbol.1 ht, means_node (by simp)
    ⟨_, _, rfl, hsymbol.1⟩ (.cons hoperator (.cons hmeans .nil)) (q := p) ?_⟩
  have hunary := Site.unary_eq ⟨.unary, p⟩ (t := ⟨op.kind, op.kind.name, p⟩) (e := e) fun hk =>
    hnumber (hop.resolve_left (by rintro rfl; cases hk))
  rw [hsymbol.2] at hunary
  exact hunary

theorem ofToken_int (hv : 0 ≤ v.toInt) : Item.ofToken ⟨.int, Bytes.ofNat v.toInt.natAbs, {}⟩ =
      .ok (.ofExpr (.literal (Bytes.ofNat v.toInt.natAbs) {} (.int v))) := by
  have hint : Numeral.int? (Bytes.ofNat v.toInt.natAbs) = some v.toInt := by
    simp only [Numeral.int?, Numeral.sign_of_isNumeral (Bytes.isNumeral_ofNat _),
      Numeral.nat?_ofNat]
    simpa using Int.natAbs_of_nonneg hv
  have hvalue : Numeral.int64? (Bytes.ofNat v.toInt.natAbs) = some v := by
    rw [Numeral.int64?, hint, Option.bind_some, if_pos ⟨v.minValue_le_toInt, v.toInt_le⟩,
      Int64.ofInt_toInt]
  simp only [Item.ofToken, hvalue]

theorem readBack_nonnegative {first : Bytes} (hv : 0 ≤ v.toInt) :
    (literal first p (.int v)).ReadBack assets := by
  have hlt : ¬ v.toInt < 0 := by omega
  refine readBack_literal (w := ⟨.int, Bytes.ofNat v.toInt.natAbs, {}⟩) ?_ ?_
    (Bytes.isNumeral_ofNat _) (show TokenKind.int ∈ _ by decide) (ofToken_int hv)
    (.of_leaf ?_ ?_ rfl)
  · rw [words, Literal.words, if_neg hlt]
  · rw [place_int p hv]
    omega
  · simp only [Node.veil, veil]
  · rintro rfl
    exact hlt (by decide)

theorem readBack_negative {first : Bytes} (hv : v.toInt < 0) (hmin : v ≠ Int64.minValue) :
    (literal first p (.int v)).ReadBack assets := by
  have hneg : (-v).toInt = -v.toInt := by
    have hne : v.toInt ≠ -2 ^ 63 := fun h => hmin (Int64.toInt_inj.1 h)
    have hle : -2 ^ 63 ≤ v.toInt := v.minValue_le_toInt
    rw [Int64.toInt_neg, Int.bmod_eq_of_le (by omega) (by omega)]
  have hwords : (literal first p (.int v)).words = symbol .minus ::
      (literal first p (.int (-v))).words := by
    simp only [words, Literal.words, hneg]
    rw [if_pos hv, if_neg (by omega), Int.natAbs_neg]
  have hplace : (literal first p (.int v)).place = 12 := by rw [place, if_pos hv]
  have hpositive : (literal first p (.int (-v))).ReadBack assets :=
    readBack_nonnegative (by omega)
  refine ⟨?_, fun depth hd => ?_⟩
  · rw [hwords]
    exact .symbol (by decide) hpositive.tidy
  rw [hwords, length_cons] at hd
  obtain ⟨depth, rfl⟩ := Nat.exists_eq_add_of_lt (Nat.lt_of_lt_of_le (Nat.zero_lt_succ _) hd)
  rw [Nat.zero_add] at hd ⊢
  obtain ⟨t, ht, hmeans⟩ := ((hpositive.spells depth (by omega)).of_le (m := 12) (by
    rw [place, if_neg (by omega)]; omega)).readsAt
  have hoperator : (Tree.leaf (symbol .minus)).Means assets (.token (symbol .minus)) :=
    Tree.means_token (by rfl) ⟨rfl, fun _ => rfl, by decide⟩
  rw [hplace, hwords]
  refine ⟨_, reads_unary (.inr rfl) ht, ?_⟩
  have hliteral : (ofRule .unary (symbol .minus) [.leaf (symbol .minus), t]).Means assets
      (.ofExpr (.literal "-" {} (.int (- -v)))) :=
    means_node (q := {}) (by simp) ⟨_, _, rfl, .inr rfl⟩ (.cons hoperator (.cons hmeans .nil)) rfl
  rw [Int64.neg_neg] at hliteral
  exact hliteral.congr (by simp only [veil])

theorem readBack_conditional {t : Expr} (hc : c.ReadBack assets) (ht : t.ReadBack assets)
    (he : e.ReadBack assets) : (conditional p c t e).ReadBack assets := by
  refine ⟨?_, fun depth hd => ?_⟩
  · rw [words]
    exact (hc.tidyAt 2).append (.symbol (by decide) (ht.tidy.append
      (.symbol (by decide) (he.tidyAt 1))))
  rw [words] at hd ⊢
  simp only [length_append, length_cons] at hd
  obtain ⟨depth, rfl⟩ : ∃ d, depth = d + 1 := Nat.exists_eq_add_one.2 (by omega)
  obtain ⟨x, hx, hxmeans⟩ := (hc.spellsAt 2 (depth + 1) (by omega) (by omega)).readsAt
  obtain ⟨y, hy, hymeans⟩ := ht.below (depth + 1) (by omega)
  obtain ⟨z, hz, hzmeans⟩ := (he.spellsAt 1 depth (by omega) (by omega)).readsAt
  exact ⟨_, reads_conditional hx hy hz, means_node (by simp) trivial
    (.cons hxmeans (.cons hymeans (.cons hzmeans .nil))) (q := p) rfl⟩

theorem readBack_member {property : Ident} (hname : property.name.isName = true)
    (he : e.ReadBack assets) : (member p e property).ReadBack assets := by
  refine .of_suffixes ?_ rfl fun depth hd => ?_
  · rw [words]
    exact (he.tidyAt 14).append (.symbol (by decide) (.name hname .nil))
  · rw [words] at hd ⊢
    rw [length_append] at hd
    exact (he.suffixes depth (by omega)).member hname p

theorem readBack_call {args : List Expr} (hcall : callOf assets e p args = .call p e args)
    (he : e.ReadBack assets) (hargs : ∀ a ∈ args, a.ReadBack assets) :
    (call p e args).ReadBack assets := by
  refine .of_call (wordsAt 14 e.place e.words) ?_ rfl hcall hargs (he.tidyAt 14)
    he.suffixes
  exact words_call p e args

theorem readBack_comprehension {x : Ident} (hx : x.name.isName = true) (he : e.ReadBack assets)
    (hl : l.ReadBack assets) : (comprehension p e x l none).ReadBack assets := by
  refine .of_suffixes ?_ rfl fun depth hd => ?_
  · rw [words]
    exact .symbol (by decide) (he.tidy.append
      (.keyword (k := .kwFor) (by simp [keywords]) (.name hx
        (.keyword (k := .kwIn) (by simp [keywords]) (hl.tidy.append
          (.symbol (by decide) .nil))))))
  rw [words] at hd ⊢
  simp only [length_append, length_cons] at hd
  obtain ⟨t, ht, htmeans⟩ := he.below depth (by omega)
  obtain ⟨u, hu, humeans⟩ := hl.below depth (by omega)
  exact .of_primary (reads_comprehension x.name ht hu) (means_node (by simp) trivial
    (.cons htmeans (.cons (Tree.means_name hx) (.cons humeans .nil))) (q := p) rfl)

theorem readBack_filteredComprehension {x : Ident} (hx : x.name.isName = true)
    (he : e.ReadBack assets) (hl : l.ReadBack assets) (hc : c.ReadBack assets) :
    (comprehension p e x l (some c)).ReadBack assets := by
  refine .of_suffixes ?_ rfl fun depth hd => ?_
  · rw [words]
    exact .symbol (by decide) (he.tidy.append
      (.keyword (k := .kwFor) (by simp [keywords]) (.name hx
        (.keyword (k := .kwIn) (by simp [keywords]) (hl.tidy.append
          (.keyword (k := .kwIf) (by simp [keywords]) (hc.tidy.append
            (.symbol (by decide) .nil))))))))
  rw [words] at hd ⊢
  simp only [length_append, length_cons] at hd
  obtain ⟨t, ht, htmeans⟩ := he.below depth (by omega)
  obtain ⟨u, hu, humeans⟩ := hl.below depth (by omega)
  obtain ⟨v, hv, hvmeans⟩ := hc.below depth (by omega)
  exact .of_primary (reads_filteredComprehension x.name ht hu hv) (means_node (by simp) trivial
    (.cons htmeans (.cons (Tree.means_name hx) (.cons humeans (.cons hvmeans .nil)))) (q := p) rfl)

theorem readBack_lambda (hps : ∀ q ∈ ps, q.ReadBack assets)
    (he : e.ReadBack assets) : (lambda p ps (.expr e)).ReadBack assets := by
  have hparams : Tidy (commas (ps.map Parameter.words)) :=
    .commas (forall_mem_map.2 fun q hq => (hps q hq).tidy)
  have hinside : Tidy (parens (commas (ps.map Parameter.words)) ++ symbol .arrow ::
      parens e.words) :=
    hparams.parens.append (.symbol (by decide) he.tidy.parens)
  refine .of_suffixes ?_ rfl fun depth hd => ?_
  · exact hinside.parens
  rw [words, Body.words] at hd ⊢
  simp only [parens, length_append, length_cons] at hd
  obtain ⟨depth, rfl⟩ : ∃ d, depth = d + 2 := Nat.exists_eq_add_of_le' (by omega)
  obtain ⟨t, ht, htmeans⟩ := (he.parens depth (by omega)).readsAt (n := 13) (by omega)
    |>.of_le (m := 0) (by omega)
  have hitems : ∀ q ∈ ps, ∃ u,
      ReadsItem (parameter (.ofDepth (depth + 1)) false) .rparen q.words u ∧
        u.Means assets (.node (.parameter q)) := by
    intro q hq
    have hle := length_le_commas (mem_map_of_mem (f := Parameter.words) hq)
    exact (hps q hq).reads _ (by omega)
  obtain ⟨us, hus, husmeans⟩ := exists_forall₂ hitems
  have hparamsMean : (ofRule .parameters (symbol .lparen) us).Means assets (.params ps) := by
    refine means_node (by simp) trivial husmeans (q := {}) ?_
    change Item.params <$> (ps.map fun q => Item.node (.parameter q)).mapM
      (Site.parameter ⟨.parameters, {}⟩) = _
    rw [mapM_map_eq_ok (f := Site.parameter ⟨.parameters, {}⟩)
      (g := fun q => Item.node (.parameter q)) fun _ => rfl]
    rfl
  have hreads := reads_lambda hparams.balanced hus ht
  have hmeans : (ofRule .lambda (symbol .lparen)
      [.ofRule .parameters (symbol .lparen) us, t]).Means assets
      (.ofExpr (.lambda p ps (.expr e))) :=
    means_node (q := p) (by simp) trivial (.cons hparamsMean (.cons htmeans .nil)) rfl
  have hchains : Parser.Chains (primary (.ofDepth (depth + 1)))
      (suffix? (.ofDepth (depth + 1))) isInside _ _ [] :=
    (hreads.mono fun _ hk => continues_of_isInside hk 0).chains
  refine suffixes_parens hinside.balanced ?_ hmeans
  simp only [parens, cons_append, append_assoc, nil_append] at hchains ⊢
  exact reads_inside hchains

theorem readBack_typed {f : Expr} {t : Ty} (w : Token) (rule : Rule) (i : Item)
    (hwords : f.words = parens (wordsAt 14 e.place e.words ++ w :: t.words)) (hplace : f.place = 14)
    (hw : Tidy [w]) (harrow : isArrow w.kind = false) (hrule : rule ≠ .assetDecl)
    (hfits : ∀ kids, rule.fits kids)
    (htakes : ∀ (g : Grammar) (u : Tree), Reads g.type isLess t.words u → ∀ z v vs,
      isLess v.kind = false →
      Takes (suffix? g) z (w :: t.words ++ v :: vs) (some (.ofRule rule w [u])) (v :: vs))
    (hbuild : ∃ q, Site.build assets ⟨rule, q⟩ [.ofType t] = .ok i)
    (hi : ∀ s : Site, s.suffix assets e i = .ok f) (he : e.ReadBack assets)
    (ht : t.ReadBack assets) :
    f.ReadBack assets := by
  have hinside := (he.tidyAt 14).append (hw.append ht.tidy)
  refine .of_suffixes ?_ hplace fun depth hd => ?_
  · rw [hwords]
    exact hinside.parens
  rw [hwords] at hd ⊢
  simp only [parens, length_append, length_cons] at hd
  obtain ⟨depth, rfl⟩ : ∃ d, depth = d + 1 := Nat.exists_eq_add_one.2 (by omega)
  obtain ⟨q, hbuild⟩ := hbuild
  obtain ⟨u, hu, humeans⟩ := ht.below depth (by omega)
  have hsuffix : (ofRule rule w [u]).Means assets i :=
    means_node hrule (hfits _) (.cons humeans .nil) hbuild
  obtain ⟨x, hx, hxmeans⟩ := (he.suffixes depth (by omega)).typed harrow
    (fun z v vs hv => htakes _ u hu z v vs (by rw [eq_rparen_of_isInside hv]; rfl)) hsuffix hi
  exact suffixes_parens hinside.balanced hx hxmeans

end Expr

/-- **Every expression with sound parts that can be written is read back.** -/
theorem Expr.readBack (e : Expr) (hsound : (Node.expr e).All (Node.Sound assets))
    (hwritable : (Node.expr e).All Node.Writable) : e.ReadBack assets := by
  induction e using induction_below with
  | step e ih =>
    have hbelow (c : Expr) (hc : Node.expr c ∈ e.children) : c.ReadBack assets :=
      ih c hc (hsound.below _ hc) (hwritable.below _ hc)
    have hname (n : Ident) (hn : n.node ∈ e.children) : n.name.isName = true :=
      (hsound.below _ hn).self
    cases e with
    | ident n =>
      exact .of_suffixes (.name hsound.self .nil) rfl fun _ _ => suffixes_name hsound.self
    | literal first p v =>
      cases v with
      | int v =>
        by_cases hv : v.toInt < 0
        · exact readBack_negative hv hsound.self
        · exact readBack_nonnegative (by omega)
      | float v => exact hwritable.self.elim
      | string s =>
        exact readBack_literal (w := ⟨.string, s, {}⟩) rfl (show 13 ≤ 14 by decide)
          (congrArg not hwritable.self) (show TokenKind.string ∈ _ by decide) rfl
          (.of_leaf (by simp only [Node.veil, veil]) trivial rfl)
      | bool b =>
        cases b with
        | true =>
          exact readBack_keyword (w := "true") (k := .kwTrue)
            (by simp [keywords]) (by decide) rfl rfl rfl
            (.of_leaf (by simp only [Node.veil, veil]; rfl) trivial rfl)
        | false =>
          exact readBack_keyword (w := "false") (k := .kwFalse)
            (by simp [keywords]) (by decide) rfl rfl rfl
            (.of_leaf (by simp only [Node.veil, veil]; rfl) trivial rfl)
    | principal p address =>
      exact readBack_literal (w := ⟨.principal, address, {}⟩) rfl (Nat.le_refl 13) hsound.self
        (show TokenKind.principal ∈ _ by decide) rfl
        (.of_leaf (by simp only [Node.veil, veil]) hsound.self rfl)
    | noneLit p =>
      exact readBack_keyword (w := "none") (k := .kwNone)
        (by simp [keywords]) (by decide) rfl rfl rfl
        (.of_leaf (by simp only [Node.veil, veil]) trivial rfl)
    | someOf p e =>
      exact .of_builtin ⟨"some", p⟩ p [e] rfl rfl rfl
        (isName_of_mem (by simp))
        (by simpa using hbelow e (.head _))
    | list p es => exact readBack_list fun e he => hbelow e (mem_map_of_mem he)
    | tuple p fields =>
      exact readBack_tuple hsound.self hwritable.self fun f hf => hbelow f.2 (mem_map_of_mem hf)
    | binary p op l r =>
      exact readBack_binary hsound.self (hbelow l (.head _)) (hbelow r (.tail _ (.head _)))
    | unary p op e => exact readBack_unary hsound.self.1 hsound.self.2 (hbelow e (.head _))
    | conditional p c t e =>
      exact readBack_conditional (hbelow c (.head _)) (hbelow t (.tail _ (.head _)))
        (hbelow e (.tail _ (.tail _ (.head _))))
    | member p e property =>
      exact readBack_member (hname property (.tail _ (.head _))) (hbelow e (.head _))
    | call p f args =>
      exact readBack_call hsound.self (hbelow f (.head _)) fun a ha =>
        hbelow a (.tail _ (mem_map_of_mem ha))
    | contractCall p contract function args =>
      obtain ⟨hfunction, hasset, hcontract⟩ := hsound.self
      refine .of_memberCall contract p args ?_ rfl ?_
        (hname contract (.head _)) hfunction fun a ha => hbelow a (.tail _ (mem_map_of_mem ha))
      · exact words_contractCall p contract function args
      · simp only [callOf, hasset, hcontract, Bool.false_eq_true, if_false, if_true]
    | assetCall p asset function args =>
      obtain ⟨hfunction, hasset⟩ := hsound.self
      refine .of_memberCall asset p args ?_ rfl ?_
        (hname asset (.head _)) hfunction fun a ha => hbelow a (.tail _ (mem_map_of_mem ha))
      · exact words_assetCall p asset function args
      · simp only [callOf, hasset, if_true]
    | map p l f =>
      exact .of_builtin ⟨"map", p⟩ p [l, f] rfl rfl rfl
        (isName_of_mem (by simp))
        (by simpa using ⟨hbelow l (.head _), hbelow f (.tail _ (.head _))⟩)
    | filter p l f =>
      exact .of_builtin ⟨"filter", p⟩ p [l, f] rfl rfl rfl
        (isName_of_mem (by simp))
        (by simpa using ⟨hbelow l (.head _), hbelow f (.tail _ (.head _))⟩)
    | fold p l i f =>
      exact .of_builtin ⟨"fold", p⟩ p [l, i, f] rfl rfl rfl
        (isName_of_mem (by simp))
        (by simpa using ⟨hbelow l (.head _), hbelow i (.tail _ (.head _)),
          hbelow f (.tail _ (.tail _ (.head _)))⟩)
    | comprehension p e x l c =>
      have hx := hname x (.tail _ (.head _))
      have hl := hbelow l (.tail _ (.tail _ (.head _)))
      cases c with
      | none => exact readBack_comprehension hx (hbelow e (.head _)) hl
      | some c =>
        exact readBack_filteredComprehension hx (hbelow e (.head _)) hl
          (hbelow c (.tail _ (.tail _ (.tail _ (.head _)))))
    | lambda p ps body =>
      cases body with
      | block b => exact hwritable.self.elim
      | expr e =>
        refine readBack_lambda (fun q hq => q.readBack (hsound.below _ ?_)) (hbelow e ?_)
        · exact mem_append_left _ (mem_map_of_mem hq)
        · exact mem_append_right _ (.head _)
    | typeCheck p e t =>
      exact readBack_typed (keyword "is") .isSuffix (.typeCheck p t) rfl rfl
        (.keyword (k := .kwIs) (by simp [keywords]) .nil) rfl (by simp)
        (fun _ => trivial) (fun g u hu z v vs hv => takes_isSuffix hu z v vs hv) ⟨p, rfl⟩
        (fun _ => rfl) (hbelow e (.head _)) (t.readBack (hsound.below _ (.tail _ (.head _))))
    | cast p e t =>
      exact readBack_typed (keyword "as") .asSuffix (.cast p t) rfl rfl
        (.keyword (k := .kwAs) (by simp [keywords]) .nil) rfl (by simp)
        (fun _ => trivial) (fun g u hu z v vs hv => takes_asSuffix hu z v vs hv) ⟨p, rfl⟩
        (fun _ => rfl) (hbelow e (.head _)) (t.readBack (hsound.below _ (.tail _ (.head _))))

/-! ### Declarations -/

namespace Expr

variable {e : Expr} {depth : Nat}

section

variable (h : e.ReadBack assets)

include h

theorem takes_declaration (hd : e.words.length < depth) (us : List Token) :
    ∃ t, Takes (statementRule (.ofDepth depth)) (keyword "const")
        (Token.word "v" :: symbol .assign :: (e.words ++ symbol .semicolon :: us))
        (.ofRule .constantDecl (keyword "const") [.leaf (Token.word "v"), t]) us ∧
      t.Means assets (.ofExpr e) := by
  obtain ⟨t, ht, hmeans⟩ := h.below depth hd
  have hsemicolon (y : Token) : Takes Parser.optionalSemicolon y (symbol .semicolon :: us) () us :=
    .ifPeek (by rfl) (.advance (f := pure) (.pure _ _ _))
  have hbinding : Takes (binding (.ofDepth depth) .constantDecl []) (keyword "const")
      (Token.word "v" :: symbol .assign :: (e.words ++ symbol .semicolon :: us))
      (.ofRule .constantDecl (keyword "const") [.leaf (Token.word "v"), t]) us :=
    .cur (.expect (by rfl) (.bind (.unlessPeek (by decide) (.pure _ _ _)) fun _ =>
      .ifPeek (by rfl) (.advance (ht.next (by rfl) fun y =>
        (Takes.pure [t] _ _).bind fun _ => (hsemicolon _).bind fun _ => .pure _ _ _))))
  refine ⟨t, .cur ?_, hmeans⟩
  exact hbinding

theorem tidy_declaration : Tidy e.declaration :=
  .keyword (k := .kwConst) (by simp [keywords]) (.name (isName_of_mem (by simp))
    (.symbol (by decide) (h.tidy.append
      (.symbol (by decide) .nil))))

theorem ofTokens_declaration :
    ∃ t, Parsed.ofTokens (e.declaration ++ [⟨.eof, [], {}⟩]) = ⟨.ofRule .program (keyword "const")
          [.ofRule .constantDecl (keyword "const") [.leaf (Token.word "v"), t]], none⟩ ∧
      t.Means assets (.ofExpr e) := by
  have hlegal : Legal (e.declaration ++ [⟨.eof, [], {}⟩]) := by
    intro t ht
    obtain ht | ht := mem_append.1 ht
    · exact kind_ne_illegal ((tidy_declaration h).writable t ht)
    · rw [mem_singleton.1 ht]
      decide
  simp only [declaration, cons_append, append_assoc, nil_append] at hlegal ⊢
  rw [Parsed.ofTokens, Cursor.ofTokens_eq_on hlegal]
  generalize hc : Cursor.on (keyword "const") _ = c
  obtain ⟨fuel, hfuel⟩ : ∃ fuel, c.bound = fuel + 2 := ⟨2 * c.rest.length + 2, rfl⟩
  have hdepth : e.words.length < fuel + 2 := by
    rw [← hfuel, ← hc]
    simp only [Cursor.on, Cursor.bound, tail_cons, length_cons, length_append]
    omega
  obtain ⟨t, htakes, hmeans⟩ := takes_declaration h hdepth [⟨.eof, [], {}⟩]
  refine ⟨t, ?_, hmeans⟩
  have hrest : Legal (Token.word "v" :: symbol .assign :: (e.words ++
      [symbol .semicolon, ⟨.eof, [], {}⟩])) := fun t ht => hlegal t (.tail _ ht)
  have hconst : (keyword "const").kind ≠ .eof := by
    decide
  have hstatements := statements_of_takes (g := .ofDepth (fuel + 3)) hconst hrest htakes rfl
    fuel
  rw [hc] at hstatements
  simp only [hfuel, hstatements]
  rw [← hc]
  rfl

theorem alike_scan_source :
    Forall₂ (Token.Alike true) (scan e.source) (e.declaration ++ [⟨.eof, [], {}⟩]) :=
  alike_of_sameText (scan_writeAll (tidy_declaration h).writable)

end

theorem eq_constDecl_of_veil
    (h : (Node.program ss).veil true = (Node.program [.constDecl {} n none e]).veil true) :
    ∃ q m v, ss = [.constDecl q m none v] ∧ m.name = n.name ∧ v.veil true = e.veil true := by
  simp only [Node.veil, Stmt.veilAll_eq_map, Node.program.injEq] at h
  obtain ⟨s, _, rfl, hs, hnil⟩ := map_eq_cons_iff.1 h
  obtain rfl := map_eq_nil_iff.1 hnil
  cases s <;> simp only [Stmt.veil, Stmt.veil_mapConst, Stmt.veil_returnStmt, reduceCtorEq,
    Stmt.constDecl.injEq, Option.map_none, Option.map_eq_none_iff] at hs
  obtain ⟨-, hname, rfl, hvalue⟩ := hs
  exact ⟨_, _, _, rfl, (Ident.mk.injEq .. ▸ hname : _ ∧ _).1, hvalue⟩

end Expr

/-- The difference of a name and of another one and a negative number. -/
def nestedDifference : Expr :=
  .binary ⟨1, 13⟩ .sub (.ident ⟨"a", ⟨1, 11⟩⟩)
    (.binary ⟨1, 18⟩ .sub (.ident ⟨"b", ⟨1, 16⟩⟩) (.literal "-" ⟨1, 20⟩ (.int (-1))))

theorem contains_nestedDifference :
    (Node.program [.constDecl ⟨1, 1⟩ ⟨"x", ⟨1, 7⟩⟩ none nestedDifference]).Contains
      (.expr nestedDifference) :=
  .tail (.single (.head _)) (.tail _ (.head _))

end Covenant
