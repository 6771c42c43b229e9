import Covenant.Proofs.Tree.Derivation

/-!
# Parsers follow the grammar

Each rule of the grammar takes tokens that derive the tree it answers; so does the grammar unrolled
to any depth.
-/

namespace Covenant

open List Phrase
open Cursor (cur_advance)

open Covenant.Parser (Ensures)

/-- From the cursor on, the parser takes a phrase of the given kind. -/
abbrev Parser.Parses (p : Parser Tree) (N : Phrase) (c : Cursor) : Prop :=
  Ensures p c fun t d => N.Covers c [t] d

open Covenant.Parser (Parses)

/-- Parsers that start on the first token of a phrase, end on its last one and answer its tree. -/
structure Grammar.Sound (g : Grammar) : Prop where
  type (c : Cursor) : Ensures g.type c fun t d => Phrase.type.Covers c [t] d
  expression (c : Cursor) : Ensures g.expression c fun t d => Phrase.expression.Covers c [t] d
  conditional (c : Cursor) : Ensures g.conditional c fun t d => Phrase.conditional.Covers c [t] d
  unary (c : Cursor) : Ensures g.unary c fun t d => Phrase.unary.Covers c [t] d
  statement (c : Cursor) : Ensures g.statement c fun t d => Phrase.statement.Covers c [t] d

namespace Grammar.Sound

variable {g : Grammar} (hg : g.Sound) {c : Cursor}

/-! ### Types -/

theorem closeAngle (c : Cursor) : Ensures closeAngle c fun _ d =>
    ∃ t, t.kind = TokenKind.greater ∧ Cursor.Eats c [t] d := by
  refine .ifPeek (fun hk => ?_) fun _ => .closes _ c
  refine .bind (p := modify Cursor.splitShift) ⟨?_, c.stays_splitShift⟩
  refine (Ensures.closes _ _).mono fun _ d hd => ?_
  obtain ⟨t, ht, hd⟩ := hd
  exact ⟨t, ht, .split hk hd⟩

include hg

theorem nextType (c : Cursor) :
    Ensures (do Parser.advance; g.type) c fun t d => Phrase.type.Follows c [t] d :=
  .advance ((hg.type _).mono fun _ _ h => h.follows)

theorem nextExpression (c : Cursor) :
    Ensures (do Parser.advance; g.expression) c fun t d => Phrase.expression.Follows c [t] d :=
  .advance ((hg.expression _).mono fun _ _ h => h.follows)

theorem typeArguments (c : Cursor) : Ensures (typeArguments g) c fun ts d =>
    (separated .greater .type).Follows c ts d :=
  (Ensures.separated (nextType hg) closeAngle c).mono fun ts d h => by rwa [flatMap_singleton'] at h

theorem tupleTypeItem (c : Cursor) :
    Ensures (tupleTypeItem g) c fun t d => typeField.Follows c [t] d :=
  .expect fun hname => .pass fun hcolon => .next hg.type fun _ _ _ hw htype =>
    .pure ⟨_, .advance (.advance hw), .typeField hname hcolon htype⟩

theorem tupleType {c : Cursor} (hc : c.cur.kind = .lbrace) : Parses (tupleType g) .type c :=
  .cur (.andThen (.delimited (tupleTypeItem hg) c) fun _ _ ⟨_, hw, hfields⟩ =>
    .pure ⟨_, hw, .tupleType hc hfields⟩)

theorem appliedType {c : Cursor} (hc : c.cur.kind = .ident) :
    Parses (appliedType g c.cur) .type c := by
  have hnamed : Parses (Pure.pure (Tree.ofRule .namedType c.cur [.leaf c.cur])) .type c :=
    .pure ⟨[], .refl c, .namedType hc⟩
  unfold Grammar.appliedType
  split
  · exact hnamed
  · next rule arity hrule =>
    refine .ifPeek (fun hless => .advance (.andThen (typeArguments hg _) fun args d hargs => ?_))
      fun _ => hnamed
    obtain ⟨w, hw, hargs⟩ := hargs
    refine .ite (fun hlength => .pure ⟨_, .advance hw, ?_⟩) fun _ => .fail rfl
    exact .appliedType hc (by rw [hrule, hlength]) hless hargs

theorem typeRule (c : Cursor) : Parses (typeRule g) .type c :=
  .cur (.ite (fun hk => tupleType hg hk) fun _ =>
  .ite (fun hk => appliedType hg hk) fun _ => .fail rfl)

theorem annotation? (c : Cursor) : Ensures (annotation? g) c fun ts d =>
    (optional .colon .type).Follows c ts d ∧ (c.peek.kind = .colon → ts ≠ []) :=
  .ifPeek (fun hk => .advance (.next hg.type fun _ _ _ hw htype =>
    .pure ⟨⟨_, .advance hw, .marked hk htype⟩, fun _ => cons_ne_nil _ _⟩))
    fun hk => .pure ⟨⟨_, .refl c, .without⟩, fun heq => absurd heq hk⟩

/-! ### Blocks and parameters -/

theorem blockItem? (c : Cursor) : Ensures (blockItem? g) c fun x d =>
    (x = none → d = c ∧ c.cur.kind = .rbrace) ∧
      ∀ s, x = some s → ∃ w, Cursor.Eats c (w ++ [d.cur]) d ∧
        Derives .statement [s] (c.cur :: w) := by
  refine .cur (.ite (fun hk => .pure ⟨fun _ => ⟨rfl, hk⟩, nofun⟩) fun _ => .ite (fun _ => .fail rfl)
    fun _ => .andThen (hg.statement c) fun s d hs => .get ?_)
  obtain ⟨w, hw, hs⟩ := hs
  split
  · next hfault => exact .failAgain hfault
  · refine .advance (.pure ⟨nofun, fun s' hs' => ⟨w, ?_, ?_⟩⟩)
    · rw [cur_advance]
      exact hw.trans (.one d)
    · cases hs'
      exact hs

theorem block {c : Cursor} (hc : c.cur.kind = .lbrace) : Parses (block g) .block c := by
  refine .cur (.advance (.andThen (.manyFrom (blockItem? hg) _) fun stmts d hstmts => ?_))
  obtain ⟨hclose, w, v, hw, heq, hstmts⟩ := hstmts
  rw [cur_advance] at heq
  refine .pure ⟨_, .advance hw, ?_⟩
  rw [heq]
  exact .block hc hstmts hclose

theorem nextBlock {β : Type} {k : Tree → Parser β} {R : β → Cursor → Prop}
    (hk : ∀ t d w, Cursor.Eats c w d → Derives .block [t] w → Ensures (k t) d R) :
    Ensures (discard (Parser.expect .lbrace) >>= fun _ => Grammar.block g >>= k) c R := by
  refine .pass fun hbrace => .andThen (block hg (by rwa [cur_advance])) fun t d hcovers => ?_
  obtain ⟨w, hw, ht⟩ := hcovers.follows
  exact hk t d w hw ht

theorem parameter (typed : Bool) (c : Cursor) :
    Ensures (parameter g typed) c fun t d => (Phrase.parameter typed).Follows c [t] d := by
  refine .expect fun hname => ?_
  refine .ite (fun _ => .failExpecting _) fun htyped =>
    .andThen (annotation? hg _) fun ts d hts => ?_
  obtain ⟨⟨w, hw, hts⟩, hcolon⟩ := hts
  refine .pure ⟨_, .advance hw, .parameter hname hts fun htrue => hcolon ?_⟩
  simpa [htrue] using htyped

theorem parameters (hc : c.cur.kind = .lparen) (typed : Bool) :
    Parses (parameters g typed) (.parameters typed) c :=
  .cur (.andThen (.delimited (parameter hg typed) c) fun _ _ ⟨_, hw, hps⟩ =>
    .pure ⟨_, hw, .parameters hc hps⟩)

theorem arguments (c : Cursor) : Ensures (arguments g) c fun ts d =>
    (delimited [.comma] .rparen .expression).Follows c ts d :=
  .delimited (nextExpression hg) c

/-! ### Primary expressions -/

theorem lambdaBody (start : Token) (params : Tree) (c : Cursor) :
    Ensures (lambdaBody g start params) c fun t d => ∃ body,
      t = .ofRule .lambda start [params, body] ∧ Phrase.lambdaBody.Follows c [body] d := by
  refine .advance ?_
  refine .ite (fun hk => .andThen (block hg (of_decide_eq_true hk)) fun body d hbody => ?_)
    fun _ => .andThen (hg.expression _) fun body d hbody => ?_
  · obtain ⟨w, hw, hbody⟩ := hbody.follows
    exact .pure ⟨body, rfl, w, hw, .blockBody hbody⟩
  · obtain ⟨w, hw, hbody⟩ := hbody.follows
    exact .pure ⟨body, rfl, w, hw, .expressionBody hbody⟩

theorem bareLambda (hc : c.cur.kind = .ident) (harrow : c.peek.kind = .arrow) :
    Parses (bareLambda g) .primary c := by
  refine .cur (.advance ((lambdaBody hg _ _ _).mono fun t d ht => ?_))
  obtain ⟨body, rfl, w, hw, hbody⟩ := ht
  exact ⟨_, .advance hw, .bareLambda hc harrow hbody⟩

theorem lambda (hc : c.cur.kind = .lparen) : Parses (lambda g) .primary c := by
  refine .cur (.andThen (parameters hg hc false) fun params d hparams => .pass fun harrow =>
    (lambdaBody hg _ _ _).mono fun t e ht => ?_)
  obtain ⟨v, hv, hparams⟩ := hparams
  obtain ⟨body, rfl, w, hw, hbody⟩ := ht
  exact ⟨_, hv.trans (.advance hw), .lambda hparams harrow hbody⟩

theorem comprehension (hfor : c.peek.kind = .kwFor) :
    Ensures (comprehension g start first) c fun t d => ∃ w, Cursor.Eats c w d ∧
      ∀ (l : Token) (v : List Token), l.kind = .lbracket → Derives .expression [first] v →
        Derives .primary [t] (l :: (v ++ w)) := by
  refine .advance (.expect fun hx => .pass fun hin => .next hg.expression
    fun iterable d w hw hiterable => .ifPeek (fun hif => .advance (.next hg.expression
      fun condition e v hv hcondition => ?_)) fun _ => ?_)
  · refine .bind (.pure (.pass fun hclose => .pure ⟨_, .advance (.advance (.advance
      (hw.trans ((Cursor.Eats.advance hv).trans (.one _))))), fun l v hl hfirst => ?_⟩))
    exact .comprehension hl hfirst hfor hx hin hiterable (.marked hif hcondition) hclose
  · refine .bind (.pure (.pass fun hclose => .pure ⟨_, .advance (.advance (.advance
      (hw.trans (.one _)))), fun l v hl hfirst => ?_⟩))
    exact .comprehension hl hfirst hfor hx hin hiterable .without hclose

theorem bracketed (hc : c.cur.kind = .lbracket) : Parses (bracketed g) .primary c := by
  refine .cur (.ifPeek (fun hclose => .advance (.pure ⟨_, .one c, .emptyList hc hclose⟩)) fun _ =>
    .next hg.expression fun first d w hw hfirst => .ifPeek (fun hfor => ?_) fun _ => ?_)
  · refine (comprehension hg hfor).mono fun t e ht => ?_
    obtain ⟨v, hv, ht⟩ := ht
    exact ⟨_, hw.trans hv, ht _ _ hc hfirst⟩
  · refine .andThen (.tail (nextExpression hg) d) fun es e hes => ?_
    obtain ⟨v, hv, hes⟩ := hes
    exact .pure ⟨_, hw.trans hv, .list hc hfirst hes⟩

theorem tupleItem (c : Cursor) :
    Ensures (tupleItem g) c fun t d => Phrase.tupleItem.Follows c [t] d := by
  refine .advance (.cur ?_)
  rw [cur_advance]
  exact .ite (fun hk => .pass fun hcolon => .next hg.expression fun _ _ _ hw he =>
    .pure ⟨_, .advance (.advance hw), .tupleItem hk hcolon he⟩) fun _ => .fail rfl

theorem tuple (hc : c.cur.kind = .lbrace) : Parses (tuple g) .primary c :=
  .cur (.andThen (.delimited (tupleItem hg) c) fun _ _ ⟨_, hw, hitems⟩ =>
    .pure ⟨_, hw, .tuple hc hitems⟩)

theorem creation (hc : c.cur.kind = .kwNew) : Parses (creation g) .primary c := by
  have hrest {d : Cursor} {types : List Tree} {w : List Token} (hname : c.peek.kind = .ident)
      (hw : Cursor.Eats c.advance w d)
      (htypes : Derives (.optional .less (.separated .greater .type)) types w) :
      Ensures (do
        let paren ← Parser.expect .lparen
        let args ← Grammar.arguments g
        return .ofRule .newExpr c.cur (.leaf c.peek :: types ++ [.ofRule .arguments paren args])) d
        fun t e => Phrase.primary.Covers c [t] e := by
    refine .expect fun hparen => .andThen (arguments hg _) fun args e hargs => ?_
    obtain ⟨v, hv, hargs⟩ := hargs
    exact .pure ⟨_, .advance (hw.trans (.advance hv)), .creation hc hname htypes hparen hargs⟩
  refine .cur (.expect fun hname => .ifPeek (fun hless => .advance (.andThen (typeArguments hg _)
    fun types d htypes => ?_)) fun _ => .bind (.pure (hrest hname (.refl _) .without)))
  obtain ⟨w, hw, htypes⟩ := htypes
  exact hrest hname (.advance hw) (.marked hless htypes)

theorem parenthesized (hc : c.cur.kind = .lparen) : Parses (parenthesized g) .primary c :=
  .next hg.expression fun _ d _ hw he => .pass fun hclose =>
    .pure ⟨_, hw.trans (.one d), .parentheses hc he hclose⟩

theorem primary (c : Cursor) : Parses (primary g) .primary c := by
  have hliteral (hk : c.cur.kind ∈ TokenKind.literals) :
      Parses (Pure.pure (Tree.ofRule .literal c.cur [.leaf c.cur])) .primary c :=
    .pure ⟨[], .refl c, .literal hk⟩
  refine .cur ?_
  split
  · next hk =>
    exact .ifPeek (fun harrow => bareLambda hg hk harrow) fun _ => .pure ⟨[], .refl c, .ident hk⟩
  iterate 7
    · next hk => exact hliteral (by rw [hk]; decide)
  · next hk => exact .get (.ite (fun _ => lambda hg hk) fun _ => parenthesized hg hk)
  · next hk => exact bracketed hg hk
  · next hk => exact tuple hg hk
  · next hk => exact creation hg hk
  · exact .fail (Token.stage_illegalFault _)
  · exact .failUnexpected

/-! ### Operators -/

theorem suffix? (c : Cursor) : Ensures (suffix? g) c fun x d =>
    (x = none → d = c ∧ True) ∧ ∀ t, x = some t → suffix.Follows c [t] d := by
  have hsome {t : Tree} {d : Cursor} (h : suffix.Follows c [t] d) :
      (some t = none → d = c ∧ True) ∧ ∀ u, some t = some u → suffix.Follows c [u] d :=
    ⟨nofun, fun u hu => Option.some.inj hu ▸ h⟩
  refine .peek ?_
  split
  · next hk =>
    refine .advance (.cur (.andThen (arguments hg _) fun args d hargs => ?_))
    obtain ⟨w, hw, hargs⟩ := hargs
    exact .pure (hsome ⟨_, .advance hw, .call hk hargs⟩)
  · next hk =>
    exact .advance (.expect fun hname => .pure (hsome ⟨_, .advance (.one _), .member hk hname⟩))
  · next hk =>
    exact .advance (.cur (.next hg.type fun _ _ _ hw ht =>
      .pure (hsome ⟨_, .advance hw, .typeCheck hk ht⟩)))
  · next hk =>
    exact .advance (.cur (.next hg.type fun _ _ _ hw ht =>
      .pure (hsome ⟨_, .advance hw, .cast hk ht⟩)))
  · exact .pure ⟨fun _ => ⟨rfl, trivial⟩, nofun⟩

theorem suffixed (c : Cursor) : Parses (suffixed g) .suffixed c := by
  refine .andThen (primary hg c) fun e d he => .andThen (.many (suffix? hg) d) fun ss d' hss => ?_
  obtain ⟨w, hw, he⟩ := he
  obtain ⟨⟨v, hv, hss⟩, -, hnone⟩ := hss
  rw [flatMap_singleton'] at hss
  cases ss with
  | nil =>
    obtain rfl := hnone rfl
    exact .pure ⟨w, hw, .bare he⟩
  | cons s ss => exact .pure ⟨_, hw.trans hv, .suffixed he hss⟩

theorem unaryRule (c : Cursor) : Parses (unaryRule g) .unary c :=
  .cur (.ite (fun hk => .next hg.unary fun _ _ _ hw he => .pure ⟨_, hw, .sign hk he⟩)
    fun _ => (suffixed hg c).mono fun _ _ ⟨_, hw, he⟩ => ⟨_, hw, .unsigned he⟩)

omit hg in
theorem operation?
    (hoperand : ∀ c, Parses operand (.binary tighter) c)
    (c : Cursor) : Ensures (operation? level operand) c fun x d => (x = none → d = c ∧ True) ∧
      ∀ a, x = some a → (Phrase.operation level tighter).Follows c [a.1, a.2] d := by
  refine .peek (.ite (fun hk => .advance (.cur ?_)) fun _ => .pure ⟨fun _ => ⟨rfl, trivial⟩, nofun⟩)
  rw [cur_advance]
  refine .next hoperand fun e d w hw he => .pure ⟨nofun, fun a ha => ?_⟩
  cases ha
  exact ⟨_, .advance hw, .operation (contains_iff_mem.1 hk) he⟩

theorem binary (levels : List Level) : ∀ c,
    Parses (binary g levels) (.binary levels) c := by
  induction levels with
  | nil => exact fun c => (unaryRule hg c).mono fun _ _ ⟨_, hw, he⟩ => ⟨_, hw, .operand he⟩
  | cons level tighter ih =>
    intro c
    refine .andThen (ih c) fun e d he => .andThen (.many (operation? ih) d) fun more d' hmore => ?_
    obtain ⟨w, hw, he⟩ := he
    obtain ⟨⟨v, hv, hmore⟩, -, hnone⟩ := hmore
    cases more with
    | nil =>
      obtain rfl := hnone rfl
      exact .pure ⟨w, hw, .tighter he⟩
    | cons x more => exact .pure ⟨_, hw.trans hv, .operations he hmore (cons_ne_nil _ _)⟩

theorem conditionalRule (c : Cursor) : Parses (conditionalRule g) .conditional c := by
  refine .andThen (binary hg Level.all c) fun e d he => ?_
  obtain ⟨w, hw, he⟩ := he
  exact .ifPeek (fun hmark => .advance (.cur (.next hg.expression fun _ _ _ hv hyes =>
      .pass fun hcolon => .next hg.conditional fun _ _ _ hu hno =>
      .pure ⟨_, hw.trans (.advance (hv.trans (.advance hu))),
      .conditional he hmark hyes hcolon hno⟩)))
    fun _ => .pure ⟨w, hw, .noChoice he⟩

theorem expressionRule (c : Cursor) : Parses (expressionRule g) .expression c := by
  refine .andThen (conditionalRule hg c) fun e d he => ?_
  obtain ⟨w, hw, he⟩ := he
  exact .ifPeek (fun hmark => .advance (.cur (.next hg.expression fun _ _ _ hv hright =>
      .pure ⟨_, hw.trans (.advance hv), .assignment he hmark hright⟩)))
    fun _ => .pure ⟨w, hw, .noAssignment he⟩

/-! ### Declarations -/

theorem decoratorArgument (isMap : Bool) (c : Cursor) :
    Ensures (decoratorArgument g isMap) c fun t d => ∃ w r,
      Cursor.Eats c (c.peek :: (w ++ [r])) d ∧ r.kind = .rparen ∧
        (Derives .expression [t] w ∨ Derives .type [t] w) := by
  refine .advance ?_
  change Ensures (Parser.advance >>= fun _ =>
    if (isMap && decide (c.advance.peek.kind = .lbrace)) = true then _ else _) c.advance _
  refine .advance (.ite (fun hshaped => ?_) fun _ => ?_)
  · have hbrace : c.advance.advance.cur.kind = .lbrace := by
      rw [cur_advance]
      exact of_decide_eq_true (Bool.and_eq_true_iff.1 hshaped).2
    refine .andThen (tupleType hg hbrace) fun t d ht => .pass fun hclose => ?_
    obtain ⟨w, hw, ht⟩ := ht.follows
    exact .pure ⟨w, _, .advance (hw.trans (.one d)), hclose, .inr ht⟩
  · refine .andThen (hg.expression _) fun t d ht => .pass fun hclose => ?_
    obtain ⟨w, hw, ht⟩ := ht.follows
    exact .pure ⟨w, _, .advance (hw.trans (.one d)), hclose, .inl ht⟩

theorem decorator (hc : c.cur.kind = .decorator) : Parses (decorator g) .decorator c := by
  refine .cur (.ifPeek (fun hparen => .andThen (decoratorArgument hg _ c) fun t d ht => ?_)
    fun _ => .pure ⟨[], .refl c, .decorator hc⟩)
  obtain ⟨w, r, hw, hr, ht | ht⟩ := ht
  · exact .pure ⟨_, hw, .decoratorExpression hc hparen ht hr⟩
  · exact .pure ⟨_, hw, .decoratorType hc hparen ht hr⟩

theorem decorator? (c : Cursor) : Ensures (decorator? g) c fun x d =>
    (x = none → d = c ∧ True) ∧ ∀ t, x = some t →
      ∃ w, Cursor.Eats c (w ++ [d.cur]) d ∧ Derives .decorator [t] (c.cur :: w) := by
  refine .ite (fun hk => .andThen (decorator hg (of_decide_eq_true hk)) fun t d ht => .advance ?_)
    fun _ => .pure ⟨fun _ => ⟨rfl, trivial⟩, nofun⟩
  obtain ⟨w, hw, ht⟩ := ht
  refine .pure ⟨nofun, fun t' ht' => ⟨w, ?_, ?_⟩⟩
  · rw [cur_advance]
    exact hw.trans (.one d)
  · cases ht'
    exact ht

/-- A declaration behind its decorators: from its keyword on it makes a statement with them. -/
def Completes (ds : List Tree) (c : Cursor) (t : Tree) (d : Cursor) : Prop :=
  ∃ w, Cursor.Eats c w d ∧
    ∀ v, Derives (.many .decorator) ds v → Derives .statement [t] (v ++ c.cur :: w)

omit hg in
theorem Completes.covers (h : Completes [] c t d) : Phrase.statement.Covers c [t] d := by
  obtain ⟨w, hw, ht⟩ := h
  exact ⟨w, hw, ht [] .nil⟩

theorem functionDecl (ds : List Tree) (hc : c.cur.kind = .kwFunction) :
    Ensures (functionDecl g ds) c fun t d => Completes ds c t d := by
  refine .cur (.expect fun hname => .pass fun hparen => .andThen
    (parameters hg (by rwa [cur_advance]) true) fun params d hparams =>
    .andThen (annotation? hg d) fun result e hresult => nextBlock hg fun body f u hu hbody => ?_)
  obtain ⟨w, hw, hparams⟩ := hparams.follows
  obtain ⟨⟨v, hv, hresult⟩, -⟩ := hresult
  exact .pure ⟨_, .advance (hw.trans (hv.trans hu)), fun d hds =>
    .functionDecl hds hc hname hparams hresult hbody⟩

theorem binding (rule : Rule) (ds : List Tree) (c : Cursor) :
    Ensures (binding g rule ds) c fun t d => ∃ (n : Token) (type value : List Tree)
      (w v e : List Token), t = .ofRule rule c.cur (ds ++ .leaf n :: type ++ value) ∧
        Cursor.Eats c (n :: (w ++ (v ++ e))) d ∧ n.kind = .ident ∧
        Derives (.optional .colon .type) type w ∧ Derives (.optional .assign .expression) value v ∧
        Derives (.ending [.semicolon]) [] e := by
  refine .cur (.expect fun hname => .andThen (annotation? hg _) fun type d htype =>
    .ifPeek (fun hassign => .advance (.next hg.expression fun value e v hv hvalue =>
    ?_)) fun _ => ?_)
  · obtain ⟨⟨w, hw, htype⟩, -⟩ := htype
    exact .bind (.pure (.optionalSemicolon fun e u hu hend => .pure ⟨_, type, [value], w, _, u, rfl,
      .advance (hw.trans ((Cursor.Eats.advance hv).trans hu)), hname, htype, .marked hassign hvalue,
      hend⟩))
  · obtain ⟨⟨w, hw, htype⟩, -⟩ := htype
    exact .bind (.pure (.optionalSemicolon fun e u hu hend => .pure ⟨_, type, [], w, [], u, rfl,
      .advance (hw.trans hu), hname, htype, .without, hend⟩))

theorem variableDecl (hc : c.cur.kind = .kwLet) :
    Parses (Grammar.binding g .variableDecl []) .statement c :=
  (binding hg _ _ c).mono fun _ _ ⟨_, _, _, _, _, _, ht, hw, hname, htype, hvalue, hend⟩ =>
    ⟨_, hw, ht ▸ .variableDecl hc hname htype hvalue hend⟩

theorem constantDecl (ds : List Tree) (hc : c.cur.kind = .kwConst) :
    Ensures (Grammar.binding g .constantDecl ds) c fun t d => Completes ds c t d :=
  (binding hg _ _ c).mono fun _ _ ⟨_, _, _, _, _, _, ht, hw, hname, htype, hvalue, hend⟩ =>
    ⟨_, hw, fun _ hds => ht ▸ .constantDecl hds hc hname htype hvalue hend⟩

theorem assetField? (c : Cursor) : Ensures (assetField? g) c fun x d =>
    (x = none → d = c ∧ c.peek.kind = .rbrace) ∧ ∀ t, x = some t → assetField.Follows c [t] d := by
  refine .ifPeek (fun hk => .pure ⟨fun _ => ⟨rfl, hk⟩, nofun⟩) fun _ => .expect fun hname =>
    .andThen (annotation? hg _) fun type d htype =>
    .peek (.ite (fun hend => .advance ?_) fun _ => ?_)
  · obtain ⟨⟨w, hw, htype⟩, -⟩ := htype
    refine .pure ⟨nofun, fun t ht => ?_⟩
    cases ht
    exact ⟨_, .advance (hw.trans (.one d)), .assetField hname htype
      (.present (by simpa using hend))⟩
  · obtain ⟨⟨w, hw, htype⟩, -⟩ := htype
    refine .pure ⟨nofun, fun t ht => ?_⟩
    cases ht
    exact ⟨_, .advance (hw.trans (.refl d)), .assetField hname htype .absent⟩

theorem assetDecl (ds : List Tree) (hc : c.cur.kind = .kwClass) :
    Ensures (assetDecl g ds) c fun t d => Completes ds c t d := by
  refine .cur (.expect fun hname => .pass fun hbrace => .andThen (.many (assetField? hg) _)
    fun fields d hfields => .advance ?_)
  obtain ⟨⟨w, hw, hfields⟩, hclose, -⟩ := hfields
  rw [flatMap_singleton'] at hfields
  exact .pure ⟨_, .advance (.advance (hw.trans (.one d))), fun _ hds =>
    .assetDecl hds hc hname hbrace hfields hclose⟩

theorem signature? (c : Cursor) : Ensures (signature? g) c fun x d =>
    (x = none → d = c ∧ c.peek.kind = .rbrace) ∧ ∀ t, x = some t → signature.Follows c [t] d := by
  refine .ifPeek (fun hk => .pure ⟨fun _ => ⟨rfl, hk⟩, nofun⟩) fun _ => .expect fun hname =>
    .pass fun hparen => .andThen (parameters hg (by rwa [cur_advance]) true)
    fun params d hparams => .pass fun hcolon => .next hg.type fun result e v hv hresult =>
    .optionalSemicolon fun f u hu hend => .pure ⟨nofun, fun t ht => ?_⟩
  obtain ⟨w, hw, hparams⟩ := hparams.follows
  cases ht
  exact ⟨_, .advance (hw.trans (.advance (hv.trans hu))),
    .signature hname hparams hcolon hresult hend⟩

theorem traitDecl (hc : c.cur.kind = .kwTrait) : Parses (traitDecl g) .statement c := by
  refine .cur (.expect fun hname => .pass fun hbrace => .andThen (.many (signature? hg) _)
    fun sigs d hsigs => .advance ?_)
  obtain ⟨⟨w, hw, hsigs⟩, hclose, -⟩ := hsigs
  rw [flatMap_singleton'] at hsigs
  exact .pure ⟨_, .advance (.advance (hw.trans (.one d))), .traitDecl hc hname hbrace hsigs hclose⟩

omit hg in
theorem mapName? (c : Cursor) : Ensures mapName? c fun x d => (x = none → d = c) ∧
    ∀ n, x = some n → n.kind = .ident ∧ ∃ colon k, colon.kind = TokenKind.colon ∧
      k.kind = TokenKind.ident ∧ Cursor.Eats c [n, colon, k] d := by
  refine .ifPeek (fun hname => .advance (.cur (.pass fun hcolon => .expect fun hword => ?_)))
    fun _ => .pure ⟨fun _ => rfl, nofun⟩
  refine .ite (fun _ => .pure ⟨nofun, fun n hn => ?_⟩) fun _ => .fail rfl
  cases hn
  rw [cur_advance]
  exact ⟨hname, _, _, hcolon, hword, .advance (.advance (.one _))⟩

theorem mapDecl (hc : c.cur.kind = .ident) : Parses (mapDecl g) .statement c := by
  refine .cur (.andThen (mapName? c) fun early d hearly => .pass fun hless =>
    .andThen (typeArguments hg _) fun types e htypes => ?_)
  obtain ⟨w, hw, htypes⟩ := htypes
  refine .ite (fun _ => .cur (.bind (.fail rfl))) fun hlength => ?_
  obtain ⟨key, value, rfl⟩ := length_eq_two.1 (not_not.1 hlength)
  cases early with
  | none =>
    obtain rfl := hearly.1 rfl
    exact .expect fun hname => .optionalSemicolon fun f u hu hend =>
      .pure ⟨_, .advance (hw.trans (.advance hu)), .mapDecl hc hless htypes hname hend⟩
  | some n =>
    obtain ⟨hname, colon, k, hcolon, hk, hd⟩ := hearly.2 n rfl
    exact .bind (.pure (.optionalSemicolon fun f u hu hend =>
      .pure ⟨_, hd.trans (.advance (hw.trans hu)),
      .namedMapDecl hc hname hcolon hk hless htypes hend⟩))

omit hg in
theorem importDecl (hc : c.cur.kind = .kwImport) : Parses importDecl .statement c := by
  have hname (c : Cursor) : Ensures (Parser.expect .ident) c fun t d =>
      name.Follows c [Tree.leaf t] d :=
    (Ensures.token _).mono fun _ _ ⟨hk, ht, hd⟩ => ⟨_, hd ▸ ht ▸ .one c, .name hk⟩
  refine .cur (.pass fun hbrace => .andThen (.separated hname (.closes _) _) fun names d hnames =>
    .peek (.ite (fun hfrom => .advance (.expect fun hsource => .optionalSemicolon
      fun f u hu hend => ?_)) fun _ => .fail rfl))
  obtain ⟨w, hw, hnames⟩ := hnames
  refine .pure ⟨_, .advance (hw.trans (.advance (.advance hu))), ?_⟩
  rw [map_eq_flatMap]
  exact .importDecl hc hbrace hnames hfrom.1 hsource hend

/-! ### Statements -/

theorem guarded (c : Cursor) : Ensures (guarded g) c fun ts d => Phrase.guarded.Follows c ts d :=
  .pass fun hopen => .next hg.expression fun _ _ _ hw hcondition => .pass fun hclose =>
    nextBlock hg fun _ _ _ hv hbody =>
      .pure ⟨_, .advance (hw.trans (.advance hv)), .guarded hopen hcondition hclose hbody⟩

theorem branchesWithin (fuel : Nat) : ∀ c, Ensures (branchesWithin g fuel) c fun ts d =>
    branches.Follows c ts d := by
  induction fuel with
  | zero => exact fun c => .failUnexpected
  | succ fuel ih =>
    intro c
    refine .ifPeek (fun helse => .advance (.ifPeek (fun hif => .advance (.andThen (guarded hg _)
      fun branch d hbranch => .andThen (ih d) fun more e hmore => ?_)) fun _ => nextBlock hg
      fun body d w hw hbody => ?_)) fun _ => .pure ⟨[], .refl c, .noBranch⟩
    · obtain ⟨w, hw, hbranch⟩ := hbranch
      obtain ⟨v, hv, hmore⟩ := hmore
      exact .pure ⟨_, .advance (.advance (hw.trans hv)), .elseIf helse hif hbranch hmore⟩
    · exact .pure ⟨_, .advance hw, .otherwise helse hbody⟩

theorem ifStmt (hc : c.cur.kind = .kwIf) : Parses (ifStmt g) .statement c := by
  refine .cur (.andThen (guarded hg c) fun first d hfirst => .get (.andThen (branchesWithin hg _ d)
    fun more e hmore => ?_))
  obtain ⟨w, hw, hfirst⟩ := hfirst
  obtain ⟨v, hv, hmore⟩ := hmore
  exact .pure ⟨_, hw.trans hv, .ifStmt hc hfirst hmore⟩

theorem tryStmt (hc : c.cur.kind = .kwTry) : Parses (tryStmt g) .statement c :=
  .cur (nextBlock hg fun _ _ _ hw hbody => .pass fun hcatch => .pass fun hopen =>
    .expect fun hname => .pass fun hclose => nextBlock hg fun _ _ _ hv hhandler =>
    .pure ⟨_, hw.trans (.advance (.advance (.advance (.advance hv)))),
      .tryStmt hc hbody hcatch hopen hname hclose hhandler⟩)

theorem throwStmt (hc : c.cur.kind = .kwThrow) : Parses (throwStmt g) .statement c :=
  .cur (.next hg.expression fun _ _ _ hw he => .optionalSemicolon fun _ _ hv hend =>
    .pure ⟨_, hw.trans hv, .throwStmt hc he hend⟩)

theorem returnStmt (hc : c.cur.kind = .kwReturn) : Parses (returnStmt g) .statement c := by
  refine .cur (.peek ?_)
  split
  · next hk => exact .advance (.pure ⟨_, .one c, .returnNothing hc (.present (by simp [hk]))⟩)
  · exact .pure ⟨_, .refl c, .returnNothing hc .absent⟩
  · exact .pure ⟨_, .refl c, .returnNothing hc .absent⟩
  · exact .next hg.expression fun _ _ _ hw he => .optionalSemicolon fun _ _ hv hend =>
      .pure ⟨_, hw.trans hv, .returnStmt hc he hend⟩

theorem exportDecl (hc : c.cur.kind = .kwExport) : Parses (exportDecl g) .statement c :=
  .cur (.next hg.statement fun _ _ _ hw hs => .pure ⟨_, hw, .exportDecl hc hs⟩)

theorem exprStmt (c : Cursor) : Parses (exprStmt g) .statement c :=
  .cur (.andThen (expressionRule hg c) fun _ _ ⟨_, hw, he⟩ => .optionalSemicolon fun _ _ hv hend =>
    .pure ⟨_, hw.trans hv, .exprStmt he hend⟩)

theorem decorated (c : Cursor) : Parses (decorated g) .statement c := by
  refine .andThen (.manyFrom (decorator? hg) c) fun ds d hds => .cur ?_
  obtain ⟨-, w, v, hw, heq, hds⟩ := hds
  have hcomplete {t : Tree} {e : Cursor} (ht : Completes ds d t e) :
      Phrase.statement.Covers c [t] e := by
    obtain ⟨u, hu, ht⟩ := ht
    refine ⟨_, hw.trans hu, ?_⟩
    rw [← cons_append, heq, append_assoc]
    exact ht v hds
  split
  · next hk => exact (functionDecl hg ds hk).mono fun _ _ => hcomplete
  · next hk => exact (constantDecl hg ds hk).mono fun _ _ => hcomplete
  · next hk => exact (assetDecl hg ds hk).mono fun _ _ => hcomplete
  · exact .fail rfl

theorem statementRule (c : Cursor) : Parses (statementRule g) .statement c := by
  refine .cur ?_
  split
  · exact decorated hg c
  · next hk => exact (functionDecl hg [] hk).mono fun _ _ => Completes.covers
  · next hk => exact variableDecl hg hk
  · next hk => exact (constantDecl hg [] hk).mono fun _ _ => Completes.covers
  · next hk => exact (assetDecl hg [] hk).mono fun _ _ => Completes.covers
  · next hk => exact traitDecl hg hk
  · next hk => exact ifStmt hg hk
  · next hk => exact tryStmt hg hk
  · next hk => exact throwStmt hg hk
  · next hk => exact returnStmt hg hk
  · next hk => exact importDecl hk
  · next hk => exact exportDecl hg hk
  · exact .peek (.ite (fun hk => mapDecl hg hk.1) fun _ => exprStmt hg c)

end Grammar.Sound

/-- **The grammar is sound at every depth.** -/
theorem Grammar.sound_ofDepth (depth : Nat) : (ofDepth depth).Sound := by
  induction depth with
  | zero => exact ⟨fun _ => .failUnexpected, fun _ => .failUnexpected, fun _ => .failUnexpected,
      fun _ => .failUnexpected, fun _ => .failUnexpected⟩
  | succ depth ih => exact ⟨ih.typeRule, ih.expressionRule, ih.conditionalRule, ih.unaryRule,
      ih.statementRule⟩

end Covenant
