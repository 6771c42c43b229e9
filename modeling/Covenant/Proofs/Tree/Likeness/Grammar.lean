import Covenant.Proofs.Tree.Likeness

/-!
# Likeness of the rules

Each rule of the grammar, on corresponding tokens, gives like trees; so does the grammar unrolled to
any depth, and with it a whole parse.
-/

namespace Covenant

open List Parser

/-- Grammars whose parsers have corresponding runs. -/
structure Grammar.Like (S : Simulation) (g h : Grammar) : Prop where
  type : Parser.Like S S.trees g.type h.type
  expression : Parser.Like S S.trees g.expression h.expression
  conditional : Parser.Like S S.trees g.conditional h.conditional
  unary : Parser.Like S S.trees g.unary h.unary
  statement : Parser.Like S S.trees g.statement h.statement

namespace Grammar.Like

/-- Two parsers of trees are alike. -/
abbrev Trees (S : Simulation) (p q : Parser Tree) : Prop :=
  Parser.Like S S.trees p q

/-! ### Types -/

theorem closeAngle : Parser.Like S Eq closeAngle closeAngle where
  run {c d} hc hcd := by
    have hclose : Parser.Like S Eq (discard (expect .greater))
        (discard (expect .greater)) := .discard (.expect _)
    change S.Results Eq ((if decide (c.peek.kind = .shiftRight) = true then _ else _ : Parser _) c)
      ((if decide (d.peek.kind = .shiftRight) = true then _ else _ : Parser _) d)
    rw [← S.like.kind (S.peek hc hcd)]
    split
    · next hk => exact hclose.results (S.splitShift (by simpa using hk) hcd)
    · exact hclose.results hcd
  stuck {c _ _} hc hp := by
    -- the end of input is no `>`
    have hend := (S.stuck_peek hc).1
    change (if decide (c.peek.kind = .shiftRight) = true then _ else _ : Parser _) c = _ at hp
    rw [hend] at hp
    obtain ⟨_, hexpect, -⟩ := of_bind_eq_ok hp
    rw [Cursor.expect_of_ne (by rw [hend]; decide)] at hexpect
    cases hexpect

section

variable (hg : Like S g h) {t u : Token} {level : Level} {ds ds' : List Tree}

include hg

theorem typeArguments :
    Parser.Like S (Forall₂ S.trees) (typeArguments g) (typeArguments h) :=
  .separated (.skip hg.type) closeAngle

theorem tupleTypeItem : Trees S (tupleTypeItem g) (tupleTypeItem h) :=
  .bind (.expect _) fun _ _ hname => .pass <| .skip <| .bind hg.type fun _ _ ht =>
    .rule (.cons (.leaf hname) (.cons ht .nil)) trivial

theorem tupleType : Trees S (tupleType g) (tupleType h) :=
  .start fun _ _ => .bind (.delimited _ _ (tupleTypeItem hg)) fun _ _ hitems => .rule hitems trivial

omit hg in
theorem constructor?_fits {name : Bytes} {rule : Rule}
    (h : constructor? name = some (rule, arity)) (kids : List Tree) : rule.fits kids := by
  unfold constructor? at h
  dsimp only at h
  split at h
  · cases h; trivial
  split at h
  · cases h; trivial
  split at h
  · cases h; trivial
  · cases h

theorem appliedType {t u : Token} (ht : S.tokens t u) (hk : t.kind = .ident) :
    Trees S (appliedType g t) (appliedType h u) := by
  have hnamed : Trees S (Pure.pure (.ofRule .namedType t [.leaf t]))
      (Pure.pure (.ofRule .namedType u [.leaf u])) := .rule (.cons (.leaf ht) .nil) trivial
  rw [Grammar.appliedType, Grammar.appliedType, ← S.like.literal ht (by rw [hk]; decide)]
  split
  · exact hnamed
  · next rule arity hcon =>
    refine .ifPeek (.skip <| .bind (typeArguments hg) fun as bs hargs => ?_) hnamed
    exact .ite (by rw [hargs.length_eq]) (fun _ => .rule hargs (constructor?_fits hcon _))
      fun _ => .fail (S.faultAt ht rfl)

theorem typeRule : Trees S (typeRule g) (typeRule h) :=
  .bind .cur fun t u ht => .ite (by rw [S.like.kind ht]) (fun _ => tupleType hg) fun _ =>
    .ite (by rw [S.like.kind ht]) (fun hk => appliedType hg ht hk)
      fun _ => .fail (S.faultAt ht rfl)

theorem annotation? : Parser.Like S (Forall₂ S.trees) (annotation? g) (annotation? h) :=
  .ifPeek
    (.skip <| .skip <| .bind hg.type fun _ _ ht => .pure (.cons ht .nil))
    (.pure .nil)

/-! ### Blocks and parameters -/

theorem blockItem? :
    Parser.Like S (Option.Rel S.trees) (blockItem? g) (blockItem? h) := by
  refine .bind .cur fun t u ht => .ite (by rw [S.like.kind ht]) (fun _ => .pure .none) fun _ =>
    .ite (by rw [S.like.kind ht]) (fun _ => .fail (S.faultAt ht rfl)) fun _ =>
    .bind hg.statement fun s s' hs => .bind .get fun c d hcd => ?_
  have hfault := hcd.fault
  generalize c.fault = f at hfault
  generalize d.fault = f' at hfault
  cases hfault with
  | none => exact .skip <| .pure (.some hs)
  | some hf => exact .fail hf

theorem block : Trees S (block g) (block h) :=
  .start fun _ _ => .skip <| .bind (.many (blockItem? hg)) fun _ _ hstmts => .rule hstmts trivial

theorem parameter (typed : Bool) : Trees S (parameter g typed) (parameter h typed) :=
  .bind (.expect _) fun _ _ ht => .bind (.peekIs _) fun _ _ hb => .ite (by rw [hb])
    (fun _ => .failExpecting _)
    fun _ => .bind (annotation? hg) fun _ _ htype => .rule (.cons (.leaf ht) htype) trivial

theorem parameters (typed : Bool) : Trees S (parameters g typed) (parameters h typed) :=
  .start fun _ _ => .bind (.delimited _ _ (parameter hg typed)) fun _ _ hps => .rule hps trivial

theorem arguments : Parser.Like S (Forall₂ S.trees) (arguments g) (arguments h) :=
  .delimited _ _ (.skip hg.expression)

/-! ### Primary expressions -/

theorem lambdaBody (hps : S.trees ps qs) :
    Trees S (lambdaBody g t ps) (lambdaBody h u qs) :=
  .skip <| .bind (.curIs _) fun b b' hb => .ite (by rw [hb])
    (fun _ => .bind (block hg) fun _ _ hbody => .rule (.cons hps (.cons hbody .nil)) trivial)
    fun _ => .bind hg.expression fun _ _ hbody => .rule (.cons hps (.cons hbody .nil)) trivial

theorem bareLambda : Trees S (bareLambda g) (bareLambda h) :=
  .bind .cur fun _ _ ht => .skip <|
    lambdaBody hg (.node trivial (.cons (.node trivial (.cons (.leaf ht) .nil)) .nil))

theorem lambda : Trees S (lambda g) (lambda h) :=
  .start fun _ _ => .bind (parameters hg false) fun _ _ hps => .pass <| lambdaBody hg hps

theorem comprehension (he : S.trees e e') :
    Trees S (comprehension g t e) (comprehension h u e') :=
  .skip <| .bind (.expect _) fun _ _ hx =>
    .pass <| .skip <| .bind hg.expression fun _ _ hl => .bind (.peekIs _) fun _ _ hb =>
    .ite (by rw [hb])
      (fun _ => .skip <| .skip <| .bind hg.expression fun _ _ hc =>
        .bind (.pure (Forall₂.cons hc .nil)) fun _ _ hcs =>
        .pass <| .rule (.cons he (.cons (.leaf hx) (.cons hl hcs))) trivial)
      fun _ => .bind (.pure Forall₂.nil) fun _ _ hcs =>
        .pass <| .rule (.cons he (.cons (.leaf hx) (.cons hl hcs))) trivial

theorem bracketed : Trees S (bracketed g) (bracketed h) :=
  .start fun _ _ => .ifPeek
    (.skip (.rule .nil trivial))
    (.skip <| .bind hg.expression fun _ _ he => .ifPeek (comprehension hg he)
      (.bind (.tail _ _ (.skip hg.expression)) fun _ _ hes => .rule (.cons he hes) trivial))

theorem tupleItem : Trees S (tupleItem g) (tupleItem h) :=
  .skip <| .bind .cur fun _ _ hkey => .ite (by rw [S.like.kind hkey])
    (fun _ => .pass <| .skip <| .bind hg.expression fun _ _ he =>
      .rule (.cons (.leaf hkey) (.cons he .nil)) trivial)
    fun _ => .fail (S.faultAt hkey rfl)

theorem tuple : Trees S (tuple g) (tuple h) :=
  .start fun _ _ => .bind (.delimited _ _ (tupleItem hg)) fun _ _ hitems => .rule hitems trivial

theorem creation : Trees S (creation g) (creation h) :=
  .start fun _ _ => .bind (.expect _) fun _ _ hname => .bind (.peekIs _) fun _ _ hb =>
  .ite (by rw [hb])
    (fun _ => .skip <| .bind (typeArguments hg) fun _ _ htypes =>
      .bind (.expect _) fun _ _ _ => .bind (arguments hg) fun _ _ hargs =>
      .rule (.cons (.leaf hname) (rel_append htypes (.cons (.node trivial hargs) .nil))) trivial)
    fun _ => .bind (.pure Forall₂.nil) fun _ _ htypes =>
      .bind (.expect _) fun _ _ _ => .bind (arguments hg) fun _ _ hargs =>
      .rule (.cons (.leaf hname) (rel_append htypes (.cons (.node trivial hargs) .nil))) trivial

theorem parenthesized : Trees S (parenthesized g) (parenthesized h) :=
  .skip <| .bind hg.expression fun _ _ he => .pass <| .pure he

theorem primary : Trees S (primary g) (primary h) := by
  refine .bind .cur fun t u ht => ?_
  have hliteral : Trees S (Pure.pure (.ofRule .literal t [.leaf t]))
      (Pure.pure (.ofRule .literal u [.leaf u])) :=
    .rule (.cons (.leaf ht) .nil) trivial
  have hillegal : t.kind = .illegal →
      Trees S (fail t.illegalFault) (fail u.illegalFault) :=
    fun hk => .fail (S.illegalFault ht hk)
  rw [← S.like.kind ht]
  generalize t.kind = k at hillegal
  split
  · exact .ifPeek (bareLambda hg) (.pure (.leaf ht))
  iterate 7 exact hliteral
  · exact .bind .get fun c d hcd => .ite (by rw [hcd.lambdaAhead]) (fun _ => lambda hg)
      fun _ => parenthesized hg
  · exact bracketed hg
  · exact tuple hg
  · exact creation hg
  · exact hillegal rfl
  · exact .failUnexpected

/-! ### Operators -/

theorem suffix? : Parser.Like S (Option.Rel S.trees) (suffix? g) (suffix? h) := by
  have htype {rule : Rule} (hrule : ∀ kids, rule.fits kids) :
      Parser.Like S (Option.Rel S.trees)
        (do advance; let t ← cur; advance
            return some (.ofRule rule t [← g.type]))
        (do advance; let t ← cur; advance
            return some (.ofRule rule t [← h.type])) :=
    .skip <| .start fun _ _ => .skip <| .bind hg.type fun _ _ ht =>
    .pure (.some (.node (hrule _) (.cons ht .nil)))
  refine .bind .peek fun t u ht => ?_
  rw [← S.like.kind ht]
  generalize t.kind = k
  split
  · exact .skip <| .start fun _ _ => .bind (arguments hg) fun _ _ hargs =>
    .pure (.some (.node trivial hargs))
  · exact .skip <| .bind (.expect _) fun _ _ hname =>
      .pure (.some (.node trivial (.cons (.leaf hname) .nil)))
  · exact htype fun _ => trivial
  · exact htype fun _ => trivial
  · exact .pure .none

theorem suffixed : Trees S (suffixed g) (suffixed h) := by
  refine .bind (primary hg) fun e e' he => .bind (.many (suffix? hg)) fun ss ss' hss => ?_
  cases hss with
  | nil => exact .pure he
  | cons hs hss => exact .pure (.node trivial (.cons he (.cons hs hss)))

theorem unaryRule : Trees S (unaryRule g) (unaryRule h) :=
  .bind .cur fun _ _ hop => .ite (by rw [S.like.kind hop])
    (fun hk => .skip <| .bind hg.unary fun _ _ he =>
      .pure (.node ⟨_, _, rfl, hk⟩ (.cons (.leaf hop) (.cons he .nil))))
    fun _ => suffixed hg

/-- An operator of the level in front of an operand, and one like it. -/
def Operation (R : Token → Token → Prop) (level : Level) (x y : Tree × Tree) : Prop :=
  (∃ op op', x.1 = .leaf op ∧ y.1 = .leaf op' ∧ R op op' ∧ op.kind ∈ level.operators) ∧
    Tree.Like R x.2 y.2

omit hg in
theorem operation? (hpq : Trees S p q) :
    Parser.Like S (Option.Rel (Operation S.tokens level)) (operation? level p)
    (operation? level q) := by
  have hoperand {op op' : Token} (hop : S.tokens op op') (hk : op.kind ∈ level.operators) :
      Parser.Like S (Option.Rel (Operation S.tokens level))
        (do advance; return some (.leaf op, ← p))
        (do advance; return some (.leaf op', ← q)) :=
    .skip <| .bind hpq fun _ _ he =>
      .pure (.some ⟨⟨op, op', rfl, rfl, hop, hk⟩, he⟩)
  -- the operator is the token that was seen behind the cursor
  refine .ofView Cursor.peek S.peek (fun hc => (S.stuck_peek hc).2) fun op op' hop => ?_
  by_cases hk : level.operators.contains op.kind
  · refine ⟨_, _, ?_, ?_, .skip <| hoperand hop (contains_iff_mem.1 hk)⟩
    · rintro c rfl
      change (if level.operators.contains c.peek.kind then _ else _ : Parser _) c = _
      rw [if_pos hk, ← c.cur_advance]
      rfl
    · rintro d rfl
      change (if level.operators.contains d.peek.kind then _ else _ : Parser _) d = _
      rw [if_pos (S.like.kind hop ▸ hk), ← d.cur_advance]
      rfl
  · refine ⟨_, _, ?_, ?_, .pure .none⟩
    · rintro c rfl
      exact congrFun (if_neg hk) c
    · rintro d rfl
      exact congrFun (if_neg (S.like.kind hop ▸ hk)) d

omit hg in
theorem forall₂_operations (h : Forall₂ (Operation S.tokens level) xs ys) :
    Forall₂ S.trees (xs.flatMap fun x => [x.1, x.2]) (ys.flatMap fun y =>
      [y.1, y.2]) ∧ ∀ x ∈ xs, ∃ op, x.1 = .leaf op ∧ op.kind ∈ level.operators := by
  induction h with
  | nil => exact ⟨.nil, nofun⟩
  | cons hxy hrest ih =>
    obtain ⟨⟨op, op', hx, hy, hop, hk⟩, he⟩ := hxy
    refine ⟨.cons ?_ (.cons he ih.1), forall_mem_cons.2 ⟨⟨op, hx, hk⟩, ih.2⟩⟩
    rw [hx, hy]
    exact .leaf hop

theorem binary (levels : List Level) : Trees S (binary g levels) (binary h levels) := by
  induction levels with
  | nil => exact unaryRule hg
  | cons level tighter ih =>
    refine .bind ih fun e e' he => .bind (.many (operation? ih)) fun xs ys hxy => ?_
    have hkids := forall₂_operations hxy
    cases hxy with
    | nil => exact .pure he
    | cons hx hxs => exact .pure (.node ⟨_, _, rfl, hkids.2⟩ (.cons he hkids.1))

theorem conditionalRule : Trees S (conditionalRule g) (conditionalRule h) :=
  .bind (binary hg _) fun _ _ hc => .ifPeek
    (.skip <| .start fun _ _ => .skip <| .bind hg.expression fun _ _ hy => .pass <| .skip <|
      .bind hg.conditional fun _ _ hn =>
      .rule (.cons hc (.cons hy (.cons hn .nil))) trivial)
    (.pure hc)

theorem expressionRule : Trees S (expressionRule g) (expressionRule h) :=
  .bind (conditionalRule hg) fun _ _ hl => .ifPeek
    (.skip <| .start fun _ _ => .skip <| .bind hg.expression fun _ _ hr =>
      .rule (.cons hl (.cons hr .nil)) trivial)
    (.pure hl)

/-! ### Declarations -/

theorem decoratorArgument (isMap : Bool) :
    Trees S (decoratorArgument g isMap) (decoratorArgument h isMap) :=
  .skip <| .bind (.peekIs _) fun _ _ hb => .skip <| .ite (by rw [hb])
      (fun _ => .bind (tupleType hg) fun _ _ ha => .pass <| .pure ha)
      fun _ => .bind hg.expression fun _ _ ha => .pass <| .pure ha

def decoratorAt (g : Grammar) (t : Token) : Parser Tree := do
  if ← Parser.peekIs .lparen then
    return .ofRule .decorator t [.leaf t, ← Grammar.decoratorArgument g (t.literal = "@map")]
  else return .ofRule .decorator t [.leaf t]

theorem decoratorAt_like (htu : S.tokens t u) (hk : t.kind = .decorator) :
    Trees S (decoratorAt g t) (decoratorAt h u) := by
  rw [decoratorAt, decoratorAt, ← S.like.literal htu (by rw [hk]; decide)]
  exact .ifPeek
    (.bind (decoratorArgument hg _) fun _ _ ha =>
      .rule (.cons (.leaf htu) (.cons ha .nil)) trivial)
    (.rule (.cons (.leaf htu) .nil) trivial)

theorem decorator? :
    Parser.Like S (Option.Rel S.trees) (decorator? g) (decorator? h) := by
  refine .ofView Cursor.cur (fun _ => S.cur) S.stuck_cur fun t u htu => ?_
  by_cases hk : t.kind = .decorator
  · refine ⟨_, _, ?_, ?_, .bind (decoratorAt_like hg htu hk) fun _ _ hd =>
      .skip <| .pure (.some hd)⟩
    · rintro c rfl
      exact congrFun (if_pos (decide_eq_true hk)) c
    · rintro d rfl
      exact congrFun (if_pos (decide_eq_true (S.like.kind htu ▸ hk))) d
  · refine ⟨_, _, ?_, ?_, .pure .none⟩
    · rintro c rfl
      exact congrFun (if_neg (by simpa using hk)) c
    · rintro d rfl
      exact congrFun (if_neg (by simpa using S.like.kind htu ▸ hk)) d

theorem functionDecl (hds : Forall₂ S.trees ds ds') :
    Trees S (functionDecl g ds) (functionDecl h ds') :=
  .start fun _ _ => .bind (.expect _) fun _ _ hname =>
    .pass <| .bind (parameters hg true) fun _ _ hps =>
    .bind (annotation? hg) fun _ _ hresult => .pass <| .bind (block hg) fun _ _ hbody =>
    .rule (rel_append (rel_append hds (.cons (.leaf hname) (.cons hps hresult)))
      (.cons hbody .nil)) trivial

theorem binding (rule : Rule) (hrule : ∀ kids, rule.fits kids)
    (hds : Forall₂ S.trees ds ds') :
    Trees S (binding g rule ds) (binding h rule ds') := by
  refine .start fun _ _ => .bind (.expect _) fun _ _ hname =>
    .bind (annotation? hg) fun _ _ htype => .bind (.peekIs _) fun _ _ hb => ?_
  refine .ite (by rw [hb]) (fun _ => ?_) fun _ => ?_
  · exact .skip <| .skip <| .bind hg.expression fun _ _ he =>
    .bind (.pure (Forall₂.cons he .nil)) fun _ _ hvalue =>
      .bind .optionalSemicolon fun _ _ _ =>
      .pure (.node (hrule _) (rel_append (rel_append hds (.cons (.leaf hname) htype)) hvalue))
  · exact .bind (.pure Forall₂.nil) fun _ _ hvalue =>
      .bind .optionalSemicolon fun _ _ _ =>
      .pure (.node (hrule _) (rel_append (rel_append hds (.cons (.leaf hname) htype)) hvalue))

theorem assetField? :
    Parser.Like S (Option.Rel S.trees) (assetField? g) (assetField? h) :=
  .ifPeek (.pure .none)
    (.bind (.expect _) fun _ _ hname => .bind (annotation? hg) fun _ _ htype =>
      .bind .peek fun _ _ ht => .ite (by rw [S.like.kind ht])
        (fun _ => .skip <| .pure (.some (.node trivial (.cons (.leaf hname) htype))))
        fun _ => .pure (.some (.node trivial (.cons (.leaf hname) htype))))

theorem assetDecl (hds : Forall₂ S.trees ds ds') :
    Trees S (assetDecl g ds) (assetDecl h ds') :=
  .start fun _ _ => .bind (.expect _) fun _ _ hname =>
    .pass <| .bind (.many (assetField? hg)) fun _ _ hfields =>
    .skip <| .rule (rel_append hds (.cons (.leaf hname) hfields)) trivial

theorem signature? : Parser.Like S (Option.Rel S.trees) (signature? g) (signature? h) :=
  .ifPeek (.pure .none)
    (.bind (.expect _) fun _ _ hname => .pass <| .bind (parameters hg true) fun _ _ hps => .pass <|
      .skip <| .bind hg.type fun _ _ hresult =>
      .bind .optionalSemicolon fun _ _ _ =>
      .pure (.some (.node trivial (.cons (.leaf hname) (.cons hps (.cons hresult .nil))))))

theorem traitDecl : Trees S (traitDecl g) (traitDecl h) :=
  .start fun _ _ => .bind (.expect _) fun _ _ hname =>
    .pass <| .bind (.many (signature? hg)) fun _ _ hsigs =>
    .skip <| .rule (.cons (.leaf hname) hsigs) trivial

omit hg in
theorem mapName? : Parser.Like S (Option.Rel S.tokens) mapName? mapName? :=
  .ifPeek
    (.skip <| .bind .cur fun _ _ hname =>
      .pass <| .bind (.expectKind _) fun _ _ hword =>
      .ite (by rw [S.like.literal hword.1 (by rw [hword.2]; decide)])
        (fun _ => .pure (.some hname)) fun _ => .fail (S.faultAt hword.1 rfl))
    (.pure .none)

theorem mapDecl : Trees S (mapDecl g) (mapDecl h) := by
  refine .start fun _ _ => .bind mapName? fun early early' hearly =>
    .pass <| .bind (typeArguments hg) fun ts us htypes => ?_
  refine .ite (by rw [htypes.length_eq])
    (fun _ => .bind .cur fun _ _ ht =>
      .bind (.fail (A := fun _ _ => False) (S.faultAt ht rfl)) nofun) fun _ => ?_
  cases hearly with
  | none =>
    exact .bind (.expect _) fun _ _ hname => .bind .optionalSemicolon fun _ _ _ =>
      .rule (rel_append htypes (.cons (.leaf hname) .nil)) trivial
  | some hname =>
    exact .bind (.pure hname) fun _ _ hname => .bind .optionalSemicolon fun _ _ _ =>
      .rule (rel_append htypes (.cons (.leaf hname) .nil)) trivial

omit hg in
theorem importDecl : Trees S importDecl importDecl := by
  refine .start fun _ _ => .pass <|
    .bind (.separated (.expect _) (.discard (.expect _))) fun ts us hnames =>
    .bind .peek fun t u ht => ?_
  have hleaves : Forall₂ S.trees (ts.map .leaf) (us.map .leaf) :=
    forall₂_map_left_iff.2 (forall₂_map_right_iff.2 (hnames.imp fun _ _ => .leaf))
  exact .ite (Simulation.word_iff ht _)
    (fun _ => .skip <| .bind (.expect _) fun _ _ hsource =>
      .bind .optionalSemicolon fun _ _ _ =>
      .rule (rel_append hleaves (.cons (.leaf hsource) .nil)) trivial)
    fun _ => .fail (S.faultAt ht rfl)

/-! ### Statements -/

theorem guarded : Parser.Like S (Forall₂ S.trees) (guarded g) (guarded h) :=
  .pass <| .skip <| .bind hg.expression fun _ _ hc => .pass <| .pass <|
  .bind (block hg) fun _ _ hbody =>
    .pure (.cons hc (.cons hbody .nil))

theorem branchesWithin (hfuel : Allows S.strict m n) :
    Parser.Like S (Forall₂ S.trees) (branchesWithin g m) (branchesWithin h n) := by
  induction m generalizing n with
  | zero => exact .outOfFuel hfuel rfl
  | succ m ih =>
    obtain ⟨n, rfl, hmn⟩ := hfuel.of_succ
    exact .ifPeek
      (.skip <| .ifPeek (.skip <| .bind (guarded hg) fun _ _ hbranch =>
          .bind (ih hmn) fun _ _ hmore => .pure (rel_append hbranch hmore))
        (.pass <| .bind (block hg) fun _ _ hbody =>
          .pure (.cons hbody .nil)))
      (.pure .nil)

theorem ifStmt : Trees S (ifStmt g) (ifStmt h) :=
  .start fun _ _ => .bind (guarded hg) fun _ _ hfirst => .bind .get fun _ _ hcd =>
    .bind (branchesWithin hg hcd.bound) fun _ _ hmore =>
      .rule (rel_append hfirst hmore) trivial

theorem tryStmt : Trees S (tryStmt g) (tryStmt h) :=
  .start fun _ _ => .pass <| .bind (block hg) fun _ _ hbody => .pass <| .pass <|
  .bind (.expect _) fun _ _ hname =>
    .pass <| .pass <| .bind (block hg) fun _ _ hhandler =>
    .rule (.cons hbody (.cons (.leaf hname) (.cons hhandler .nil))) trivial

theorem throwStmt : Trees S (throwStmt g) (throwStmt h) :=
  .start fun _ _ => .skip <| .bind hg.expression fun _ _ he =>
    .bind .optionalSemicolon fun _ _ _ => .rule (.cons he .nil) trivial

theorem returnStmt : Trees S (returnStmt g) (returnStmt h) := by
  refine .start fun _ _ => .bind .peek fun t u ht => ?_
  rw [← S.like.kind ht]
  generalize t.kind = k
  split
  · exact .skip <| .rule .nil trivial
  · exact .rule .nil trivial
  · exact .rule .nil trivial
  · exact .skip <| .bind hg.expression fun _ _ he =>
      .bind .optionalSemicolon fun _ _ _ => .rule (.cons he .nil) trivial

theorem exportDecl : Trees S (exportDecl g) (exportDecl h) :=
  .start fun _ _ => .skip <| .bind hg.statement fun _ _ hs =>
    .rule (.cons hs .nil) trivial

theorem exprStmt : Trees S (exprStmt g) (exprStmt h) :=
  .start fun _ _ => .bind (expressionRule hg) fun _ _ he =>
    .bind .optionalSemicolon fun _ _ _ => .rule (.cons he .nil) trivial

theorem decorated : Trees S (decorated g) (decorated h) := by
  refine .bind (.many (decorator? hg)) fun ds ds' hds => .bind .cur fun t u ht => ?_
  rw [← S.like.kind ht]
  generalize t.kind = k
  split
  · exact functionDecl hg hds
  · exact binding hg .constantDecl (fun _ => trivial) hds
  · exact assetDecl hg hds
  · exact .fail (S.faultAt ht rfl)

theorem statementRule : Trees S (statementRule g) (statementRule h) := by
  refine .bind .cur fun t u ht => ?_
  have hother : Parser.Like S S.trees
      (do
        let next := (← peek).kind
        if t.kind = .ident ∧ t.literal = Bytes.ofString "map" ∧ (next = .less ∨ next = .ident) then
          Grammar.mapDecl g
        else Grammar.exprStmt g)
      (do
        let next := (← peek).kind
        if u.kind = .ident ∧ u.literal = Bytes.ofString "map" ∧ (next = .less ∨ next = .ident) then
          Grammar.mapDecl h
        else Grammar.exprStmt h) := by
    refine .bind .peek fun v w hvw => .ite ?_ (fun _ => mapDecl hg) fun _ => exprStmt hg
    rw [S.like.kind hvw, ← and_assoc, Simulation.word_iff ht, and_assoc]
  rw [← S.like.kind ht] at hother ⊢
  split
  · exact decorated hg
  · exact functionDecl hg .nil
  · exact binding hg .variableDecl (fun _ => trivial) .nil
  · exact binding hg .constantDecl (fun _ => trivial) .nil
  · exact assetDecl hg .nil
  · exact traitDecl hg
  · exact ifStmt hg
  · exact tryStmt hg
  · exact throwStmt hg
  · exact returnStmt hg
  · exact importDecl
  · exact exportDecl hg
  · exact hother

end

/-! ### Whole parses -/

theorem ofDepth (hdepth : Allows S.strict m n) :
    Like S (Grammar.ofDepth m) (Grammar.ofDepth n) := by
  induction m generalizing n with
  | zero =>
    exact ⟨.outOfFuel hdepth rfl (q := fun n => (Grammar.ofDepth n).type),
      .outOfFuel hdepth rfl (q := fun n => (Grammar.ofDepth n).expression),
      .outOfFuel hdepth rfl (q := fun n => (Grammar.ofDepth n).conditional),
      .outOfFuel hdepth rfl (q := fun n => (Grammar.ofDepth n).unary),
      .outOfFuel hdepth rfl (q := fun n => (Grammar.ofDepth n).statement)⟩
  | succ m ih =>
    obtain ⟨n, rfl, hmn⟩ := hdepth.of_succ
    have hg := ih hmn
    exact ⟨typeRule hg, expressionRule hg, conditionalRule hg, unaryRule hg, statementRule hg⟩

theorem statements (hS : S.strict = true) (hg : Like S g h) (fuel : Nat) (hc : S.cursors c d) :
    Forall₂ S.trees (statements g fuel c).1 (statements h fuel d).1 ∧
      Option.Rel S.faults (statements g fuel c).2 (statements h fuel d).2 := by
  have hfree (c : Cursor) : ¬ S.isStuck c := fun hc => by cases hS.symm.trans (S.lax hc)
  induction fuel generalizing c d with
  | zero => exact ⟨.nil, (S.sees hc).fault⟩
  | succ fuel ih =>
    have hfault := (S.sees hc).fault
    have hstop : (c.cur.kind = .eof ∨ c.fault.isSome) ↔ (d.cur.kind = .eof ∨ d.fault.isSome) := by
      rw [S.like.kind (S.cur hc)]
      generalize c.fault = x at hfault
      generalize d.fault = y at hfault
      cases hfault <;> rfl
    rw [Grammar.statements, Grammar.statements]
    by_cases hend : c.cur.kind = .eof ∨ c.fault.isSome
    · rw [if_pos hend, if_pos (hstop.1 hend)]
      exact ⟨.nil, hfault⟩
    · rw [if_neg hend, if_neg (mt hstop.2 hend)]
      have hrun := hg.statement.results hc
      generalize g.statement c = x at hrun
      generalize h.statement d = y at hrun
      match x, y with
      | .ok (s, c'), .ok (s', d') =>
        obtain ⟨hs, hc'⟩ | ⟨hstuck, -⟩ := hrun
        · obtain ⟨hrest, hfault⟩ := ih (S.advance (hfree c') hc')
          exact ⟨.cons hs hrest, hfault⟩
        · exact absurd hstuck (hfree c')
      | .error _, .error _ => exact ⟨.nil, .some (hrun hS)⟩
      | .ok _, .error _ => exact absurd hrun.1 (hfree _)
      | .error _, .ok _ => cases hS.symm.trans hrun

end Grammar.Like

theorem Cursor.like_ofTokens (hR : TokenLike R)
    (h : Forall₂ R ts us) : Like R (ofTokens ts) (ofTokens us) := by
  have hstart {t u t' u' : Token} {rest rest' : List Token} (ht : R t t') (hu : R u u')
      (hrest : Forall₂ R rest rest') :
      Like R { cur := t, peek := u, rest } { cur := t', peek := u', rest := rest' } :=
    ⟨ht, hu, hrest, rfl⟩
  match h with
  | .nil => exact hstart hR.eof hR.eof .nil
  | .cons ht .nil => exact (hstart ht ht .nil).note hR ht
  | .cons ht (.cons hu hrest) => exact ((hstart ht hu hrest).note hR ht).note hR hu

/-- **Corresponding token sequences have parses of one shape, and faults of one code.** -/
theorem Parsed.like_ofTokens {R : Token → Token → Prop} (hR : TokenLike R) (h : Forall₂ R ts us) :
    Tree.Like R (ofTokens ts).tree (ofTokens us).tree ∧
      (ofTokens ts).fault.map (·.cause.code) =
        (ofTokens us).fault.map (·.cause.code) := by
  have hc := Cursor.like_ofTokens hR h
  rw [ofTokens, ofTokens, hc.bound]
  obtain ⟨hstmts, hfault⟩ :=
    Grammar.Like.statements (S := .ofTokens hR true) rfl
      (.ofDepth (.refl _ ((Cursor.ofTokens us).bound + 1))) _ hc
  exact ⟨.node trivial hstmts, rel_iff_map.1 hfault⟩

theorem Tree.like_parse (hR : TokenLike R) {source source' : Bytes}
    (h : Forall₂ R (Token.scan source) (Token.scan source')) :
    Alike true (Like R) (parse source) (parse source') := by
  obtain ⟨htree, hfault⟩ := Parsed.like_ofTokens hR h
  rw [parse, parse, Parsed.ofSource, Parsed.ofSource]
  generalize Parsed.ofTokens (Token.scan source) = p at htree hfault
  generalize Parsed.ofTokens (Token.scan source') = q at htree hfault
  obtain ⟨t, f⟩ := p
  obtain ⟨u, f'⟩ := q
  match f, f' with
  | none, none => exact htree
  | some _, some _ => exact fun _ => Option.some.inj hfault
  | none, some _ | some _, none => cases hfault

end Covenant
