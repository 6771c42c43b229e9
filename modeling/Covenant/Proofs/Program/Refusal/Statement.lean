import Covenant.Proofs.Program.Refusal.Item

/-!
# Statements that are built or refused

One statement for each rule of declarations and statements.
-/

namespace Covenant

open List Tree.Becomes Tree Site Rule Item

variable {root : Tree}

/-! ### Decorators in front -/

/-- The decorator is what the tree became. -/
structure Tree.Decorates (root x : Tree) (d : Decorator) : Prop where
  shape : x.shape = .decorator
  name : d.name = x.decoratorName
  known : d.name ∈ Diagnostic.knownDecorators
  formed : ∀ n ∈ d.argument.toList, n.FormedBy root

namespace Tree

theorem exists_mem_of_forall₂ {α β : Type} {R : α → β → Prop} {as : List α} {bs : List β} {a : α}
    (h : Forall₂ R as bs) (ha : a ∈ as) : ∃ b ∈ bs, R a b := by
  induction h with
  | nil => cases ha
  | cons hab _ ih =>
    obtain rfl | ha := mem_cons.1 ha
    · exact ⟨_, .head _, hab⟩
    · obtain ⟨b, hmem, hb⟩ := ih ha
      exact ⟨b, .tail _ hmem, hb⟩

theorem exists_decorators (h : Forall₂ root.Becomes kids items)
    (hk : ∀ f ∈ kids.map shape, f = .decorator) :
    ∃ ds : List Decorator, items = ds.map .decorator ∧ Forall₂ root.Decorates kids ds := by
  induction h with
  | nil => exact ⟨[], rfl, .nil⟩
  | cons hit _ ih =>
    obtain ⟨hx, hk⟩ := forall_mem_cons.1 hk
    obtain ⟨ds, rfl, hds⟩ := ih hk
    have hfits := hit.fits
    rw [hx] at hfits
    obtain ⟨d, hname, hknown, rfl⟩ := hfits
    exact ⟨d :: ds, rfl, .cons ⟨hx, hname, hknown, hit.formed⟩ hds⟩

section

variable (h : Forall₂ root.Decorates kids ds)

include h

theorem exists_of_decorates (hd : d ∈ ds) : ∃ x ∈ kids, root.Decorates x d :=
  exists_mem_of_forall₂ h.flip hd

theorem shape_of_decorates : ∀ d ∈ kids, d.shape = .decorator := by
  intro x hx
  obtain ⟨d, -, hd⟩ := exists_mem_of_forall₂ h hx
  exact hd.shape

theorem all_children_of_decorates : ∀ n ∈ Decorator.children ds, n.FormedBy root := by
  intro n hn
  obtain ⟨d, hd, harg⟩ := mem_filterMap.1 hn
  obtain ⟨x, -, hx⟩ := exists_of_decorates h hd
  exact hx.formed n (Option.mem_toList.2 harg)

end

theorem answers_wrongDecorator {α : Type} {Q : α → Prop} {rule : Rule} {name : Tree}
    (hroot : root.Contains (.node rule p (kids ++ name :: more)))
    (hrule : rule = .functionDecl ∨ rule = .constantDecl ∨ rule = .assetDecl)
    (h : Forall₂ root.Decorates kids ds) (hd : d ∈ ds) (hwrong : d.name ∉ rule.decorators) :
    root.Answers (wrongDecorator d (rule.declares name.firstWord)) Q := by
  obtain ⟨x, hx, hdx⟩ := exists_of_decorates h hd
  have hknown := hdx.known
  rw [hdx.name] at hknown hwrong
  refine .error hroot ?_
  rw [hdx.name]
  exact .wrongDecorator hrule hx hdx.shape hknown hwrong

end Tree

namespace Site

section

variable (ds : List Decorator) (items : List Item)

theorem first_decorators : firstIdent? (ds.map .decorator ++ items) = firstIdent? items ∧
    firstType? (ds.map .decorator ++ items) = firstType? items ∧
    firstBlock? (ds.map .decorator ++ items) = firstBlock? items ∧
    firstParams? (ds.map .decorator ++ items) = firstParams? items := by
  induction ds with
  | nil => exact ⟨rfl, rfl, rfl, rfl⟩
  | cons d ds ih => exact ih

theorem decorators_append : decorators (ds.map .decorator ++ items) = ds ++ decorators items := by
  induction ds with
  | nil => rfl
  | cons d ds ih => exact congrArg (d :: ·) ih

end

theorem splitDecorators_append (ds : List Decorator) (e : Expr) (items : List Item) :
    splitDecorators (ds.map .decorator ++ .ofExpr e :: items) = (ds, .ofExpr e :: items) := by
  induction ds with
  | nil => rfl
  | cons d ds ih => rw [map_cons, cons_append, splitDecorators, ih]

theorem functionDecl_eq (s : Site) (ds : List Decorator) (n : Ident) (ps : List Parameter)
    (result : Option Ty) (b : Block) :
    s.functionDecl (ds.map .decorator ++ .ofExpr (.ident n) :: .params ps ::
        (result.toList.map .ofType ++ [.node (.block b)])) =
      match ds.find? fun d => d.name == Bytes.ofString "map" ||
      d.name == Bytes.ofString "asset" with
      | some d => wrongDecorator d ("function " ++ n.name)
      | none => .ok (.ofStmt (.fnDecl (.mk s.pos ds n ps result (some b)))) := by
  obtain ⟨hname, htype, hblock, hparams⟩ := first_decorators ds (.ofExpr (.ident n) :: .params ps ::
    (result.toList.map .ofType ++ [.node (.block b)]))
  rw [functionDecl, hname, hblock, hparams, htype, decorators_append]
  cases result <;> (rw [show decorators _ = [] from rfl, append_nil]; rfl)

end Site

theorem Tree.exists_optionalType (h : Forall₂ root.Becomes kids items)
    (hk : kids.map shape = [] ∨ kids.map shape = [.type]) :
    ∃ type : Option Ty, items = type.toList.map .ofType ∧
      ∀ n ∈ Ty.optionalNode type, n.FormedBy root := by
  obtain hk | hk := hk
  · obtain ⟨⟩ := row h hk
    exact ⟨none, rfl, forall_mem_nil _⟩
  · obtain _ | ⟨hx, hit, ⟨⟩⟩ := row h hk
    obtain ⟨t, rfl, ht⟩ := hit.type hx
    exact ⟨some t, rfl, forall_mem_singleton.2 ht⟩

namespace Rule

/-! ### Functions -/

theorem agrees_decorator : decorator.Agrees := by
  intro assets root p kids items hroot h hk
  have hmark : ∃ gs, kids.map shape = .mark :: gs ∧
      (gs = [] ∨ ∃ g : Shape, (g.isValue = true ∨ g = .type) ∧ gs = [g]) := by
    obtain hk | ⟨g, hg, hk⟩ := hk
    · exact ⟨[], hk, .inl rfl⟩
    · exact ⟨[g], hk, .inr ⟨g, hg, rfl⟩⟩
  obtain ⟨gs, hk, hgs⟩ := hmark
  obtain _ | @⟨_, _, x, xs, _, its, hx, hit, hrow⟩ := row h hk
  obtain ⟨hmore, rfl⟩ := hrow.becomes
  have hword : (node .decorator p (x :: xs)).firstWord = x.firstWord :=
    firstWord_node (.inr (.inr hx))
  have hfits := hit.fits
  rw [hx] at hfits
  obtain ⟨t, hkind, hliteral, rfl⟩ := hfits
  change root.Answers (Site.decorator ⟨.decorator, p⟩ (.token t :: its)) _
  rw [Site.decorator, if_pos hkind, hliteral]
  by_cases hknown : x.firstWord.stripPrefix "@" ∈ Diagnostic.knownDecorators
  · rw [if_pos (contains_iff_mem.2 hknown)]
    have hok (argument : Option Node)
        (hargument : ∀ n ∈ argument.toList, n.FormedBy root) :
        root.Answers (.ok (.decorator (.mk t.pos (x.firstWord.stripPrefix "@") argument))) fun it =>
          (node .decorator p (x :: xs)).shape.Fits (node .decorator p (x :: xs)).firstWord it ∧
            it.Formed root := by
      rw [hword]
      exact .ok ⟨⟨.mk t.pos _ argument, rfl, hknown, rfl⟩, hargument⟩
    obtain hnil | ⟨g, hg, hk⟩ := hgs
    · obtain ⟨⟩ := row hmore hnil
      exact hok none (forall_mem_nil _)
    · obtain _ | ⟨rfl, hjt, ⟨⟩⟩ := row hmore hk
      obtain hg | hg := hg
      · obtain ⟨e, rfl⟩ | ⟨q, n, ts, rfl, hnew⟩ := hjt.exists_of_isValue hg
        · exact hok (some (.expr e)) hjt.formed
        · exact .error hroot (.newArgument hnew)
      · obtain ⟨u, rfl, hu⟩ := hjt.type hg
        exact hok (some (.type u)) hjt.formed
  · rw [if_neg fun hmem => hknown (contains_iff_mem.1 hmem)]
    refine .error hroot ?_
    rw [← hword] at hknown ⊢
    exact .unknownDecorator hknown

theorem agrees_parameter : parameter.Agrees := by
  intro assets root p kids items hroot h hk
  obtain hk | hk := hk
  · obtain _ | ⟨hx, hit, ⟨⟩⟩ := row h hk
    obtain ⟨n, -, rfl, hn⟩ := hit.name hx
    exact .ok ⟨⟨⟨n, none⟩, nofun, rfl⟩, formed_node trivial (forall_mem_singleton.2 hn)⟩
  · obtain _ | ⟨hx, hit, _ | ⟨hy, hjt, hrow⟩⟩ := row h hk
    obtain ⟨n, -, rfl, hn⟩ := hit.name hx
    obtain ⟨t, rfl, ht⟩ := hjt.type hy
    exact .ok ⟨⟨⟨n, some t⟩, fun _ => rfl, rfl⟩,
      formed_node trivial (by simp [Node.children, Ty.optionalNode, hn, ht])⟩

theorem agrees_parameters : parameters.Agrees := by
  intro assets root p kids items hroot h hk
  have hparams : root.Answers (items.mapM (Site.parameter ⟨.parameters, p⟩)) fun ps =>
      ∀ q ∈ ps, (kids.all isTyped = true → q.type.isSome = true) ∧
        (Node.parameter q).FormedBy root := by
    refine answers_mapM h fun x hx it hit => ?_
    obtain ⟨typed, hshape⟩ := hk _ (mem_map_of_mem hx)
    have hfits := hit.fits
    rw [hshape] at hfits
    obtain ⟨q, hq, rfl⟩ := hfits
    refine .ok ⟨fun hall => hq ?_, hit.formed _ (.head _)⟩
    have htyped := isTyped_iff.1 (all_eq_true.1 hall x hx)
    rw [hshape] at htyped
    exact Shape.parameter.inj htyped
  refine hparams.bind fun ps hps => .ok ⟨⟨ps, fun hall q hq => (hps q hq).1 hall, rfl⟩, ?_⟩
  exact forall_mem_map.2 fun q hq => (hps q hq).2

theorem mem_decorators_functionDecl {name : Bytes} (h : name ∈ Diagnostic.knownDecorators) :
    name ∈ functionDecl.decorators ↔
      (name == Bytes.ofString "map" || name == Bytes.ofString "asset") = false := by
  simp only [Diagnostic.knownDecorators, mem_cons, not_mem_nil, or_false] at h
  obtain rfl | rfl | rfl | rfl | rfl := h <;> decide

theorem agrees_functionDecl : functionDecl.Agrees := by
  rintro assets root p kids items hroot h ⟨dsh, rs, hk, hdsh, hrs⟩
  obtain ⟨dts, ms, dis, mis, rfl, rfl, hd, hm, hshape, hk₁⟩ := append h hk
  obtain _ | ⟨hx, hit, _ | ⟨hy, hjt, hrow⟩⟩ := row hm hk₁
  obtain ⟨hys, hk₃⟩ := hrow.becomes
  obtain ⟨us, vs, uts, vts, rfl, rfl, hus, hvs, hrshape, hk₄⟩ := append hys hk₃
  obtain _ | ⟨hz, hkt, ⟨⟩⟩ := row hvs hk₄
  obtain ⟨ds, rfl, hds⟩ := exists_decorators hd (hshape ▸ hdsh)
  obtain ⟨result, rfl, hresult⟩ := exists_optionalType hus (hrshape ▸ hrs)
  obtain ⟨n, hn, rfl, hname⟩ := hit.name hx
  obtain ⟨ps, htyped, rfl, hps⟩ := hjt.params hy
  obtain ⟨b, rfl, hb⟩ := hkt.block hz
  change root.Answers (Site.functionDecl ⟨.functionDecl, p⟩ _) _
  rw [Site.functionDecl_eq]
  split
  next d hfind =>
    rw [hn]
    have hmem : d ∈ ds := mem_of_find?_eq_some hfind
    refine answers_wrongDecorator hroot (.inl rfl) hds hmem fun hfits => ?_
    obtain ⟨x, -, hdx⟩ := exists_of_decorates hds hmem
    rw [mem_decorators_functionDecl hdx.known] at hfits
    exact absurd (find?_some hfind) (by rw [hfits]; decide)
  next hfind =>
    have hfits : ∀ d ∈ ds, d.name ∈ functionDecl.decorators := by
      intro d hmem
      obtain ⟨x, -, hdx⟩ := exists_of_decorates hds hmem
      rw [mem_decorators_functionDecl hdx.known]
      exact Bool.eq_false_iff.2 (find?_eq_none.1 hfind d hmem)
    refine .ofStmt rfl ⟨rfl, hfits, htyped rfl⟩ (formed_node trivial ?_)
    simp only [Node.children, Stmt.children, Fn.children, forall_mem_append,
      forall_mem_cons, forall_mem_map]
    exact ⟨⟨⟨all_children_of_decorates hds, hname, hps⟩, hresult⟩, forall_mem_singleton.2 hb⟩

theorem agrees_signature : signature.Agrees := by
  intro assets root p kids items hroot h hk
  obtain _ | ⟨hx, hit, _ | ⟨hy, hjt, _ | ⟨hz, hkt, -⟩⟩⟩ := row h hk
  obtain ⟨n, -, rfl, hn⟩ := hit.name hx
  obtain ⟨ps, htyped, rfl, hps⟩ := hjt.params hy
  obtain ⟨t, rfl, ht⟩ := hkt.type hz
  refine .ok ⟨⟨.mk n.pos [] n ps (some t) none, ⟨rfl, rfl, rfl, htyped rfl⟩, rfl⟩, ?_⟩
  refine formed_node trivial ?_
  simp only [Node.children, Stmt.children, Fn.children, forall_mem_append,
    forall_mem_cons, forall_mem_map]
  exact ⟨⟨⟨forall_mem_nil _, hn, hps⟩, forall_mem_singleton.2 ht⟩, forall_mem_nil _⟩

/-! ### Bindings -/

/-- The binding is made of the trees: decorators, a name, a type and a value. -/
inductive Binds (root : Tree) : List Tree → Site.Binding → Prop
  | mk {name : Tree} {b : Site.Binding} (hds : Forall₂ root.Decorates dts b.decorators)
    (hname : name.shape = .name) (hword : b.name.name = name.firstWord)
    (hformed : b.name.node.FormedBy root) (htypes : ∀ t ∈ types, t.shape = .type)
    (htype : ∀ n ∈ Ty.optionalNode b.type, n.FormedBy root)
    (hvalue : values = [] ∧ b.value = none ∨ ∃ x it, values = [x] ∧ b.value = some it ∧
    x.shape.isValue = true ∧ root.Becomes x it) :
    Binds root (dts ++ name :: (types ++ values)) b

theorem exists_binding (s : Site) (rule : String) (h : Forall₂ root.Becomes kids items)
    (hk : kids.map shape = ds ++ .name :: (ts ++ vs)) (hds : ∀ d ∈ ds, d = .decorator)
    (hts : ts = [] ∨ ts = [.type]) (hvs : vs = [] ∨ ∃ v : Shape, v.isValue = true ∧ vs = [v]) :
    ∃ b, s.binding rule items = .ok b ∧ Binds root kids b := by
  obtain ⟨dts, ms, dis, mis, rfl, rfl, hd, hm, rfl, hk₁⟩ := append h hk
  obtain _ | ⟨hx, hit, hrow⟩ := row hm hk₁
  obtain ⟨hxs, hk₂⟩ := hrow.becomes
  obtain ⟨us, ws, uts, wts, rfl, rfl, hus, hws, rfl, hk₃⟩ := append hxs hk₂
  obtain ⟨decorators, rfl, hdecorators⟩ := exists_decorators hd hds
  obtain ⟨type, rfl, htype⟩ := exists_optionalType hus hts
  obtain ⟨n, hn, rfl, hname⟩ := hit.name hx
  have htypes : ∀ t ∈ us, t.shape = .type := by
    intro t ht
    have hmem := mem_map_of_mem (f := shape) ht
    obtain hnil | htype := hts
    · rw [hnil] at hmem
      cases hmem
    · rw [htype] at hmem
      exact mem_singleton.1 hmem
  have hvalue : ∃ value : Option Item, wts = value.toList ∧ (ws = [] ∧ value = none ∨
      ∃ x it, ws = [x] ∧ value = some it ∧ x.shape.isValue = true ∧ root.Becomes x it) := by
    obtain rfl | ⟨v, hv, rfl⟩ := hvs
    · obtain ⟨⟩ := row hws hk₃
      exact ⟨none, rfl, .inl ⟨rfl, rfl⟩⟩
    · obtain _ | ⟨rfl, hjt, ⟨⟩⟩ := row hws hk₃
      exact ⟨some _, rfl, .inr ⟨_, _, rfl, rfl, hv, hjt⟩⟩
  obtain ⟨value, rfl, hvalue⟩ := hvalue
  refine ⟨⟨decorators, n, type, value⟩, ?_, .mk hdecorators hx hn hname htypes htype hvalue⟩
  have hboth : s.typeAndValue none none (type.toList.map .ofType ++ value.toList) =
      .ok (type, value) := by
    obtain ⟨-, rfl⟩ | ⟨y, jt, -, rfl, hy, hjt⟩ := hvalue
    · cases type <;> rfl
    · obtain ⟨e, rfl⟩ | ⟨q, m, ts, rfl, -⟩ := hjt.exists_of_isValue hy <;> cases type <;> rfl
  rw [binding, splitDecorators_append]
  change (s.typeAndValue none none _ >>= fun tv => .ok (Site.Binding.mk _ n tv.1 tv.2)) = _
  rw [hboth]
  rfl

theorem agrees_variableDecl : variableDecl.Agrees := by
  rintro assets root p kids items hroot h ⟨ts, vs, hk, hts, hvs⟩
  obtain ⟨b, hb, hbinds⟩ := exists_binding ⟨.variableDecl, p⟩ "variable declaration" h hk
    (forall_mem_nil _) hts hvs
  change root.Answers (binding ⟨.variableDecl, p⟩ "variable declaration" items >>= _) _
  rw [hb]
  dsimp only [bind, Except.bind]
  obtain ⟨hds, hname, hword, hformed, htypes, htype, hvalue⟩ := hbinds
  obtain ⟨rfl, hvalue⟩ | ⟨x, it, rfl, hvalue, hx, hit⟩ := hvalue
  · rw [hvalue]
    refine .error hroot ?_
    rw [hword, append_nil]
    exact .noValue (.inl ⟨rfl, rfl⟩) (shape_of_decorates hds) hname htypes
  · rw [hvalue]
    refine (hit.answers_expr hx _).bind fun e he => ?_
    refine .ofStmt rfl trivial (formed_node trivial ?_)
    simp only [Node.children, Stmt.children, forall_mem_append, forall_mem_cons]
    exact ⟨⟨hformed, htype⟩, he, forall_mem_nil _⟩

theorem all_of_mapTypes? {value : Option Item} {k v : Ty} (h : mapTypes? d value = some (k, v))
    (hd : ∀ n ∈ d.argument.toList, n.FormedBy root)
    (hvalue : ∀ it ∈ value, it.Formed root) :
    (Node.type k).FormedBy root ∧ (Node.type v).FormedBy root := by
  have hget {t u : Ty} {key : Bytes} (ht : (Node.type t).FormedBy root)
      (hu : t.get? key = some u) : (Node.type u).FormedBy root := by
    unfold Ty.get? at hu
    split at hu
    · obtain ⟨fs, gs, rfl, -⟩ := lookup_eq_some_iff.1 hu
      exact ht.below _ (mem_map.2 ⟨(key, u), by simp, rfl⟩)
    · cases hu
  unfold mapTypes? at h
  dsimp only at h
  split at h
  next kv hshaped =>
    cases h
    split at hshaped
    next t harg =>
      obtain ⟨a, ha, hb⟩ := Option.bind_eq_some_iff.1 hshaped
      obtain ⟨b, hb, heq⟩ := Option.map_eq_some_iff.1 hb
      cases heq
      have ht := hd (.type t) (by rw [harg]; exact .head _)
      exact ⟨hget ht ha, hget ht hb⟩
    · cases hshaped
  next q n k v hvalue' =>
    cases h
    have hboth := hvalue _ rfl
    simp only [Item.Formed, nodes, map_cons, forall_mem_cons] at hboth
    exact ⟨hboth.2.1, hboth.2.2.1⟩
  · cases h

theorem answers_mapConst {b : Site.Binding}
    (hroot : root.Contains (.node .constantDecl p kids)) (hbinds : Binds root kids b)
    (hd : d ∈ b.decorators) (hmap : ∀ d ∈ b.decorators, d.name = Bytes.ofString "map") :
    root.Answers (mapConst ⟨.constantDecl, p⟩ b d) fun it =>
      (∃ s : Stmt, s.IsComplete ∧ it = .ofStmt s) ∧ it.Formed root := by
  obtain ⟨hds, hname, hword, hformed, htypes, htype, hvalue⟩ := hbinds
  have hitem : ∀ it ∈ b.value, it.Formed root := by
    intro it hmem
    obtain ⟨-, hvalue⟩ | ⟨x, jt, -, hvalue, hx, hjt⟩ := hvalue
    · rw [hvalue] at hmem
      cases hmem
    · rw [hvalue] at hmem
      cases hmem
      exact hjt.formed
  -- the types decide, whatever became of the value
  have hrest (value : Option Expr)
      (hparts : ∀ n ∈ value.toList.map Node.expr, n.FormedBy root)
      (hsite : mapConst ⟨.constantDecl, p⟩ b d =
        (mapTypes? d b.value).elim (.error ⟨.untypedMap b.name.name, p⟩) fun kv =>
          .ok (.ofStmt (.mapConst p b.decorators b.name b.type value
            ⟨"@" ++ d.name, d.pos, b.name, kv.1, kv.2⟩))) :
      root.Answers (mapConst ⟨.constantDecl, p⟩ b d) fun it : Item =>
        (∃ s : Stmt, s.IsComplete ∧ it = .ofStmt s) ∧ it.Formed root := by
    rw [hsite]
    cases hkv : mapTypes? d b.value with
    | some kv =>
      obtain ⟨xd, -, hxd⟩ := exists_of_decorates hds hd
      have hkv := all_of_mapTypes? hkv hxd.formed hitem
      refine .ok ⟨⟨.mapConst _ _ _ _ _ _, trivial, rfl⟩,
        formed_node ⟨ne_nil_of_mem hd, hmap⟩ ?_⟩
      simp only [Node.children, Stmt.children, MapShape.children, forall_mem_append,
        forall_mem_cons]
      exact ⟨⟨⟨all_children_of_decorates hds, hformed, htype⟩, hparts⟩, hformed, hkv.1, hkv.2,
        forall_mem_nil _⟩
    | none =>
      refine .error hroot ?_
      rw [hword]
      refine .untypedMap ?_ (fun x hx => ?_) hname
      · rintro rfl
        rw [forall₂_nil_left_iff.1 hds] at hd
        cases hd
      · obtain ⟨d, hd, hdx⟩ := exists_mem_of_forall₂ hds hx
        exact ⟨hdx.shape, by rw [← hdx.name, hmap d hd]⟩
  -- the value is an expression, or the creation of an object that is left out
  obtain ⟨-, hvalue⟩ | ⟨x, it, -, hvalue, hx, hit⟩ := hvalue
  · refine hrest none (forall_mem_nil _) ?_
    rw [mapConst, hvalue]
    cases mapTypes? d none <;> rfl
  · obtain ⟨e, rfl⟩ | ⟨q, m, ts, rfl, -⟩ := hit.exists_of_isValue hx
    · refine hrest (some e) (forall_mem_singleton.2 (hit.formed _ (.head _))) ?_
      rw [mapConst, hvalue]
      cases mapTypes? d (some (.ofExpr e)) <;> rfl
    · refine hrest none (forall_mem_nil _) ?_
      rw [mapConst, hvalue]
      cases mapTypes? d (some (.creation q m ts)) <;> rfl

theorem agrees_constantDecl : constantDecl.Agrees := by
  rintro assets root p kids items hroot h ⟨ds, ts, vs, hk, hds, hts, hvs⟩
  obtain ⟨b, hb, hbinds⟩ := exists_binding ⟨.constantDecl, p⟩ "constant declaration" h
    hk hds hts hvs
  change root.Answers (binding ⟨.constantDecl, p⟩ "constant declaration" items >>= _) _
  rw [hb]
  dsimp only [bind, Except.bind]
  split
  next d hfind =>
    obtain ⟨hds, -, hword, -, -, -, -⟩ := hbinds
    rw [hword]
    refine answers_wrongDecorator hroot (.inr (.inl rfl)) hds
      (mem_of_find?_eq_some hfind) fun hmem => ?_
    simpa [mem_singleton.1 hmem] using find?_some hfind
  next hfind =>
    split
    next d hlast =>
      refine answers_mapConst hroot hbinds (mem_of_getLast? hlast) fun d hd => ?_
      simpa using find?_eq_none.1 hfind d hd
    next =>
      obtain ⟨hds, hname, hword, hformed, htypes, htype, hvalue⟩ := hbinds
      obtain ⟨rfl, hvalue⟩ | ⟨x, it, rfl, hvalue, hx, hit⟩ := hvalue
      · rw [hvalue]
        refine .error hroot ?_
        rw [hword, append_nil]
        exact .noValue (.inr ⟨rfl, rfl⟩) (shape_of_decorates hds) hname htypes
      · rw [hvalue]
        refine (hit.answers_expr hx _).bind fun e he => ?_
        refine .ofStmt rfl trivial (formed_node trivial ?_)
        simp only [Node.children, Stmt.children, forall_mem_append, forall_mem_cons]
        exact ⟨⟨hformed, htype⟩, he, forall_mem_nil _⟩

theorem agrees_mapDecl : mapDecl.Agrees := by
  intro assets root p kids items hroot h hk
  obtain _ | ⟨hx, hit, _ | ⟨hy, hjt, _ | ⟨hz, hkt, -⟩⟩⟩ := row h hk
  obtain ⟨k, rfl, hk⟩ := hit.type hx
  obtain ⟨v, rfl, hv⟩ := hjt.type hy
  obtain ⟨n, -, rfl, hn⟩ := hkt.name hz
  refine .ofStmt rfl trivial (formed_node trivial ?_)
  simp [Node.children, Stmt.children, MapShape.children, hk, hv, hn]

/-! ### Assets, traits and modules -/

theorem answers_assetDecorators {name : Tree}
    (hroot : root.Contains (.node .assetDecl p (dts ++ name :: more)))
    (h : Forall₂ root.Decorates dts ds) (s : Site) (some' : List Decorator)
    (hsome : ∀ d ∈ some', d ∈ ds) (parts : Site.AssetParts) :
    root.Answers ((some'.map Item.decorator).foldlM s.assetPart parts) fun parts' =>
      parts' = { parts with decorated := parts.decorated || !some'.isEmpty } := by
  induction some' generalizing parts with
  | nil => exact .ok (by simp)
  | cons d rest ih =>
    obtain ⟨hd, hsome⟩ := forall_mem_cons.1 hsome
    rw [map_cons, foldlM_cons, assetPart]
    by_cases hasset : d.name = Bytes.ofString "asset"
    · rw [if_pos hasset]
      exact (ih hsome { parts with decorated := true }).mono fun _ h => by simp [h]
    · rw [if_neg hasset]
      exact (answers_wrongDecorator (Q := fun _ => False) hroot (.inr (.inr rfl)) h hd
        fun hmem => hasset (mem_singleton.1 hmem)).bind fun _ h => h.elim

theorem answers_assetFields (s : Site)
    (h : Forall₂ root.Becomes kids items) (hk : ∀ f ∈ kids.map shape, f = .assetField)
    (parts : Site.AssetParts) : root.Answers (items.foldlM s.assetPart parts) fun parts' =>
      ∃ fields : List Parameter, parts' = { parts with fields := parts.fields ++ fields } ∧
        ∀ f ∈ fields, f.type.isSome = true ∧ (Node.parameter f).FormedBy root := by
  induction h generalizing parts with
  | nil => exact .ok ⟨[], by simp, forall_mem_nil _⟩
  | cons hit _ ih =>
    obtain ⟨hx, hk⟩ := forall_mem_cons.1 hk
    have hfits := hit.fits
    rw [hx] at hfits
    obtain ⟨f, hf, rfl⟩ := hfits
    refine (ih hk { parts with fields := parts.fields ++ [f] }).mono ?_
    rintro _ ⟨fields, rfl, hfields⟩
    refine ⟨f :: fields, by simp, forall_mem_cons.2 ⟨⟨hf, hit.formed _ (.head _)⟩, hfields⟩⟩

theorem agrees_assetDecl : assetDecl.Agrees := by
  rintro assets root p kids items hroot h ⟨dsh, gs, hk, hdsh, hgs⟩
  obtain ⟨dts, ms, dis, mis, rfl, rfl, hd, hm, rfl, hk₁⟩ := append h hk
  obtain _ | ⟨hx, hit, hrow⟩ := row hm hk₁
  obtain ⟨hxs, rfl⟩ := hrow.becomes
  obtain ⟨ds, rfl, hds⟩ := exists_decorators hd hdsh
  obtain ⟨n, hn, rfl, hname⟩ := hit.name hx
  change root.Answers ((ds.map Item.decorator ++ _).foldlM (assetPart ⟨.assetDecl, p⟩) {} >>= _) _
  rw [foldlM_append, bind_assoc]
  refine (answers_assetDecorators hroot hds _ ds (fun _ h => h) {}).bind ?_
  rintro _ rfl
  refine (answers_assetFields ⟨.assetDecl, p⟩ hxs hgs ⟨some n, [], !ds.isEmpty⟩).bind ?_
  rintro _ ⟨fields, rfl, hfields⟩
  dsimp only [nil_append]
  split
  next =>
    refine .ofStmt rfl trivial (Item.formed_node (fun f hf => (hfields f hf).1) ?_)
    exact forall_mem_cons.2 ⟨hname, forall_mem_map.2 fun f hf => (hfields f hf).2⟩
  next hplain =>
    have hnil : ds = [] := by simpa using hplain
    subst hnil
    cases hds
    refine .error hroot ?_
    rw [hn]
    exact .plainClass hx

theorem agrees_assetField : assetField.Agrees := by
  intro assets root p kids items hroot h hk
  obtain hk | hk := hk
  · obtain _ | ⟨hx, hit, ⟨⟩⟩ := row h hk
    obtain ⟨n, hn, rfl, -⟩ := hit.name hx
    refine .error hroot ?_
    rw [hn]
    exact .noType hx
  · obtain _ | ⟨hx, hit, _ | ⟨hy, hjt, -⟩⟩ := row h hk
    obtain ⟨n, -, rfl, hn⟩ := hit.name hx
    obtain ⟨t, rfl, ht⟩ := hjt.type hy
    exact .ok ⟨⟨⟨n, some t⟩, rfl, rfl⟩,
      formed_node trivial (by simp [Node.children, Ty.optionalNode, hn, ht])⟩

theorem agrees_traitDecl : traitDecl.Agrees := by
  rintro assets root p kids items - h ⟨gs, hk, hgs⟩
  obtain _ | @⟨_, _, _, _, _, its, hx, hit, hrow⟩ := row h hk
  obtain ⟨hxs, rfl⟩ := hrow.becomes
  obtain ⟨n, -, rfl, hn⟩ := hit.name hx
  have hfunctions : root.Answers (its.mapM (function ⟨.traitDecl, p⟩)) fun fs =>
      ∀ f ∈ fs, f.IsSignature ∧ (Node.stmt (.fnDecl f)).FormedBy root := by
    refine answers_mapM hxs fun y hy jt hjt => ?_
    have hfits := hjt.fits
    rw [hgs _ (mem_map_of_mem hy)] at hfits
    obtain ⟨f, hf, rfl⟩ := hfits
    exact .ok ⟨hf, hjt.formed _ (.head _)⟩
  refine hfunctions.bind fun fs hfs => ?_
  refine .ofStmt rfl trivial (formed_node (fun f hf => (hfs f hf).1) ?_)
  exact forall_mem_cons.2 ⟨hn, forall_mem_map.2 fun f hf => (hfs f hf).2⟩

theorem agrees_importDecl : importDecl.Agrees := by
  rintro assets root p kids items - h ⟨ns, hk, hne, hns⟩
  obtain ⟨xs, ms, its, mis, rfl, rfl, hxs, hm, rfl, hk₁⟩ := append h hk
  obtain _ | ⟨hy, hjt, ⟨⟩⟩ := row hm hk₁
  have hfits := hjt.fits
  rw [hy] at hfits
  obtain ⟨first, q, rfl⟩ := hfits
  have hnames : root.Answers (its.mapM (ident ⟨.importDecl, p⟩)) fun names =>
      ∀ n ∈ names, n.node.FormedBy root := by
    refine answers_mapM hxs fun x hx it hit => ?_
    obtain ⟨n, -, rfl, hn⟩ := hit.name (hns _ (mem_map_of_mem hx))
    exact .ok hn
  -- there is a name before the module
  obtain ⟨x, xs, rfl⟩ := exists_cons_of_ne_nil fun h => hne (congrArg (map shape) h)
  cases hxs with
  | @cons _ it _ its =>
    change root.Answers (Site.importDecl ⟨.importDecl, p⟩ _) _
    rw [Site.importDecl, getLast?_concat, dropLast_concat, length_append]
    refine hnames.bind fun names hnames => ?_
    exact .ofStmt rfl trivial (formed_node trivial (forall_mem_map.2 hnames))

theorem agrees_exportDecl : exportDecl.Agrees := by
  intro assets root p kids items hroot h hk
  obtain _ | ⟨hx, hit, -⟩ := row h hk
  obtain ⟨t, ht, rfl, hformed⟩ := hit.statement hx
  exact .ofStmt rfl trivial (formed_node ht (forall_mem_singleton.2 hformed))

/-! ### Statements -/

theorem answers_stmts (s : Site)
    (h : Forall₂ root.Becomes kids items) (hk : ∀ f ∈ kids.map shape, f = .statement) :
    root.Answers (items.mapM s.stmt) fun ss =>
      ∀ t ∈ ss, t.IsComplete ∧ (Node.stmt t).FormedBy root := by
  refine answers_mapM h fun x hx it hit => ?_
  obtain ⟨t, ht, rfl, hformed⟩ := hit.statement (hk _ (mem_map_of_mem hx))
  exact .ok ⟨ht, hformed⟩

theorem agrees_block : block.Agrees := by
  intro assets root p kids items _ h hk
  refine (answers_stmts _ h hk).bind fun ss hss => .ok ⟨⟨_, rfl⟩, ?_⟩
  exact formed_node (fun t ht => (hss t ht).1) (forall_mem_map.2 fun t ht => (hss t ht).2)

theorem answers_program (s : Site)
    (h : Forall₂ root.Becomes kids items) (hk : ∀ f ∈ kids.map shape, f = .statement) :
    root.Answers (s.program items) fun program =>
      (Node.program program.statements).FormedBy root := by
  refine (answers_stmts s h hk).bind fun ss hss => .ok (Node.all_iff.2 ?_)
  exact ⟨fun t ht => (hss t ht).1, forall_mem_map.2 fun t ht => (hss t ht).2⟩

theorem agrees_program : program.Agrees := by
  intro assets root p kids items _ h hk
  refine (answers_program _ h hk).bind fun program hprogram => .ok ⟨trivial, ?_⟩
  exact forall_mem_singleton.2 hprogram

theorem agrees_exprStmt : exprStmt.Agrees := by
  rintro assets root p kids items - h ⟨f, hf, hk⟩
  obtain _ | ⟨rfl, hit, -⟩ := row h hk
  refine (hit.answers_expr hf _).bind fun e he => ?_
  exact .ofStmt rfl trivial (formed_node trivial (forall_mem_singleton.2 he))

theorem agrees_throwStmt : throwStmt.Agrees := by
  rintro assets root p kids items - h ⟨f, hf, hk⟩
  obtain _ | ⟨rfl, hit, -⟩ := row h hk
  refine (hit.answers_expr hf _).bind fun e he => ?_
  exact .ofStmt rfl trivial (formed_node trivial (forall_mem_singleton.2 he))

theorem agrees_returnStmt : returnStmt.Agrees := by
  intro assets root p kids items hroot h hk
  obtain hk | ⟨f, hf, hk⟩ := hk
  · obtain ⟨⟩ := row h hk
    exact .ofStmt rfl trivial (formed_node trivial nofun)
  · obtain _ | ⟨rfl, hit, -⟩ := row h hk
    refine (hit.answers_expr hf _).bind fun e he => ?_
    exact .ofStmt rfl trivial (formed_node trivial (forall_mem_singleton.2 he))

theorem answers_branches (s : Site) (hfs : Shape.Branches fs) (h : Forall₂ root.Becomes kids items)
    (hk : kids.map shape = fs) :
    root.Answers (s.branches items) fun rest => ∀ n ∈ rest.children, n.FormedBy root := by
  induction hfs generalizing kids items with
  | nil =>
    obtain ⟨⟩ := row h hk
    exact .ok nofun
  | otherwise =>
    obtain _ | ⟨hx, hit, ⟨⟩⟩ := row h hk
    obtain ⟨b, rfl, hb⟩ := hit.block hx
    exact .ok (forall_mem_singleton.2 hb)
  | elseIf hf _ ih =>
    obtain _ | ⟨rfl, hit, _ | ⟨hy, hjt, hrow⟩⟩ := row h hk
    obtain ⟨hys, hk₂⟩ := hrow.becomes
    obtain ⟨b, rfl, hb⟩ := hjt.block hy
    refine (hit.answers_expr hf s).bind fun c hc => (ih hys hk₂).bind fun rest hrest => ?_
    exact .ok (forall_mem_cons.2 ⟨hc, forall_mem_cons.2 ⟨hb, hrest⟩⟩)

theorem agrees_ifStmt : ifStmt.Agrees := by
  rintro assets root p kids items - h ⟨f, gs, hf, hgs, hk⟩
  obtain _ | ⟨rfl, hit, _ | ⟨hy, hjt, hrow⟩⟩ := row h hk
  obtain ⟨hys, hk₂⟩ := hrow.becomes
  obtain ⟨b, rfl, hb⟩ := hjt.block hy
  refine (hit.answers_expr hf _).bind fun c hc =>
    (answers_branches _ hgs hys hk₂).bind fun rest hrest => ?_
  refine .ofStmt rfl trivial (formed_node trivial ?_)
  exact forall_mem_cons.2 ⟨hc, forall_mem_cons.2 ⟨hb, hrest⟩⟩

theorem agrees_tryStmt : tryStmt.Agrees := by
  intro assets root p kids items hroot h hk
  obtain _ | ⟨hx, hit, _ | ⟨hy, hjt, _ | ⟨hz, hkt, -⟩⟩⟩ := row h hk
  obtain ⟨b, rfl, hb⟩ := hit.block hx
  obtain ⟨n, -, rfl, hn⟩ := hjt.name hy
  obtain ⟨b', rfl, hb'⟩ := hkt.block hz
  refine .ofStmt rfl trivial (formed_node trivial ?_)
  simp [Node.children, Stmt.children, hb, hn, hb']

end Rule

end Covenant
