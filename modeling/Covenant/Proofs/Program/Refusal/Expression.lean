import Covenant.Proofs.Program.Refusal.Item

/-!
# Types and expressions that are built or refused

One statement for each rule of types and expressions.
-/

namespace Covenant.Rule

open List Tree.Becomes Tree Rule Node

/-! ### Types -/

theorem agrees_namedType : namedType.Agrees := by
  intro assets root p kids items _ h hk
  obtain _ | ⟨hx, hit, -⟩ := row h hk
  obtain ⟨n, -, rfl, hn⟩ := hit.name hx
  exact .ofType rfl (Item.formed_node trivial (forall_mem_singleton.2 hn))

theorem agrees_listType : listType.Agrees := by
  intro assets root p kids items _ h hk
  obtain _ | ⟨hx, hit, -⟩ := row h hk
  obtain ⟨t, rfl, ht⟩ := hit.type hx
  exact .ofType rfl (Item.formed_node trivial (forall_mem_singleton.2 ht))

theorem agrees_optionalType : optionalType.Agrees := by
  intro assets root p kids items _ h hk
  obtain _ | ⟨hx, hit, -⟩ := row h hk
  obtain ⟨t, rfl, ht⟩ := hit.type hx
  exact .ofType rfl (Item.formed_node trivial (forall_mem_singleton.2 ht))

theorem agrees_responseType : responseType.Agrees := by
  intro assets root p kids items _ h hk
  obtain _ | ⟨hx, hit, _ | ⟨hy, hjt, -⟩⟩ := row h hk
  obtain ⟨t, rfl, ht⟩ := hit.type hx
  obtain ⟨u, rfl, hu⟩ := hjt.type hy
  exact .ofType rfl (Item.formed_node trivial (by simp [children, Ty.children, ht, hu]))

theorem agrees_tupleTypeItem : tupleTypeItem.Agrees := by
  intro assets root p kids items _ h hk
  obtain _ | ⟨hx, hit, _ | ⟨hy, hjt, -⟩⟩ := row h hk
  obtain ⟨n, hn, rfl, -⟩ := hit.name hx
  obtain ⟨t, rfl, ht⟩ := hjt.type hy
  refine .ok ⟨⟨t, ?_⟩, forall_mem_singleton.2 ht⟩
  rw [firstWord_node (.inl hx), hn]

/-! ### Keys -/

variable {all before : List Tree} {root : Tree}

theorem two_le_count (h : all = before ++ x :: more)
    (hx : x.firstWord ∈ before.map firstWord) : 2 ≤ (all.map firstWord).count x.firstWord := by
  have hbefore := one_le_count_iff.2 hx
  rw [h, map_append, map_cons, count_append, count_cons_self]
  omega

theorem forall_mem_seen {x : Tree} (h : ∀ key ∈ seen, key ∈ before.map firstWord) :
    ∀ key ∈ x.firstWord :: seen, key ∈ (before ++ [x]).map firstWord := by
  simp only [forall_mem_cons, map_append, mem_append]
  exact ⟨.inr (mem_map_of_mem (.head _)), fun key hkey => .inl (h key hkey)⟩

theorem answers_keyed {α : Type} {rule : Rule} {what : String} {part? : Item → Option (Bytes × α)}
    {F : Shape} {A : α → Prop}
    (hrule : rule = .tupleLit ∧ what = "tuple literal" ∨ rule = .tupleType ∧ what = "tuple type")
    (hpart : ∀ word it, F.Fits word it → it.Formed root → ∃ a, part? it = some (word, a) ∧ A a)
    (hroot : root.Contains (.node rule p all)) (seen : List Bytes)
    (h : Forall₂ root.Becomes kids items) (hk : ∀ f ∈ kids.map shape, f = F)
    (hall : all = before ++ kids) (hseen : ∀ key ∈ seen, key ∈ before.map firstWord) :
    root.Answers (Site.keyed ⟨rule, p⟩ what part? seen items) fun fields =>
      fields.map Prod.fst = kids.map firstWord ∧ ∀ f ∈ fields, A f.2 := by
  induction h generalizing seen before with
  | nil => exact .ok ⟨rfl, forall_mem_nil _⟩
  | @cons x it kids items hit _ ih =>
    obtain ⟨hx, hk⟩ := forall_mem_cons.1 hk
    obtain ⟨a, hpart, ha⟩ := hpart _ it (hx ▸ hit.fits) hit.formed
    rw [Site.keyed, hpart]
    dsimp only
    split
    next hmem =>
      refine .error hroot (.duplicate hrule (two_le_count hall (hseen _ ?_)))
      simpa using hmem
    next hmem =>
      refine (ih _ hk (by rw [hall, append_assoc]; rfl) (forall_mem_seen hseen)).bind ?_
      intro fields hfields
      refine .ok ⟨?_, forall_mem_cons.2 ⟨ha, hfields.2⟩⟩
      rw [map_cons, map_cons, hfields.1]

theorem agrees_tupleType : tupleType.Agrees := by
  intro assets root p kids items hroot h hk
  refine (answers_keyed (.inr ⟨rfl, rfl⟩) (A := fun t => (type t).FormedBy root)
    ?_ hroot [] h hk (nil_append _).symm nofun).bind ?_
  · rintro word it ⟨t, rfl⟩ hformed
    exact ⟨t, rfl, hformed _ (.head _)⟩
  intro fields hfields
  exact .ofType rfl (Item.formed_node ⟨kids, hroot, hfields.1⟩ (forall_mem_map.2 hfields.2))

/-! ### Operators -/

theorem agrees_assignment : assignment.Agrees := by
  rintro assets root p kids items - h ⟨f, g, hf, hg, hk⟩
  obtain _ | ⟨rfl, hit, _ | ⟨rfl, hjt, -⟩⟩ := row h hk
  refine (hit.answers_expr hf _).bind fun l hl => (hjt.answers_expr hg _).bind fun r hr => ?_
  exact .ofExpr rfl (Item.formed_node trivial (by simp [children, Expr.children, hl, hr]))

theorem agrees_conditional : conditional.Agrees := by
  rintro assets root p kids items - h ⟨f, g, e, hf, hg, he, hk⟩
  obtain _ | ⟨rfl, hit, _ | ⟨rfl, hjt, _ | ⟨rfl, hkt, -⟩⟩⟩ := row h hk
  refine (hit.answers_expr hf _).bind fun c hc => (hjt.answers_expr hg _).bind fun t ht =>
    (hkt.answers_expr he _).bind fun e he => ?_
  exact .ofExpr rfl (Item.formed_node trivial (by simp [children, Expr.children, hc, ht, he]))

theorem length_operations (h : Shape.Repeats Shape.Operation fs) : fs.length % 2 = 0 := by
  induction h with
  | nil => rfl
  | append h _ ih =>
    obtain ⟨f, -, rfl⟩ := h
    rw [length_append, length_cons, length_singleton]
    omega

theorem answers_operations
    (s : Site) (hfs : Shape.Repeats Shape.Operation fs) (h : Forall₂ root.Becomes kids items)
    (hk : kids.map shape = fs) (left : Expr) (hleft : (expr left).FormedBy root) :
    root.Answers (s.operations left items) fun e => (expr e).FormedBy root := by
  induction hfs generalizing kids items left with
  | nil =>
    obtain ⟨⟩ := row h hk
    exact .ok hleft
  | append hop _ ih =>
    obtain ⟨f, hf, rfl⟩ := hop
    obtain _ | ⟨hx, hit, _ | ⟨rfl, hjt, hrow⟩⟩ := row h hk
    obtain ⟨hmore, hk⟩ := hrow.becomes
    have hfits := hit.fits
    rw [hx] at hfits
    obtain ⟨op, rfl⟩ := hfits
    refine (hjt.answers_expr hf s).bind fun right hright => ih hmore hk _ ?_
    exact all_iff.2 ⟨trivial, by simp [children, Expr.children, hleft, hright]⟩

theorem agrees_binary (level : Level) : (binary level).Agrees := by
  rintro assets root p kids items - h ⟨f, gs, hf, hgs, hk⟩
  obtain _ | @⟨_, _, _, _, _, its, rfl, hit, hrow⟩ := row h hk
  obtain ⟨h, hk⟩ := hrow.becomes
  refine (hit.answers_expr hf _).bind fun left hleft => ?_
  -- operators and operands come in pairs, so nothing is left over
  have hlength : its.length % 2 = 0 := by
    rw [← h.length_eq, ← length_map (f := shape), hk]
    exact length_operations hgs
  rw [if_neg (by omega)]
  refine (answers_operations _ hgs h hk left hleft).bind fun e he => ?_
  exact .ofExpr rfl (forall_mem_singleton.2 he)

theorem agrees_unary : unary.Agrees := by
  rintro assets root p kids items - h ⟨f, hf, hk⟩
  obtain _ | ⟨hx, hit, _ | ⟨rfl, hjt, -⟩⟩ := row h hk
  have hfits := hit.fits
  rw [hx] at hfits
  obtain ⟨op, rfl⟩ := hfits
  refine (hjt.answers_expr hf _).bind fun e he => ?_
  split
  · exact .ofExpr rfl (Item.formed_node trivial nofun)
  · exact .ofExpr rfl (Item.formed_node trivial nofun)
  · exact .ofExpr rfl (Item.formed_node trivial (forall_mem_singleton.2 he))

/-! ### Suffixes -/

theorem all_callOf {args : List Expr} (he : (expr e).FormedBy root)
    (hargs : ∀ a ∈ args, (expr a).FormedBy root) :
    (expr (callOf assets e p args)).FormedBy root := by
  have hcall : (expr (.call p e args)).FormedBy root :=
    all_iff.2 ⟨trivial, forall_mem_cons.2 ⟨he, forall_mem_map.2 hargs⟩⟩
  unfold callOf
  split
  next q object property =>
    have hobject := he.below _ (.head _)
    have hnamed := forall_mem_cons.2 ⟨hobject, forall_mem_map.2 hargs⟩
    split
    · exact all_iff.2 ⟨trivial, hnamed⟩
    · split
      · exact all_iff.2 ⟨trivial, hnamed⟩
      · exact hcall
  next name =>
    unfold builtinCall?
    split
    case h_4 => exact hcall
    all_goals
      split_ifs <;> first
      | exact hcall
      | exact all_iff.2 ⟨trivial, by simpa [children, Expr.children] using hargs⟩
  next => exact hcall

theorem answers_suffixes (s : Site) (h : Forall₂ root.Becomes kids items)
    (hk : ∀ f ∈ kids.map shape, f = .suffix) (e : Expr)
    (he : (expr e).FormedBy root) :
    root.Answers (items.foldlM (s.suffix assets) e) fun e =>
      (expr e).FormedBy root := by
  induction h generalizing e with
  | nil => exact .ok he
  | cons hit _ ih =>
    obtain ⟨hx, hk⟩ := forall_mem_cons.1 hk
    have hfits := hit.fits
    have hformed := hit.formed
    rw [hx] at hfits
    obtain ⟨q, args, rfl⟩ | ⟨q, n, rfl⟩ | ⟨q, t, rfl⟩ | ⟨q, t, rfl⟩ := hfits
    · exact ih hk _ (all_callOf he (forall_mem_map.1 hformed))
    all_goals
      simp only [Item.Formed, Item.nodes, forall_mem_singleton] at hformed
      refine ih hk _ (all_iff.2 ⟨trivial, ?_⟩)
      simp [children, Expr.children, he, hformed]

theorem agrees_suffixed : suffixed.Agrees := by
  rintro assets root p kids items - h ⟨f, gs, hf, hk, hgs⟩
  obtain _ | ⟨rfl, hit, hrow⟩ := row h hk
  obtain ⟨h, rfl⟩ := hrow.becomes
  refine (hit.answers_expr hf _).bind fun e he => ?_
  refine (answers_suffixes _ h hgs e he).bind fun e he => ?_
  exact .ofExpr rfl (forall_mem_singleton.2 he)

theorem agrees_call : call.Agrees := by
  intro assets root p kids items _ h hk
  refine (answers_exprs h hk _).bind fun es hes => ?_
  exact .ok ⟨.inl ⟨p, es, rfl⟩, forall_mem_map.2 hes⟩

theorem agrees_member : member.Agrees := by
  intro assets root p kids items _ h hk
  obtain _ | ⟨hx, hit, -⟩ := row h hk
  obtain ⟨n, -, rfl, hn⟩ := hit.name hx
  exact .ok ⟨.inr (.inl ⟨p, n, rfl⟩), forall_mem_singleton.2 hn⟩

theorem agrees_isSuffix : isSuffix.Agrees := by
  intro assets root p kids items _ h hk
  obtain _ | ⟨hx, hit, -⟩ := row h hk
  obtain ⟨t, rfl, ht⟩ := hit.type hx
  exact .ok ⟨.inr (.inr (.inl ⟨p, t, rfl⟩)), forall_mem_singleton.2 ht⟩

theorem agrees_asSuffix : asSuffix.Agrees := by
  intro assets root p kids items _ h hk
  obtain _ | ⟨hx, hit, -⟩ := row h hk
  obtain ⟨t, rfl, ht⟩ := hit.type hx
  exact .ok ⟨.inr (.inr (.inr ⟨p, t, rfl⟩)), forall_mem_singleton.2 ht⟩

/-! ### Literals and function values -/

theorem agrees_literal : literal.Agrees := by
  intro assets root p kids items _ h hk
  have hkid : ∃ f, (f = Shape.literal ∨ f = .text) ∧ kids.map shape = [f] := by
    obtain hk | hk := hk
    · exact ⟨_, .inl rfl, hk⟩
    · exact ⟨_, .inr rfl, hk⟩
  obtain ⟨f, hf, hk⟩ := hkid
  obtain _ | @⟨_, _, _, _, it, _, rfl, hit, -⟩ := row h hk
  have hexpr : ∃ e, it = .ofExpr e := by
    have hfits := hit.fits
    obtain hx | hx := hf
    · rwa [hx] at hfits
    · rw [hx] at hfits
      obtain ⟨first, q, rfl⟩ := hfits
      exact ⟨_, rfl⟩
  obtain ⟨e, rfl⟩ := hexpr
  exact .ofExpr rfl hit.formed

theorem agrees_listLit : listLit.Agrees := by
  intro assets root p kids items _ h hk
  refine (answers_exprs h hk _).bind fun es hes => ?_
  exact .ofExpr rfl (Item.formed_node trivial (forall_mem_map.2 hes))

theorem agrees_arguments : arguments.Agrees := by
  intro assets root p kids items _ h hk
  refine (answers_exprs h hk _).bind fun es hes => ?_
  exact .ok ⟨⟨es, rfl⟩, forall_mem_map.2 hes⟩

theorem agrees_tupleItem : tupleItem.Agrees := by
  rintro assets root p kids items - h ⟨k, f, hkey, hf, hk⟩
  obtain _ | @⟨_, _, x, _, it, _, rfl, hit, _ | ⟨rfl, hjt, -⟩⟩ := row h hk
  have hname : Site.keyOf ⟨.tupleItem, p⟩ it = .ok x.firstWord := by
    have hfits := hit.fits
    obtain hx | hx := hkey
    · rw [hx] at hfits
      obtain ⟨n, hn, rfl⟩ := hfits
      rw [← hn]
      rfl
    · rw [hx] at hfits
      obtain ⟨first, q, rfl⟩ := hfits
      rfl
  change root.Answers (Site.keyOf ⟨.tupleItem, p⟩ it >>= _) _
  rw [hname]
  refine (hjt.answers_expr hf _).bind fun e he => ?_
  refine .ok ⟨⟨e, ?_⟩, forall_mem_singleton.2 he⟩
  rw [firstWord_node (hkey.imp_right .inl)]

theorem agrees_tupleLit : tupleLit.Agrees := by
  intro assets root p kids items hroot h hk
  refine (answers_keyed (.inl ⟨rfl, rfl⟩) (A := fun e => (expr e).FormedBy root)
    ?_ hroot [] h hk (nil_append _).symm nofun).bind ?_
  · rintro word it ⟨e, rfl⟩ hformed
    exact ⟨e, rfl, hformed _ (.head _)⟩
  intro fields hfields
  exact .ofExpr rfl (Item.formed_node ⟨kids, hroot, hfields.1⟩ (forall_mem_map.2 hfields.2))

theorem agrees_comprehension : comprehension.Agrees := by
  rintro assets root p kids items - h ⟨f, g, cs, hf, hg, hcs, hk⟩
  obtain _ | ⟨rfl, hit, _ | ⟨hy, hjt, _ | ⟨rfl, hkt, hrow⟩⟩⟩ := row h hk
  obtain ⟨hmore, hk⟩ := hrow.becomes
  obtain ⟨n, -, rfl, hn⟩ := hjt.name hy
  refine (hit.answers_expr hf _).bind fun e he => (hkt.answers_expr hg _).bind fun l hl => ?_
  obtain rfl | ⟨c, hc, rfl⟩ := hcs
  · obtain ⟨⟩ := row hmore hk
    exact .ofExpr rfl (Item.formed_node trivial (by simp [children, Expr.children, he, hn, hl]))
  · obtain _ | ⟨rfl, hmt, -⟩ := row hmore hk
    refine (hmt.answers_expr hc _).bind fun c hc => ?_
    exact .ofExpr rfl
      (Item.formed_node trivial (by simp [children, Expr.children, he, hn, hl, hc]))

theorem agrees_lambda : lambda.Agrees := by
  rintro assets root p kids items - h ⟨typed, f, hf, hk⟩
  obtain _ | ⟨hx, hit, _ | ⟨rfl, hjt, -⟩⟩ := row h hk
  obtain ⟨ps, -, rfl, hps⟩ := hit.params hx
  have hformed : ∀ body : Body, body.node.FormedBy root →
      (Item.ofExpr (.lambda p ps body)).Formed root := by
    intro body hbody
    refine Item.formed_node trivial (forall_mem_append.2 ⟨forall_mem_map.2 hps, ?_⟩)
    exact forall_mem_singleton.2 hbody
  obtain hy | hy := hf
  · obtain ⟨b, rfl, hb⟩ := hjt.block hy
    exact .ofExpr rfl (hformed (.block b) hb)
  · have hvalue := hjt.answers_expr hy ⟨.lambda, p⟩
    obtain ⟨e, rfl⟩ | ⟨q, n, ts, rfl, -⟩ := hjt.exists_of_isValue hy
    · exact .ofExpr rfl (hformed (.expr e) hvalue)
    · exact hvalue

theorem answers_creationTypes (s : Site) (h : Forall₂ root.Becomes kids items)
    (hk : ∀ f ∈ kids.map shape, f = .type ∨ f = .arguments) :
    root.Answers (s.creationTypes items) fun ts => ∀ t ∈ ts, (type t).FormedBy root := by
  induction h with
  | nil => exact .ok (forall_mem_nil _)
  | cons hit _ ih =>
    obtain ⟨hx, hk⟩ := forall_mem_cons.1 hk
    obtain hx | hx := hx
    · obtain ⟨t, rfl, ht⟩ := hit.type hx
      exact (ih hk).bind fun ts hts => .ok (forall_mem_cons.2 ⟨ht, hts⟩)
    · have hfits := hit.fits
      rw [hx] at hfits
      obtain ⟨es, rfl⟩ := hfits
      exact ih hk

theorem agrees_newExpr : newExpr.Agrees := by
  rintro assets root p kids items - h ⟨ts, hk, hts⟩
  obtain _ | @⟨_, _, _, xs, _, _, hx, hit, hrow⟩ := row h hk
  obtain ⟨hmore, hk⟩ := hrow.becomes
  obtain ⟨n, hn, rfl, hformed⟩ := hit.name hx
  have hshapes : ∀ f ∈ xs.map shape, f = .type ∨ f = .arguments := by
    rw [hk, forall_mem_append, forall_mem_singleton]
    exact ⟨fun t ht => .inl (hts t ht), .inr rfl⟩
  refine (answers_creationTypes _ hmore hshapes).bind fun ts hts => ?_
  refine .ok ⟨⟨p, n, ts, ?_, rfl⟩, forall_mem_cons.2 ⟨hformed, forall_mem_map.2 hts⟩⟩
  rw [firstWord_node (.inl hx), hn]

end Covenant.Rule
