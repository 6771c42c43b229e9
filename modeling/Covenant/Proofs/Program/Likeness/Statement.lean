import Covenant.Proofs.Program.Likeness.Item

/-!
# Likeness of statements and declarations

Like items become like statements.  The parts of a function are found by their shape, so the
searches for the first part of a shape find like parts in like lists.
-/

namespace Covenant

open List Node

variable {α β : Type}

/-! ### Searching like lists -/

theorem rel_findSome? {γ δ : Type} {B : γ → δ → Prop} {f : α → Option γ}
    {g : β → Option δ} (hfg : ∀ a b, A a b → Option.Rel B (f a) (g b))
    (h : Forall₂ A as bs) : Option.Rel B (as.findSome? f) (bs.findSome? g) := by
  induction h with
  | nil => exact .none
  | @cons a b _ _ hab _ ih =>
    rw [findSome?_cons, findSome?_cons]
    have hrel := hfg a b hab
    generalize f a = x, g b = y at hrel
    cases hrel with
    | none => exact ih
    | some hxy => exact .some hxy

theorem Decorator.Like.rel_find? (p : Bytes → Bool)
    (h : Forall₂ (Like keep assets) ds ds') :
    Option.Rel (Like keep assets) (ds.find? fun d => p d.name)
      (ds'.find? fun d => p d.name) := by
  induction h with
  | nil => exact .none
  | @cons d d' _ _ hd _ ih =>
    rw [find?_cons, find?_cons, ← hd.name]
    cases p d.name with
    | true => exact .some hd
    | false => exact ih

theorem getD_of_rel (h : Option.Rel A a b) (hxy : A x y) : A (a.getD x) (b.getD y) := by
  cases h with
  | none => exact hxy
  | some h => exact h

theorem rel_getLast? (h : Forall₂ A as bs) : Option.Rel A as.getLast? bs.getLast? := by
  rw [← head?_reverse, ← head?_reverse]
  have hreverse := forall₂_reverse_iff.2 h
  generalize as.reverse = l, bs.reverse = m at hreverse
  cases hreverse with
  | nil => exact .none
  | cons hab _ => exact .some hab

namespace Site

variable {s s' : Site}

section

variable (h : Forall₂ (Item.Like keep assets) is js)

include h

theorem rel_firstIdent? :
    Option.Rel (Via keep assets Ident.node) (firstIdent? is) (firstIdent? js) := by
  refine rel_findSome? (fun i j hij => ?_) h
  cases hij with
  | expr he =>
    obtain ⟨n, n', rfl, rfl, hn⟩ | ⟨he, he'⟩ := he.ident_cases
    · exact .some hn
    · split
      · next hi => cases hi; exact absurd rfl (he _)
      · split
        · next hj => cases hj; exact absurd rfl (he' _)
        · exact .none
  | _ => exact .none

theorem rel_firstType? : Option.Rel (Via keep assets .type) (firstType? is) (firstType? js) := by
  refine rel_findSome? (fun i j hij => ?_) h
  cases hij with
  | type ht => exact .some ht
  | _ => exact .none

theorem rel_firstBlock? :
    Option.Rel (Via keep assets .block) (firstBlock? is) (firstBlock? js) := by
  refine rel_findSome? (fun i j hij => ?_) h
  cases hij with
  | block hb => exact .some hb
  | _ => exact .none

theorem rel_firstParams? :
    Option.Rel (Forall₂ (Via keep assets .parameter)) (firstParams? is) (firstParams? js) := by
  refine rel_findSome? (fun i j hij => ?_) h
  cases hij with
  | params hps => exact .some hps
  | _ => exact .none

theorem like_decorators : Forall₂ (Decorator.Like keep assets) (decorators is) (decorators js) := by
  refine rel_filterMap (fun i j hij => ?_) h
  cases hij with
  | decorator hd => exact .some hd
  | _ => exact .none

end

/-! ### Functions -/

theorem like_decorator : Likens keep assets s.decorator s'.decorator := by
  refine .one (fun _ => rfl) fun ht _ _ h => ?_
  cases ht with
  | @token t u ht =>
    simp only [decorator]
    rw [← ht.kind, ← ht.literal (.inl rfl)]
    split
    · split
      · cases h with
        | nil => exact Item.Like.decorator ⟨rfl, .none⟩
        | cons hij _ =>
          cases hij with
          | expr h | type h | parameter h | block h | stmt h | program h =>
            exact Item.Like.decorator ⟨rfl, .some h⟩
          | _ => exact fun _ => rfl
      · exact fun _ => rfl
    · exact fun _ => rfl
  | _ => exact fun _ => rfl

theorem like_parameters : Likens keep assets s.parameters s'.parameters :=
  fun _ _ h => (Alike.mapM (f := s.parameter) (g := s'.parameter)
  (fun _ _ => like_parameter) h).bind
    fun _ _ hps => .params hps

theorem like_parameterOf (hn : Via keep assets Ident.node n n')
    (ht : Option.Rel (Via keep assets .type) t t') :
    Via keep assets .parameter ⟨n, t⟩ ⟨n', t'⟩ := by
  have htveil := map_eq_map_of_rel ht fun _ _ h => h.type_veil
  refine .of ?_ trivial (forall_mem_cons.2 ⟨hn.sound, Node.Like.toList_sound ht⟩)
  simp only [veil, Parameter.veil, hn.ident_veil, htveil]

theorem like_parameterItem : Likens keep assets s.parameterItem s'.parameterItem := by
  refine .one (fun _ => rfl) fun hn _ _ h => ?_
  cases h with
  | nil => exact (like_ident hn).bind fun _ _ hn => .parameter (like_parameterOf hn .none)
  | cons ht _ =>
    exact (like_ident hn).bind fun _ _ hn => (like_type ht).bind fun _ _ ht =>
      .parameter (like_parameterOf hn (.some ht))

theorem like_fn (hds : Forall₂ (Decorator.Like keep assets) ds ds')
    (hn : Via keep assets Ident.node n n') (hps : Forall₂ (Via keep assets .parameter) ps ps')
    (hr : Option.Rel (Via keep assets .type) r r') {b b' : Option Block}
    (hb : Option.Rel (Via keep assets .block) b b') :
    Via keep assets Fn.node (.mk p ds n ps r b) (.mk p' ds' n' ps' r' b') := by
  have hdsveil := map_eq_map_of_forall₂ hds fun _ _ h => h.veil_eq
  have hpsveil := map_eq_map_of_forall₂ hps fun _ _ h => h.parameter_veil
  have hrveil := map_eq_map_of_rel hr fun _ _ h => h.type_veil
  have hbveil := map_eq_map_of_rel hb fun _ _ h => h.block_veil
  refine .of ?_ trivial ?_
  · simp only [Fn.node, veil, Stmt.veil, Fn.veil_mk, hn.ident_veil, hdsveil, hpsveil, hrveil,
      hbveil]
  · change ∀ c ∈ Fn.children (.mk p ds n ps r b), c.All (Node.Sound assets)
    simp only [Fn.children, Fn.decorators, Fn.name, Fn.params, Fn.result, Fn.body,
      forall_mem_append, forall_mem_cons]
    exact ⟨⟨⟨Decorator.Like.children_sound hds, hn.sound, Node.Like.forall_sound hps⟩,
      Node.Like.toList_sound hr⟩, Node.Like.toList_sound hb⟩

theorem like_functionDecl : Likens keep assets s.functionDecl s'.functionDecl := by
  intro is js h
  have hname := rel_firstIdent? h
  have hbody := rel_firstBlock? h
  have hds := like_decorators h
  have hparams := rel_firstParams? h
  have hresult := rel_firstType? h
  unfold functionDecl
  generalize firstIdent? is = name, firstIdent? js = name' at hname ⊢
  generalize firstBlock? is = body, firstBlock? js = body' at hbody ⊢
  generalize decorators is = ds, decorators js = ds' at hds ⊢
  cases hname with
  | none => exact fun _ => rfl
  | some hn =>
  cases hbody with
  | none => exact fun _ => rfl
  | some hb =>
    have hmisfit := Decorator.Like.rel_find?
      (fun name => name == Bytes.ofString "map" || name == Bytes.ofString "asset") hds
    dsimp only
    generalize ds.find? _ = d, ds'.find? _ = d' at hmisfit ⊢
    cases hmisfit with
    | some => exact fun _ => rfl
    | none => exact Item.Like.stmt (like_fn hds hn (getD_of_rel hparams .nil) hresult (.some hb))

theorem like_signature : Likens keep assets s.signature s'.signature :=
  .three (fun _ => rfl) (fun _ _ _ => rfl) (fun _ _ _ _ _ => rfl)
    fun hn _ _ hps _ _ hr _ _ _ => (like_ident hn).bind fun _ _ hn =>
    (like_params hps).bind fun _ _ hps => (like_type hr).bind fun _ _ hr =>
      .stmt (like_fn .nil hn hps (.some hr) .none)

/-! ### Bindings -/

theorem like_splitDecorators (h : Forall₂ (Item.Like keep assets) is js) :
    Forall₂ (Decorator.Like keep assets) (splitDecorators is).1 (splitDecorators js).1 ∧
      Forall₂ (Item.Like keep assets) (splitDecorators is).2 (splitDecorators js).2 := by
  induction h with
  | nil => exact ⟨.nil, .nil⟩
  | cons hij h ih =>
    cases hij with
    | decorator hd => exact ⟨.cons hd ih.1, ih.2⟩
    | _ => exact ⟨.nil, .cons (by constructor <;> assumption) h⟩

def TypeAndValue (keep : Bool) (assets : List Bytes) (x y : Option Ty × Option Item) : Prop :=
  Option.Rel (Via keep assets .type) x.1 y.1 ∧ Option.Rel (Item.Like keep assets) x.2 y.2

theorem like_typeAndValue (h : Forall₂ (Item.Like keep assets) is js)
    (ht : Option.Rel (Via keep assets .type) t t') (hv : Option.Rel (Item.Like keep assets) v v') :
    Alike keep (TypeAndValue keep assets) (s.typeAndValue t v is) (s'.typeAndValue t' v' js) := by
  induction h generalizing t t' v v' with
  | nil => exact ⟨ht, hv⟩
  | cons hij _ ih =>
    cases hv with
    | some => cases hij <;> cases ht <;> exact fun _ => rfl
    | none =>
      have hnext := ih ht (.some hij)
      cases hij with
      | type h =>
        cases ht with
        | none => exact ih (.some h) .none
        | some => exact hnext
      | _ => cases ht <;> exact hnext

/-- The parts of like bindings. -/
structure Binding.Like (keep : Bool) (assets : List Bytes) (b b' : Binding) : Prop where
  decorators : Forall₂ (Decorator.Like keep assets) b.decorators b'.decorators
  name : Via keep assets Ident.node b.name b'.name
  type : Option.Rel (Via keep assets .type) b.type b'.type
  value : Option.Rel (Item.Like keep assets) b.value b'.value

theorem like_binding (rule : String) (h : Forall₂ (Item.Like keep assets) is js) :
    Alike keep (Binding.Like keep assets) (s.binding rule is) (s'.binding rule js) := by
  obtain ⟨hds, hrest⟩ := like_splitDecorators h
  unfold binding
  generalize splitDecorators is = x at hds hrest ⊢
  generalize splitDecorators js = y at hds hrest ⊢
  obtain ⟨ds, rest⟩ := x
  obtain ⟨ds', rest'⟩ := y
  cases hrest with
  | nil => exact fun _ => rfl
  | cons hn hrest =>
    refine (like_ident hn).bind fun n n' hn =>
      (like_typeAndValue hrest .none .none).bind fun x y hxy => ?_
    exact ⟨hds, hn, hxy.1, hxy.2⟩

theorem sound_bound (hb : Binding.Like keep assets b b') (he : Via keep assets .expr e e') :
    ∀ c ∈ b.name.node :: (b.type.toList.map Node.type ++ [.expr e]), c.All (Node.Sound assets) :=
  forall_mem_cons.2 ⟨hb.name.sound, forall_mem_append.2
    ⟨Node.Like.toList_sound hb.type, forall_mem_singleton.2 he.sound⟩⟩

theorem like_variableDecl : Likens keep assets s.variableDecl s'.variableDecl := by
  refine fun is js h => (like_binding _ h).bind fun b b' hb => ?_
  have hvalue := hb.value
  generalize b.value = v, b'.value = v' at hvalue ⊢
  cases hvalue with
  | none => exact fun _ => rfl
  | some hv =>
    refine (like_expr hv).bind fun e e' he => .stmt (.of ?_ trivial (sound_bound hb he))
    simp only [Node.veil, Stmt.veil, hb.name.ident_veil, he.expr_veil,
      map_eq_map_of_rel hb.type fun _ _ h => h.type_veil]

theorem rel_lookup (hveil : Ty.veilFields fs = Ty.veilFields gs)
    (hsound : ∀ f ∈ fs, (Node.type f.2).All (Node.Sound assets)) (key : Bytes) :
    Option.Rel (Via keep assets .type) (fs.lookup key) (gs.lookup key) := by
  rw [Ty.veilFields_eq_map, Ty.veilFields_eq_map] at hveil
  induction fs generalizing gs with
  | nil =>
    obtain rfl : gs = [] := by simpa using hveil
    exact .none
  | cons f fs ih =>
    cases gs with
    | nil => cases hveil
    | cons g gs =>
      obtain ⟨hfg, hrest⟩ := List.cons.inj hveil
      obtain ⟨hf, hmore⟩ := forall_mem_cons.1 hsound
      obtain ⟨hkey, htype⟩ := Prod.mk.inj hfg
      obtain ⟨k', t'⟩ := g
      subst hkey
      rw [lookup_cons, lookup_cons]
      split
      · exact .some ⟨by simp only [Node.veil, htype], hf⟩
      · exact ih hrest hmore

theorem rel_get? {t t' : Ty} (h : Via keep assets .type t t') (key : Bytes) :
    Option.Rel (Via keep assets .type) (t.get? key) (t'.get? key) := by
  have hveil := h.type_veil
  cases t with
  | tuple p fs =>
    cases t' with
    | tuple p' gs =>
      refine rel_lookup ?_ (forall_mem_map.1 h.sound.below) key
      simpa only [Ty.veil, Ty.tuple.injEq, true_and] using hveil
    | _ => simp only [Ty.veil, reduceCtorEq] at hveil
  | _ =>
    cases t' with
    | tuple => simp only [Ty.veil, reduceCtorEq] at hveil
    | _ => exact .none

def TypePair (keep : Bool) (assets : List Bytes) (x y : Ty × Ty) : Prop :=
  Via keep assets .type x.1 y.1 ∧ Via keep assets .type x.2 y.2

theorem rel_createdTypes? (hv : Option.Rel (Item.Like keep assets) v v') :
    Option.Rel (TypePair keep assets) (mapTypes? (.mk p name none) v)
      (mapTypes? (.mk p' name' none) v') := by
  cases hv with
  | none => exact .none
  | some hij =>
    cases hij with
    | creation hts =>
      obtain _ | ⟨hk, _ | ⟨hv, _ | _⟩⟩ := hts
      · exact .none
      · exact .none
      · exact .some ⟨hk, hv⟩
      · exact .none
    | _ => exact .none

theorem rel_mapTypes? (hd : Decorator.Like keep assets d d')
    (hv : Option.Rel (Item.Like keep assets) v v') :
    Option.Rel (TypePair keep assets) (mapTypes? d v) (mapTypes? d' v') := by
  obtain ⟨p, name, a⟩ := d
  obtain ⟨p', name', a'⟩ := d'
  have hcreated : Option.Rel (TypePair keep assets) (mapTypes? (.mk p name none) v)
      (mapTypes? (.mk p' name' none) v') := rel_createdTypes? hv
  have hargument := hd.argument
  cases hargument with
  | none => exact hcreated
  | @some n m hnm =>
    cases n with
    | type t =>
      obtain ⟨t', rfl, -⟩ := eq_type_of_veil (hnm.veil.symm.trans (by rw [veil]))
      have hkey := rel_get? hnm "key"
      have hvalue := rel_get? hnm "value"
      simp only [mapTypes?, Decorator.argument] at hcreated ⊢
      generalize t.get? (Bytes.ofString "key") = k, t'.get? (Bytes.ofString "key") = k' at hkey ⊢
      generalize t.get? (Bytes.ofString "value") = w,
        t'.get? (Bytes.ofString "value") = w' at hvalue ⊢
      cases hkey with
      | none => exact hcreated
      | some hk =>
      cases hvalue with
      | none => exact hcreated
      | some hw => exact .some ⟨hk, hw⟩
    | _ =>
      have hveil := hnm.veil
      cases m with
      | type => simp only [veil, reduceCtorEq] at hveil
      | _ => exact hcreated

theorem like_shaped (hds : Forall₂ (Decorator.Like keep assets) ds ds')
    (hn : Via keep assets Ident.node n n') (ht : Option.Rel (Via keep assets .type) t t')
    (he : Option.Rel (Via keep assets .expr) e e') (hd : Decorator.Like keep assets d d') :
    Option.Rel (TypePair keep assets) x x' → Alike keep (Item.Like keep assets) (match x with
        | some (k, v) => pure (.ofStmt (.mapConst s.pos ds n t e ⟨"@" ++ d.name, d.pos, n, k, v⟩))
        | none => .error ⟨.untypedMap n.name, s.pos⟩) (match x' with
        | some (k, v) =>
          pure (.ofStmt (.mapConst s'.pos ds' n' t' e' ⟨"@" ++ d'.name, d'.pos, n', k, v⟩))
        | none => .error ⟨.untypedMap n'.name, s'.pos⟩) := by
  intro hx
  cases hx with
  | none => exact fun _ => rfl
  | some hkv =>
    refine Item.Like.stmt (.of ?_ trivial ?_)
    · simp only [veil, Stmt.veil_mapConst, MapShape.veil, hn.ident_veil, hkv.1.type_veil,
        hkv.2.type_veil, hd.name, map_eq_map_of_forall₂ hds fun _ _ h => h.veil_eq,
        map_eq_map_of_rel ht fun _ _ h => h.type_veil,
        map_eq_map_of_rel he fun _ _ h => h.expr_veil]
    · simp only [children, Stmt.children, MapShape.children, forall_mem_append,
        forall_mem_cons]
      exact ⟨⟨⟨Decorator.Like.children_sound hds, hn.sound, Node.Like.toList_sound ht⟩,
        Node.Like.toList_sound he⟩, hn.sound, hkv.1.sound, hkv.2.sound, forall_mem_nil _⟩

theorem like_mapConst (hb : Binding.Like keep assets b b') (hd : Decorator.Like keep assets d d') :
    Alike keep (Item.Like keep assets) (s.mapConst b d) (s'.mapConst b' d') := by
  have htypes := rel_mapTypes? hd hb.value
  obtain ⟨ds, n, t, v⟩ := b
  obtain ⟨ds', n', t', v'⟩ := b'
  obtain ⟨hds, hn, ht, hv⟩ := hb
  cases hv with
  | none => exact like_shaped hds hn ht .none hd htypes
  | some hij =>
    have hvalue : Alike keep (Option.Rel (Via keep assets .expr)) (some <$> s.expr _)
      (some <$> s'.expr _) := (like_expr hij).map fun _ _ he => .some he
    cases hij with
    | creation => exact like_shaped hds hn ht .none hd htypes
    | _ => exact hvalue.bind fun _ _ he => like_shaped hds hn ht he hd htypes

theorem like_constantDecl : Likens keep assets s.constantDecl s'.constantDecl := by
  refine fun is js h => (like_binding _ h).bind fun b b' hb => ?_
  have hwrong := Decorator.Like.rel_find? (fun name => name != Bytes.ofString "map") hb.decorators
  have hlast := rel_getLast? hb.decorators
  have hvalue := hb.value
  generalize b.decorators.find? _ = d, b'.decorators.find? _ = d' at hwrong ⊢
  cases hwrong with
  | some => exact fun _ => rfl
  | none =>
  generalize b.decorators.getLast? = d, b'.decorators.getLast? = d' at hlast ⊢
  cases hlast with
  | some hd => exact like_mapConst hb hd
  | none =>
  generalize b.value = v, b'.value = v' at hvalue ⊢
  cases hvalue with
  | none => exact fun _ => rfl
  | some hv =>
    refine (like_expr hv).bind fun e e' he => .stmt (.of ?_ trivial (sound_bound hb he))
    simp only [Node.veil, Stmt.veil, hb.name.ident_veil, he.expr_veil,
      map_eq_map_of_rel hb.type fun _ _ h => h.type_veil]

theorem like_mapDecl : Likens keep assets s.mapDecl s'.mapDecl :=
  .three (fun _ => rfl) (fun _ _ _ => rfl) (fun _ _ _ _ _ => rfl)
    fun hk _ _ hv _ _ hn _ _ _ => (like_type hk).bind fun _ _ hk =>
    (like_type hv).bind fun _ _ hv => (like_ident hn).bind fun _ _ hn => .stmt <| .of_children
      (by simp only [veil, Stmt.veil, MapShape.veil, hn.ident_veil, hk.type_veil, hv.type_veil])
      trivial (.cons hn (.cons hk (.cons hv .nil)))

/-! ### Assets, traits and modules -/

/-- The parts of like assets. -/
structure AssetParts.Like (keep : Bool) (assets : List Bytes) (x y : AssetParts) : Prop where
  name : Option.Rel (Via keep assets Ident.node) x.name y.name
  fields : Forall₂ (Via keep assets .parameter) x.fields y.fields
  decorated : x.decorated = y.decorated

theorem like_assetPart (hxy : AssetParts.Like keep assets x y) (h : Item.Like keep assets i j) :
    Alike keep (AssetParts.Like keep assets) (s.assetPart x i) (s'.assetPart y j) := by
  cases h with
  | decorator hd =>
    simp only [assetPart]
    rw [← hd.name]
    split
    · exact ⟨hxy.name, hxy.fields, rfl⟩
    · exact fun _ => rfl
  | expr he =>
    obtain ⟨n, n', rfl, rfl, hn⟩ | ⟨he, he'⟩ := he.ident_cases
    · have hname := hxy.name
      simp only [assetPart]
      generalize x.name = a, y.name = b at hname ⊢
      cases hname with
      | none => exact ⟨.some hn, hxy.fields, hxy.decorated⟩
      | some => exact fun _ => rfl
    · rw [assetPart.eq_4 s _ _ (by rintro _ hi; cases hi)
          (by rintro n hi; cases hi; exact he n rfl) (by rintro _ hi; cases hi),
        assetPart.eq_4 s' _ _ (by rintro _ hi; cases hi)
          (by rintro n hi; cases hi; exact he' n rfl) (by rintro _ hi; cases hi)]
      exact fun _ => rfl
  | parameter hp => exact ⟨hxy.name, rel_append hxy.fields (.cons hp .nil), hxy.decorated⟩
  | _ => exact fun _ => rfl

theorem like_assetDecl : Likens keep assets s.assetDecl s'.assetDecl := by
  intro is js h
  have hparts := Alike.foldlM (f := s.assetPart) (g := s'.assetPart)
    (fun _ _ _ _ hxy hij => like_assetPart hxy hij) h (x := {}) (y := {}) ⟨.none, .nil, rfl⟩
  refine hparts.bind fun x y hxy => ?_
  have hname := hxy.name
  generalize x.name = a, y.name = b at hname ⊢
  cases hname with
  | none => exact fun _ => rfl
  | some hn =>
    dsimp only
    rw [← hxy.decorated]
    split
    · refine Item.Like.stmt (.of ?_ trivial ?_)
      · simp only [veil, Stmt.veil, hn.ident_veil,
          map_eq_map_of_forall₂ hxy.fields fun _ _ h => h.parameter_veil]
      · exact forall_mem_cons.2 ⟨hn.sound, Node.Like.forall_sound hxy.fields⟩
    · exact fun _ => rfl

theorem like_assetField : Likens keep assets s.assetField s'.assetField := by
  refine .one (fun _ => rfl) fun hn _ _ h => ?_
  cases h with
  | nil => exact (like_ident hn).bind fun _ _ _ _ => rfl
  | cons ht _ =>
    exact (like_ident hn).bind fun _ _ hn => (like_type ht).bind fun _ _ ht =>
      .parameter (like_parameterOf hn (.some ht))

theorem like_traitDecl : Likens keep assets s.traitDecl s'.traitDecl := by
  refine .one (fun _ => rfl) fun hn _ _ h => (like_ident hn).bind fun n n' hn =>
    (Alike.mapM (f := s.function) (g := s'.function) (fun _ _ => like_function) h).bind
      fun fs fs' hfs => .stmt (.of ?_ trivial ?_)
  · simp only [veil, Stmt.veil, Fn.veilAll_eq_map, hn.ident_veil,
      map_eq_map_of_forall₂ hfs fun _ _ h => h.fn_veil]
  · exact forall_mem_cons.2 ⟨hn.sound, Node.Like.forall_sound hfs⟩

theorem like_importDecl : Likens keep assets s.importDecl s'.importDecl := by
  intro is js h
  have hlast := rel_getLast? h
  have hnames := Alike.mapM (f := s.ident) (g := s'.ident) (fun _ _ => like_ident)
    (forall₂_take (is.length - 1) h)
  unfold importDecl
  rw [dropLast_eq_take, dropLast_eq_take, ← h.length_eq]
  generalize is.getLast? = a, js.getLast? = b at hlast ⊢
  rcases hlength : is.length with _ | _ | k
  · exact fun _ => rfl
  · exact fun _ => rfl
  · cases hlast with
    | none => exact fun _ => rfl
    | some hij =>
      cases hij with
      | expr he =>
        obtain ⟨_, _, v, _, _, v', rfl, rfl, hv⟩ | ⟨hs, hs'⟩ := he.string_cases
        · rw [hlength] at hnames
          refine hnames.bind fun ns ns' hns => .stmt (.of ?_ trivial (Node.Like.forall_sound hns))
          simp only [veil, Stmt.veil, hv, map_eq_map_of_forall₂ hns fun _ _ h => h.ident_veil]
        · split
          · next hi => cases hi; exact absurd rfl (hs _ _ _)
          · split
            · next hi => cases hi; exact absurd rfl (hs' _ _ _)
            · exact fun _ => rfl
            · next hi => exact absurd rfl (hi _ _ rfl)
          · next hi => exact absurd rfl (hi _ _ rfl)
      | _ => exact fun _ => rfl

theorem like_exportDecl : Likens keep assets s.exportDecl s'.exportDecl :=
  .one (fun _ => rfl) fun h _ _ _ => (like_stmt h).bind fun _ _ ht => .stmt <| .of_children
    (by simp only [veil, Stmt.veil, ht.stmt_veil]) trivial (.cons ht .nil)

/-! ### Statements -/

theorem like_stmts (h : Forall₂ (Item.Like keep assets) is js) :
    Alike keep (Forall₂ (Via keep assets .stmt)) (is.mapM s.stmt) (js.mapM s'.stmt) :=
  Alike.mapM (f := s.stmt) (g := s'.stmt) (fun _ _ => like_stmt) h

theorem like_blockItem : Likens keep assets s.blockItem s'.blockItem := by
  refine fun _ _ h => (like_stmts h).bind fun ss ss' hss =>
    .block (.of ?_ trivial (Node.Like.forall_sound hss))
  simp only [veil, Block.veil, Stmt.veilAll_eq_map,
    map_eq_map_of_forall₂ hss fun _ _ h => h.stmt_veil]

theorem like_exprStmt : Likens keep assets s.exprStmt s'.exprStmt :=
  .one (fun _ => rfl) fun h _ _ _ => (like_expr h).bind fun _ _ he => .stmt <| .of_children
    (by simp only [veil, Stmt.veil, he.expr_veil]) trivial (.cons he .nil)

/-- Like further branches. -/
structure Branches (keep : Bool) (assets : List Bytes) (x y : Else) : Prop where
  veil : x.veil keep = y.veil keep
  sound : ∀ c ∈ x.children, c.All (Node.Sound assets)

theorem like_branches (h : Forall₂ (Item.Like keep assets) is js) :
    Alike keep (Branches keep assets) (s.branches is) (s'.branches js) := by
  induction is using branches.induct generalizing js with
  | case1 =>
    cases h
    exact ⟨rfl, nofun⟩
  | case2 last =>
    obtain _ | ⟨h, ⟨⟩⟩ := h
    refine (like_block h).bind fun b b' hb => ⟨?_, ?_⟩
    · simp only [Else.veil, hb.block_veil]
    · simpa [Else.children] using hb.sound
  | case3 condition body items ih =>
    obtain _ | ⟨hc, _ | ⟨hb, h⟩⟩ := h
    refine (like_expr hc).bind fun c c' hc => (like_block hb).bind fun b b' hb =>
      (ih h).bind fun r r' hr => ⟨?_, ?_⟩
    · simp only [Else.veil, hc.expr_veil, hb.block_veil, hr.veil]
    · exact forall_mem_cons.2 ⟨hc.sound, forall_mem_cons.2 ⟨hb.sound, hr.sound⟩⟩

theorem like_ifStmt : Likens keep assets s.ifStmt s'.ifStmt := by
  refine .two (fun _ => rfl) (fun _ _ _ => rfl)
    fun hc _ _ hb _ _ h => (like_expr hc).bind fun c c' hc =>
    (like_block hb).bind fun b b' hb => (like_branches h).bind fun r r' hr =>
      .stmt (.of ?_ trivial ?_)
  · simp only [veil, Stmt.veil, hc.expr_veil, hb.block_veil, hr.veil]
  · exact forall_mem_cons.2 ⟨hc.sound, forall_mem_cons.2 ⟨hb.sound, hr.sound⟩⟩

theorem like_tryStmt : Likens keep assets s.tryStmt s'.tryStmt :=
  .three (fun _ => rfl) (fun _ _ _ => rfl) (fun _ _ _ _ _ => rfl)
    fun hb _ _ hn _ _ hh _ _ _ => (like_block hb).bind fun _ _ hb =>
    (like_ident hn).bind fun _ _ hn => (like_block hh).bind fun _ _ hc => .stmt <| .of_children
      (by simp only [veil, Stmt.veil, hn.ident_veil, hb.block_veil, hc.block_veil]) trivial
      (.cons hb (.cons hn (.cons hc .nil)))

theorem like_throwStmt : Likens keep assets s.throwStmt s'.throwStmt :=
  .one (fun _ => rfl) fun h _ _ _ => (like_expr h).bind fun _ _ he => .stmt <| .of_children
    (by simp only [veil, Stmt.veil, he.expr_veil]) trivial (.cons he .nil)

theorem like_returnStmt : Likens keep assets s.returnStmt s'.returnStmt :=
  .one (Item.Like.stmt (.of_leaf (by simp only [veil, Stmt.veil]) trivial rfl))
    fun h _ _ _ => (like_expr h).bind fun _ _ he => .stmt <| .of_children
      (by simp only [veil, Stmt.veil, he.expr_veil]) trivial (.cons he .nil)

theorem like_program (h : Forall₂ (Item.Like keep assets) is js) :
    Alike keep (fun p q => Via keep assets .program p.statements q.statements)
      (s.program is) (s'.program js) := by
  refine (like_stmts h).bind fun ss ss' hss => .of ?_ trivial (Node.Like.forall_sound hss)
  simp only [veil, Stmt.veilAll_eq_map, map_eq_map_of_forall₂ hss fun _ _ h => h.stmt_veil]

end Site

end Covenant
