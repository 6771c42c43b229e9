import Covenant.Proofs.Program.Likeness.Item

/-!
# Likeness of expressions

Like items become like expressions.  Which kind a call is depends on its callee, the number of its
arguments and the known assets, and on nothing that likeness leaves open.
-/

namespace Covenant

open List Expr

/-! ### What a call calls -/

theorem veil_builtinCall? (name : Ident) (args : List Expr) :
    (builtinCall? name args).map (veil keep) =
      builtinCall? name.veil (args.map (veil keep)) := by
  rcases args with _ | ⟨a, _ | ⟨b, _ | ⟨c, _ | ⟨d, args⟩⟩⟩⟩ <;>
    simp only [builtinCall?, map_cons, map_nil, Ident.veil,
      apply_ite (Option.map (veil keep)), Option.map_some, Option.map_none, veil] <;> rfl

theorem veil_callOf (callee : Expr) (p : Pos) (args : List Expr) :
    (callOf assets callee p args).veil keep =
      callOf assets (callee.veil keep) {} (args.map (veil keep)) := by
  cases callee with
  | ident name =>
    simp only [callOf, veil, ← veil_builtinCall?]
    cases builtinCall? name args with
    | none => simp only [Option.map, Option.getD, veil, veilAll_eq_map]
    | some e => simp only [Option.map, Option.getD]
  | member q object property =>
    cases object with
    | ident object =>
      simp only [callOf, veil, Ident.veil]
      split
      · simp only [veil, veilAll_eq_map, Ident.veil]
      · split <;> simp only [veil, veilAll_eq_map, Ident.veil]
    | _ => simp only [callOf, veil, veil_comprehension, veilAll_eq_map]
  | _ => simp only [callOf, veil, veil_comprehension, veilAll_eq_map]

theorem sound_builtinCall? {name : Ident} (h : builtinCall? name args = some e)
    (hargs : ∀ c ∈ args.map Node.expr, c.All (Node.Sound assets)) :
    (Node.expr e).All (Node.Sound assets) := by
  rcases args with _ | ⟨a, _ | ⟨b, _ | ⟨c, _ | ⟨d, args⟩⟩⟩⟩
  · cases h
  · simp only [builtinCall?] at h
    split at h
    · cases h
      exact Node.all_iff.2 ⟨trivial, hargs⟩
    · cases h
  · simp only [builtinCall?] at h
    split at h
    · cases h
      exact Node.all_iff.2 ⟨trivial, hargs⟩
    · split at h
      · cases h
        exact Node.all_iff.2 ⟨trivial, hargs⟩
      · cases h
  · simp only [builtinCall?] at h
    split at h
    · cases h
      exact Node.all_iff.2 ⟨trivial, hargs⟩
    · cases h
  · cases h

theorem sound_callOf (hcallee : (Node.expr callee).All (Node.Sound assets))
    (hargs : ∀ c ∈ args.map Node.expr, c.All (Node.Sound assets)) :
    (Node.expr (callOf assets callee p args)).All (Node.Sound assets) := by
  by_cases h : callOf assets callee p args = .call p callee args
  · rw [h]
    exact Node.all_iff.2 ⟨h, forall_mem_cons.2 ⟨hcallee, hargs⟩⟩
  unfold callOf at h ⊢
  split at h
  · next q object property =>
    have hobject := (hcallee.below _ mem_cons_self : (Node.expr (.ident object)).All _)
    have hproperty := hcallee.below _ (mem_cons_of_mem _ mem_cons_self)
    have hbelow := forall_mem_cons.2 ⟨hobject, hargs⟩
    by_cases hasset : isAssetOperation assets object.name property.name = true
    · simp only [hasset, if_true]
      exact Node.all_iff.2 ⟨⟨hproperty.self, hasset⟩, hbelow⟩
    · by_cases hcontract : namesContract object.name = true
      · simp only [hasset, hcontract, if_true]
        exact Node.all_iff.2 ⟨⟨hproperty.self, by simpa using hasset, hcontract⟩, hbelow⟩
      · simp [hasset, hcontract] at h
  · next name =>
    cases hbuiltin : builtinCall? name args with
    | none => simp [hbuiltin] at h
    | some e => exact sound_builtinCall? hbuiltin hargs
  · exact absurd rfl h

theorem like_callOf (hf : Via keep assets .expr f f')
    (hargs : Forall₂ (Via keep assets .expr) es es') (p p' : Pos) :
    Via keep assets .expr (callOf assets f p es) (callOf assets f' p' es') where
  veil := by
    have hes := map_eq_map_of_forall₂ hargs fun _ _ h => h.expr_veil
    simp only [Node.veil, veil_callOf, hf.expr_veil, hes]
  sound := sound_callOf hf.sound (Node.Like.forall_sound hargs)

namespace Site

variable {s s' : Site} {level : Level} {xs : List (Token × Item)} {i : Item} {seen : List Bytes}

/-! ### Expressions -/

theorem like_assignment : Likens keep assets s.assignment s'.assignment :=
  .two (fun _ => rfl) (fun _ _ _ => rfl)
    fun hl _ _ hr _ _ _ => (like_expr hl).bind fun _ _ he => (like_expr hr).bind fun _ _ hf =>
    .expr <| .of_children (by simp only [Node.veil, veil, he.expr_veil, hf.expr_veil])
      (mem_cons_self : BinOp.assign ∈ BinOp.all) (.cons he (.cons hf .nil))

theorem like_conditional : Likens keep assets s.conditional s'.conditional :=
  .three (fun _ => rfl) (fun _ _ _ => rfl) (fun _ _ _ _ _ => rfl)
    fun hc _ _ ht _ _ he _ _ _ => (like_expr hc).bind fun _ _ hc =>
    (like_expr ht).bind fun _ _ ht => (like_expr he).bind fun _ _ he => .expr <| .of_children
      (by simp only [Node.veil, veil, hc.expr_veil, ht.expr_veil, he.expr_veil]) trivial
      (.cons hc (.cons ht (.cons he .nil)))

theorem like_operations (hops : ∀ x ∈ xs, x.1.kind ∈ level.operators)
    (h : Forall₂ (Item.Like keep assets) (xs.flatMap fun x => [.token x.1, x.2]) js)
    (he : Via keep assets .expr e e') :
    Alike keep (Via keep assets .expr) (s.operations e (xs.flatMap fun x => [.token x.1, x.2]))
      (s'.operations e' js) := by
  induction xs generalizing e e' js with
  | nil =>
    cases h
    exact he
  | cons x xs ih =>
    obtain ⟨hop, hops⟩ := forall_mem_cons.1 hops
    obtain _ | ⟨htoken, _ | ⟨hright, h⟩⟩ := h
    cases htoken with
    | token ht =>
      refine (like_expr hright).bind fun f f' hf => ih hops h (.of_children ?_
        (BinOp.ofText_mem_all ht.sound hop) (.cons he (.cons hf .nil)))
      simp only [Node.veil, veil, he.expr_veil, hf.expr_veil, ht.literal (.inl rfl)]

theorem like_binary {first : Item} (hops : ∀ x ∈ xs, x.1.kind ∈ level.operators)
    (h : Forall₂ (Item.Like keep assets) (first :: xs.flatMap fun x => [.token x.1, x.2]) js) :
    Alike keep (Item.Like keep assets) (s.binary (first :: xs.flatMap fun x => [.token x.1, x.2]))
      (s'.binary js) := by
  cases h with
  | cons hfirst h =>
    refine (like_expr hfirst).bind fun e e' he => ?_
    rw [← h.length_eq]
    split
    · exact fun _ => rfl
    · exact (like_operations hops h he).bind fun f f' hf => .expr hf

theorem like_unary {t : Token} (hop : t.kind = .bang ∨ t.kind = .minus)
    (h : Forall₂ (Item.Like keep assets) [.token t, i] js) :
    Alike keep (Item.Like keep assets) (s.unary [.token t, i]) (s'.unary js) := by
  obtain _ | ⟨htoken, _ | ⟨hoperand, -⟩⟩ := h
  cases htoken with
  | @token _ u ht =>
    refine (like_expr hoperand).bind fun e e' he => ?_
    have hunary (hnumber : t.kind = .minus → e.isNumber = false) :
        Item.Like keep assets (.ofExpr (.unary t.pos (.ofText t.literal) e))
          (.ofExpr (.unary u.pos (.ofText u.literal) e')) := by
      refine .expr (.of_children ?_ ?_ (.cons he .nil))
      · simp only [Node.veil, veil, he.expr_veil, ht.literal (.inl rfl)]
      · obtain ⟨hk, hop⟩ | ⟨hk, hop⟩ := UnOp.ofText_literal ht.sound hop
        · exact ⟨.inl hop, fun hneg => by rw [hop] at hneg; cases hneg⟩
        · exact ⟨.inr hop, fun _ => hnumber hk⟩
    have hveil := he.expr_veil
    rw [← ht.kind]
    split
    · next hk =>
      obtain ⟨_, _, rfl⟩ := eq_int_of_veil hveil.symm
      rw [hk]
      refine Item.Like.expr (.of_leaf (by simp only [Node.veil, veil]) ?_ rfl)
      exact neg_ne_minValue he.sound.self
    · next hk =>
      simp only [veil, Literal.veil] at hveil
      obtain ⟨_, _, rfl⟩ := eq_float_of_veil hveil.symm
      rw [hk]
      exact Item.Like.expr (.of_leaf (by simp only [Node.veil, veil]) trivial rfl)
    · next e _ _ hint hfloat =>
      have hnumber (hk : t.kind = .minus) : e.isNumber = false := by
        unfold isNumber
        split
        · exact (hint _ _ _ hk rfl).elim
        · exact (hfloat _ _ _ hk rfl).elim
        · rfl
      -- the other operand is no number either
      split
      · next hk =>
        obtain ⟨_, _, rfl⟩ := eq_int_of_veil hveil
        exact (hint _ _ _ hk rfl).elim
      · next hk =>
        simp only [veil, Literal.veil] at hveil
        obtain ⟨_, _, rfl⟩ := eq_float_of_veil hveil
        exact (hfloat _ _ _ hk rfl).elim
      · exact hunary hnumber

/-! ### Suffixes -/

theorem like_suffix (he : Via keep assets .expr e e') (h : Item.Like keep assets i j) :
    Alike keep (Via keep assets .expr) (s.suffix assets e i) (s'.suffix assets e' j) := by
  cases h with
  | call hargs => exact like_callOf he hargs _ _
  | member hn =>
    exact .of_children (by simp only [Node.veil, veil, he.expr_veil, hn.ident_veil]) trivial
      (.cons he (.cons hn .nil))
  | typeCheck ht | cast ht =>
    exact .of_children (by simp only [Node.veil, veil, he.expr_veil, ht.type_veil]) trivial
      (.cons he (.cons ht .nil))
  | _ => exact fun _ => rfl

theorem like_suffixed : Likens keep assets (s.suffixed assets) (s'.suffixed assets) :=
  .one (fun _ => rfl) fun hfirst _ _ h => (like_expr hfirst).bind fun _ _ he =>
    (Alike.foldlM (f := s.suffix assets) (g := s'.suffix assets)
      (fun _ _ _ _ he hij => like_suffix he hij) h he).bind fun _ _ hf => .expr hf

theorem like_call : Likens keep assets s.call s'.call :=
  fun _ _ h => (like_exprs h).bind fun _ _ hes => .call hes

theorem like_member : Likens keep assets s.member s'.member :=
  .one (fun _ => rfl) fun h _ _ _ => (like_ident h).bind fun _ _ hn => .member hn

theorem like_typeCheck : Likens keep assets s.typeCheck s'.typeCheck :=
  .one (fun _ => rfl) fun h _ _ _ => (like_type h).bind fun _ _ ht => .typeCheck ht

theorem like_typeAssertion : Likens keep assets s.typeAssertion s'.typeAssertion :=
  .one (fun _ => rfl) fun h _ _ _ => (like_type h).bind fun _ _ ht => .cast ht

/-! ### Literals and function values -/

theorem like_literal : Likens keep assets s.literal s'.literal :=
  .one (fun _ => rfl) fun h _ _ _ =>
    Alike.bind (A := fun _ _ => True) ((like_expr h).bind fun _ _ _ => trivial) fun _ _ _ => h

theorem like_list : Likens keep assets s.list s'.list :=
  fun _ _ h => (like_exprs h).bind fun _ _ hes => .expr <| .of
    (by simp only [Node.veil, veil, veilAll_eq_map,
      map_eq_map_of_forall₂ hes fun _ _ h => h.expr_veil]) trivial (Node.Like.forall_sound hes)

theorem like_keyOf (h : Item.Like keep assets i j) :
    Alike keep (fun key key' => key.veil keep = key'.veil keep) (s.keyOf i) (s'.keyOf j) := by
  cases h with
  | expr h =>
    obtain ⟨n, n', rfl, rfl, hn⟩ | ⟨hn, hn'⟩ := h.ident_cases
    · exact congrArg (Bytes.veil keep) hn.name_eq
    obtain ⟨_, _, key, _, _, key', rfl, rfl, hkey⟩ | ⟨hs, hs'⟩ := h.string_cases
    · exact hkey
    rw [keyOf.eq_3 s _ (by rintro n hi; cases hi; exact hn n rfl)
        (by rintro _ _ _ hi; cases hi; exact hs _ _ _ rfl),
      keyOf.eq_3 s' _ (by rintro n hi; cases hi; exact hn' n rfl)
        (by rintro _ _ _ hi; cases hi; exact hs' _ _ _ rfl)]
    exact fun _ => rfl
  | _ => exact fun _ => rfl

theorem like_tupleItem : Likens keep assets s.tupleItem s'.tupleItem :=
  .two (fun _ => rfl) (fun _ _ _ => rfl)
    fun hkey _ _ hvalue _ _ _ => (like_keyOf hkey).bind fun _ _ hkey =>
    (like_expr hvalue).bind fun _ _ he => .field hkey he

/-- Parts of tuples are alike. -/
def Field (keep : Bool) (assets : List Bytes) (f g : Bytes × Expr) : Prop :=
  f.1.veil keep = g.1.veil keep ∧ Via keep assets .expr f.2 g.2

theorem like_field (h : Item.Like keep assets i j) :
    Option.Rel (Field keep assets) i.field? j.field? := by
  cases h with
  | field hkey he => exact .some ⟨hkey, he⟩
  | _ => exact .none

theorem Field.key_eq (h : Field keep assets f g) (hkeep : keep = true) : f.1 = g.1 := by
  simpa [Bytes.veil, hkeep] using h.1

theorem like_tuple : Likens keep assets s.tuple s'.tuple := by
  intro is js h
  refine ((like_keyed (fun _ _ => like_field) (fun _ _ => Field.key_eq) h fun _ => rfl).and_left
    fun _ hok => (nodup_of_keyed hok).1).bind
    fun fs gs hfg => .expr (.of ?_ hfg.2 ?_)
  · simp only [Node.veil, veil, veilFields_eq_map]
    rw [map_eq_map_of_forall₂ hfg.1 fun f g h => by rw [h.1, h.2.expr_veil]]
  · exact forall_mem_map.2 (forall_mem_of_forall₂ hfg.1 fun f g h => h.2.sound)

theorem like_comprehension : Likens keep assets s.comprehension s'.comprehension := by
  refine .three (fun _ => rfl) (fun _ _ _ => rfl) (fun _ _ _ _ _ => rfl)
    fun he _ _ hx _ _ hl _ _ h => (like_expr he).bind fun e e' he =>
    (like_ident hx).bind fun x x' hx => (like_expr hl).bind fun l l' hl => ?_
  cases h with
  | nil =>
    refine Item.Like.expr (.of_children ?_ trivial (.cons he (.cons hx (.cons hl .nil))))
    simp only [Node.veil, veil, he.expr_veil, hx.ident_veil, hl.expr_veil]
  | cons hc _ =>
    refine (like_expr hc).bind fun c c' hc => .expr (.of_children ?_ trivial
      (.cons he (.cons hx (.cons hl (.cons hc .nil)))))
    simp only [Node.veil, veil, he.expr_veil, hx.ident_veil, hl.expr_veil, hc.expr_veil]

theorem like_lambda : Likens keep assets s.lambda s'.lambda := by
  refine .two (fun _ => rfl) (fun _ _ _ => rfl)
    fun hps _ _ hbody _ _ _ => (like_params hps).bind fun ps ps' hps => ?_
  have hveil := map_eq_map_of_forall₂ hps fun _ _ h => h.parameter_veil
  have hlambda {body body' : Body} (hb : body.veil keep = body'.veil keep)
      (hsound : body.node.All (Node.Sound assets)) :
      Via keep assets .expr (.lambda s.pos ps body) (.lambda s'.pos ps' body') := by
    refine .of (by simp only [Node.veil, veil, hveil, hb]) trivial ?_
    exact forall_mem_append.2 ⟨Node.Like.forall_sound hps, by simpa using hsound⟩
  cases hbody with
  | block hb => exact Item.Like.expr (hlambda (by simp only [Body.veil, hb.block_veil]) hb.sound)
  | expr he => exact Item.Like.expr (hlambda (by simp only [Body.veil, he.expr_veil]) he.sound)
  | _ => exact fun _ => rfl

theorem like_creationTypes (h : Forall₂ (Item.Like keep assets) is js) :
    Alike keep (Forall₂ (Via keep assets .type)) (s.creationTypes is) (s'.creationTypes js) := by
  induction h with
  | nil => exact .nil
  | cons hij _ ih =>
    cases hij with
    | args => exact ih
    | type ht => exact ih.bind fun _ _ hts => .cons ht hts
    | _ => exact fun _ => rfl

theorem like_creation : Likens keep assets s.creation s'.creation :=
  .one (fun _ => rfl) fun hn _ _ h => (like_ident hn).bind fun _ _ _ => (like_creationTypes h).bind
    fun _ _ hts => .creation hts

theorem like_arguments : Likens keep assets s.arguments s'.arguments :=
  fun _ _ h => (like_exprs h).bind fun _ _ hes => .args hes

end Site

end Covenant
