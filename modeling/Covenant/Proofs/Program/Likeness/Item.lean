import Covenant.Proofs.Program.Sound
import Covenant.Proofs.Program.Veil
import Covenant.Proofs.Tree.Likeness

/-!
# Likeness of items and types

`Item.Like` says that two items are equal up to places and perhaps strings, and that all their parts
are sound.  Taking like items as what a rule needs gives like parts, or fails on both sides with one
code; so does the building of types.
-/

namespace Covenant

open List

variable {α β : Type} {P : α → Prop} {b : Option β}

/-! ### Like parts -/

/-- Two parts are equal up to places and perhaps strings, and sound. -/
structure Node.Like (keep : Bool) (assets : List Bytes) (n m : Node) : Prop where
  veil : n.veil keep = m.veil keep
  sound : n.All (Node.Sound assets)

abbrev Via {α : Type} (keep : Bool) (assets : List Bytes) (f : α → Node) (a b : α) : Prop :=
  Node.Like keep assets (f a) (f b)

def Fn.node (f : Fn) : Node :=
  .stmt (.fnDecl f)

theorem map_eq_map_of_forall₂ {γ : Type} {f : α → γ} {g : β → γ}
    (h : Forall₂ A as bs) (hA : ∀ a b, A a b → f a = g b) : as.map f = bs.map g := by
  induction h with
  | nil => rfl
  | cons hab _ ih => rw [map_cons, map_cons, hA _ _ hab, ih]

theorem forall_mem_of_forall₂ (h : Forall₂ A as bs) (hA : ∀ a b, A a b → P a) : ∀ a ∈ as, P a := by
  induction h with
  | nil => nofun
  | cons hab _ ih => exact forall_mem_cons.2 ⟨hA _ _ hab, ih⟩

namespace Node.Like

variable {m n : Node} {e e' : Expr} {n' : Ident}

section

variable (hveil : n.veil keep = m.veil keep) (hself : n.Sound assets)

include hveil hself

theorem of (hbelow : ∀ c ∈ n.children, c.All (Sound assets)) : Like keep assets n m :=
  ⟨hveil, all_iff.2 ⟨hself, hbelow⟩⟩

theorem of_children (hbelow : Forall₂ (Like keep assets) n.children cs) : Like keep assets n m :=
  .of hveil hself (forall_mem_of_forall₂ hbelow fun _ _ h => h.sound)

theorem of_leaf (hchildren : n.children = []) : Like keep assets n m :=
  .of hveil hself (by rw [hchildren]; exact forall_mem_nil _)

end

theorem expr_veil (h : Via keep assets .expr e e') : e.veil keep = e'.veil keep := by
  simpa only [Node.veil, expr.injEq] using h.veil

theorem type_veil (h : Via keep assets .type t t') : t.veil = t'.veil := by
  simpa only [Node.veil, type.injEq] using h.veil

theorem parameter_veil (h : Via keep assets .parameter p p') : p.veil = p'.veil := by
  simpa only [Node.veil, parameter.injEq] using h.veil

theorem block_veil {b b' : Block} (h : Via keep assets .block b b') :
    b.veil keep = b'.veil keep := by
  simpa only [Node.veil, block.injEq] using h.veil

theorem stmt_veil (h : Via keep assets .stmt s s') : s.veil keep = s'.veil keep := by
  simpa only [Node.veil, stmt.injEq] using h.veil

theorem ident_veil {n : Ident} (h : Via keep assets Ident.node n n') : n.veil = n'.veil := by
  simpa only [Ident.node, Node.veil, Expr.veil, expr.injEq, Expr.ident.injEq] using h.veil

theorem fn_veil {f f' : Fn} (h : Via keep assets Fn.node f f') : f.veil keep = f'.veil keep := by
  simpa only [Fn.node, Node.veil, Stmt.veil, stmt.injEq, Stmt.fnDecl.injEq] using h.veil

theorem ident_cases (h : Via keep assets .expr e e') :
    (∃ n n', e = .ident n ∧ e' = .ident n' ∧ Via keep assets Ident.node n n') ∨
      (∀ n, e ≠ .ident n) ∧ ∀ n, e' ≠ .ident n := by
  have hveil := h.expr_veil
  by_cases he : ∃ n, e = .ident n
  · obtain ⟨n, rfl⟩ := he
    obtain ⟨n', rfl⟩ := Expr.eq_ident_of_veil (hveil.symm.trans (by rw [Expr.veil]))
    exact .inl ⟨n, n', rfl, rfl, h⟩
  · refine .inr ⟨fun n hn => he ⟨n, hn⟩, ?_⟩
    rintro n rfl
    exact he (Expr.eq_ident_of_veil (hveil.trans (by rw [Expr.veil])))

theorem string_cases (h : Via keep assets .expr e e') :
    (∃ first p v first' p' v', e = .literal first p (.string v) ∧
      e' = .literal first' p' (.string v') ∧ v.veil keep = v'.veil keep) ∨
      (∀ first p v, e ≠ .literal first p (.string v)) ∧
        ∀ first p v, e' ≠ .literal first p (.string v) := by
  have hveil := h.expr_veil
  by_cases he : ∃ first p v, e = .literal first p (.string v)
  · obtain ⟨first, p, v, rfl⟩ := he
    obtain ⟨first', p', v', rfl, hv⟩ := Expr.eq_string_of_veil hveil.symm
    exact .inl ⟨first, p, v, first', p', v', rfl, rfl, hv.symm⟩
  · refine .inr ⟨fun first p v hv => he ⟨first, p, v, hv⟩, ?_⟩
    rintro first p v rfl
    simp only [Expr.veil, Literal.veil] at hveil
    obtain ⟨first', p', v', rfl, -⟩ := Expr.eq_string_of_veil hveil
    exact he ⟨_, _, _, rfl⟩

theorem name_eq {n : Ident} (h : Via keep assets Ident.node n n') : n.name = n'.name :=
  (Ident.mk.inj (ident_veil h)).1

theorem isName {n : Ident} (h : Via keep assets Ident.node n n') : n.name.isName = true :=
  h.sound.self

theorem forall_sound {α : Type} {f : α → Node} {as bs : List α}
    (h : Forall₂ (Via keep assets f) as bs) : ∀ c ∈ as.map f, c.All (Sound assets) :=
  forall_mem_map.2 (forall_mem_of_forall₂ h fun _ _ hab => hab.sound)

end Node.Like

/-! ### Optional and decorated parts -/

theorem map_eq_map_of_rel {γ : Type} {f : α → γ} {g : β → γ}
    (h : Option.Rel A a b) (hA : ∀ a b, A a b → f a = g b) : a.map f = b.map g := by
  cases h with
  | none => rfl
  | some h => rw [Option.map_some, Option.map_some, hA _ _ h]

theorem forall_mem_of_rel (h : Option.Rel A a b) (hA : ∀ a b, A a b → P a) : ∀ x ∈ a, P x := by
  cases h with
  | none => nofun
  | some h => simpa using hA _ _ h

theorem Node.Like.toList_sound {f : α → Node} {b : Option α}
    (h : Option.Rel (Via keep assets f) a b) : ∀ c ∈ a.toList.map f, c.All (Sound assets) := by
  cases h with
  | none => nofun
  | some h => simpa using h.sound

/-- Two decorators are equal up to places and perhaps strings, and sound. -/
structure Decorator.Like (keep : Bool) (assets : List Bytes) (d d' : Decorator) : Prop where
  name : d.name = d'.name
  argument : Option.Rel (Node.Like keep assets) d.argument d'.argument

theorem Decorator.Like.veil_eq {d d' : Decorator} (h : Like keep assets d d') :
    d.veil keep = d'.veil keep := by
  have hargument := map_eq_map_of_rel h.argument fun _ _ h => h.veil
  have hname := h.name
  cases d
  cases d'
  simp only [Decorator.name, Decorator.argument] at hname hargument
  rw [veil_mk, veil_mk, hname, hargument]

theorem Decorator.Like.children_sound (h : Forall₂ (Like keep assets) ds ds') :
    ∀ c ∈ children ds, c.All (Node.Sound assets) := by
  have hds := forall_mem_of_forall₂ h fun _ _ hd =>
    forall_mem_of_rel hd.argument fun _ _ h => h.sound
  intro c hc
  obtain ⟨d, hd, hdc⟩ := mem_filterMap.1 hc
  exact hds d hd c hdc

/-! ### Like items -/

/-- Corresponding tokens: the contents of strings may differ when they are not kept. -/
structure Token.Alike (keep : Bool) (t u : Token) : Prop where
  kind : t.kind = u.kind
  literal : keep = true ∨ t.kind ≠ .string → t.literal = u.literal
  sound : t.isSound = true

/-- Two items are equal up to places and perhaps strings, and sound. -/
inductive Item.Like (keep : Bool) (assets : List Bytes) : Item → Item → Prop
  | expr (h : Via keep assets .expr e e') : Like _ _ (.node (.expr e)) (.node (.expr e'))
  | type (h : Via keep assets .type t t') : Like _ _ (.node (.type t)) (.node (.type t'))
  | parameter (h : Via keep assets .parameter p p') :
    Like _ _ (.node (.parameter p)) (.node (.parameter p'))
  | block {b b' : Block} (h : Via keep assets .block b b') :
    Like _ _ (.node (.block b)) (.node (.block b'))
  | stmt (h : Via keep assets .stmt s s') : Like _ _ (.node (.stmt s)) (.node (.stmt s'))
  | program (h : Via keep assets .program ss ss') :
    Like _ _ (.node (.program ss)) (.node (.program ss'))
  | token (h : Token.Alike true t u) : Like _ _ (.token t) (.token u)
  | params (h : Forall₂ (Via keep assets .parameter) ps ps') : Like _ _ (.params ps) (.params ps')
  | args (h : Forall₂ (Via keep assets .expr) es es') : Like _ _ (.args es) (.args es')
  | field {key key' : Bytes} (hkey : key.veil keep = key'.veil keep)
    (h : Via keep assets .expr e e') : Like _ _ (.field key e) (.field key' e')
  | typeField {key : Bytes} (hkey : key.isName = true) (h : Via keep assets .type t t') :
    Like _ _ (.typeField key t) (.typeField key t')
  | decorator (h : Decorator.Like keep assets d d') : Like _ _ (.decorator d) (.decorator d')
  | creation (h : Forall₂ (Via keep assets .type) ts ts') :
    Like _ _ (.creation p n ts) (.creation p' n' ts')
  | call (h : Forall₂ (Via keep assets .expr) es es') : Like _ _ (.call p es) (.call p' es')
  | member (h : Via keep assets Ident.node n n') : Like _ _ (.member p n) (.member p' n')
  | typeCheck (h : Via keep assets .type t t') : Like _ _ (.typeCheck p t) (.typeCheck p' t')
  | cast (h : Via keep assets .type t t') : Like _ _ (.cast p t) (.cast p' t')

namespace Site

variable {s s' : Site} {i j : Item}

theorem like_expr (h : Item.Like keep assets i j) :
    Alike keep (Via keep assets .expr) (s.expr i) (s'.expr j) := by
  cases h with
  | expr h => exact h
  | _ => exact fun _ => rfl

theorem like_exprs {is js : List Item} (h : Forall₂ (Item.Like keep assets) is js) :
    Alike keep (Forall₂ (Via keep assets .expr)) (s.exprs is) (s'.exprs js) :=
  Alike.mapM (f := s.expr) (g := s'.expr) (fun _ _ => like_expr) h

section

variable (h : Item.Like keep assets i j)

include h

theorem like_stmt : Alike keep (Via keep assets .stmt) (s.stmt i) (s'.stmt j) := by
  cases h with
  | stmt h => exact h
  | _ => exact fun _ => rfl

theorem like_block : Alike keep (Via keep assets .block) (s.block i) (s'.block j) := by
  cases h with
  | block h => exact h
  | _ => exact fun _ => rfl

theorem like_type : Alike keep (Via keep assets .type) (s.type i) (s'.type j) := by
  cases h with
  | type h => exact h
  | _ => exact fun _ => rfl

theorem like_parameter :
    Alike keep (Via keep assets .parameter) (s.parameter i) (s'.parameter j) := by
  cases h with
  | parameter h => exact h
  | _ => exact fun _ => rfl

theorem like_params :
    Alike keep (Forall₂ (Via keep assets .parameter)) (s.params i) (s'.params j) := by
  cases h with
  | params h => exact h
  | _ => exact fun _ => rfl

theorem like_ident : Alike keep (Via keep assets Ident.node) (s.ident i) (s'.ident j) := by
  cases h with
  | expr h =>
    obtain ⟨n, n', rfl, rfl, hn⟩ | ⟨he, he'⟩ := h.ident_cases
    · exact hn
    · rw [ident.eq_2 s _ (by rintro n hn; cases hn; exact he n rfl),
        ident.eq_2 s' _ (by rintro n hn; cases hn; exact he' n rfl)]
      exact fun _ => rfl
  | _ => exact fun _ => rfl

theorem like_function : Alike keep (Via keep assets Fn.node) (s.function i) (s'.function j) := by
  cases h with
  | @stmt t t' h =>
    have hveil := h.stmt_veil
    by_cases ht : ∃ f, t = .fnDecl f
    · obtain ⟨f, rfl⟩ := ht
      obtain ⟨f', rfl⟩ := Stmt.eq_fnDecl_of_veil (hveil.symm.trans (by rw [Stmt.veil]))
      exact h
    · have ht' : ¬∃ f, t' = .fnDecl f := by
        rintro ⟨f, rfl⟩
        exact ht (Stmt.eq_fnDecl_of_veil (hveil.trans (by rw [Stmt.veil])))
      rw [function.eq_2 s _ (by rintro f hf; cases hf; exact ht ⟨_, rfl⟩),
        function.eq_2 s' _ (by rintro f hf; cases hf; exact ht' ⟨_, rfl⟩)]
      exact fun _ => rfl
  | _ => exact fun _ => rfl

end

/-! ### Types -/

/-- Two rules make like items of like items, or fail with one code. -/
def Likens (keep : Bool) (assets : List Bytes) (f g : List Item → Except Fault Item) : Prop :=
  ∀ ⦃is js : List Item⦄, Forall₂ (Item.Like keep assets) is js →
    Alike keep (Item.Like keep assets) (f is) (g js)

namespace Likens

variable {f g : List Item → Except Fault Item}

theorem one (hnil : Alike keep (Item.Like keep assets) (f []) (g []))
    (h : ∀ {i j : Item}, Item.Like keep assets i j → ∀ {is js : List Item},
      Forall₂ (Item.Like keep assets) is js →
      Alike keep (Item.Like keep assets) (f (i :: is)) (g (j :: js))) :
    Likens keep assets f g
  | _, _, .nil => hnil
  | _, _, .cons hi his => h hi his

theorem two (hnil : Alike keep (Item.Like keep assets) (f []) (g []))
    (hone : ∀ i j, Alike keep (Item.Like keep assets) (f [i]) (g [j]))
    (h : ∀ {i j : Item}, Item.Like keep assets i j → ∀ {k l : Item},
      Item.Like keep assets k l → ∀ {is js : List Item}, Forall₂ (Item.Like keep assets) is js →
      Alike keep (Item.Like keep assets) (f (i :: k :: is)) (g (j :: l :: js))) :
    Likens keep assets f g :=
  .one hnil fun hi _ _ his => match his with
    | .nil => hone _ _
    | .cons hk his => h hi hk his

theorem three (hnil : Alike keep (Item.Like keep assets) (f []) (g []))
    (hone : ∀ i j, Alike keep (Item.Like keep assets) (f [i]) (g [j]))
    (htwo : ∀ i j k l, Alike keep (Item.Like keep assets) (f [i, k]) (g [j, l]))
    (h : ∀ {i j : Item}, Item.Like keep assets i j → ∀ {k l : Item},
      Item.Like keep assets k l → ∀ {m n : Item}, Item.Like keep assets m n →
      ∀ {is js : List Item}, Forall₂ (Item.Like keep assets) is js →
      Alike keep (Item.Like keep assets) (f (i :: k :: m :: is)) (g (j :: l :: n :: js))) :
    Likens keep assets f g :=
  .two hnil hone fun hi _ _ hk _ _ his => match his with
    | .nil => htwo _ _ _ _
    | .cons hm his => h hi hk hm his

end Likens

variable {is js : List Item}

theorem like_namedType : Likens keep assets s.namedType s'.namedType :=
  .one (fun _ => rfl) fun h _ _ _ => (like_ident h).bind fun _ _ hn => .type <| .of_children
    (by simp only [Node.veil, Ty.veil, hn.ident_veil]) trivial (.cons hn .nil)

theorem like_listType : Likens keep assets s.listType s'.listType :=
  .one (fun _ => rfl) fun h _ _ _ => (like_type h).bind fun _ _ ht => .type <| .of_children
    (by simp only [Node.veil, Ty.veil, ht.type_veil]) trivial (.cons ht .nil)

theorem like_optionalType : Likens keep assets s.optionalType s'.optionalType :=
  .one (fun _ => rfl) fun h _ _ _ => (like_type h).bind fun _ _ ht => .type <| .of_children
    (by simp only [Node.veil, Ty.veil, ht.type_veil]) trivial (.cons ht .nil)

theorem like_responseType : Likens keep assets s.responseType s'.responseType :=
  .two (fun _ => rfl) (fun _ _ _ => rfl) fun hok _ _ herr _ _ _ =>
    (like_type hok).bind fun _ _ ht => (like_type herr).bind fun _ _ hu =>
      .type <| .of_children (by simp only [Node.veil, Ty.veil, ht.type_veil, hu.type_veil]) trivial
        (.cons ht (.cons hu .nil))

theorem like_tupleTypeItem : Likens keep assets s.tupleTypeItem s'.tupleTypeItem := by
  refine .two (fun _ => rfl) (fun _ _ _ => rfl)
    fun hkey _ _ htype _ _ _ => (like_ident hkey).bind fun n n' hn =>
    (like_type htype).bind fun t t' ht => ?_
  rw [← hn.name_eq]
  exact .typeField hn.isName ht

section

variable {α : Type} {part? : Item → Option (Bytes × α)} {tuple : Bytes}

/-- Parts of tuples are alike when all entries are, and keys decide alike which are refused. -/
theorem like_keyed {R : Bytes × α → Bytes × α → Prop}
    (hpart : ∀ i j, Item.Like keep assets i j → Option.Rel R (part? i) (part? j))
    (hkey : ∀ f g, R f g → keep = true → f.1 = g.1) (h : Forall₂ (Item.Like keep assets) is js)
    (hseen : keep = true → seen = seen') :
    Alike keep (Forall₂ R) (s.keyed tuple part? seen is) (s'.keyed tuple part? seen' js) := by
  induction h generalizing seen seen' with
  | nil => exact .nil
  | @cons i j _ _ hij _ ih =>
    have hparts := hpart i j hij
    rw [keyed, keyed]
    generalize part? i = x at hparts
    generalize part? j = y at hparts
    cases hparts with
    | none => exact fun _ => rfl
    | @some f g hfg =>
      have hnext (hkeep : keep = true) : f.1 :: seen = g.1 :: seen' := by
        rw [hkey f g hfg hkeep, hseen hkeep]
      refine Alike.refuse (fun hkeep => ?_) rfl ?_
      · rw [hkey f g hfg hkeep, hseen hkeep]
      · exact (ih hnext).bind fun _ _ hfields => .cons hfg hfields

theorem nodup_of_keyed {fields : List (Bytes × α)}
    (h : s.keyed tuple part? seen is = .ok fields) :
    (fields.map Prod.fst).Nodup ∧ ∀ f ∈ fields, f.1 ∉ seen := by
  induction is generalizing seen fields with
  | nil =>
    cases h
    exact ⟨.nil, nofun⟩
  | cons i is ih =>
    rw [keyed] at h
    split at h
    · cases h
    · split at h
      · cases h
      · next key _ _ hnew =>
        obtain ⟨more, hmore, hfields⟩ := of_bind_eq_ok h
        cases hfields
        obtain ⟨hnodup, hseen⟩ := ih hmore
        have hkey : key ∉ more.map Prod.fst := by
          intro hmem
          obtain ⟨f, hf, rfl⟩ := mem_map.1 hmem
          exact hseen f hf mem_cons_self
        refine ⟨nodup_cons.2 ⟨hkey, hnodup⟩, forall_mem_cons.2 ⟨by simpa using hnew, ?_⟩⟩
        exact fun f hf hmem => hseen f hf (mem_cons_of_mem _ hmem)

end

/-- Parts of tuple types are alike. -/
def TypeField (keep : Bool) (assets : List Bytes) (f g : Bytes × Ty) : Prop :=
  f.1 = g.1 ∧ f.1.isName = true ∧ Via keep assets .type f.2 g.2

theorem like_typeField (h : Item.Like keep assets i j) :
    Option.Rel (TypeField keep assets) i.typeField? j.typeField? := by
  cases h with
  | typeField hkey ht => exact .some ⟨rfl, hkey, ht⟩
  | _ => exact .none

theorem like_tupleType : Likens keep assets s.tupleType s'.tupleType := by
  intro is js h
  refine ((like_keyed (fun _ _ => like_typeField) (fun _ _ h _ => h.1) h fun _ => rfl).and_left
    fun _ hok => (nodup_of_keyed hok).1).bind
    fun fs gs hfg => .type (.of ?_ ⟨?_, hfg.2⟩ ?_)
  · simp only [Node.veil, Ty.veil, Ty.veilFields_eq_map]
    rw [map_eq_map_of_forall₂ hfg.1 fun f g h => by rw [h.1, h.2.2.type_veil]]
  · exact forall_mem_of_forall₂ hfg.1 fun f g h => h.2.1
  · exact forall_mem_map.2 (forall_mem_of_forall₂ hfg.1 fun f g h => h.2.2.sound)

end Site

end Covenant
