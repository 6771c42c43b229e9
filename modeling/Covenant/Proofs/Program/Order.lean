import Covenant.Proofs.Program.Assets
import Covenant.Proofs.Tree.Derivation.Source

/-!
# The order of the top-level statements

Each top-level tree of a program is built on its own, once the names of the declared assets are
collected, and each statement is rendered on its own.  Neither the order of building nor that of
rendering reaches into a statement.
-/

namespace Covenant

open List

/-! ### Building the trees of a program -/

namespace Tree

theorem declaredAssetsAll_eq_flatMap (ts : List Tree) :
    declaredAssetsAll ts = ts.flatMap declaredAssets := by
  induction ts with
  | nil => rfl
  | cons t ts ih => rw [declaredAssetsAll, ih, flatMap_cons]

theorem declaredAssets_program (pos : Pos) (kids : List Tree) :
    declaredAssets (.node .program pos kids) = declaredAssetsAll kids := by
  simp only [declaredAssets]

/-- The statement that a top-level tree becomes, if it becomes one. -/
def statement? (known : List Bytes) (t : Tree) : Option Stmt :=
  match t.build known with
  | .ok (.node (.stmt s)) => some s
  | _ => none

theorem build_eq_of_statement? {t : Tree}
    (h : t.statement? known = some s) : t.build known = .ok (.ofStmt s) := by
  unfold statement? at h
  split at h
  next hb =>
    cases h
    exact hb
  next => cases h

theorem statement?_congr {as bs : List Bytes} (h : ∀ n, n ∈ as ↔ n ∈ bs) (t : Tree) :
    t.statement? as = t.statement? bs := by
  rw [statement?, statement?, build_congr h]

theorem buildAll_of_statements {stmt : Tree → Stmt}
    (h : ∀ t ∈ kids, t.statement? known = some (stmt t)) :
    buildAll known kids = .ok (kids.map fun t => .ofStmt (stmt t)) := by
  induction kids with
  | nil => rfl
  | cons t ts ih =>
    rw [forall_mem_cons] at h
    rw [buildAll, build_eq_of_statement? h.1, ih h.2]
    rfl

theorem exists_statement?_of_buildAll {s : Site}
    {items : List Item} (hitems : buildAll known kids = .ok items)
    (hss : items.mapM s.stmt = .ok ss) : ∀ t ∈ kids, ∃ st, t.statement? known = some st := by
  induction kids generalizing items ss with
  | nil => simp
  | cons t ts ih =>
    obtain ⟨it, hit, hrest⟩ := of_bind_eq_ok hitems
    obtain ⟨its, hits, hcons⟩ := of_bind_eq_ok hrest
    cases hcons
    rw [mapM_cons] at hss
    obtain ⟨st, hst, hmore⟩ := of_bind_eq_ok hss
    obtain ⟨sts, hsts, -⟩ := of_bind_eq_ok hmore
    rw [forall_mem_cons]
    refine ⟨⟨st, ?_⟩, ih hits hsts⟩
    unfold Site.stmt at hst
    split at hst
    next =>
      cases hst
      rw [statement?, hit]
    next => cases hst

end Tree

namespace Program

variable {stmt : Tree → Stmt} {p : Program} {ss : List Stmt} {kids' : List Tree}

/-- The names that are known as assets in a program with these trees. -/
def known (assets : List Bytes) (kids : List Tree) : List Bytes :=
  assets ++ Tree.declaredAssetsAll kids

theorem ofTree_eq (assets : List Bytes) (pos : Pos) (kids : List Tree) :
    ofTree assets (.node .program pos kids) =
      Tree.buildAll (known assets kids) kids >>= Site.program ⟨.program, pos⟩ := by
  rfl

theorem ofTree_of_statements (pos : Pos)
    (h : ∀ t ∈ kids, t.statement? (known assets kids) = some (stmt t)) :
    ofTree assets (.node .program pos kids) = .ok ⟨kids.map stmt⟩ := by
  have hstmts : ∀ ts : List Tree,
      (ts.map fun t => Item.ofStmt (stmt t)).mapM (Site.stmt ⟨.program, pos⟩) =
        .ok (ts.map stmt) := by
    intro ts
    induction ts with
    | nil => rfl
    | cons t ts ih =>
      rw [map_cons, mapM_cons, ih]
      rfl
  rw [ofTree_eq, Tree.buildAll_of_statements h]
  change Site.program _ _ = _
  rw [Site.program, hstmts]
  rfl

theorem exists_statements_of_ofTree (h : ofTree assets (.node .program pos kids) = .ok p) :
    ∃ stmt : Tree → Stmt, (∀ t ∈ kids, t.statement? (known assets kids) = some (stmt t)) ∧
      p.statements = kids.map stmt := by
  have hbuilt := h
  obtain ⟨items, hitems, hprogram⟩ := of_bind_eq_ok hbuilt
  obtain ⟨ss, hss, -⟩ := of_bind_eq_ok hprogram
  have hall := Tree.exists_statement?_of_buildAll hitems hss
  have : Nonempty Stmt := ⟨.returnStmt {} none⟩
  choose! stmt hstmt using hall
  have hok := ofTree_of_statements pos hstmt
  rw [h] at hok
  cases hok
  exact ⟨stmt, hstmt, rfl⟩

/-! ### Rendering the statements of a program -/

def separator (s : Stmt) : Bytes :=
  if s.isSetOff then "\n\n" else "\n"

def layoutRest (text : Stmt → Bytes) (ss : List Stmt) : Bytes :=
  ss.flatMap fun s => separator s ++ text s

/-- The texts of the statements of a program, with the separators between them. -/
def layout (text : Stmt → Bytes) : List Stmt → Bytes
  | [] => []
  | s :: ss => text s ++ layoutRest text ss

variable {target : Version} {text : Stmt → Bytes} {out : Bytes}

theorem renderRest_of_texts (h : ∀ s ∈ ss, renderOne target s = .ok (text s)) :
    renderRest target ss = .ok (layoutRest text ss) := by
  induction ss with
  | nil => rfl
  | cons s ss ih =>
    rw [forall_mem_cons] at h
    rw [renderRest, h.1, ih h.2]
    rfl

theorem render_of_texts (h : ∀ s ∈ p.statements, renderOne target s = .ok (text s)) :
    p.render target = .ok (layout text p.statements) := by
  unfold render
  cases hp : p.statements with
  | nil => rfl
  | cons s ss =>
    rw [hp, forall_mem_cons] at h
    dsimp only
    rw [h.1, renderRest_of_texts h.2]
    rfl

theorem exists_text_of_renderRest (h : renderRest target ss = .ok out) :
    ∀ s ∈ ss, ∃ x, renderOne target s = .ok x := by
  induction ss generalizing out with
  | nil => simp
  | cons s ss ih =>
    obtain ⟨x, hx, hrest⟩ := of_bind_eq_ok h
    obtain ⟨rest, hrest, -⟩ := of_bind_eq_ok hrest
    rw [forall_mem_cons]
    exact ⟨⟨x, hx⟩, ih hrest⟩

theorem exists_texts_of_render (h : p.render target = .ok out) :
    ∃ text : Stmt → Bytes, (∀ s ∈ p.statements, renderOne target s = .ok (text s)) ∧
      out = layout text p.statements := by
  have hall : ∀ s ∈ p.statements, ∃ x, renderOne target s = .ok x := by
    have hrender := h
    unfold render at hrender
    cases hp : p.statements with
    | nil => simp
    | cons s ss =>
      rw [hp] at hrender
      obtain ⟨x, hx, hrest⟩ := of_bind_eq_ok hrender
      obtain ⟨rest, hrest, -⟩ := of_bind_eq_ok hrest
      rw [forall_mem_cons]
      exact ⟨⟨x, hx⟩, exists_text_of_renderRest hrest⟩
  choose! text htext using hall
  have hok := render_of_texts htext
  rw [h] at hok
  cases hok
  exact ⟨text, htext, rfl⟩

/-! ### Another order -/

theorem mem_known_perm (assets : List Bytes) (h : kids.Perm kids')
    (n : Bytes) : n ∈ known assets kids ↔ n ∈ known assets kids' := by
  have hperm := h.flatMap_right Tree.declaredAssets
  simp only [known, Tree.declaredAssetsAll_eq_flatMap, mem_append, hperm.mem_iff]

theorem statements_perm (h : kids.Perm kids')
    (hstmt : ∀ t ∈ kids, t.statement? (known assets kids) = some (stmt t)) :
    ∀ t ∈ kids', t.statement? (known assets kids') = some (stmt t) := by
  intro t ht
  rw [← hstmt t (h.mem_iff.2 ht)]
  exact Tree.statement?_congr (fun n => (mem_known_perm assets h n).symm) t

/-- **The order of the top-level trees of a program is kept and decides nothing else.**  With its
trees in another order it is built or refused as before, and built of the same statements in that
order.  They are rendered or refused as before, each to the same text, and the output is the layout
of the texts. -/
theorem ofTree_perm (assets : List Bytes) (target : Version) (pos : Pos) {kids kids' : List Tree}
    (h : kids.Perm kids') :
    ((∃ p, ofTree assets (.node .program pos kids) = .ok p) ↔
        ∃ p', ofTree assets (.node .program pos kids') = .ok p') ∧
      ∀ p p', ofTree assets (.node .program pos kids) = .ok p →
        ofTree assets (.node .program pos kids') = .ok p' →
        (∃ stmt : Tree → Stmt, p.statements = kids.map stmt ∧ p'.statements = kids'.map stmt) ∧
        ((∃ out, p.render target = .ok out) ↔ ∃ out', p'.render target = .ok out') ∧
        ∀ out out', p.render target = .ok out → p'.render target = .ok out' →
          ∃ text : Stmt → Bytes,
            (∀ s ∈ p.statements, render target ⟨[s]⟩ = .ok (text s)) ∧
            out = layout text p.statements ∧ out' = layout text p'.statements := by
  have hbuilt : ∀ {p}, ofTree assets (.node .program pos kids) = .ok p →
      ∃ stmt : Tree → Stmt, p.statements = kids.map stmt ∧
        ofTree assets (.node .program pos kids') = .ok ⟨kids'.map stmt⟩ := by
    intro p hp
    obtain ⟨stmt, hstmt, hss⟩ := exists_statements_of_ofTree hp
    exact ⟨stmt, hss, ofTree_of_statements pos (statements_perm h hstmt)⟩
  refine ⟨⟨?_, ?_⟩, ?_⟩
  · rintro ⟨p, hp⟩
    obtain ⟨stmt, -, hp'⟩ := hbuilt hp
    exact ⟨_, hp'⟩
  · rintro ⟨p', hp'⟩
    obtain ⟨stmt, hstmt, -⟩ := exists_statements_of_ofTree hp'
    exact ⟨_, ofTree_of_statements pos (statements_perm h.symm hstmt)⟩
  intro p p' hp hp'
  obtain ⟨stmt, hss, hok⟩ := hbuilt hp
  rw [hp'] at hok
  cases hok
  -- the statements are permuted with the trees they come from
  have hperm : p.statements.Perm (kids'.map stmt) := hss ▸ h.map stmt
  refine ⟨⟨stmt, hss, rfl⟩, ⟨?_, ?_⟩, ?_⟩
  · rintro ⟨out, hout⟩
    obtain ⟨text, htext, -⟩ := exists_texts_of_render hout
    exact ⟨_, render_of_texts fun s hs => htext s (hperm.mem_iff.2 hs)⟩
  · rintro ⟨out, hout⟩
    obtain ⟨text, htext, -⟩ := exists_texts_of_render hout
    exact ⟨_, render_of_texts fun s hs => htext s (hperm.mem_iff.1 hs)⟩
  · intro out out' hout hout'
    obtain ⟨text, htext, hlayout⟩ := exists_texts_of_render hout
    have hlayout' : _ = _ := hout'.symm.trans
      (render_of_texts fun s hs => htext s (hperm.mem_iff.2 hs))
    cases hlayout'
    refine ⟨text, fun s hs => ?_, hlayout, rfl⟩
    rw [render_of_texts (p := ⟨[s]⟩) (by simpa using htext s hs)]
    simp [layout, layoutRest]

/-- A function that uses an asset, with the declaration of the asset after it. -/
def lateDeclaration : Bytes :=
  "function f() { Cat.of(1); } @asset class Cat {}"

def functionFirst : Bytes :=
  "(define-private (f)\n  (nft-of? Cat 1))\n(define-non-fungible-token Cat)"

def functionLast : Bytes :=
  "(define-non-fungible-token Cat)\n\n(define-private (f)\n  (nft-of? Cat 1))"

def reversed : Tree → Tree
  | .leaf t => .leaf t
  | .node rule pos kids => .node rule pos kids.reverse

/-- The declaration may as well stand in front, and then a blank line sets the function off. -/
theorem ofTree_perm_lateDeclaration :
    ∃ pos kids p p', Tree.parse lateDeclaration = .ok (.node .program pos kids) ∧
      kids.Perm kids.reverse ∧
      ofTree [] (.node .program pos kids) = .ok p ∧
      ofTree [] (.node .program pos kids.reverse) = .ok p' ∧
      (∃ stmt : Tree → Stmt, p.statements = kids.map stmt ∧
        p'.statements = kids.reverse.map stmt) ∧
      p.render { major := 2 } = .ok functionFirst ∧
      p'.render { major := 2 } = .ok functionLast := by
  have hrun : (Tree.parse lateDeclaration >>= fun t =>
      ofTree [] t >>= fun p => ofTree [] (reversed t) >>= fun p' =>
      p.render { major := 2 } >>= fun out => Prod.mk out <$> p'.render { major := 2 }).toOption =
      some (functionFirst, functionLast) := by decide
  obtain ⟨t, ht, hrun⟩ := of_bind_eq_ok (eq_ok_of_toOption hrun)
  obtain ⟨pos, kids, d, rfl, -⟩ := Tree.parses_parse ht
  obtain ⟨p, hp, hrun⟩ := of_bind_eq_ok hrun
  obtain ⟨p', hp', hrun⟩ := of_bind_eq_ok hrun
  obtain ⟨out, hout, hrun⟩ := of_bind_eq_ok hrun
  obtain ⟨out', hout', hrun⟩ := of_bind_eq_ok hrun
  cases hrun
  have hperm : kids.Perm kids.reverse := (reverse_perm kids).symm
  obtain ⟨hstmt, -⟩ := (ofTree_perm [] { major := 2 } pos hperm).2 p p' hp hp'
  exact ⟨pos, kids, p, p', ht, hperm, hp, hp', hstmt, hout, hout'⟩

end Program

end Covenant
