import Covenant.Proofs.Program.Assets
import Covenant.Proofs.Program.Refusal.Expression
import Covenant.Proofs.Program.Refusal.Statement

/-!
# Programs that are built or refused

Parser and builder agree on the format of trees: whatever the parser hands over is built, or has one
of the faults that `Tree.Refuses` lists.  Nothing else can go wrong: no part is missing, none stands
where the builder does not expect it, and no rule is unknown.
-/

namespace Covenant

open List

theorem Rule.agrees (rule : Rule) : rule.Agrees := by
  cases rule with
  | program => exact agrees_program
  | functionDecl => exact agrees_functionDecl
  | decorator => exact agrees_decorator
  | variableDecl => exact agrees_variableDecl
  | constantDecl => exact agrees_constantDecl
  | mapDecl => exact agrees_mapDecl
  | assetDecl => exact agrees_assetDecl
  | assetField => exact agrees_assetField
  | traitDecl => exact agrees_traitDecl
  | signature => exact agrees_signature
  | exprStmt => exact agrees_exprStmt
  | ifStmt => exact agrees_ifStmt
  | tryStmt => exact agrees_tryStmt
  | throwStmt => exact agrees_throwStmt
  | returnStmt => exact agrees_returnStmt
  | importDecl => exact agrees_importDecl
  | exportDecl => exact agrees_exportDecl
  | block => exact agrees_block
  | parameters => exact agrees_parameters
  | parameter => exact agrees_parameter
  | arguments => exact agrees_arguments
  | assignment => exact agrees_assignment
  | conditional => exact agrees_conditional
  | binary level => exact agrees_binary level
  | unary => exact agrees_unary
  | suffixed => exact agrees_suffixed
  | call => exact agrees_call
  | member => exact agrees_member
  | isSuffix => exact agrees_isSuffix
  | asSuffix => exact agrees_asSuffix
  | listLit => exact agrees_listLit
  | tupleLit => exact agrees_tupleLit
  | tupleItem => exact agrees_tupleItem
  | comprehension => exact agrees_comprehension
  | lambda => exact agrees_lambda
  | newExpr => exact agrees_newExpr
  | literal => exact agrees_literal
  | namedType => exact agrees_namedType
  | listType => exact agrees_listType
  | tupleType => exact agrees_tupleType
  | tupleTypeItem => exact agrees_tupleTypeItem
  | optionalType => exact agrees_optionalType
  | responseType => exact agrees_responseType
  | other name =>
    intro assets root p kids items _ _ hk
    exact hk.elim

namespace Tree

theorem becomes_literal {root : Tree} (hroot : root.Contains (.leaf t))
    (hshape : (leaf t).shape = .literal) (hself : (Node.expr e).Formed root)
    (hchildren : e.children = []) : root.Becomes (.leaf t) (.ofExpr e) := by
  refine ⟨hroot, ?_, Item.formed_node hself ?_⟩
  · rw [hshape]
    exact ⟨e, rfl⟩
  · simp [Node.children, hchildren]

theorem answers_ofToken {root : Tree} {t : Token} (h : t.IsWritten)
    (hroot : root.Contains (.leaf t)) : root.Answers (Item.ofToken t) (root.Becomes (.leaf t)) := by
  unfold Item.ofToken
  split
  case h_1 hk =>
    refine .ok ⟨hroot, ?_, Item.formed_node trivial (forall_mem_nil _)⟩
    rw [shape, hk]
    exact ⟨⟨t.literal, t.pos⟩, rfl, rfl⟩
  case h_2 hk =>
    split
    · exact .ok (becomes_literal hroot (by rw [shape, hk]) trivial rfl)
    · next hnone => exact .error hroot (.tooLarge (.inl ⟨hk, Numeral.lt_of_int64? (h.1 hk) hnone⟩))
  case h_3 hk =>
    split
    · exact .ok (becomes_literal hroot (by rw [shape, hk]) trivial rfl)
    · next hnone =>
      exact .error hroot (.tooLarge (.inr ⟨hk, Numeral.overflow_le_of_binary64? (h.2 hk) hnone⟩))
  case h_4 hk =>
    refine .ok ⟨hroot, ?_, Item.formed_node trivial (forall_mem_nil _)⟩
    rw [shape, hk]
    exact ⟨t.literal, t.pos, rfl⟩
  case h_9 =>
    refine .ok ⟨hroot, ?_, forall_mem_nil _⟩
    by_cases hk : t.kind = .decorator
    · rw [shape, hk]
      exact ⟨t, hk, rfl, rfl⟩
    · have hshape : (leaf t).shape = .operator := by
        unfold shape
        split <;> simp_all
      rw [hshape]
      exact ⟨t, rfl⟩
  all_goals
    next hk => exact .ok (becomes_literal hroot (by rw [shape, hk]) trivial rfl)

variable {root : Tree}

theorem answers_buildAll (hkids : ∀ t ∈ kids, root.Contains t)
    (h : ∀ t ∈ kids, root.Contains t → root.Answers (t.build assets) (root.Becomes t)) :
    root.Answers (buildAll assets kids) (Forall₂ root.Becomes kids) := by
  induction kids with
  | nil => exact .ok .nil
  | cons t ts ih =>
    obtain ⟨ht, hts⟩ := forall_mem_cons.1 hkids
    obtain ⟨hbuild, hmore⟩ := forall_mem_cons.1 h
    refine (hbuild ht).bind fun it hit => (ih hts hmore).bind fun items hitems => ?_
    exact .ok (.cons hit hitems)

theorem answers_build {t : Tree} (h : t.Formed Token.IsWritten) (hroot : root.Contains t) :
    root.Answers (t.build assets) (root.Becomes t) := by
  induction h with
  | leaf h => exact answers_ofToken h hroot
  | node hk _ ih =>
    have hkids : ∀ t ∈ _, root.Contains t := fun t ht => hroot.trans (.kid ht (.refl t))
    refine (answers_buildAll hkids ih).bind fun items hitems => ?_
    exact (Rule.agrees _ hroot hitems hk).mono fun it hit => ⟨hroot, hit.1, hit.2⟩

end Tree

/-- A program of a source is built, or there is a reason in its tree. -/
theorem Program.answers_ofTree {source : Bytes} (h : Tree.parse source = .ok t)
    (assets : List Bytes) : t.Answers (ofTree assets t) fun program =>
      (Node.program program.statements).All (Node.Formed t) := by
  have hformed := Tree.formed_parse h
  obtain ⟨p, stmts, -, -, -, rfl, -⟩ := Tree.derives_parse h
  cases hformed with
  | node hk hkids =>
    have hbelow : ∀ u ∈ stmts, (Tree.node .program p stmts).Contains u := fun u hu =>
      .kid hu (.refl u)
    refine (Tree.answers_buildAll hbelow fun u hu => Tree.answers_build (hkids u hu)).bind ?_
    intro items hitems
    exact Rule.answers_program _ hitems hk

theorem exists_error_of_toBool {ε α : Type} {x : Except ε α} (h : x.toBool = false) :
    ∃ e, x = .error e := by
  cases x with
  | ok a => cases h
  | error e => exact ⟨e, rfl⟩

/-- **Parser and builder agree on the format of trees.**  The tree of a source becomes a program, or
it is refused for a reason that shows in one of its subtrees. -/
theorem Program.ok_or_refused_of_parse {source : Bytes} {t : Tree} (h : Tree.parse source = .ok t)
    (assets : List Bytes) :
    (∃ program, Program.ofTree assets t = .ok program) ∨
      ∃ f, Program.ofTree assets t = .error f ∧
        f.cause.code ∈ ["BUILD-0002", "BUILD-0003", "BUILD-0004", "BUILD-0005", "BUILD-0006",
          "BUILD-0007", "BUILD-0009", "BUILD-0010"] ∧
        ∃ u, t.Contains u ∧ u.Refuses f.cause := by
  have hanswers := Program.answers_ofTree h assets
  cases hbuild : Program.ofTree assets t with
  | ok program => exact .inl ⟨program, rfl⟩
  | error f =>
    rw [hbuild] at hanswers
    obtain ⟨u, hu, hrefuses⟩ := hanswers
    exact .inr ⟨f, rfl, hrefuses.code_mem, u, hu, hrefuses⟩

/-- A key that is written as a name and as a string. -/
theorem Program.refused_repeatedKey :
    ∃ t f u, Tree.parse "const t = \x7ba: \x7bb: 1\x7d, \"a\": 2\x7d;" = .ok t ∧
      Program.ofTree ["Coin"] t = .error f ∧ t.Contains u ∧ u.Refuses f.cause := by
  have hrun : (Tree.parse "const t = \x7ba: \x7bb: 1\x7d, \"a\": 2\x7d;" >>= fun t =>
      .ok (Program.ofTree ["Coin"] t).toBool).toOption = some false := by decide +kernel
  obtain ⟨t, ht, hrun⟩ := of_bind_eq_ok (eq_ok_of_toOption hrun)
  obtain ⟨g, hg⟩ := exists_error_of_toBool (Except.ok.inj hrun)
  obtain ⟨program, hp⟩ | ⟨f, hf, -, u, hu⟩ := Program.ok_or_refused_of_parse ht ["Coin"]
  · rw [hp] at hg
    cases hg
  · exact ⟨t, f, u, ht, hf, hu⟩

end Covenant
