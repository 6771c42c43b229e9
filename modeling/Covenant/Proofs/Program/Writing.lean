import Covenant.Program.Basic
import Covenant.Proofs.Token.Writing

/-!
# Expressions in source syntax

An expression is written as tokens, with parentheses only where operators and suffixes would
otherwise be grouped in another way.  Function values, what they answer, type tests and type
assertions stand in parentheses always, and so does a principal before a suffix.

A place in an expression has a number.  Each number allows what the numbers above it allow, and the
expressions of its own:
-/

namespace Covenant

open Token (symbol keyword)

/-! ### Types -/

namespace Ty

mutual

def words : Ty → List Token
  | named n => [Token.word n.name]
  | list _ t => Token.word "list" :: symbol .less :: (commas [t.words] ++ [symbol .greater])
  | tuple _ fields => symbol .lbrace :: (commas (fieldWords fields) ++ [symbol .rbrace])
  | optional _ t => Token.word "optional" :: symbol .less :: (commas [t.words] ++ [symbol .greater])
  | response _ ok err =>
    Token.word "response" :: symbol .less :: (commas [ok.words, err.words] ++ [symbol .greater])

def fieldWords : List (Bytes × Ty) → List (List Token)
  | [] => []
  | (key, t) :: fields => (Token.word key :: symbol .colon :: t.words) :: fieldWords fields

end

end Ty

def Parameter.words (p : Parameter) : List Token :=
  Token.word p.name.name ::
    match p.type with
    | none => []
    | some t => symbol .colon :: t.words

/-! ### Operators -/

def BinOp.kind : BinOp → TokenKind
  | assign => .assign
  | add => .plus | sub => .minus | mul => .asterisk | div => .slash | mod => .percent
  | lt => .less | gt => .greater | le => .lessEq | ge => .greaterEq | eq => .equal | ne => .notEqual
  | and => .and | or => .or
  | bitAnd => .bitAnd | bitOr => .bitOr | bitXor => .bitXor
  | shiftLeft => .shiftLeft | shiftRight => .shiftRight
  | other _ => .unknown

def BinOp.place : BinOp → Nat
  | assign => 0
  | or => 2
  | and => 3
  | bitOr => 4
  | bitXor => 5
  | bitAnd => 6
  | eq | ne => 7
  | lt | gt | le | ge => 8
  | shiftLeft | shiftRight => 9
  | add | sub => 10
  | mul | div | mod | other _ => 11

/-- The place of the left operand: an operator groups to the left, but for assignment. -/
def BinOp.leftPlace (op : BinOp) : Nat :=
  if op = assign then 1 else op.place

def BinOp.rightPlace (op : BinOp) : Nat :=
  if op = assign then 0 else op.place + 1

def UnOp.kind : UnOp → TokenKind
  | not => .bang
  | neg => .minus
  | other _ => .unknown

/-! ### Expressions -/

/-- The tokens of a literal; a negative number starts with its sign. -/
def Literal.words : Literal → List Token
  | int v =>
    if v.toInt < 0 then [symbol .minus, ⟨.int, Bytes.ofNat v.toInt.natAbs, {}⟩]
    else [⟨.int, Bytes.ofNat v.toInt.natAbs, {}⟩]
  | float _ => []
  | string s => [⟨.string, s, {}⟩]
  | bool b => [keyword (if b then "true" else "false")]

def Expr.place : Expr → Nat
  | .binary _ op _ _ => op.place
  | .conditional .. => 1
  | .unary .. => 12
  | .literal _ _ (.int v) => if v.toInt < 0 then 12 else 14
  | .principal .. => 13
  | _ => 14

/-- The tokens of an expression that needs the place `own`, at the place `n`. -/
def wordsAt (n own : Nat) (ws : List Token) : List Token :=
  if own < n then parens ws else ws

mutual

def Expr.words : Expr → List Token
  | .ident n => [Token.word n.name]
  | .literal _ _ v => v.words
  | .principal _ address => [⟨.principal, address, {}⟩]
  | .noneLit _ => [keyword "none"]
  | .someOf _ e => Token.word "some" :: parens (commas [e.words])
  | .list _ es => symbol .lbracket :: (commas (Expr.allWords es) ++ [symbol .rbracket])
  | .tuple _ fields => symbol .lbrace :: (commas (Expr.fieldWords fields) ++ [symbol .rbrace])
  | .binary _ op l r =>
    wordsAt op.leftPlace l.place l.words ++ symbol op.kind :: wordsAt op.rightPlace r.place r.words
  | .unary _ op e => symbol op.kind :: wordsAt 12 e.place e.words
  | .conditional _ c t e =>
    wordsAt 2 c.place c.words ++ symbol .question :: (t.words ++
      symbol .colon :: wordsAt 1 e.place e.words)
  | .member _ e property => wordsAt 14 e.place e.words ++ [symbol .dot, Token.word property.name]
  | .call _ f args => wordsAt 14 f.place f.words ++ parens (commas (Expr.allWords args))
  | .contractCall _ contract function args =>
    Token.word contract.name :: symbol .dot :: Token.word function ::
      parens (commas (Expr.allWords args))
  | .assetCall _ asset function args =>
    Token.word asset.name :: symbol .dot :: Token.word function ::
      parens (commas (Expr.allWords args))
  | .map _ l f => Token.word "map" :: parens (commas [l.words, f.words])
  | .filter _ l f => Token.word "filter" :: parens (commas [l.words, f.words])
  | .fold _ l i f => Token.word "fold" :: parens (commas [l.words, i.words, f.words])
  | .comprehension _ e x l none =>
    symbol .lbracket :: (e.words ++ keyword "for" :: Token.word x.name :: keyword "in" ::
      (l.words ++ [symbol .rbracket]))
  | .comprehension _ e x l (some c) =>
    symbol .lbracket :: (e.words ++ keyword "for" :: Token.word x.name :: keyword "in" ::
      (l.words ++ keyword "if" :: (c.words ++ [symbol .rbracket])))
  | .lambda _ ps body =>
    parens (parens (commas (ps.map Parameter.words)) ++ symbol .arrow :: parens body.words)
  | .typeCheck _ e t => parens (wordsAt 14 e.place e.words ++ keyword "is" :: t.words)
  | .cast _ e t => parens (wordsAt 14 e.place e.words ++ keyword "as" :: t.words)

def Expr.allWords : List Expr → List (List Token)
  | [] => []
  | e :: es => e.words :: Expr.allWords es

def Expr.fieldWords : List (Bytes × Expr) → List (List Token)
  | [] => []
  | (key, e) :: fields => (⟨.string, key, {}⟩ :: symbol .colon :: e.words) :: Expr.fieldWords fields

/-- The tokens of what a function value answers, unless it is a block. -/
def Body.words : Body → List Token
  | .expr e => e.words
  | .block _ => []

end

/-- A declaration of the constant `v` with the value of the expression. -/
def Expr.declaration (e : Expr) : List Token :=
  keyword "const" :: Token.word "v" :: symbol .assign :: (e.words ++ [symbol .semicolon])

def Expr.source (e : Expr) : Bytes :=
  Token.writeAll e.declaration

/-! ### Parts in a row -/

theorem Ty.fieldWords_eq_map (fields : List (Bytes × Ty)) :
    fieldWords fields = fields.map fun f => Token.word f.1 :: symbol .colon :: f.2.words := by
  induction fields with
  | nil => rfl
  | cons f fields ih => rw [fieldWords, ih, List.map_cons]

theorem Ty.words_tuple (p : Pos) (fields : List (Bytes × Ty)) :
    (tuple p fields).words = symbol .lbrace ::
      (commas (fields.map fun f => Token.word f.1 :: symbol .colon :: f.2.words) ++
        [symbol .rbrace]) := by
  rw [words, fieldWords_eq_map]

namespace Expr

theorem allWords_eq_map (es : List Expr) : allWords es = es.map words := by
  induction es with
  | nil => rw [allWords, List.map_nil]
  | cons e es ih => rw [allWords, ih, List.map_cons]

theorem fieldWords_eq_map (fields : List (Bytes × Expr)) : fieldWords fields =
      fields.map fun f => ⟨.string, f.1, {}⟩ :: symbol .colon :: f.2.words := by
  induction fields with
  | nil => rw [fieldWords, List.map_nil]
  | cons f fields ih => rw [fieldWords, ih, List.map_cons]

variable (p : Pos)

theorem words_list (es : List Expr) : (list p es).words =
    symbol .lbracket :: (commas (es.map words) ++ [symbol .rbracket]) := by
  rw [words, allWords_eq_map]

theorem words_tuple (fields : List (Bytes × Expr)) : (tuple p fields).words =
    symbol .lbrace :: (commas (fields.map fun f =>
    ⟨.string, f.1, {}⟩ :: symbol .colon :: f.2.words) ++
      [symbol .rbrace]) := by
  rw [words, fieldWords_eq_map]

theorem words_call (f : Expr) (args : List Expr) : (call p f args).words =
    wordsAt 14 f.place f.words ++ parens (commas (args.map words)) := by
  rw [words, allWords_eq_map]

theorem words_contractCall (contract : Ident) (function : Bytes) (args : List Expr) :
    (contractCall p contract function args).words = Token.word contract.name :: symbol .dot ::
      Token.word function :: parens (commas (args.map words)) := by
  rw [words, allWords_eq_map]

theorem words_assetCall (asset : Ident) (function : Bytes) (args : List Expr) :
    (assetCall p asset function args).words = Token.word asset.name :: symbol .dot ::
      Token.word function :: parens (commas (args.map words)) := by
  rw [words, allWords_eq_map]

theorem place_int {v : Int64} (hv : 0 ≤ v.toInt) (first : Bytes) :
    (literal first p (.int v)).place = 14 := by
  rw [place, if_neg (by omega)]

end Expr

end Covenant
