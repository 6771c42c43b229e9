import Covenant.Text.Bytes

/-!
# Tokens

The words of the contract language: names, literals, operators, delimiters and keywords, each with
its text and the place where it starts.
-/

namespace Covenant

/-- A place in a source: lines count from one, columns count glyphs.  The default stands for no
place at all. -/
structure Pos where
  line : Int := 0
  column : Int := 0
  deriving DecidableEq, Repr, Inhabited

/-- The kinds of tokens. -/
inductive TokenKind where
  | illegal | eof
  | ident | int | float | string | principal | decorator
  | assign | plus | minus | bang | asterisk | slash | percent
  | less | greater | lessEq | greaterEq | equal | notEqual | and | or
  | bitAnd | bitOr | bitXor | shiftLeft | shiftRight | question | arrow
  | comma | semicolon | colon | dot
  | lparen | rparen | lbrace | rbrace | lbracket | rbracket
  | kwFunction | kwLet | kwConst | kwClass | kwTrait | kwIf | kwElse | kwTry | kwCatch | kwThrow
  | kwReturn | kwImport | kwExport | kwNew | kwFor | kwIn | kwIs | kwAs | kwTrue | kwFalse | kwNone
  | unknown
  deriving DecidableEq, Repr, Inhabited

namespace TokenKind

/-- The display name: an operator by its text, everything else by a word in capitals. -/
def name : TokenKind → String
  | illegal => "ILLEGAL" | eof => "EOF"
  | ident => "IDENT" | int => "INT" | float => "FLOAT" | string => "STRING"
  | principal => "PRINCIPAL" | decorator => "DECORATOR"
  | assign => "=" | plus => "+" | minus => "-" | bang => "!" | asterisk => "*" | slash => "/"
  | percent => "%" | less => "<" | greater => ">" | lessEq => "<=" | greaterEq => ">="
  | equal => "==" | notEqual => "!=" | and => "&&" | or => "||"
  | bitAnd => "&" | bitOr => "|" | bitXor => "^" | shiftLeft => "<<" | shiftRight => ">>"
  | question => "?" | arrow => "=>"
  | comma => "," | semicolon => ";" | colon => ":" | dot => "."
  | lparen => "(" | rparen => ")" | lbrace => "\x7b" | rbrace => "\x7d"
  | lbracket => "[" | rbracket => "]"
  | kwFunction => "FUNCTION" | kwLet => "LET" | kwConst => "CONST" | kwClass => "CLASS"
  | kwTrait => "TRAIT" | kwIf => "IF" | kwElse => "ELSE" | kwTry => "TRY" | kwCatch => "CATCH"
  | kwThrow => "THROW" | kwReturn => "RETURN" | kwImport => "IMPORT" | kwExport => "EXPORT"
  | kwNew => "NEW" | kwFor => "FOR" | kwIn => "IN" | kwIs => "IS" | kwAs => "AS"
  | kwTrue => "TRUE" | kwFalse => "FALSE" | kwNone => "NONE"
  | unknown => "UNKNOWN"

/-- The kinds of the language in their fixed order, which numbers them from zero. -/
def all : List TokenKind :=
  [illegal, eof, ident, int, float, string, principal, decorator,
   assign, plus, minus, bang, asterisk, slash, percent,
   less, greater, lessEq, greaterEq, equal, notEqual, and, or,
   bitAnd, bitOr, bitXor, shiftLeft, shiftRight, question, arrow,
   comma, semicolon, colon, dot, lparen, rparen, lbrace, rbrace, lbracket, rbracket,
   kwFunction, kwLet, kwConst, kwClass, kwTrait, kwIf, kwElse, kwTry, kwCatch, kwThrow,
   kwReturn, kwImport, kwExport, kwNew, kwFor, kwIn, kwIs, kwAs, kwTrue, kwFalse, kwNone]

def ofIndex (i : Int) : TokenKind :=
  if i < 0 then unknown else (all[i.toNat]?).getD unknown

def ofName (s : String) : TokenKind :=
  (all.find? (·.name == s)).getD unknown

def keywords : List (String × TokenKind) :=
  [("function", kwFunction), ("let", kwLet), ("const", kwConst), ("class", kwClass),
   ("trait", kwTrait), ("if", kwIf), ("else", kwElse), ("try", kwTry), ("catch", kwCatch),
   ("throw", kwThrow), ("return", kwReturn), ("import", kwImport), ("export", kwExport),
   ("new", kwNew), ("for", kwFor), ("in", kwIn), ("is", kwIs), ("as", kwAs), ("true", kwTrue),
   ("false", kwFalse), ("none", kwNone)]

def ofWord (w : Bytes) : TokenKind :=
  match keywords.find? fun (k, _) => Bytes.ofString k == w with
  | some (_, kind) => kind
  | none => ident

end TokenKind

/-- A token of the source. -/
structure Token where
  kind : TokenKind
  /-- Its text; for a string the decoded contents. -/
  literal : Bytes
  pos : Pos
  deriving DecidableEq, Repr, Inhabited

/-- The literal of the token that stands for a string without its closing quote. -/
def Token.openString : Bytes := "unterminated string"

/-- The literal of the token that stands for a block comment without its end. -/
def Token.openComment : Bytes := "unterminated comment"

def Token.summary (t : Token) : Bytes :=
  "\x7bType: " ++ t.kind.name ++ ", Literal: " ++ t.literal ++ ", Line: " ++
    Bytes.ofInt t.pos.line ++ ", Column: " ++ Bytes.ofInt t.pos.column ++ "\x7d"

end Covenant
