import Covenant.Text.Class
import Covenant.Text.Glyph
import Covenant.Token

/-!
# Scanning a source into tokens

A `Scanner` stands on a glyph of the source and knows its place.  `Scanner.next` skips blanks and
comments and takes the longest token that starts there; at the end of the source, or on a NUL
character, it answers the end-of-input token and stays.
-/

namespace Covenant

/-- The place of a glyph that follows the place `p`; the end of the source has no place of its
own. -/
def Pos.enter (p : Pos) : Option Glyph → Pos
  | none => p
  | some g => if g.is '\n' then ⟨p.line + 1, 0⟩ else ⟨p.line, p.column + 1⟩

/-- A reading position: what is left of the source, and the place of its first glyph. -/
structure Scanner where
  rest : List Glyph
  /-- The place of the first of them, or of the last glyph of the source. -/
  pos : Pos
  deriving DecidableEq, Repr, Inhabited

namespace Scanner

def ofBytes (source : Bytes) : Scanner :=
  let gs := source.glyphs
  ⟨gs, Pos.enter ⟨1, 0⟩ gs.head?⟩

def advance (s : Scanner) : Scanner :=
  match s.rest with
  | [] => s
  | _ :: rest => ⟨rest, s.pos.enter rest.head?⟩

/-! ### Glyph classes -/

def isNameStart (g : Glyph) : Bool :=
  g.is '_' || Rune.isLetter g.rune

def isDigit (g : Glyph) : Bool :=
  Rune.isAsciiDigit g.rune

def isNamePart (g : Glyph) : Bool :=
  isNameStart g || isDigit g

def isAddressPart (g : Glyph) : Bool :=
  isDigit g || Rune.isAsciiUpper g.rune

def isContractPart (g : Glyph) : Bool :=
  isDigit g || Rune.isAsciiUpper g.rune || Rune.isAsciiLower g.rune || g.is '_' || g.is '-'

def isBlank (g : Glyph) : Bool :=
  g.is ' ' || g.is '\t' || g.is '\n' || g.is '\r'

/-! ### Blanks and comments -/

/-- What kind of text between tokens the scanner is in. -/
inductive Mode where
  /-- Blanks. -/
  | blank
  /-- A comment up to the end of its line. -/
  | line
  /-- A comment that was opened at the given place. -/
  | block (start : Pos)

/-- The result of skipping: the scanner stands on a token or at the end, or a comment that was
opened at the given place has no end. -/
inductive Skipped where
  | ready (s : Scanner)
  | openComment (start : Pos) (s : Scanner)

def skip : (mode : Mode) → (rest : List Glyph) → (pos : Pos) → Skipped
  | .block start, [], p => .openComment start ⟨[], p⟩
  | _, [], p => .ready ⟨[], p⟩
  | .blank, .char '/' :: .char '/' :: rest, p =>
    skip .line rest ((p.enter (some (.char '/'))).enter rest.head?)
  | .blank, .char '/' :: .char '*' :: rest, p =>
    skip (.block p) rest ((p.enter (some (.char '*'))).enter rest.head?)
  | .blank, g :: rest, p =>
    if isBlank g then skip .blank rest (p.enter rest.head?) else .ready ⟨g :: rest, p⟩
  | .line, g :: rest, p =>
    if g.is '\n' then skip .blank rest (p.enter rest.head?)
    else if g.is '\x00' then .ready ⟨g :: rest, p⟩
    else skip .line rest (p.enter rest.head?)
  | .block _, .char '*' :: .char '/' :: rest, p =>
    skip .blank rest ((p.enter (some (.char '/'))).enter rest.head?)
  | .block start, g :: rest, p =>
    if g.is '\x00' then .openComment start ⟨g :: rest, p⟩
    else skip (.block start) rest (p.enter rest.head?)

def skipTrivia (s : Scanner) : Skipped :=
  skip .blank s.rest s.pos

/-! ### Runs of glyphs -/

def spanFrom (p : Glyph → Bool) : (rest : List Glyph) → (pos : Pos) → List Glyph × Scanner
  | [], pos => ([], ⟨[], pos⟩)
  | g :: rest, pos =>
    if p g then
      let (run, s) := spanFrom p rest (pos.enter rest.head?)
      (g :: run, s)
    else ([], ⟨g :: rest, pos⟩)

def span (p : Glyph → Bool) (s : Scanner) : List Glyph × Scanner :=
  spanFrom p s.rest s.pos

def at? (s : Scanner) (c : Char) : Bool :=
  s.rest.head? == some (.char c)

def number (s : Scanner) : List Glyph × Scanner :=
  let (whole, s₁) := s.span isDigit
  match s₁.rest with
  | .char '.' :: g :: _ =>
    if isDigit g then
      let (fraction, s₂) := s₁.advance.span isDigit
      (whole ++ .char '.' :: fraction, s₂)
    else (whole, s₁)
  | _ => (whole, s₁)

def principal (s : Scanner) : List Glyph × Scanner :=
  let (address, s₁) := s.span isAddressPart
  if s₁.at? '.' then
    let (contract, s₂) := s₁.advance.span isContractPart
    (address ++ .char '.' :: contract, s₂)
  else (address, s₁)

/-- The scanner, on a single quote, starts a principal: an address follows that has no closing
quote. -/
def opensPrincipal (s : Scanner) : Bool :=
  match s.rest with
  | _ :: .char 'S' :: .char k :: g :: _ =>
    (k == 'P' || k == 'M' || k == 'T' || k == 'N') && isAddressPart g &&
      !(s.advance.principal.2.at? '\x27')
  | _ => false

/-! ### Strings -/

/-- The bytes that a backslash and the glyph behind it stand for.  An unknown escape keeps the
backslash and the first byte of what follows. -/
def escaped (g : Glyph) : Bytes :=
  match g with
  | .char 'n' => "\n"
  | .char 't' => "\t"
  | .char '\x5c' => "\\"
  | .char '\x22' => "\""
  | .char '\x27' => "'"
  | _ => "\\" ++ g.bytes.take 1

/-- The contents of a string up to its closing quote, on which the scanner is left.  A line end, a
NUL character or the end of the source leaves the string open. -/
def stringBody (quote : Char) : (rest : List Glyph) → (pos : Pos) → Option Bytes × Scanner
  | [], pos => (none, ⟨[], pos⟩)
  | g :: rest, pos =>
    if g.is quote then (some [], ⟨g :: rest, pos⟩)
    else if g.is '\x00' || g.is '\n' then (none, ⟨g :: rest, pos⟩)
    else if g.is '\x5c' then
      match rest with
      | [] => (none, ⟨[], pos⟩)
      | e :: rest' =>
        let (body, s) := stringBody quote rest' ((pos.enter (some e)).enter rest'.head?)
        (body.map (escaped e ++ ·), s)
    else
      let (body, s) := stringBody quote rest (pos.enter rest.head?)
      (body.map (g.bytes ++ ·), s)

def string (quote : Char) (s : Scanner) : Token × Scanner :=
  let inner := s.advance
  match stringBody quote inner.rest inner.pos with
  | (some body, s') => (⟨.string, body, s.pos⟩, s'.advance)
  | (none, s') => (⟨.illegal, Token.openString, s.pos⟩, s')

/-! ### Tokens -/

/-- The operator or delimiter that starts with `c`, given the glyph behind it.  The flag says
whether that glyph belongs to it. -/
def symbol (c : Char) (next : Option Glyph) : Option (TokenKind × Bool) :=
  let followedBy (d : Char) : Bool := next == some (.char d)
  match c with
  | '=' =>
    if followedBy '=' then some (.equal, true)
    else if followedBy '>' then some (.arrow, true)
    else some (.assign, false)
  | '!' => if followedBy '=' then some (.notEqual, true) else some (.bang, false)
  | '<' =>
    if followedBy '=' then some (.lessEq, true)
    else if followedBy '<' then some (.shiftLeft, true)
    else some (.less, false)
  | '>' =>
    if followedBy '=' then some (.greaterEq, true)
    else if followedBy '>' then some (.shiftRight, true)
    else some (.greater, false)
  | '&' => if followedBy '&' then some (.and, true) else some (.bitAnd, false)
  | '|' => if followedBy '|' then some (.or, true) else some (.bitOr, false)
  | '^' => some (.bitXor, false)
  | '+' => some (.plus, false)
  | '-' => some (.minus, false)
  | '*' => some (.asterisk, false)
  | '/' => some (.slash, false)
  | '%' => some (.percent, false)
  | '?' => some (.question, false)
  | ',' => some (.comma, false)
  | ';' => some (.semicolon, false)
  | ':' => some (.colon, false)
  | '.' => some (.dot, false)
  | '(' => some (.lparen, false)
  | ')' => some (.rparen, false)
  | '\x7b' => some (.lbrace, false)
  | '\x7d' => some (.rbrace, false)
  | '[' => some (.lbracket, false)
  | ']' => some (.rbracket, false)
  | _ => none

/-- The token that starts at the scanner, which stands behind blanks and comments. -/
def token (s : Scanner) : Token × Scanner :=
  match s.rest with
  | [] => (⟨.eof, [], s.pos⟩, s)
  | g :: rest =>
    if g.is '\x00' then (⟨.eof, [], s.pos⟩, s)
    else match symbol g.rune rest.head? with
      | some (kind, two) =>
        (⟨kind, kind.name, s.pos⟩, if two then s.advance.advance else s.advance)
      | none =>
        if g.is '\x22' then s.string '\x22'
        else if g.is '\x27' then
          if s.opensPrincipal then
            let (run, s') := s.advance.principal
            (⟨.principal, Bytes.ofGlyphs run, s.pos⟩, s')
          else s.string '\x27'
        else if g.is '@' then
          match rest with
          | h :: _ =>
            if isNameStart h then
              let (run, s') := s.advance.span isNamePart
              (⟨.decorator, "@" ++ Bytes.ofGlyphs run, s.pos⟩, s')
            else (⟨.illegal, "@", s.pos⟩, s.advance)
          | [] => (⟨.illegal, "@", s.pos⟩, s.advance)
        else if isNameStart g then
          let (run, s') := s.span isNamePart
          let word := Bytes.ofGlyphs run
          (⟨TokenKind.ofWord word, word, s.pos⟩, s')
        else if isDigit g then
          let (run, s') := s.number
          let kind := if run.contains (.char '.') then TokenKind.float else TokenKind.int
          (⟨kind, Bytes.ofGlyphs run, s.pos⟩, s')
        else (⟨.illegal, Bytes.ofChar g.rune, s.pos⟩, s.advance)

def next (s : Scanner) : Token × Scanner :=
  match s.skipTrivia with
  | .ready s' => s'.token
  | .openComment start s' => (⟨.illegal, Token.openComment, start⟩, s')

def tokensWithin : (fuel : Nat) → Scanner → List Token
  | 0, _ => []
  | fuel + 1, s =>
    let (t, s') := s.next
    if t.kind = .eof then [t] else t :: tokensWithin fuel s'

/-- The tokens from here on, up to and including the end of input.  Every other token takes at
least one glyph, so the bound is never met. -/
def tokens (s : Scanner) : List Token :=
  tokensWithin (s.rest.length + 1) s

end Scanner

def Token.scan (source : Bytes) : List Token :=
  (Scanner.ofBytes source).tokens

end Covenant
