import Covenant.Text.Glyph
import Covenant.Yaml.Scalar

/-!
# Documents

Structured text of the everyday kind: mappings and sequences by indentation or in brackets, plain
and quoted scalars, and comments.  A text that is no such document is refused without saying why.

The parser is bounded by `fuel`, which every step into a node or on to the next entry uses up; the
number of bytes and lines of the text is enough.
-/

namespace Covenant.Yaml

/-- A part of a document. -/
inductive Node where
  /-- Text, which was quoted or not. -/
  | scalar (quoted : Bool) (text : Bytes)
  | sequence (items : List Node)
  | mapping (pairs : List (Node × Node))
  deriving Inhabited

def Node.empty : Node := .scalar false []

def Node.isNull : Node → Bool
  | .scalar false text =>
    [Bytes.ofString "", "~", "null", "Null", "NULL"].contains text
  | _ => false

/-! ### Brackets -/

def peek : List Line → Option UInt8
  | [] => none
  | l :: _ => l.text.head?

def bump : List Line → List Line
  | [] => []
  | l :: rest => l.drop 1 :: rest

mutual

def flowNode : (fuel : Nat) → List Line → Option (Node × List Line)
  | 0, _ => none
  | fuel + 1, ls =>
    match skipBlank ls with
    | [] => none
    | l :: rest =>
      match l.text.head? with
      | some 91 => flowItems fuel [] (l.drop 1 :: rest)
      | some 123 => flowPairs fuel [] (l.drop 1 :: rest)
      | some 34 => (quoted true (l.drop 1) rest).map fun (text, ls) => (.scalar true text, ls)
      | some 39 => (quoted false (l.drop 1) rest).map fun (text, ls) => (.scalar true text, ls)
      | _ =>
        if startsPlain true l.text then
          let (text, ls) := plain true 0 l rest
          some (.scalar false text, ls)
        else none

/-- The value behind a key inside brackets; without a colon there is none. -/
def flowValue : (fuel : Nat) → List Line → Option (Node × List Line)
  | 0, _ => none
  | fuel + 1, ls =>
    let ls := skipBlank ls
    if peek ls = some 58 then
      let ls := skipBlank (bump ls)
      match peek ls with
      | some 44 => some (.empty, ls)
      | some 93 => some (.empty, ls)
      | some 125 => some (.empty, ls)
      | _ => flowNode fuel ls
    else some (.empty, ls)

/-- The items of a sequence up to its closing bracket.  An item with a colon is a mapping of one
pair. -/
def flowItems : (fuel : Nat) → (done : List Node) → List Line → Option (Node × List Line)
  | 0, _, _ => none
  | fuel + 1, done, ls =>
    let ls := skipBlank ls
    if peek ls = some 93 then some (.sequence done.reverse, bump ls)
    else match flowNode fuel ls with
      | none => none
      | some (item, ls) =>
        let ls := skipBlank ls
        match flowValue fuel ls with
        | none => none
        | some (value, ls') =>
          let item := if peek ls = some 58 then .mapping [(item, value)] else item
          let ls := skipBlank ls'
          match peek ls with
          | some 44 => flowItems fuel (item :: done) (bump ls)
          | some 93 => some (.sequence (item :: done).reverse, bump ls)
          | _ => none

def flowPairs : (fuel : Nat) → (done : List (Node × Node)) → List Line →
    Option (Node × List Line)
  | 0, _, _ => none
  | fuel + 1, done, ls =>
    let ls := skipBlank ls
    if peek ls = some 125 then some (.mapping done.reverse, bump ls)
    else match flowNode fuel ls with
      | none => none
      | some (key, ls) =>
        match flowValue fuel ls with
        | none => none
        | some (value, ls) =>
          let ls := skipBlank ls
          match peek ls with
          | some 44 => flowPairs fuel ((key, value) :: done) (bump ls)
          | some 125 => some (.mapping ((key, value) :: done).reverse, bump ls)
          | _ => none

end

/-! ### Indentation -/

def afterColon? (l : Line) : Option Line :=
  match l.text with
  | 58 :: rest => if startsBlank rest then some (l.drop 1) else none
  | _ => none

/-- The key at the start of a line, and what stands behind its colon. -/
def key? (l : Line) : Option (Node × Line) :=
  let quotedKey (double : Bool) : Option (Node × Line) :=
    match quotedLine double (l.text.drop 1) with
    | some (text, .closed left) =>
      (afterColon? (l.drop (l.text.length - left.length)).dropBlanks).map (Node.scalar true text, ·)
    | _ => none
  match l.text.head? with
  | some 34 => quotedKey true
  | some 39 => quotedKey false
  | _ =>
    if startsPlain false l.text then
      let (text, left) := plainPiece false l
      (afterColon? left).map (Node.scalar false text, ·)
    else (afterColon? l).map (Node.empty, ·)

/-- A scalar or a node in brackets that starts in the current line, below a line of column
`indent`.  Nothing may follow it in the line where it ends. -/
def inlineNode (fuel : Nat) (indent : Int) : List Line → Option (Node × List Line)
  | [] => none
  | l :: rest =>
    let node :=
      match l.text.head? with
      | some 91 => flowNode fuel (l :: rest)
      | some 123 => flowNode fuel (l :: rest)
      | some 34 => flowNode fuel (l :: rest)
      | some 39 => flowNode fuel (l :: rest)
      | _ =>
        if startsPlain false l.text then
          let (text, ls) := plain false indent l rest
          some (.scalar false text, ls)
        else none
    node.bind fun (node, ls) => (endLine ls).map (node, ·)

mutual

/-- The node that stands further right than `indent`, or the empty one.  With `level`, items of a
sequence may stand at that column too. -/
def blockNode : (fuel : Nat) → (indent : Int) → (level : Bool) → List Line →
    Option (Node × List Line)
  | 0, _, _, _ => none
  | fuel + 1, indent, level, ls =>
    match nextLine ls with
    | [] => some (.empty, [])
    | l :: rest =>
      if level && (l.column : Int) == indent && l.isItem then
        blockItems fuel l.column true [] (l :: rest)
      else if (l.column : Int) ≤ indent then some (.empty, l :: rest)
      else if l.isItem then blockItems fuel l.column false [] (l :: rest)
      else if (key? l).isSome then blockPairs fuel l.column [] (l :: rest)
      else inlineNode fuel indent (l :: rest)

/-- The items of a sequence at a column.  With `level`, a line of that column that is no item
belongs to the mapping around it. -/
def blockItems : (fuel : Nat) → (column : Nat) → (level : Bool) → (done : List Node) →
    List Line → Option (Node × List Line)
  | 0, _, _, _, _ => none
  | fuel + 1, column, level, done, ls =>
    match nextLine ls with
    | [] => some (.sequence done.reverse, [])
    | l :: rest =>
      if l.column == column && l.isItem then
        let item := l.drop 1
        let item := item.drop (item.text.takeWhile (· = 32)).length
        match blockNode fuel column false (item :: rest) with
        | none => none
        | some (node, ls) => blockItems fuel column level (node :: done) ls
      else if l.column < column || (level && l.column == column) then
        some (.sequence done.reverse, l :: rest)
      else none

def blockPairs : (fuel : Nat) → (column : Nat) → (done : List (Node × Node)) → List Line →
    Option (Node × List Line)
  | 0, _, _, _ => none
  | fuel + 1, column, done, ls =>
    match nextLine ls with
    | [] => some (.mapping done.reverse, [])
    | l :: rest =>
      if l.column < column then some (.mapping done.reverse, l :: rest)
      else if column < l.column then none
      else match key? l with
        | none => none
        | some (key, left) =>
          let value := left.dropBlanks
          let found :=
            if value.isDone then blockNode fuel column true rest
            else inlineNode fuel column (value :: rest)
          match found with
          | none => none
          | some (node, ls) => blockPairs fuel column ((key, node) :: done) ls

end

/-! ### Documents -/

def isAllowed : Glyph → Bool
  | .stray _ => false
  | .char c =>
    let n := c.toNat
    n == 9 || n == 10 || n == 13 || (32 ≤ n && n ≤ 126) || n == 0x85 || (0xA0 ≤ n && n ≤ 0xD7FF) ||
      (0xE000 ≤ n && n ≤ 0xFFFD && n != 0xFEFF) || 0x10000 ≤ n

/-- The only node of the lines: one in the line of the opening mark, or one by indentation. -/
def documentNode (fuel : Nat) (first : Line) (body : List Line) : Option Node :=
  let found :=
    if first.isDone then blockNode fuel (-1) false body else inlineNode fuel (-1) (first :: body)
  found.bind fun (node, ls) => if (nextLine ls).isEmpty then some node else none

/-- The first document of a text.  A text without one holds the empty node. -/
def parse? (text : Bytes) : Option Node :=
  let text := text.stripPrefix "\ufeff"
  if !text.glyphs.all isAllowed then none
  else
    let fuel := 2 * text.length + 4
    let body := fun (ls : List Line) => ls.takeWhile fun l => !l.endsDocument
    match nextLine (lines text) with
    | [] => some .empty
    | l :: rest =>
      if l.isMark 45 then documentNode fuel (l.drop 3).dropBlanks (body rest)
      else documentNode fuel {} (body (l :: rest))

end Covenant.Yaml
