import Covenant.Token.Scan
import Covenant.Tree.Grammar.Statement

/-!
# Parsing a source

The grammar is unrolled as deep as its input is long.  Parsing ends at the first fault; the
statements read up to there are kept.
-/

namespace Covenant

def Grammar.unroll (g : Grammar) : Grammar where
  type := typeRule g
  expression := expressionRule g
  conditional := conditionalRule g
  unary := unaryRule g
  statement := statementRule g

def Grammar.ofDepth : (depth : Nat) → Grammar
  | 0 => empty
  | depth + 1 => unroll (ofDepth depth)

/-- Statements up to the end of input or the first fault, at most `fuel` of them. -/
def Grammar.statements (g : Grammar) : (fuel : Nat) → Cursor → List Tree × Option Fault
  | 0, c => ([], c.fault)
  | fuel + 1, c =>
    if c.cur.kind = .eof ∨ c.fault.isSome then ([], c.fault)
    else match g.statement c with
      | .error f => ([], some f)
      | .ok (stmt, c') =>
        let (stmts, fault) := statements g fuel c'.advance
        (stmt :: stmts, fault)

/-- The outcome of parsing. -/
structure Parsed where
  tree : Tree
  fault : Option Fault
  deriving Repr, Inhabited

def Parsed.ofTokens (ts : List Token) : Parsed :=
  let c := Cursor.ofTokens ts
  let (stmts, fault) := Grammar.statements (.ofDepth (c.bound + 1)) c.bound c
  ⟨.ofRule .program c.cur stmts, fault⟩

def Parsed.ofSource (source : Bytes) : Parsed :=
  ofTokens (Token.scan source)

def Tree.parse (source : Bytes) : Except Fault Tree :=
  let p := Parsed.ofSource source
  match p.fault with
  | some f => .error f
  | none => .ok p.tree

end Covenant
