import Covenant.Text.Blank

/-!
# Completing the last word of a line
-/

namespace Covenant.Completion

def vocabulary : List String :=
  ["function", "let", "const", "class", "trait", "if", "else", "try", "catch",
   "throw", "return", "import", "export", "from", "new", "for", "in", "is", "as",
   "@public", "@readonly", "@private", "@map", "@asset",
   "ok", "err", "some", "none", "map", "filter", "fold",
   "tx.sender", "block.height", "contract.caller",
   "int", "uint", "bool", "principal", "string", "list", "Optional", "Response", "Map",
   "true", "false"]

/-- The line with its last word completed in every possible way.  A line that ends in a blank has
nothing to complete. -/
def complete (line : Bytes) : List Bytes :=
  if line.getLast? = some 32 ∨ line.getLast? = some 9 then []
  else match line.words.getLast? with
    | none => []
    | some last =>
      let front := line.stripSuffix last
      ((vocabulary.map Bytes.ofString).filter (·.hasPrefix last)).map (front ++ ·)

end Covenant.Completion
