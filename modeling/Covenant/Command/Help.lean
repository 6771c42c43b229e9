import Covenant.Build

/-!
# Help
-/

namespace Covenant.Help

def lines : List String :=
  ["",
   "Usage:",
   "  stxc [options] <file|dir>...",
   "  stxc [options] -e \"code\"",
   "  stxc [options] watch [dir...]",
   "  stxc [options] repl",
   "  stxc [options] cache stats|clear",
   "",
   "Options:",
   "  --config PATH      Path to config file (default: auto-detect)",
   "  --profile NAME     Apply a named config profile",
   "  --target VERSION   Clarity version to generate for (default: 2.0.0)",
   "  --asset NAME       Treat NAME as an NFT asset (repeatable)",
   "  --out DIR          Directory for generated files",
   "  -e CODE            Transpile a code string and print the result",
   "  --check            Check syntax without generating code",
   "  --print            Print Clarity to stdout instead of writing files",
   "  --trace            Log build and generate steps",
   "  --no-cache         Disable the build cache",
   "  --version          Show version",
   "  --help             Show this help",
   "",
   "Config Resolution:",
   "  1. --config flag",
   "  2. STXC_CONFIG environment variable",
   "  3. ./stxc.yaml",
   "  4. ~/.config/stxc/stxc.yaml",
   "",
   "Examples:",
   "  stxc token.stx                  Write token.clar next to token.stx",
   "  stxc --out build contracts      Transpile a directory into build/",
   "  stxc -e \"let x: int = 5;\"       Prints (define-data-var x int 5)",
   "  stxc --check contracts/*.stx    Check several files",
   "  stxc --target 1.0 token.stx     Generate for Clarity 1",
   "  stxc watch contracts            Rebuild on change",
   ""]

def text : Bytes :=
  "stxc - stxscript to Clarity transpiler version " ++ compilerVersion ++ "\n" ++
    Bytes.join "\n" (lines.map Bytes.ofString) ++ "\n"

end Covenant.Help
