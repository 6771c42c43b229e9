import Covenant.Main
import Covenant.Program.Outline
import Covenant.Proofs.Build.Sources
import Covenant.Proofs.Clarity.Capture
import Covenant.Proofs.Clarity.Chain
import Covenant.Proofs.Clarity.Comprehension
import Covenant.Proofs.Clarity.Depth
import Covenant.Proofs.Clarity.EarlyReturn
import Covenant.Proofs.Clarity.Gating
import Covenant.Proofs.Clarity.Hyphenation
import Covenant.Proofs.Clarity.Skeleton
import Covenant.Proofs.Clarity.Typing
import Covenant.Proofs.Clarity.Wrapping
import Covenant.Proofs.Compile.Annotation
import Covenant.Proofs.Compile.Coverage
import Covenant.Proofs.Compile.Maps
import Covenant.Proofs.Compile.Strings
import Covenant.Proofs.Config.Filling
import Covenant.Proofs.Config.Profiles
import Covenant.Proofs.Config.Size
import Covenant.Proofs.Program.RoundTrip
import Covenant.Proofs.Session.Brackets
import Covenant.Proofs.Session.Memory
import Covenant.Proofs.Store.Eviction
import Covenant.Proofs.Suggest
import Covenant.Proofs.Suggest.Ranking
import Covenant.Proofs.Token.Decoding
import Covenant.Proofs.Tree.Reports
import Covenant.Proofs.Tree.Lookahead
import Covenant.Session.Completion
