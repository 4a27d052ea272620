import GlyphFormat.Main
import GlyphFormat.Proofs.Command.Directories
import GlyphFormat.Proofs.Command.Stability
import GlyphFormat.Proofs.Formatter.Calls
import GlyphFormat.Proofs.Formatter.Comments
import GlyphFormat.Proofs.Formatter.Layout
import GlyphFormat.Proofs.Formatter.Phases
import GlyphFormat.Proofs.Formatter.Reports
import GlyphFormat.Proofs.Formatter.Spelling
import GlyphFormat.Proofs.Formatter.Whitespace
import GlyphFormat.Proofs.Grammar.Breaks
import GlyphFormat.Proofs.Grammar.Depth
import GlyphFormat.Proofs.Grammar.Fragments
import GlyphFormat.Proofs.Grammar.Leaves
import GlyphFormat.Proofs.Grammar.Progress
import GlyphFormat.Proofs.Grammar.Shapes
import GlyphFormat.Proofs.Token.Literals
import GlyphFormat.Proofs.Token.Returns
import GlyphFormat.Proofs.Tree.ReadBack
