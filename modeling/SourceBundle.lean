import SourceBundle.Main
import SourceBundle.Proofs.Skeleton.FixedPoint
import SourceBundle.Proofs.Skeleton.Body
import SourceBundle.Proofs.Ignore.Pattern
import SourceBundle.Proofs.Collector.Files
import SourceBundle.Proofs.FileTree.WellFormed
import SourceBundle.Proofs.Skeleton.Concat
import SourceBundle.Proofs.Line.Conditional
import SourceBundle.Proofs.Skeleton.Conditional
import SourceBundle.Proofs.Skeleton.TypeBlock
import SourceBundle.Proofs.Regex.Append
import SourceBundle.Proofs.Ignore.Below
import SourceBundle.Proofs.Ignore.Sources
import SourceBundle.Proofs.FileTree.Alike
import SourceBundle.Proofs.FileTree.Write
import SourceBundle.Proofs.CommandLine.Options
import SourceBundle.Proofs.CommandLine.Reading
import SourceBundle.Proofs.CommandLine.Sink
import SourceBundle.Proofs.FileTree.LinkFree
import SourceBundle.Proofs.Collector.Metadata
import SourceBundle.Proofs.CommandLine.RefusedSettings
import SourceBundle.Proofs.Skeleton.Documentation
import SourceBundle.Proofs.Bundle.Blocks
import SourceBundle.Proofs.Regex.Bracket
import SourceBundle.Proofs.Ignore.Brackets
import SourceBundle.Proofs.Ignore.Components
import SourceBundle.Proofs.Skeleton.BodyExtent
import SourceBundle.Proofs.Skeleton.Rows
import SourceBundle.Proofs.Skeleton.ScopeTrace
import SourceBundle.Proofs.Collector.Shown
import SourceBundle.Proofs.Collector.Drawing
import SourceBundle.Proofs.Minified.BlockComments
import SourceBundle.Proofs.Minified.LineComments
import SourceBundle.Proofs.Text.Words
import SourceBundle.Proofs.Minified.Layout
import SourceBundle.Proofs.Text.Pieces
import SourceBundle.Proofs.Text.Thinned
import SourceBundle.Proofs.Minified.SecondPass
import SourceBundle.Proofs.Ignore.Adding
import SourceBundle.Proofs.Line.Grammar
import SourceBundle.Proofs.Line.Search
import SourceBundle.Proofs.Path.Shown
import SourceBundle.Proofs.CommandLine.Items
import SourceBundle.Proofs.CommandLine.Meaning
import SourceBundle.Proofs.Config.Extensions
import SourceBundle.Proofs.Line.Reduction
import SourceBundle.Proofs.Line.Opening
import SourceBundle.Proofs.Skeleton.RuleOrder
import SourceBundle.Proofs.FileTree.Retrace
import SourceBundle.Proofs.CommandLine.CheckedFolder
