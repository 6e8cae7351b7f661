import DocDigest.Json.Records
import DocDigest.Main
import DocDigest.Proofs.Comment.Place
import DocDigest.Proofs.Comment.BlockSearch
import DocDigest.Proofs.Comment.RunSearch
import DocDigest.Proofs.Comment.ShapeSearch
import DocDigest.Proofs.Comment.FreshScan
import DocDigest.Proofs.Comment.Outlook
import DocDigest.Proofs.Comment.Coverage
import DocDigest.Proofs.Comment.WellFormed
import DocDigest.Proofs.Comment.Finds
import DocDigest.Proofs.Comment.Shift
import DocDigest.Proofs.Comment.BlankLine
import DocDigest.Proofs.Comment.LineEndings
import DocDigest.Proofs.Comment.EmptyComment
import DocDigest.Proofs.Comment.ShapeList
import DocDigest.Proofs.Comment.Surroundings
import DocDigest.Proofs.Comment.FirstComment
import DocDigest.Proofs.Comment.LongestRuns
import DocDigest.Proofs.Comment.LeftmostBlocks
import DocDigest.Proofs.Document.Item
import DocDigest.Proofs.Document.Page
import DocDigest.Proofs.Document.CleanLines
import DocDigest.Proofs.Document.Grouping
import DocDigest.Proofs.Document.StablePartition
import DocDigest.Proofs.Document.Outline
import DocDigest.Proofs.Document.LineEndings
import DocDigest.Proofs.Document.Unambiguous
import DocDigest.Proofs.Document.Fences
import DocDigest.Proofs.Document.Decoration
import DocDigest.Proofs.Glob.Search
import DocDigest.Proofs.Glob.Language
import DocDigest.Proofs.Glob.Collapse
import DocDigest.Proofs.Ignore.Combined
import DocDigest.Proofs.Ignore.RuleLines
import DocDigest.Proofs.Json.Quote
import DocDigest.Proofs.Json.ReadBack
import DocDigest.Proofs.Json.Fields
import DocDigest.Proofs.Settings.ConfigForm
import DocDigest.Proofs.Settings.NormalExtensions
import DocDigest.Proofs.Settings.ExcludedNames
import DocDigest.Proofs.FileTree.Routes
import DocDigest.Proofs.FileTree.Leads
import DocDigest.Proofs.Path.Steps
import DocDigest.Proofs.FileTree.Make
import DocDigest.Proofs.Project.Accounting
import DocDigest.Proofs.Project.FileCount
import DocDigest.Proofs.Project.Placement
import DocDigest.Proofs.Project.MoreRules
import DocDigest.Proofs.Command.Persistence
import DocDigest.Proofs.Command.Init
import DocDigest.Proofs.FileTree.RawNames
