import KeyHarvest.Catalog.Basic
import KeyHarvest.Catalog.Builtin
import KeyHarvest.Catalog.Pattern
import KeyHarvest.Command.Argument
import KeyHarvest.Command.Arguments
import KeyHarvest.Command.Help
import KeyHarvest.Command.Report
import KeyHarvest.Command.Run
import KeyHarvest.Command.Style
import KeyHarvest.Config.Basic
import KeyHarvest.Config.Discovery
import KeyHarvest.Config.Reader
import KeyHarvest.Decimal.Binary64
import KeyHarvest.Decimal.Fixed
import KeyHarvest.Decimal.Shortest
import KeyHarvest.Dictionary.Flatten
import KeyHarvest.Dictionary.Nest
import KeyHarvest.Dictionary.Path
import KeyHarvest.Dictionary.Reconcile
import KeyHarvest.Dictionary.Stats
import KeyHarvest.Dictionary.Store
import KeyHarvest.Extraction
import KeyHarvest.Files.Glob
import KeyHarvest.Files.Glob.Expand
import KeyHarvest.Files.Path
import KeyHarvest.Files.Tree
import KeyHarvest.Files.Walk
import KeyHarvest.Json.Basic
import KeyHarvest.Json.Fault
import KeyHarvest.Json.Printer
import KeyHarvest.Json.Reader
import KeyHarvest.Json.Skip
import KeyHarvest.KeyMap
import KeyHarvest.Locale
import KeyHarvest.Main
import KeyHarvest.Plural.Literal
import KeyHarvest.Plural.Message
import KeyHarvest.Proofs.Catalog.Forms
import KeyHarvest.Proofs.Command.DryRun
import KeyHarvest.Proofs.Command.Failure
import KeyHarvest.Proofs.Command.Independence
import KeyHarvest.Proofs.Dictionary.CarryOver
import KeyHarvest.Proofs.Dictionary.Counters
import KeyHarvest.Proofs.Dictionary.History
import KeyHarvest.Proofs.Dictionary.Modes
import KeyHarvest.Proofs.Dictionary.Nesting
import KeyHarvest.Proofs.Extraction.SharedLine
import KeyHarvest.Proofs.Locale
import KeyHarvest.Proofs.Locale.ReadBack
import KeyHarvest.Proofs.Sources.Harvest
import KeyHarvest.Proofs.Sources.Scan
import KeyHarvest.Regex.Basic
import KeyHarvest.Regex.CharClass
import KeyHarvest.Regex.Ends
import KeyHarvest.Regex.Match
import KeyHarvest.Regex.Property
import KeyHarvest.Regex.Reader
import KeyHarvest.Regex.Search
import KeyHarvest.Sources
import KeyHarvest.Text.Blank
import KeyHarvest.Text.CaseFolding
import KeyHarvest.Text.Category
import KeyHarvest.Text.Digit
import KeyHarvest.Text.Quoted
import KeyHarvest.Text.Similarity
import KeyHarvest.Text.Utf8
import KeyHarvest.Proofs.Config.Validation
import KeyHarvest.Proofs.Files.Spelling
import KeyHarvest.Proofs.Sources.Composition
import KeyHarvest.Proofs.Files.Upward
import KeyHarvest.Proofs.Config.Discovery
import KeyHarvest.Catalog.Written
import KeyHarvest.Proofs.Regex.Reading
import KeyHarvest.Proofs.Regex.Written
import KeyHarvest.Proofs.Catalog.Written
import KeyHarvest.Proofs.Catalog.Places
import KeyHarvest.Proofs.Catalog.Spliced
import KeyHarvest.Proofs.Dictionary.LeafNames
import KeyHarvest.Proofs.Extraction.TrimmedKeys
import KeyHarvest.Proofs.Config.ReadBack
import KeyHarvest.Proofs.Locale.Malformed
import KeyHarvest.Proofs.Dictionary.Filling
import KeyHarvest.Proofs.Plural.Viable
