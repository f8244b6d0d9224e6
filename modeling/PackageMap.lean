import PackageMap.Text.Ranges
import PackageMap.Text.Class
import PackageMap.Text.Counting
import PackageMap.Text.Hex
import PackageMap.Text.Units
import PackageMap.Text.Utf8
import PackageMap.Decimal
import PackageMap.Ordered
import PackageMap.Source.Cursor
import PackageMap.Source.Token
import PackageMap.Source.Lexer
import PackageMap.Source.Reference
import PackageMap.Path.Basic
import PackageMap.Path.Relative
import PackageMap.Path.Table
import PackageMap.Json.Numeral
import PackageMap.Json.Quoted
import PackageMap.Json.Basic
import PackageMap.Json.Literal
import PackageMap.Json.Range
import PackageMap.Json.Read
import PackageMap.Json.Write
import PackageMap.Tree.Basic
import PackageMap.Tree.Write
import PackageMap.Config
import PackageMap.ConfigFile
import PackageMap.Resolve.Specifier
import PackageMap.Resolve.Alias
import PackageMap.Resolve.Basic
import PackageMap.Digest
import PackageMap.Fingerprint
import PackageMap.FileMap
import PackageMap.Manifest
import PackageMap.FinalMap
import PackageMap.Walk
import PackageMap.Installed
import PackageMap.Seed
import PackageMap.Find
import PackageMap.Command.Arguments
import PackageMap.Command.Report
import PackageMap.Command.Run
import PackageMap.Main
import PackageMap.Proofs.Tree.Spelling
import PackageMap.Proofs.Tree.Follow
import PackageMap.Proofs.Tree.Canonical
import PackageMap.Proofs.Tree.Deep
import PackageMap.Proofs.Source.Seam
import PackageMap.Proofs.Source.Line
import PackageMap.Proofs.Source.Shift
import PackageMap.Proofs.Source.Separated
import PackageMap.Proofs.Source.Concat
import PackageMap.Proofs.Source.Progress
import PackageMap.Proofs.Source.Counters
import PackageMap.Proofs.Resolve.Cache
import PackageMap.Proofs.Resolve.Search
import PackageMap.Proofs.Resolve.Calls
import PackageMap.Proofs.Resolve.Steps
import PackageMap.Proofs.Resolve.Reads
import PackageMap.Proofs.FinalMap
import PackageMap.Proofs.Walk.DepthFirst
import PackageMap.Proofs.Walk.Reach
import PackageMap.Proofs.Walk.Twofold
import PackageMap.Proofs.Walk.Worklist
import PackageMap.Proofs.Source.Trivia
import PackageMap.Proofs.Source.Literals
import PackageMap.Proofs.Source.Program
import PackageMap.Proofs.Source.Rendered
import PackageMap.Proofs.Resolve.Fields
import PackageMap.Proofs.Walk.Entries
import PackageMap.Proofs.Walk.Report
import PackageMap.Proofs.InsertionOrder
import PackageMap.Proofs.Tree.Inside
import PackageMap.Proofs.EntryOrder
import PackageMap.Proofs.Walk.Turns
import PackageMap.Proofs.Path.Child
import PackageMap.Proofs.Text.Utf8
import PackageMap.Proofs.Tree.Respelled
import PackageMap.Proofs.Respelled.Installed
import PackageMap.Proofs.Respelled.Seed
import PackageMap.Proofs.Resolve.Entry
import PackageMap.Proofs.Walk.Cached
import PackageMap.Proofs.Respelled.Entry
import PackageMap.Proofs.Respelled.Find
import PackageMap.Proofs.Json.Grammar
import PackageMap.Proofs.Json.ReadBack
import PackageMap.Proofs.MapText
import PackageMap.Proofs.Fingerprint
import PackageMap.Proofs.Source.Recoded
import PackageMap.Proofs.Source.LineEnds
import PackageMap.Proofs.Walk.Edges
import PackageMap.Proofs.Command.Explain
import PackageMap.Proofs.Source.Reported
import PackageMap.Proofs.Source.Excerpt
import PackageMap.Proofs.Source.Closed
import PackageMap.Proofs.Source.Interpolation
import PackageMap.Proofs.Tree.Unlinked
import PackageMap.Proofs.Tree.Below
import PackageMap.Proofs.Path.Order
import PackageMap.Proofs.Installed
import PackageMap.Proofs.Source.Order
import PackageMap.Proofs.Source.Feeds
import PackageMap.Proofs.Resolve.Candidates
import PackageMap.Proofs.Source.LeftOpen
import PackageMap.Proofs.Tree.Descent
import PackageMap.Proofs.Resolve.Bare
import PackageMap.Proofs.Resolve.Contained
import PackageMap.Proofs.Resolve.BrowserMap
import PackageMap.Proofs.Resolve.WellFormed
import PackageMap.Proofs.Path.Below
import PackageMap.Proofs.Resolve.FileAlias
import PackageMap.Proofs.Size
import PackageMap.Proofs.Seed.Below
import PackageMap.Proofs.Seed.Packages
import PackageMap.Proofs.FirstRecord
import PackageMap.Proofs.Path.Above
import PackageMap.Proofs.Resolve.Enclosing
import PackageMap.Proofs.Tree.Change
import PackageMap.Proofs.Tree.Replace
import PackageMap.Proofs.ConfigFile
import PackageMap.Proofs.Source.Clause
import PackageMap.Proofs.Source.Scanner
import PackageMap.Proofs.Source.Agreement
import PackageMap.Proofs.Source.InRange
