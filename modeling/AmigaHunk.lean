import AmigaHunk.Binary.Decoder
import AmigaHunk.Binary.Lemmas
import AmigaHunk.Binary.Places
import AmigaHunk.Binary.Word
import AmigaHunk.Block.Basic
import AmigaHunk.Block.Tag
import AmigaHunk.Command.Basic
import AmigaHunk.Command.Line
import AmigaHunk.Command.Program
import AmigaHunk.Error
import AmigaHunk.Event
import AmigaHunk.File.Basic
import AmigaHunk.File.Opening
import AmigaHunk.File.Section
import AmigaHunk.Host.Query
import AmigaHunk.Host.Text
import AmigaHunk.Hunk.Basic
import AmigaHunk.LineTable.Basic
import AmigaHunk.LineTable.Decoder
import AmigaHunk.Log.Config
import AmigaHunk.Log.Names
import AmigaHunk.Main
import AmigaHunk.Path.Basic
import AmigaHunk.Path.Replacement
import AmigaHunk.Path.Resolver
import AmigaHunk.Platform.Arguments
import AmigaHunk.Platform.Disk
import AmigaHunk.Platform.Help
import AmigaHunk.Platform.Log
import AmigaHunk.Platform.Machine
import AmigaHunk.Session.Basic
import AmigaHunk.Session.Request
import AmigaHunk.Source.TextCache
import AmigaHunk.Text.Numeral
import AmigaHunk.Text.Utf8
import AmigaHunk.Warning
import AmigaHunk.Proofs.Binary.Faults
import AmigaHunk.Proofs.Binary.Fields
import AmigaHunk.Proofs.Binary.Lists
import AmigaHunk.Proofs.Binary.Places
import AmigaHunk.Proofs.Binary.Reads
import AmigaHunk.Proofs.Binary.Shift
import AmigaHunk.Proofs.Binary.Warns
import AmigaHunk.Proofs.Binary.Windows
import AmigaHunk.Proofs.Command.AddressLookup
import AmigaHunk.Proofs.Command.Offset
import AmigaHunk.Proofs.Command.Run
import AmigaHunk.Proofs.Encoding.Grammar
import AmigaHunk.Proofs.Encoding.LineTable
import AmigaHunk.Proofs.Encoding.LoadFile
import AmigaHunk.Proofs.Encoding.RoundTrip
import AmigaHunk.Proofs.File.Charge
import AmigaHunk.Proofs.File.Section
import AmigaHunk.Proofs.File.WellFormed
import AmigaHunk.Proofs.Grammar.Alignment
import AmigaHunk.Proofs.Grammar.Block
import AmigaHunk.Proofs.Grammar.BlockDecoder
import AmigaHunk.Proofs.Grammar.Concatenation
import AmigaHunk.Proofs.Grammar.FaultPlace
import AmigaHunk.Proofs.Grammar.Faults
import AmigaHunk.Proofs.Grammar.File
import AmigaHunk.Proofs.Grammar.FileDecoder
import AmigaHunk.Proofs.Grammar.HunkNames
import AmigaHunk.Proofs.Grammar.LineTable
import AmigaHunk.Proofs.Grammar.PayloadBytes
import AmigaHunk.Proofs.Grammar.Shift
import AmigaHunk.Proofs.Grammar.Skipped
import AmigaHunk.Proofs.Grammar.TagBits
import AmigaHunk.Proofs.Grammar.Tags
import AmigaHunk.Proofs.Grammar.Truncation
import AmigaHunk.Proofs.Grammar.Unclosed
import AmigaHunk.Proofs.Grammar.Unique
import AmigaHunk.Proofs.Host.Text
import AmigaHunk.Proofs.LineTable.Search
import AmigaHunk.Proofs.LineTable.StableSort
import AmigaHunk.Proofs.Path.Calls
import AmigaHunk.Proofs.Path.Found
import AmigaHunk.Proofs.Path.Join
import AmigaHunk.Proofs.Path.Names
import AmigaHunk.Proofs.Path.Normalize
import AmigaHunk.Proofs.Path.Place
import AmigaHunk.Proofs.Path.Probes
import AmigaHunk.Proofs.Path.Replacement
import AmigaHunk.Proofs.Path.Runs
import AmigaHunk.Proofs.Path.Same
import AmigaHunk.Proofs.Path.Told
import AmigaHunk.Proofs.Session.Answers
import AmigaHunk.Proofs.Session.Attribution
import AmigaHunk.Proofs.Session.Course
import AmigaHunk.Proofs.Session.Covering
import AmigaHunk.Proofs.Session.Extends
import AmigaHunk.Proofs.Session.FileNames
import AmigaHunk.Proofs.Session.FileQueries
import AmigaHunk.Proofs.Session.LineAddress
import AmigaHunk.Proofs.Session.Load
import AmigaHunk.Proofs.Session.Location
import AmigaHunk.Proofs.Session.Memory
import AmigaHunk.Proofs.Session.Perform
import AmigaHunk.Proofs.Session.Questions
import AmigaHunk.Proofs.Session.RoundTrip
import AmigaHunk.Proofs.Session.Run
import AmigaHunk.Proofs.Session.Transparent
import AmigaHunk.Proofs.Text.Digits
import AmigaHunk.Proofs.Text.Lines
import AmigaHunk.Proofs.Text.Numeral
import AmigaHunk.Proofs.Text.Split
import AmigaHunk.Proofs.Text.Tight
import AmigaHunk.Proofs.Text.Utf8
