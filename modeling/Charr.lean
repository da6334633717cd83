import Charr.Library.Interleaving
import Charr.Parallel.Plan
import Charr.Parallel.Region
import Charr.Parallel.Invariant
import Charr.Parallel.Items
import Charr.Parallel.Outcome
import Charr.Parallel.Progress
import Charr.Parallel.Serial
import Charr.FixedSearch.ByteSearchMatcher
import Charr.Library.Occurrence
import Charr.FixedSearch.ExactBytes
import Charr.FixedSearch.Matching
import Charr.FixedSearch.FixedMatcher
import Charr.FixedSearch.Split
import Charr.FixedSearch.History
import Charr.FixedSearch.SplitLaws
import Charr.Parallel.Tasks
import Charr.Output.Record
import Charr.Text.Normalize
import Charr.FixedSearch.Vectorized
import Charr.FixedSearch.CountDetect
import Charr.Encoding.Conversion
import Charr.Encoding.Warnings
import Charr.FixedSearch.Extract
import Charr.FixedSearch.ExtractMerge
import Charr.Width.CharWidth
import Charr.Width.Preflight
import Charr.Library.Earliest
import Charr.Regex.Replace
import Charr.FixedSearch.Replacement
import Charr.FixedSearch.ReplaceSequential
import Charr.Output.ChunkStores
import Charr.Text.Tokens
import Charr.Lines.Files
import Charr.Lines.LineSplit
import Charr.Lines.Repair
import Charr.Lines.SplitLines
import Charr.Substring.Indexer
import Charr.Substring.Assembler
import Charr.Substring.Extract
import Charr.Substring.Replacement
import Charr.Substring.Sub
import Charr.Substring.ReplacementAll
import Charr.Collation.Ordering
import Charr.Library.LinearProbing
import Charr.Collation.Duplicates
import Charr.Regex.Subject
import Charr.Regex.Matcher
import Charr.Regex.MatcherCalls
import Charr.Regex.MatcherRuns
import Charr.Regex.SharedMatcher
import Charr.Library.Loops
import Charr.Library.Segmentation
import Charr.Wrap.Words
import Charr.Wrap.Optimal
import Charr.Wrap.Engine
import Charr.Output.Staged
import Charr.Wrap.Matrices
import Charr.Wrap.Flatten
import Charr.FixedSearch.StartsEnds
import Charr.FixedSearch.DirectKernels
import Charr.Substring.IndexerRuns
import Charr.Substring.Ranges
import Charr.FixedSearch.ReplacementLaws
import Charr.FixedSearch.ReplaceDirect
import Charr.FixedSearch.Scans
import Charr.Library.Backtracking
import Charr.Detect.Like
import Charr.Substring.ReplacedRange
import Charr.Regex.Offsets
import Charr.Regex.CaptureNames
import Charr.Regex.Split
import Charr.Library.Cursor
import Charr.Library.Doubling
import Charr.Library.Streaming
import Charr.Text.Slices
import Charr.Text.Converter
import Charr.Repeat.Dup
import Charr.Repeat.Pad
import Charr.Text.PositionCursor
import Charr.Regex.Positions
import Charr.Wrap.Greedy
import Charr.Wrap.AsciiLines
import Charr.Wrap.Breaks
import Charr.Wrap.Lines
import Charr.Library.Fields
import Charr.Text.CodePoints
import Charr.Wrap.Prepare
import Charr.Wrap.Joined
import Charr.Wrap.Normalized
import Charr.Library.MachineInt
import Charr.Parallel.Arithmetic
import Charr.Boundary.Iterator
import Charr.Substring.RecycledOrder
import Charr.CharacterClass.Ranges
import Charr.Library.Buffer
import Charr.Text.Backward
import Charr.Text.Reverse
import Charr.Text.Encode
import Charr.Text.Escape
import Charr.CharacterClass.Trim
import Charr.Output.Join
import Charr.Regex.FixReplacement
import Charr.Library.KmpBackward
import Charr.FixedSearch.FindLast
import Charr.FixedSearch.SharedTable
import Charr.FixedSearch.Locate
import Charr.FixedSearch.LocateFirst
import Charr.FixedSearch.LocateAll
import Charr.Substring.Frames
import Charr.Substring.Located
