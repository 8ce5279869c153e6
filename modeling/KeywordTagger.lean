import KeywordTagger.Automaton
import KeywordTagger.Chains
import KeywordTagger.Channel
import KeywordTagger.Checked.Encoding
import KeywordTagger.Checked.FailureLinks
import KeywordTagger.Checked.Tagging
import KeywordTagger.Command.Help
import KeywordTagger.Command.Options
import KeywordTagger.Command.Run
import KeywordTagger.Command.Workspace
import KeywordTagger.Dictionary
import KeywordTagger.DoubleArray
import KeywordTagger.Encoding
import KeywordTagger.Encoding.Placing
import KeywordTagger.Encoding.Recursive
import KeywordTagger.Error
import KeywordTagger.FailureLinks
import KeywordTagger.FileError
import KeywordTagger.Inflow
import KeywordTagger.Layout
import KeywordTagger.LeftmostLongest
import KeywordTagger.Main
import KeywordTagger.Pool
import KeywordTagger.PrefixTree
import KeywordTagger.Proofs.Anchors
import KeywordTagger.Proofs.Blocks
import KeywordTagger.Proofs.Borders
import KeywordTagger.Proofs.Branching
import KeywordTagger.Proofs.Calls
import KeywordTagger.Proofs.Chains
import KeywordTagger.Proofs.CheckedEncoding
import KeywordTagger.Proofs.CheckedLinks
import KeywordTagger.Proofs.CheckedTagging
import KeywordTagger.Proofs.ClaimedSlots
import KeywordTagger.Proofs.Coherence
import KeywordTagger.Proofs.Completeness
import KeywordTagger.Proofs.Conservation
import KeywordTagger.Proofs.Encoded
import KeywordTagger.Proofs.EncodedTable
import KeywordTagger.Proofs.EncodingRun
import KeywordTagger.Proofs.Encodings
import KeywordTagger.Proofs.Expansion
import KeywordTagger.Proofs.Fallback
import KeywordTagger.Proofs.GreedyReading
import KeywordTagger.Proofs.GreedyTagging
import KeywordTagger.Proofs.Growth
import KeywordTagger.Proofs.Inflows
import KeywordTagger.Proofs.JoinedLines
import KeywordTagger.Proofs.Levels
import KeywordTagger.Proofs.Lines
import KeywordTagger.Proofs.LinkRules
import KeywordTagger.Proofs.Links
import KeywordTagger.Proofs.LongestEnds
import KeywordTagger.Proofs.LongestMatches
import KeywordTagger.Proofs.Marks
import KeywordTagger.Proofs.NodeWords
import KeywordTagger.Proofs.Occurrences
import KeywordTagger.Proofs.Offsets
import KeywordTagger.Proofs.Outcomes
import KeywordTagger.Proofs.PatternLists
import KeywordTagger.Proofs.Placement
import KeywordTagger.Proofs.Placings
import KeywordTagger.Proofs.PoolSteps
import KeywordTagger.Proofs.Recording
import KeywordTagger.Proofs.RecursiveEncoding
import KeywordTagger.Proofs.Representation
import KeywordTagger.Proofs.Results
import KeywordTagger.Proofs.Runs
import KeywordTagger.Proofs.Scanning
import KeywordTagger.Proofs.Separators
import KeywordTagger.Proofs.Stems
import KeywordTagger.Proofs.Streaming
import KeywordTagger.Proofs.TaggedPositions
import KeywordTagger.Proofs.TextWords
import KeywordTagger.Proofs.TreeShape
import KeywordTagger.Proofs.TreeSize
import KeywordTagger.Proofs.TrustedOutputs
import KeywordTagger.Proofs.Weaving
import KeywordTagger.Proofs.WholeText
import KeywordTagger.Proofs.WordFiles
import KeywordTagger.Proofs.WordLists
import KeywordTagger.Proofs.Workspaces
import KeywordTagger.Scan
import KeywordTagger.Span
import KeywordTagger.Stream
import KeywordTagger.Tagging
import KeywordTagger.Text.Blank
import KeywordTagger.Text.Decoded
import KeywordTagger.Text.Line
import KeywordTagger.Text.Stepwise
import KeywordTagger.Text.Utf8
import KeywordTagger.WordList
import KeywordTagger.WordMachine
