import Jackalope.Foundation.Run
import Jackalope.Foundation.Journal
import Jackalope.Foundation.Consumer
import Jackalope.Foundation.LittleEndian
import Jackalope.Coverage
import Jackalope.Sample
import Jackalope.StateFile
import Jackalope.Server.Index
import Jackalope.Server.Wire
import Jackalope.Server.State
import Jackalope.Server.System
import Jackalope.Server.Reports
import Jackalope.Server.Updates
import Jackalope.Server.Snapshot
import Jackalope.Foundation.BitArray
import Jackalope.SanCov.Bitmap
import Jackalope.Foundation.Heap
import Jackalope.Fuzzer.Minimizer
import Jackalope.Fuzzer.State
import Jackalope.Fuzzer.Threads
import Jackalope.Fuzzer.Jobs
import Jackalope.Fuzzer.Phases
import Jackalope.Fuzzer.Corpus
import Jackalope.Fuzzer.Delivery
import Jackalope.Fuzzer.Calls
import Jackalope.Fuzzer.Saved
import Jackalope.Fuzzer.Sessions
import Jackalope.Fuzzer.Indices
import Jackalope.Foundation.Tree
import Jackalope.Prng
import Jackalope.Crashes.Log
import Jackalope.Crashes.Directory
import Jackalope.Crashes.Files
import Jackalope.Server.Restarts
import Jackalope.Foundation.Locks
import Jackalope.Fuzzer.Mutexes
import Jackalope.Foundation.TreeFile
import Jackalope.Mutators.Contexts
import Jackalope.Fuzzer.StateDat
import Jackalope.Mutators.Results
import Jackalope.SanCov.Delivery
import Jackalope.SanCov.Handshake
import Jackalope.Foundation.Dialogue
import Jackalope.Server.Connection
import Jackalope.Server.Dialogues
import Jackalope.Grammar.Parser
import Jackalope.Grammar.Lines
import Jackalope.Grammar.Attributes
import Jackalope.Grammar.Written
import Jackalope.Grammar.Trees
import Jackalope.Grammar.Codec
import Jackalope.Grammar.Mutator
import Jackalope.Grammar.Minimizer
import Jackalope.Grammar.Conformity
import Jackalope.Grammar.Decoding
import Jackalope.Grammar.Search
import Jackalope.Fuzzer.Trimming
import Jackalope.Mutators.Deterministic
import Jackalope.RangeTracker
import Jackalope.SampleTrie
import Jackalope.Server.CoverageStream
import Jackalope.Mutators.Overwrite
import Jackalope.Mutators.Classes
import Jackalope.Mutators.Safety
import Jackalope.Mutators.Job
import Jackalope.Mutators.Ranges
import Jackalope.Grammar.Depth
import Jackalope.Foundation.Buffer
import Jackalope.Mutators.Dictionary
import Jackalope.Mutators.Blocks
import Jackalope.Mutators.Splice
import Jackalope.Mutators.Stage
import Jackalope.SampleObjects
import Jackalope.Grammar.Generation
import Jackalope.Fuzzer.Progress
import Jackalope.Fuzzer.Fairness
import Jackalope.Fuzzer.Discards
import Jackalope.Fuzzer.Provenance
import Jackalope.Grammar.Session
import Jackalope.Foundation.Recurrence
import Jackalope.Mersenne
import Jackalope.Crashes.Descriptions
import Jackalope.Foundation.Window
import Jackalope.Mutators.Statistics
