import Bootcamp.Lib.Fallible
import Bootcamp.Lib.LittleEndian
import Bootcamp.Lib.OrderedMap
import Bootcamp.Lib.Loop
import Bootcamp.Lib.Chains
import Bootcamp.Lib.Ledger
import Bootcamp.Lib.Segments
import Bootcamp.Blockchain.Types
import Bootcamp.Blockchain.Transaction
import Bootcamp.Blockchain.Block
import Bootcamp.Blockchain.Validation
import Bootcamp.Blockchain.Supply
import Bootcamp.Blockchain.Codec
import Bootcamp.Blockchain.Reader
import Bootcamp.Blockchain.Readchain
import Bootcamp.Blockchain.Conservation
import Bootcamp.Blockchain.Sequential
import Bootcamp.Blockchain.Parsing
import Bootcamp.Blockchain.Pipeline
import Bootcamp.Blockchain.Growth
import Bootcamp.Blockchain.Generated
import Bootcamp.Blockchain.Ignoring
import Bootcamp.Blockchain.Tips
import Bootcamp.Blockchain.Records
import Bootcamp.Blockchain.Builder
import Bootcamp.Blockchain.Genchain
import Bootcamp.Blockchain.Wallet
import Bootcamp.Blockchain.Spending
import Bootcamp.Blockchain.Stream
import Bootcamp.Blockchain.Truncation
import Bootcamp.Lib.HashChain
import Bootcamp.Blockchain.Tamper
import Bootcamp.Blockchain.Replay
import Bootcamp.Lib.Layout
import Bootcamp.Blockchain.Indexed
import Bootcamp.Blockchain.Rewritechain
import Bootcamp.Blockchain.Rewriting
import Bootcamp.Blockchain.Written
import Bootcamp.Blockchain.Unvalidated
import Bootcamp.Lib.Interleaving
import Bootcamp.Lib.Checked
import Bootcamp.Lib.Updates
import Bootcamp.Lib.FirstMax
import Bootcamp.Lib.Pieces
import Bootcamp.Lib.Nesting
import Bootcamp.Lib.StableSort
import Bootcamp.Lib.Pool
import Bootcamp.Blockchain.Readindexed
import Bootcamp.Blockchain.Linking
import Bootcamp.Blockchain.Chunks
import Bootcamp.Blockchain.Threads
import Bootcamp.Blockchain.Bounds
import Bootcamp.Blockchain.Parallel
import Bootcamp.Blockchain.Justified
import Bootcamp.Blockchain.Linear
import Bootcamp.Blockchain.ChainFile
import Bootcamp.Blockchain.Equivalence
import Bootcamp.Blockchain.Forgery
import Bootcamp.Blockchain.Longest
import Bootcamp.Blockchain.Scheduling
import Bootcamp.Blockchain.Mirror
import Bootcamp.Module.Sthreads
import Bootcamp.Module.Statements
import Bootcamp.Module.Chardev
import Bootcamp.Os.Thmgr
import Bootcamp.Os.Joining
import Bootcamp.Os.Launching
import Bootcamp.Arrays.MergeSort
import Bootcamp.Arrays.Matrix
import Bootcamp.Practice.FindMax
import Bootcamp.Practice.BlockHash
import Bootcamp.Pass.Instrument
import Bootcamp.Os.Osinstream
import Bootcamp.Os.Mapping
import Bootcamp.Lib.Reaching
import Bootcamp.Blockchain.Lengths
import Bootcamp.Lib.Mutex
import Bootcamp.Blockchain.Locking
import Bootcamp.Practice.Accounts
import Bootcamp.Pass.InstrumentLocks
import Bootcamp.Pass.InstrumentRuns
import Bootcamp.Blockchain.Appending
import Bootcamp.Module.Registration
import Bootcamp.Blockchain.OpenMp
import Bootcamp.Os.Guarding
import Bootcamp.Arrays.Testing
import Bootcamp.Lib.Races
import Bootcamp.Practice.Unlocked
import Bootcamp.Os.Modes
import Bootcamp.Blockchain.Commitment
import Bootcamp.Lib.Dependencies
import Bootcamp.Blockchain.Reordering
import Bootcamp.Lib.Noninterference
import Bootcamp.Module.Isolation
import Bootcamp.Lib.SafeRuns
import Bootcamp.Module.Loading
