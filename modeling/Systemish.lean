import Systemish.Foundation.Call
import Systemish.Foundation.Run
import Systemish.Foundation.Carving
import Systemish.Foundation.Buckets
import Systemish.Foundation.AddSquare
import Systemish.Foundation.ForLoop
import Systemish.Foundation.Interleaving
import Systemish.Foundation.Threads
import Systemish.Foundation.Visits
import Systemish.Foundation.Rewriter
import Systemish.Foundation.Text
import Systemish.Foundation.Bytes
import Systemish.Foundation.OrderedMap
import Systemish.Foundation.Ring
import Systemish.Foundation.LinkedList
import Systemish.Foundation.FirstMaximum
import Systemish.Foundation.OnesComplement
import Systemish.Foundation.Gf2
import Systemish.Foundation.LinearCongruential
import Systemish.Foundation.BitFilter
import Systemish.Foundation.KeyedLists
import Systemish.Foundation.TicketRing
import Systemish.HugeAlloc.Allocator
import Systemish.HugeAlloc.SizeClass
import Systemish.HugeAlloc.Steps
import Systemish.HugeAlloc.Runs
import Systemish.HugeAlloc.Carve
import Systemish.HugeAlloc.Builds
import Systemish.HugeAlloc.Layout
import Systemish.HugeAlloc.Failure
import Systemish.HugeAlloc.Segments
import Systemish.HugeAlloc.Accounting
import Systemish.Goto.Fpp
import Systemish.Goto.FppRuns
import Systemish.Goto.Hash
import Systemish.Goto.LogLookup
import Systemish.Goto.SyntheticDivergence
import Systemish.Goto.SlotSelection
import Systemish.Antlr.Syntax
import Systemish.Antlr.DeclarationTrimmer
import Systemish.Antlr.TrimmedDeclarations
import Systemish.Antlr.TrimDeclarations
import Systemish.Antlr.CodeCleaner
import Systemish.Antlr.CleanedProgram
import Systemish.Antlr.UnitProgram
import Systemish.Antlr.LocalVariables
import Systemish.Antlr.Scopes
import Systemish.Antlr.LocalVariableVectorizer
import Systemish.Antlr.DeclarationInserter
import Systemish.Antlr.InsertedDeclarations
import Systemish.Antlr.EmittedFunction
import Systemish.Hyperscan.ContentBytes
import Systemish.Hyperscan.ContentGrammar
import Systemish.Hyperscan.FindAllPcre
import Systemish.Hyperscan.CountMatches
import Systemish.Hyperscan.DfcPatterns
import Systemish.Hyperscan.DfcCompile
import Systemish.Hyperscan.DfcTables
import Systemish.Hyperscan.DfcSearch
import Systemish.Hyperscan.DfcEvaluation
import Systemish.Spdlog.MpmcQueue
import Systemish.Spdlog.QueueTickets
import Systemish.Spdlog.QueueRuns
import Systemish.Spdlog.QueueProgress
import Systemish.Spdlog.AsyncLogHelper
import Systemish.Spdlog.AsyncRuns
import Systemish.Spdlog.AsyncDelivery
import Systemish.Spdlog.AsyncLogger
import Systemish.Masstree.MtIndex
import Systemish.RawEth.Sender
import Systemish.RawEth.Checksum
import Systemish.RawEth.Receiver
import Systemish.RawEth.Network
import Systemish.DsQueue
import Systemish.CoroPerf
import Systemish.SharedMemory
import Systemish.NamedPipes
import Systemish.Sigio
import Systemish.CondWait
import Systemish.ThreadLocalStorage
import Systemish.Prefetch
import Systemish.PointerChasing
import Systemish.CrcBench
import Systemish.FastRand
import Systemish.Gpu.Grid
import Systemish.Gpu.Handshake
import Systemish.Gpu.Synchronised
import Systemish.Gpu.FirstIteration
import Systemish.Gpu.MappedMemory
import Systemish.Gpu.MtMappedMemory
import Systemish.Gpu.RandMem
import Systemish.Gpu.VectorAdd
import Systemish.Gpu.SeqMem
