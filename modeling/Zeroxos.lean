import Zeroxos.Library.Transition
import Zeroxos.Library.Rust
import Zeroxos.Library.Block
import Zeroxos.Library.Coalesced
import Zeroxos.Library.ByteMem
import Zeroxos.Library.X86
import Zeroxos.Library.EntryStub
import Zeroxos.Library.Table
import Zeroxos.Library.Select
import Zeroxos.Library.Cursor
import Zeroxos.Library.CursorRuns
import Zeroxos.Library.Nesting
import Zeroxos.Library.CursorLocal
import Zeroxos.Library.Diverge
import Zeroxos.Library.LittleEndian
import Zeroxos.Library.ShiftRegister
import Zeroxos.Library.RustFormat
import Zeroxos.Library.SourcePos
import Zeroxos.Library.InfixTree
import Zeroxos.Library.LookupCache
import Zeroxos.Library.Layout
import Zeroxos.Library.DescriptorTable
import Zeroxos.Library.FastCall
import Zeroxos.Library.Uart
import Zeroxos.Library.Template
import Zeroxos.Kernel.Buddy
import Zeroxos.Kernel.BuddyPartition
import Zeroxos.Kernel.BuddyCoalesced
import Zeroxos.Kernel.Heap
import Zeroxos.Kernel.HeapList
import Zeroxos.Kernel.HeapSafety
import Zeroxos.Kernel.HeapOversize
import Zeroxos.Kernel.HeapFragmentation
import Zeroxos.Kernel.HeapStack
import Zeroxos.Kernel.HeapContents
import Zeroxos.Kernel.Slab
import Zeroxos.Kernel.Context
import Zeroxos.Kernel.ContextSwitch
import Zeroxos.Kernel.MemoryManager
import Zeroxos.Kernel.Ipc
import Zeroxos.Kernel.Security
import Zeroxos.Kernel.Scheduler
import Zeroxos.Kernel.SchedulerFairness
import Zeroxos.Kernel.SchedulerInvariant
import Zeroxos.Kernel.Quantum
import Zeroxos.Kernel.Driver
import Zeroxos.Kernel.Process
import Zeroxos.Kernel.Boot
import Zeroxos.Kernel.GamingMode
import Zeroxos.Kernel.MemoryStats
import Zeroxos.Kernel.HeapLeak
import Zeroxos.Kernel.RegionBounds
import Zeroxos.Kernel.FrameHook
import Zeroxos.Kernel.Syscall
import Zeroxos.Kernel.TrapEntry
import Zeroxos.Kernel.DescriptorTables
import Zeroxos.Kernel.ArchInit
import Zeroxos.Kernel.KernelEntry
import Zeroxos.Kernel.Serial
import Zeroxos.Kernel.CrashDump
import Zeroxos.Hal.Paging
import Zeroxos.Hal.PagingTree
import Zeroxos.Hal.PagingMap
import Zeroxos.Hal.PagingPerms
import Zeroxos.Hal.PagingHuge
import Zeroxos.Hal.PagingAtomic
import Zeroxos.Hal.PagingShared
import Zeroxos.Hal.Aarch64
import Zeroxos.Kernel.AddressSpace
import Zeroxos.Fs.Checksum
import Zeroxos.Fs.ChecksumPoly
import Zeroxos.Fs.Compression
import Zeroxos.Fs.Superblock
import Zeroxos.Fs.Cow
import Zeroxos.Fs.CowSnapshot
import Zeroxos.Fs.CowInvariant
import Zeroxos.Fs.BurstDetection
import Zeroxos.Fs.Journal
import Zeroxos.Fs.JournalReplay
import Zeroxos.Fs.JournalInterleaving
import Zeroxos.Fs.JournalCrash
import Zeroxos.Agex.Lexer
import Zeroxos.Agex.Ast
import Zeroxos.Agex.Parser
import Zeroxos.Agex.ParserTotal
import Zeroxos.Agex.ParserYields
import Zeroxos.Agex.ParserNames
import Zeroxos.Agex.ParserLocal
import Zeroxos.Agex.BaseArguments
import Zeroxos.Agex.Unwritable
import Zeroxos.Agex.Codegen
import Zeroxos.Agex.Relex
import Zeroxos.Agex.Lexemes
import Zeroxos.Agex.SealedCalls
import Zeroxos.Agex.Writes
import Zeroxos.Agex.DeclOrder
import Zeroxos.Agex.ExprTokens
import Zeroxos.Agex.ExprLadder
import Zeroxos.Agex.ExprReads
import Zeroxos.Agex.RefCount
import Zeroxos.Agex.Grouping
import Zeroxos.Agex.ExprYields
import Zeroxos.Agex.GroupingKept
import Zeroxos.Agex.StmtYields
import Zeroxos.Agex.Lines
import Zeroxos.Agex.Spelling
import Zeroxos.Agex.BraceBalance
import Zeroxos.Agex.Receiver
import Zeroxos.Agex.PrintFormat
import Zeroxos.Agex.Regions
import Zeroxos.Agex.Unterminated
import Zeroxos.Agex.Positions
import Zeroxos.Agex.MainFns
import Zeroxos.Agex.ExprContext
import Zeroxos.Agex.DroppedArgs
import Zeroxos.Agex.FieldScope
import Zeroxos.Agex.SealedMatch
import Zeroxos.Agex.Precedence
import Zeroxos.Library.Interleave
import Zeroxos.Kernel.Authority
import Zeroxos.Agex.Respell
import Zeroxos.Library.CursorParallel
import Zeroxos.Agex.ParserPlaces
import Zeroxos.Agex.Transpile
