import Bbarm64.A64.Encodings
import Bbarm64.A64.Immediate
import Bbarm64.A64.Isa
import Bbarm64.A64.Program
import Bbarm64.Backend.BlockRun
import Bbarm64.Backend.BlockState
import Bbarm64.Backend.Emitter
import Bbarm64.Backend.EmitterFacts
import Bbarm64.Backend.Lower
import Bbarm64.Backend.LowerAsm
import Bbarm64.Backend.MemMoves
import Bbarm64.Backend.RegAlloc
import Bbarm64.Backend.RegImm
import Bbarm64.Backend.RegOps
import Bbarm64.Backend.RegReg
import Bbarm64.Cache.Alloc
import Bbarm64.Cache.Aot
import Bbarm64.Cache.CacheLog
import Bbarm64.Cache.CacheSize
import Bbarm64.Cache.Chaining
import Bbarm64.Cache.Eviction
import Bbarm64.Cache.Range
import Bbarm64.Cache.TranslationCache
import Bbarm64.Core.Access
import Bbarm64.Core.AddressSpace
import Bbarm64.Core.Bump
import Bbarm64.Core.CPUContext
import Bbarm64.Core.Heap
import Bbarm64.Core.MemoryManager
import Bbarm64.Core.Protect
import Bbarm64.Core.Regions
import Bbarm64.Decoder.AccessRoute
import Bbarm64.Decoder.BranchForms
import Bbarm64.Decoder.Decode
import Bbarm64.Decoder.DecodeA64
import Bbarm64.Decoder.DecodeFacts
import Bbarm64.Decoder.Forms
import Bbarm64.Decoder.ImmediateForms
import Bbarm64.Decoder.Ranges
import Bbarm64.Decoder.ShiftedForms
import Bbarm64.Elf.Bounds
import Bbarm64.Elf.DynLink
import Bbarm64.Elf.Image
import Bbarm64.Elf.Libraries
import Bbarm64.Elf.Loader
import Bbarm64.Elf.Parse
import Bbarm64.Elf.Relocations
import Bbarm64.Elf.Segments
import Bbarm64.Engine.AddSub
import Bbarm64.Engine.Agreement
import Bbarm64.Engine.AotRun
import Bbarm64.Engine.BlockCode
import Bbarm64.Engine.Bounds
import Bbarm64.Engine.Branch
import Bbarm64.Engine.CalleeSaved
import Bbarm64.Engine.Capacity
import Bbarm64.Engine.Chain
import Bbarm64.Engine.Coherence
import Bbarm64.Engine.Compare
import Bbarm64.Engine.CompareBranch
import Bbarm64.Engine.Compile
import Bbarm64.Engine.ControlFlow
import Bbarm64.Engine.Ending
import Bbarm64.Engine.Exec
import Bbarm64.Engine.Exits
import Bbarm64.Engine.Extent
import Bbarm64.Engine.Fallback
import Bbarm64.Engine.FlagFrame
import Bbarm64.Engine.FlagSave
import Bbarm64.Engine.Footprint
import Bbarm64.Engine.GuestAccess
import Bbarm64.Engine.Installed
import Bbarm64.Engine.Interp
import Bbarm64.Engine.IrSim
import Bbarm64.Engine.Link
import Bbarm64.Engine.Literal
import Bbarm64.Engine.LoadStore
import Bbarm64.Engine.Loop
import Bbarm64.Engine.MoveWide
import Bbarm64.Engine.Narrow
import Bbarm64.Engine.Native
import Bbarm64.Engine.Operands
import Bbarm64.Engine.Pages
import Bbarm64.Engine.Pair
import Bbarm64.Engine.Pipeline
import Bbarm64.Engine.PoolUse
import Bbarm64.Engine.ProgramBlock
import Bbarm64.Engine.ProgramRound
import Bbarm64.Engine.Protected
import Bbarm64.Engine.Refusal
import Bbarm64.Engine.RegBranch
import Bbarm64.Engine.Run
import Bbarm64.Engine.Shift
import Bbarm64.Engine.Slots
import Bbarm64.Engine.Sources
import Bbarm64.Engine.Word32
import Bbarm64.Ir.Builder
import Bbarm64.Ir.BuilderFacts
import Bbarm64.Ir.FlagMerging
import Bbarm64.Ir.Optimizer
import Bbarm64.Ir.Semantics
import Bbarm64.Lib.Files
import Bbarm64.Lib.FirstFit
import Bbarm64.Lib.Halting
import Bbarm64.Lib.KeyedLog
import Bbarm64.Lib.Parts
import Bbarm64.Lib.Patch
import Bbarm64.Lib.Pieces
import Bbarm64.Lib.Recency
import Bbarm64.Lib.Trace
import Bbarm64.Main.Auxv
import Bbarm64.Main.Boot
import Bbarm64.Main.ProcessStack
import Bbarm64.Main.Pushes
import Bbarm64.Main.Stack
import Bbarm64.Rust.Alloc
import Bbarm64.Syscall.Brk
import Bbarm64.Syscall.Errno
import Bbarm64.Syscall.Handlers
import Bbarm64.Syscall.Read
import Bbarm64.Syscall.Stream
import Bbarm64.Threading.Ownership
import Bbarm64.Threading.ThreadManager
import Bbarm64.Threading.TlsEmu
import Bbarm64.X86.Codec
import Bbarm64.X86.Completion
import Bbarm64.X86.Extension
import Bbarm64.X86.InPlace
import Bbarm64.X86.Machine
import Bbarm64.X86.Memory
import Bbarm64.X86.ModRM
import Bbarm64.X86.Process
import Bbarm64.X86.StoreRun
import Bbarm64.X86.TwoByte
