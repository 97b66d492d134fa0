import Cpm8000.Fpe.Round
import Cpm8000.Fpe.Range
import Cpm8000.Fpe.Mul
import Cpm8000.Fpe.Div
import Cpm8000.Fpe.Add
import Cpm8000.Fpe.Pack
import Cpm8000.Fpe.Load
import Cpm8000.Fpe.Compare
import Cpm8000.Fpe.Overflow
import Cpm8000.Fpe.Align
import Cpm8000.Fpe.Shifted
import Cpm8000.Fpe.Fint
import Cpm8000.Arith.Bcd
import Cpm8000.Fpe.Frombin
import Cpm8000.Fpe.Fldil
import Cpm8000.Fpe.Fldbcd
import Cpm8000.Arith.Root
import Cpm8000.Fpe.Sqrt
import Cpm8000.Bios.Disk
import Cpm8000.Bios.TrackBuffer
import Cpm8000.Bios.Plasmo
import Cpm8000.Bios.Z8002Demo
import Cpm8000.Bios.UserData
import Cpm8000.Coff.Convert
import Cpm8000.Coff.Layout
import Cpm8000.Coff.Targets
import Cpm8000.Host.Memory
import Cpm8000.Host.Dma
import Cpm8000.Host.File
import Cpm8000.Host.Loader
import Cpm8000.Host.Placement
import Cpm8000.Host.Open
import Cpm8000.Host.Position
import Cpm8000.Host.Names
import Cpm8000.Host.Search
import Cpm8000.Host.Erase
import Cpm8000.Host.Router
import Cpm8000.Host.Agreement
import Cpm8000.Host.Size
import Cpm8000.Asm.Vm
import Cpm8000.Asm.Alloc
import Cpm8000.Asm.Names
import Cpm8000.Asm.Fields
import Cpm8000.Asm.Symtab
import Cpm8000.Asm.Lookaside
import Cpm8000.Asm.Lru
import Cpm8000.Asm.Sort
import Cpm8000.Asm.Input
import Cpm8000.Asm.Scan
import Cpm8000.Asm.Token
import Cpm8000.Asm.Expand
import Cpm8000.Asm.Blocks
import Cpm8000.Asm.Object
import Cpm8000.Asm.Symbols
import Cpm8000.Sys.Keeps
import Cpm8000.Asm.Passes
import Cpm8000.Asm.Statements
import Cpm8000.Asm.Phase
import Cpm8000.Asm.Conditions
import Cpm8000.Asm.Division
import Cpm8000.Asm.Parser
import Cpm8000.Asm.Strings
import Cpm8000.Host.Disks
import Cpm8000.Host.LoadBounds
import Cpm8000.Host.LoadFailure
import Cpm8000.Host.Stack
import Cpm8000.Host.Slots
import Cpm8000.Host.Handles
import Cpm8000.Host.Randrec
import Cpm8000.Host.WholeFile
import Cpm8000.Host.ZeroFill
import Cpm8000.Host.MakeSearch
import Cpm8000.Host.SlotCache
import Cpm8000.Host.Fidelity
import Cpm8000.Host.Console
import Cpm8000.Host.Geometry
import Cpm8000.Host.Enumerate
import Cpm8000.Host.SysCoff
import Cpm8000.Linker.Tables
import Cpm8000.Linker.Pass1
import Cpm8000.Linker.Descr
import Cpm8000.Linker.Modules
import Cpm8000.Sys.Bump
import Cpm8000.Linker.Symbols
import Cpm8000.Linker.Flags
import Cpm8000.Linker.Names
import Cpm8000.Linker.Segments
import Cpm8000.Linker.Ready
import Cpm8000.Linker.Reading
import Cpm8000.Linker.Commons
import Cpm8000.Linker.Preassign
import Cpm8000.Linker.Interlude
import Cpm8000.Linker.Pass2
import Cpm8000.Linker.Positions
import Cpm8000.Linker.Buffer
import Cpm8000.Linker.SegReloc
import Cpm8000.Linker.Counter
import Cpm8000.Linker.Lookup
import Cpm8000.Coff.Addends
import Cpm8000.Coff.Safety
import Cpm8000.Linker.Order
import Cpm8000.Linker.Finale
import Cpm8000.Linker.FlatImage
import Cpm8000.Linker.Archive
import Cpm8000.Fpe.Remstep
import Cpm8000.Fpe.Remainder
import Cpm8000.Linker.Definitions
import Cpm8000.Linker.Headers
import Cpm8000.Linker.Loading
import Cpm8000.Linker.Postab
import Cpm8000.Linker.Libraries
import Cpm8000.Linker.Replay
import Cpm8000.Linker.Contents
import Cpm8000.Linker.Resolution
import Cpm8000.Linker.Format
import Cpm8000.Sys.Codec
import Cpm8000.Asm.Opcodes
import Cpm8000.Sys.Bitset
import Cpm8000.Asm.Encoding
import Cpm8000.Asm.Programs
import Cpm8000.Asm.Delivery
import Cpm8000.Asm.Definition
import Cpm8000.Asm.Calls
