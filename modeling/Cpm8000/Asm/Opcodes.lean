/-
# The instructions of the assembler

`predef` reads the instructions from a file of lines: for each operand its class and its action, two words
of the instruction and flags, and behind the last line of an instruction its names. Behind the directives
the file has the keywords. These are the lines of that file, in its order.

An action for which `instr` has no case does nothing: it is read as `OANULL`.
-/
import Cpm8000.Asm.Passes

namespace Cpm8000.Asm

def OCMSK : ℕ := 0x001f
def OAMSK : ℕ := 0x1f00

/-- The case of `instr` for an operand action. -/
def Action.of : ℕ → Action
  | 0x0100 => .OANIB1
  | 0x0200 => .OANIB2
  | 0x0300 => .OANIB3
  | 0x0500 => .OANIB5
  | 0x0600 => .OANIB6
  | 0x0700 => .OANIB7
  | 0x0800 => .OABYT1
  | 0x0900 => .OAX2
  | 0x0a00 => .OAX3
  | 0x0b00 => .OABA2
  | 0x0c00 => .OABA3
  | 0x0d00 => .OABX2
  | 0x0e00 => .OABX3
  | 0x0f00 => .OACFLAG
  | 0x1100 => .OANIB3S
  | 0x1200 => .OANIB3A
  | 0x1300 => .OANIB3D
  | 0x1700 => .OANIB7D
  | 0x1800 => .OARA7
  | 0x1900 => .OARA8
  | 0x1a00 => .OARA12
  | 0x1b00 => .OARA16
  | 0x1c00 => .OAIMM8
  | 0x1d00 => .OAIMM16
  | 0x1e00 => .OAIMM32
  | 0x1f00 => .OASHFT
  | _ => .OANULL

/-- A line of the file. -/
def format (a b c d skel flg : ℕ) : Format where
  fm_op := [a, b, c, d].map fun op => (op &&& OCMSK, .of (op &&& OAMSK))
  fm_skel := BitVec.ofNat 16 skel
  fm_flg := BitVec.ofNat 32 (flg &&& 0xffff)

/-- An instruction: its lines, and its names. -/
structure Opcode where
  lines : List Format
  names : List String

/-! ## 1. Instructions -/

def opcodes_a_d : List Opcode := [
  ⟨[format 0x305 0x205 0 0 0xb500 0], ["adc", "ADC"]⟩,
  ⟨[format 0x304 0x204 0 0 0xb400 0], ["adcb", "ADCB"]⟩,
  ⟨[format 0x305 0x205 0 0 0x8100 0,
    format 0x305 0x1d08 0 0 0x100 0,
    format 0x305 0x209 0 0 0x100 0,
    format 0x305 0x90a 0 0 0x4100 0], ["add", "ADD"]⟩,
  ⟨[format 0x304 0x204 0 0 0x8000 0,
    format 0x304 0x1c08 0 0 0 0,
    format 0x304 0x209 0 0 0 0,
    format 0x304 0x90a 0 0 0x4000 0], ["addb", "ADDB"]⟩,
  ⟨[format 0x306 0x206 0 0 0x9600 0,
    format 0x306 0x1e08 0 0 0x1600 0,
    format 0x306 0x209 0 0 0x1600 0,
    format 0x306 0x90a 0 0 0x5600 0], ["addl", "ADDL"]⟩,
  ⟨[format 0x305 0x205 0 0 0x8700 0,
    format 0x305 0x1d08 0 0 0x700 0,
    format 0x305 0x209 0 0 0x700 0,
    format 0x305 0x90a 0 0 0x4700 0], ["and", "AND"]⟩,
  ⟨[format 0x304 0x204 0 0 0x8600 0,
    format 0x304 0x1c08 0 0 0x600 0,
    format 0x304 0x209 0 0 0x600 0,
    format 0x304 0x90a 0 0 0x4600 0], ["andb", "ANDB"]⟩,
  ⟨[format 0x205 0x308 0 0 0xa700 0,
    format 0x209 0x308 0 0 0x2700 0,
    format 0x90a 0x308 0 0 0x6700 0,
    format 0x505 0x305 0 0 0x2700 0x100], ["bit", "BIT"]⟩,
  ⟨[format 0x204 0x1108 0 0 0xa600 0,
    format 0x209 0x1108 0 0 0x2600 0,
    format 0x90a 0x1108 0 0 0x6600 0,
    format 0x504 0x1105 0 0 0x2600 0x100], ["bitb", "BITB"]⟩,
  ⟨[format 0x209 0 0 0 0x1f00 0,
    format 0x90a 0 0 0 0x5f00 0], ["call", "CALL"]⟩,
  ⟨[format 0x1a03 0 0 0 0xd000 0], ["calr", "CALR"]⟩,
  ⟨[format 0x205 0 0 0 0x8d08 0,
    format 0x209 0 0 0 0xd08 0,
    format 0x90a 0 0 0 0x4d08 0], ["clr", "CLR"]⟩,
  ⟨[format 0x204 0 0 0 0x8c08 0,
    format 0x209 0 0 0 0xc08 0,
    format 0x90a 0 0 0 0x4c08 0], ["clrb", "CLRB"]⟩,
  ⟨[format 0x205 0 0 0 0x8d00 0,
    format 0x209 0 0 0 0xd00 0,
    format 0x90a 0 0 0 0x4d00 0], ["com", "COM"]⟩,
  ⟨[format 0x204 0 0 0 0x8c00 0,
    format 0x209 0 0 0 0xc00 0,
    format 0x90a 0 0 0 0x4c00 0], ["comb", "COMB"]⟩,
  ⟨[format 0xf0e 0 0 0 0x8d05 0,
    format 0xf0e 0xf0e 0 0 0x8d05 0,
    format 0xf0e 0xf0e 0xf0e 0 0x8d05 0,
    format 0xf0e 0xf0e 0xf0e 0xf0e 0x8d05 0], ["comflg", "COMFLG"]⟩,
  ⟨[format 0x305 0x205 0 0 0x8b00 0,
    format 0x305 0x1d08 0 0 0xb00 0,
    format 0x305 0x209 0 0 0xb00 0,
    format 0x305 0x90a 0 0 0x4b00 0,
    format 0x209 0x1d08 0 0 0xd01 0,
    format 0x90a 0x1d08 0 0 0x4d01 0], ["cp", "CP"]⟩,
  ⟨[format 0x304 0x204 0 0 0x8a00 0,
    format 0x304 0x1c08 0 0 0xa00 0,
    format 0x304 0x209 0 0 0xa00 0,
    format 0x304 0x90a 0 0 0x4a00 0,
    format 0x209 0x1c08 0 0 0xc01 0,
    format 0x90a 0x1c08 0 0 0x4c01 0], ["cpb", "CPB"]⟩,
  ⟨[format 0x306 0x206 0 0 0x9000 0,
    format 0x306 0x1e08 0 0 0x1000 0,
    format 0x306 0x209 0 0 0x1000 0,
    format 0x306 0x90a 0 0 0x5000 0], ["cpl", "CPL"]⟩,
  ⟨[format 0x605 0x209 0x505 0x70d 0xbb08 0x100], ["cpd", "CPD"]⟩,
  ⟨[format 0x604 0x209 0x505 0x70d 0xba08 0x100], ["cpdb", "CPDB"]⟩,
  ⟨[format 0x605 0x209 0x505 0x70d 0xbb0c 0x100], ["cpdr", "CPDR"]⟩,
  ⟨[format 0x604 0x209 0x505 0x70d 0xba0c 0x100], ["cpdrb", "CPDRB"]⟩,
  ⟨[format 0x605 0x209 0x505 0x70d 0xbb00 0x100], ["cpi", "CPI"]⟩,
  ⟨[format 0x604 0x209 0x505 0x70d 0xba00 0x100], ["cpib", "CPIB"]⟩,
  ⟨[format 0x605 0x209 0x505 0x70d 0xbb04 0x100], ["cpir", "CPIR"]⟩,
  ⟨[format 0x604 0x209 0x505 0x70d 0xba04 0x100], ["cpirb", "CPIRB"]⟩,
  ⟨[format 0x609 0x209 0x505 0x70d 0xbb0a 0x100], ["cpsd", "CPSD"]⟩,
  ⟨[format 0x609 0x209 0x505 0x70d 0xba0a 0x100], ["cpsdb", "CPSDB"]⟩,
  ⟨[format 0x609 0x209 0x505 0x70d 0xbb0e 0x100], ["cpsdr", "CPSDR"]⟩,
  ⟨[format 0x609 0x209 0x505 0x70d 0xba0e 0x100], ["cpsdrb", "CPSDRB"]⟩,
  ⟨[format 0x609 0x209 0x505 0x70d 0xbb02 0x100], ["cpsi", "CPSI"]⟩,
  ⟨[format 0x609 0x209 0x505 0x70d 0xba02 0x100], ["cpsib", "CPSIB"]⟩,
  ⟨[format 0x609 0x209 0x505 0x70d 0xbb06 0x100], ["cpsir", "CPSIR"]⟩,
  ⟨[format 0x609 0x209 0x505 0x70d 0xba06 0x100], ["cpsirb", "CPSIRB"]⟩,
  ⟨[format 0x204 0 0 0 0xb000 0], ["dab", "DAB"]⟩,
  ⟨[format 0x205 0 0 0 0xab00 0,
    format 0x209 0 0 0 0x2b00 0,
    format 0x90a 0 0 0 0x6b00 0,
    format 0x205 0x1308 0 0 0xab00 0,
    format 0x209 0x1308 0 0 0x2b00 0,
    format 0x90a 0x1308 0 0 0x6b00 0], ["dec", "DEC"]⟩,
  ⟨[format 0x204 0 0 0 0xaa00 0,
    format 0x209 0 0 0 0x2a00 0,
    format 0x90a 0 0 0 0x6a00 0,
    format 0x204 0x1308 0 0 0xaa00 0,
    format 0x209 0x1308 0 0 0x2a00 0,
    format 0x90a 0x1308 0 0 0x6a00 0], ["decb", "DECB"]⟩,
  ⟨[format 0x120f 0 0 0 0x7c03 0,
    format 0x120f 0x120f 0 0 0x7c03 0], ["di", "DI"]⟩,
  ⟨[format 0x306 0x205 0 0 0x9b00 0,
    format 0x306 0x1d08 0 0 0x1b00 0,
    format 0x306 0x209 0 0 0x1b00 0,
    format 0x306 0x90a 0 0 0x5b00 0], ["div", "DIV"]⟩,
  ⟨[format 0x307 0x206 0 0 0x9a00 0,
    format 0x307 0x1e08 0 0 0x1a00 0,
    format 0x307 0x209 0 0 0x1a00 0,
    format 0x307 0x90a 0 0 0x5a00 0], ["divl", "DIVL"]⟩,
  ⟨[format 0x105 0x1803 0 0 0xf080 0], ["djnz", "DJNZ"]⟩,
  ⟨[format 0x104 0x1803 0 0 0xf000 0], ["dbjnz", "DBJNZ"]⟩]

def opcodes_e : List Opcode := [
  ⟨[format 0x120f 0 0 0 0x7c07 0,
    format 0x120f 0x120f 0 0 0x7c07 0], ["ei", "EI"]⟩,
  ⟨[format 0x305 0x205 0 0 0xad00 0,
    format 0x305 0x209 0 0 0x2d00 0,
    format 0x305 0x90a 0 0 0x6d00 0], ["ex", "EX"]⟩,
  ⟨[format 0x304 0x204 0 0 0xac00 0,
    format 0x304 0x209 0 0 0x2c00 0,
    format 0x304 0x90a 0 0 0x6c00 0], ["exb", "EXB"]⟩,
  ⟨[format 0x206 0 0 0 0xb10a 0], ["exts", "EXTS"]⟩,
  ⟨[format 0x205 0 0 0 0xb100 0], ["extsb", "EXTSB"]⟩,
  ⟨[format 0x207 0 0 0 0xb107 0], ["extsl", "EXTSL"]⟩]

def opcodes_f : List Opcode := [
  ⟨[format 0x214 0x514 0 0 0x8e04 0x8580,
    format 0x214 0x505 0 0 0x8f08 0x8584,
    format 0x514 0x209 0 0 0xf04 0x8584,
    format 0x514 0x90a 0 0 0x4f04 0x8584], ["fabs", "FABS"]⟩,
  ⟨[format 0x214 0x505 0 0 0x8f08 0x8581,
    format 0x514 0x209 0 0 0xf04 0x8581,
    format 0x514 0x90a 0 0 0x4f04 0x8581], ["fabss", "FABSS"]⟩,
  ⟨[format 0x214 0x505 0 0 0x8f08 0x8583,
    format 0x514 0x209 0 0 0xf04 0x8583,
    format 0x514 0x90a 0 0 0x4f04 0x8583], ["fabsd", "FABSD"]⟩,
  ⟨[format 0x214 0x514 0 0 0x8e04 0x4580,
    format 0x214 0x505 0 0 0x8f08 0x4584,
    format 0x514 0x209 0 0 0xf04 0x4584,
    format 0x514 0x90a 0 0 0x4f04 0x4584], ["fadd", "FADD"]⟩,
  ⟨[format 0x214 0x505 0 0 0x8f08 0x4581,
    format 0x514 0x209 0 0 0xf04 0x4581,
    format 0x514 0x90a 0 0 0x4f04 0x4581], ["fadds", "FADDS"]⟩,
  ⟨[format 0x214 0x505 0 0 0x8f08 0x4583,
    format 0x514 0x209 0 0 0xf04 0x4583,
    format 0x514 0x90a 0 0 0x4f04 0x4583], ["faddd", "FADDD"]⟩,
  ⟨[format 0x214 0 0 0 0x8e04 0x100], ["fclr", "FCLR"]⟩,
  ⟨[format 0x214 0x514 0 0 0x8e04 0x4110,
    format 0x214 0x505 0 0 0x8f08 0x4114,
    format 0x514 0x209 0 0 0xf04 0x4114,
    format 0x514 0x90a 0 0 0x4f04 0x4114], ["fcp", "FCP"]⟩,
  ⟨[format 0x214 0x505 0 0 0x8f08 0x4111,
    format 0x514 0x209 0 0 0xf04 0x4111,
    format 0x514 0x90a 0 0 0x4f04 0x4111], ["fcps", "FCPS"]⟩,
  ⟨[format 0x214 0x505 0 0 0x8f08 0x4113,
    format 0x514 0x209 0 0 0xf04 0x4113,
    format 0x514 0x90a 0 0 0x4f04 0x4113], ["fcpd", "FCPD"]⟩,
  ⟨[format 0x214 0x514 0 0 0x8e04 0x4120,
    format 0x214 0x505 0 0 0x8f08 0x4124,
    format 0x514 0x209 0 0 0xf04 0x4124,
    format 0x514 0x90a 0 0 0x4f04 0x4124], ["fcpx", "FCPX"]⟩,
  ⟨[format 0x214 0x505 0 0 0x8f08 0x4121,
    format 0x514 0x209 0 0 0xf04 0x4121,
    format 0x514 0x90a 0 0 0x4f04 0x4121], ["fcpxs", "FCPXS"]⟩,
  ⟨[format 0x214 0x505 0 0 0x8f08 0x4123,
    format 0x514 0x209 0 0 0xf04 0x4123,
    format 0x514 0x90a 0 0 0x4f04 0x4123], ["fcpxd", "FCPXD"]⟩,
  ⟨[format 0x214 0x514 0 0 0x8e00 0x4110], ["fcpf", "FCPF"]⟩,
  ⟨[format 0x214 0x514 0 0 0x8e00 0x4120], ["fcpfx", "FCPFX"]⟩,
  ⟨[format 0x214 0 0 0 0x8e00 0x110], ["fcpz", "FCPZ"]⟩,
  ⟨[format 0x214 0 0 0 0x8e00 0x120], ["fcpzx", "FCPZX"]⟩,
  ⟨[format 0x214 0x514 0 0 0x8e04 0x45a0,
    format 0x214 0x505 0 0 0x8f08 0x45a4,
    format 0x514 0x209 0 0 0xf04 0x45a4,
    format 0x514 0x90a 0 0 0x4f04 0x45a4], ["fdiv", "FDIV"]⟩,
  ⟨[format 0x214 0x505 0 0 0x8f08 0x45a1,
    format 0x514 0x209 0 0 0xf04 0x45a1,
    format 0x514 0x90a 0 0 0x4f04 0x45a1], ["fdivs", "FDIVS"]⟩,
  ⟨[format 0x214 0x505 0 0 0x8f08 0x45a3,
    format 0x514 0x209 0 0 0xf04 0x45a3,
    format 0x514 0x90a 0 0 0x4f04 0x45a3], ["fdivd", "FDIVD"]⟩,
  ⟨[format 0x214 0x514 0 0 0x8e04 0x85d0,
    format 0x214 0x505 0 0 0x8f08 0x85d4,
    format 0x514 0x209 0 0 0xf04 0x85d4,
    format 0x514 0x90a 0 0 0x4f04 0x85d4], ["fint", "FINT"]⟩,
  ⟨[format 0x214 0x505 0 0 0x8f08 0x85d1,
    format 0x514 0x209 0 0 0xf04 0x85d1,
    format 0x514 0x90a 0 0 0x4f04 0x85d1], ["fints", "FINTS"]⟩,
  ⟨[format 0x214 0x505 0 0 0x8f08 0x85d3,
    format 0x514 0x209 0 0 0xf04 0x85d3,
    format 0x514 0x90a 0 0 0x4f04 0x85d3], ["fintd", "FINTD"]⟩,
  ⟨[format 0x214 0x514 0 0 0x8e04 0x8500,
    format 0x214 0x505 0 0 0x8f08 0x8504,
    format 0x514 0x209 0 0 0xf04 0x8504,
    format 0x514 0x90a 0 0 0x4f04 0x8504,
    format 0x505 0x214 0 0 0x8f00 0x8104,
    format 0x209 0x514 0 0 0xf0c 0x8104,
    format 0x90a 0x514 0 0 0x4f0c 0x8104], ["fld", "FLD"]⟩,
  ⟨[format 0x214 0x505 0 0 0x8f08 0x8501,
    format 0x514 0x209 0 0 0xf04 0x8501,
    format 0x514 0x90a 0 0 0x4f04 0x8501,
    format 0x505 0x214 0 0 0x8f00 0x8101,
    format 0x209 0x514 0 0 0xf0c 0x8101,
    format 0x90a 0x514 0 0 0x4f0c 0x8101], ["flds", "FLDS"]⟩,
  ⟨[format 0x214 0x505 0 0 0x8f08 0x8503,
    format 0x514 0x209 0 0 0xf04 0x8503,
    format 0x514 0x90a 0 0 0x4f04 0x8503,
    format 0x505 0x214 0 0 0x8f00 0x8103,
    format 0x209 0x514 0 0 0xf0c 0x8103,
    format 0x90a 0x514 0 0 0x4f0c 0x8103], ["fldd", "FLDD"]⟩,
  ⟨[format 0x214 0x505 0x1608 0 0x8f08 0x8510,
    format 0x214 0x505 0 0 0x8f08 0x8514,
    format 0x514 0x209 0x1608 0 0xf04 0x8510,
    format 0x514 0x209 0 0 0xf04 0x8514,
    format 0x514 0x90a 0x1608 0 0x4f04 0x8510,
    format 0x514 0x90a 0 0 0x4f04 0x8514,
    format 0x505 0x214 0x1608 0 0x8f00 0x8110,
    format 0x505 0x214 0 0 0x8f00 0x8114,
    format 0x209 0x514 0x1608 0 0xf0c 0x8110,
    format 0x209 0x514 0 0 0xf0c 0x8114,
    format 0x90a 0x514 0x1608 0 0x4f0c 0x8110,
    format 0x90a 0x514 0 0 0x4f0c 0x8114], ["fldbcd", "FLDBCD"]⟩,
  ⟨[format 0x21a 0x505 0 0 0x8f08 0xc100,
    format 0x215 0x506 0 0 0x8f08 0xc101,
    format 0x216 0x505 0 0 0x8f08 0xc104,
    format 0x51a 0x209 0 0 0xf04 0xc100,
    format 0x515 0x209 0 0 0xf04 0xc101,
    format 0x516 0x209 0 0 0xf04 0xc104,
    format 0x51a 0x90a 0 0 0x4f04 0xc100,
    format 0x515 0x90a 0 0 0x4f04 0xc101,
    format 0x516 0x90a 0 0 0x4f04 0xc104,
    format 0x505 0x21a 0 0 0x8f00 0xc100,
    format 0x506 0x215 0 0 0x8f00 0xc101,
    format 0x505 0x216 0 0 0x8f00 0xc104,
    format 0x209 0x51a 0 0 0xf0c 0xc100,
    format 0x209 0x515 0 0 0xf0c 0xc101,
    format 0x209 0x516 0 0 0xf0c 0xc104,
    format 0x90a 0x51a 0 0 0x4f0c 0xc100,
    format 0x90a 0x515 0 0 0x4f0c 0xc101,
    format 0x90a 0x516 0 0 0x4f0c 0xc104], ["fldctl", "FLDCTL"]⟩,
  ⟨[format 0x217 0 0 0 0x8e00 0xc110], ["fldctlb", "FLDCTLB"]⟩,
  ⟨[format 0x214 0x506 0 0 0x8f08 0x8521,
    format 0x514 0x209 0 0 0xf04 0x8521,
    format 0x514 0x90a 0 0 0x4f04 0x8521,
    format 0x506 0x214 0 0 0x8f00 0x8121,
    format 0x209 0x514 0 0 0xf0c 0x8121,
    format 0x90a 0x514 0 0 0x4f0c 0x8121], ["fldil", "FLDIL"]⟩,
  ⟨[format 0x214 0x507 0 0 0x8f08 0x8523,
    format 0x514 0x209 0 0 0xf04 0x8523,
    format 0x514 0x90a 0 0 0x4f04 0x8523,
    format 0x507 0x214 0 0 0x8f00 0x8123,
    format 0x209 0x514 0 0 0xf0c 0x8123,
    format 0x90a 0x514 0 0 0x4f0c 0x8123], ["fldiq", "FLDIQ"]⟩,
  ⟨[format 0x214 0x514 0 0 0x8e04 0x8130,
    format 0x214 0x505 0 0 0x8f08 0x8134,
    format 0x514 0x209 0 0 0xf04 0x8134,
    format 0x514 0x90a 0 0 0x4f04 0x8134,
    format 0x505 0x214 0 0 0x8f00 0x8134,
    format 0x209 0x514 0 0 0xf0c 0x8134,
    format 0x90a 0x514 0 0 0x4f0c 0x8134], ["fldm", "FLDM", "fldnf", "FLDNF"]⟩,
  ⟨[format 0x506 0x214 0 0 0x8f00 0x8141,
    format 0x209 0x514 0 0 0xf0c 0x8141,
    format 0x90a 0x514 0 0 0x4f0c 0x8141], ["fldtl", "FLDTL"]⟩,
  ⟨[format 0x507 0x214 0 0 0x8f00 0x8143,
    format 0x209 0x514 0 0 0xf0c 0x8143,
    format 0x90a 0x514 0 0 0x4f0c 0x8143], ["fldtq", "FLDTQ"]⟩,
  ⟨[format 0x214 0x514 0 0 0x8e04 0x45b0,
    format 0x214 0x505 0 0 0x8f08 0x45b4,
    format 0x514 0x209 0 0 0xf04 0x45b4,
    format 0x514 0x90a 0 0 0x4f04 0x45b4], ["fmul", "FMUL"]⟩,
  ⟨[format 0x214 0x505 0 0 0x8f08 0x45b1,
    format 0x514 0x209 0 0 0xf04 0x45b1,
    format 0x514 0x90a 0 0 0x4f04 0x45b1], ["fmuls", "FMULS"]⟩,
  ⟨[format 0x214 0x505 0 0 0x8f08 0x45b3,
    format 0x514 0x209 0 0 0xf04 0x45b3,
    format 0x514 0x90a 0 0 0x4f04 0x45b3], ["fmuld", "FMULD"]⟩,
  ⟨[format 0x214 0x514 0 0 0x8e04 0x8590,
    format 0x214 0x505 0 0 0x8f08 0x8594,
    format 0x514 0x209 0 0 0xf04 0x8594,
    format 0x514 0x90a 0 0 0x4f04 0x8594], ["fneg", "FNEG"]⟩,
  ⟨[format 0x214 0x505 0 0 0x8f08 0x8591,
    format 0x514 0x209 0 0 0xf04 0x8591,
    format 0x514 0x90a 0 0 0x4f04 0x8591], ["fnegs", "FNEGS"]⟩,
  ⟨[format 0x214 0x505 0 0 0x8f08 0x8593,
    format 0x514 0x209 0 0 0xf04 0x8593,
    format 0x514 0x90a 0 0 0x4f04 0x8593], ["fnegd", "FNEGD"]⟩,
  ⟨[format 0x214 0x514 0 0 0x8e04 0x85b0,
    format 0x214 0x505 0 0 0x8f08 0x85b4,
    format 0x514 0x209 0 0 0xf04 0x85b4,
    format 0x514 0x90a 0 0 0x4f04 0x85b4], ["fpwr2", "FPWR2"]⟩,
  ⟨[format 0x214 0x505 0 0 0x8f08 0x85b1,
    format 0x514 0x209 0 0 0xf04 0x85b1,
    format 0x514 0x90a 0 0 0x4f04 0x85b1], ["fpwr2s", "FPWR2S"]⟩,
  ⟨[format 0x214 0x505 0 0 0x8f08 0x85b3,
    format 0x514 0x209 0 0 0xf04 0x85b3,
    format 0x514 0x90a 0 0 0x4f04 0x85b3], ["fpwr2d", "FPWR2D"]⟩,
  ⟨[format 0x214 0x514 0 0 0x8e00 0x45c0], ["fremstep", "FREMSTEP"]⟩,
  ⟨[format 0x214 0x514 0 0 0x8e04 0x45c0,
    format 0x214 0x505 0 0 0x8f08 0x45c4,
    format 0x514 0x209 0 0 0xf04 0x45c4,
    format 0x514 0x90a 0 0 0x4f04 0x45c4], ["fremsnf", "FREMSNF"]⟩,
  ⟨[format 0x214 0x505 0 0 0x8f08 0x45c1,
    format 0x514 0x209 0 0 0xf04 0x45c1,
    format 0x514 0x90a 0 0 0x4f04 0x45c1], ["fremsnfs", "FREMSNFS"]⟩,
  ⟨[format 0x214 0x505 0 0 0x8f08 0x45c3,
    format 0x514 0x209 0 0 0xf04 0x45c3,
    format 0x514 0x90a 0 0 0x4f04 0x45c3], ["fremsnfd", "FREMSNFD"]⟩,
  ⟨[format 0x1018 0 0 0 0x8e04 0xc120], ["fresflg", "FRESFLG"]⟩,
  ⟨[format 0x1018 0 0 0 0x8e24 0xc120], ["frestrap", "FRESTRAP"]⟩,
  ⟨[format 0x214 0x514 0 0 0x8e04 0x5a0,
    format 0x214 0x505 0 0 0x8f08 0x5a4,
    format 0x514 0x209 0 0 0xf04 0x5a4,
    format 0x514 0x90a 0 0 0x4f04 0x5a4], ["frvdiv", "FRVDIV"]⟩,
  ⟨[format 0x214 0x505 0 0 0x8f08 0x5a1,
    format 0x514 0x209 0 0 0xf04 0x5a1,
    format 0x514 0x90a 0 0 0x4f04 0x5a1], ["frvdivs", "FRVDIVS"]⟩,
  ⟨[format 0x214 0x505 0 0 0x8f08 0x5a3,
    format 0x514 0x209 0 0 0xf04 0x5a3,
    format 0x514 0x90a 0 0 0x4f04 0x5a3], ["frvdivd", "FRVDIVD"]⟩,
  ⟨[format 0x214 0x514 0 0 0x8e04 0x590,
    format 0x214 0x505 0 0 0x8f08 0x594,
    format 0x514 0x209 0 0 0xf04 0x594,
    format 0x514 0x90a 0 0 0x4f04 0x594], ["frvsub", "FRVSUB"]⟩,
  ⟨[format 0x214 0x505 0 0 0x8f08 0x591,
    format 0x514 0x209 0 0 0xf04 0x591,
    format 0x514 0x90a 0 0 0x4f04 0x591], ["frvsubs", "FRVSUBS"]⟩,
  ⟨[format 0x214 0x505 0 0 0x8f08 0x593,
    format 0x514 0x209 0 0 0xf04 0x593,
    format 0x514 0x90a 0 0 0x4f04 0x593], ["frvsubd", "FRVSUBD"]⟩,
  ⟨[format 0x1018 0 0 0 0x8e04 0xc130], ["fsetflg", "FSETFLG"]⟩,
  ⟨[format 0x1019 0 0 0 0x8e04 0xc140], ["fsetmode", "FSETMODE"]⟩,
  ⟨[format 0x1018 0 0 0 0x8e24 0xc130], ["fsettrap", "FSETTRAP"]⟩,
  ⟨[format 0x214 0x514 0 0 0x8e04 0x85c0,
    format 0x214 0x505 0 0 0x8f08 0x85c4,
    format 0x514 0x209 0 0 0xf04 0x85c4,
    format 0x514 0x90a 0 0 0x4f04 0x85c4], ["fsqr", "FSQR"]⟩,
  ⟨[format 0x214 0x505 0 0 0x8f08 0x85c1,
    format 0x514 0x209 0 0 0xf04 0x85c1,
    format 0x514 0x90a 0 0 0x4f04 0x85c1], ["fsqrs", "FSQRS"]⟩,
  ⟨[format 0x214 0x505 0 0 0x8f08 0x85c3,
    format 0x514 0x209 0 0 0xf04 0x85c3,
    format 0x514 0x90a 0 0 0x4f04 0x85c3], ["fsqrd", "FSQRD"]⟩,
  ⟨[format 0x214 0x514 0 0 0x8e04 0x4590,
    format 0x214 0x505 0 0 0x8f08 0x4594,
    format 0x514 0x209 0 0 0xf04 0x4594,
    format 0x514 0x90a 0 0 0x4f04 0x4594], ["fsub", "FSUB"]⟩,
  ⟨[format 0x214 0x505 0 0 0x8f08 0x4591,
    format 0x514 0x209 0 0 0xf04 0x4591,
    format 0x514 0x90a 0 0 0x4f04 0x4591], ["fsubs", "FSUBS"]⟩,
  ⟨[format 0x214 0x505 0 0 0x8f08 0x4593,
    format 0x514 0x209 0 0 0xf04 0x4593,
    format 0x514 0x90a 0 0 0x4f04 0x4593], ["fsubd", "FSUBD"]⟩]

def opcodes_h_m : List Opcode := [
  ⟨[format 0 0 0 0 0x7a00 0], ["halt", "HALT"]⟩,
  ⟨[format 0x305 0x212 0 0 0x3d00 0,
    format 0x205 0x1d03 0 0 0x3b04 0], ["in", "IN"]⟩,
  ⟨[format 0x304 0x212 0 0 0x3c00 0,
    format 0x204 0x1d03 0 0 0x3a04 0], ["inb", "INB"]⟩,
  ⟨[format 0x205 0 0 0 0xa900 0,
    format 0x209 0 0 0 0x2900 0,
    format 0x90a 0 0 0 0x6900 0,
    format 0x205 0x1308 0 0 0xa900 0,
    format 0x209 0x1308 0 0 0x2900 0,
    format 0x90a 0x1308 0 0 0x6900 0], ["inc", "INC"]⟩,
  ⟨[format 0x204 0 0 0 0xa800 0,
    format 0x209 0 0 0 0x2800 0,
    format 0x90a 0 0 0 0x6800 0,
    format 0x204 0x1308 0 0 0xa800 0,
    format 0x209 0x1308 0 0 0x2800 0,
    format 0x90a 0x1308 0 0 0x6800 0], ["incb", "INCB"]⟩,
  ⟨[format 0x609 0x212 0x505 0 0x3b08 0x108], ["ind", "IND"]⟩,
  ⟨[format 0x609 0x212 0x505 0 0x3a08 0x108], ["indb", "INDB"]⟩,
  ⟨[format 0x609 0x212 0x505 0 0x3b08 0x100], ["indr", "INDR"]⟩,
  ⟨[format 0x609 0x212 0x505 0 0x3a08 0x100], ["indrb", "INDRB"]⟩,
  ⟨[format 0x609 0x212 0x505 0 0x3b00 0x108], ["ini", "INI"]⟩,
  ⟨[format 0x609 0x212 0x505 0 0x3a00 0x108], ["inib", "INIB"]⟩,
  ⟨[format 0x609 0x212 0x505 0 0x3b00 0x100], ["inir", "INIR"]⟩,
  ⟨[format 0x609 0x212 0x505 0 0x3a00 0x100], ["inirb", "INIRB"]⟩,
  ⟨[format 0 0 0 0 0x7b00 0], ["iret", "IRET"]⟩,
  ⟨[format 0x209 0 0 0 0x1e08 0,
    format 0x90a 0 0 0 0x5e08 0,
    format 0x30d 0x209 0 0 0x1e00 0,
    format 0x30d 0x90a 0 0 0x5e00 0], ["jp", "JP"]⟩,
  ⟨[format 0x1903 0 0 0 0xe800 0,
    format 0x10d 0x1903 0 0 0xe000 0], ["jr", "JR"]⟩,
  ⟨[format 0x305 0x205 0 0 0xa100 0,
    format 0x305 0x1d08 0 0 0x2100 0,
    format 0x305 0x209 0 0 0x2100 0,
    format 0x305 0x90a 0 0 0x6100 0,
    format 0x305 0xb0b 0 0 0x3100 0,
    format 0x305 0xd0c 0 0 0x7100 0x100,
    format 0x209 0x305 0 0 0x2f00 0,
    format 0x90a 0x305 0 0 0x6f00 0,
    format 0x209 0x1d08 0 0 0xd05 0,
    format 0x90a 0x1d08 0 0 0x4d05 0,
    format 0xb0b 0x305 0 0 0x3300 0,
    format 0xd0c 0x305 0 0 0x7300 0x100], ["ld", "LD"]⟩,
  ⟨[format 0x304 0x204 0 0 0xa000 0,
    format 0x104 0x808 0 0 0xc000 0,
    format 0x304 0x209 0 0 0x2000 0,
    format 0x304 0x90a 0 0 0x6000 0,
    format 0x304 0xb0b 0 0 0x3000 0,
    format 0x304 0xd0c 0 0 0x7000 0x100,
    format 0x209 0x304 0 0 0x2e00 0,
    format 0x90a 0x304 0 0 0x6e00 0,
    format 0x209 0x1c08 0 0 0xc05 0,
    format 0x90a 0x1c08 0 0 0x4c05 0,
    format 0xb0b 0x304 0 0 0x3200 0,
    format 0xd0c 0x304 0 0 0x7200 0x100], ["ldb", "LDB"]⟩,
  ⟨[format 0x306 0x206 0 0 0x9400 0,
    format 0x306 0x1e08 0 0 0x1400 0,
    format 0x306 0x209 0 0 0x1400 0,
    format 0x306 0x90a 0 0 0x5400 0,
    format 0x306 0xb0b 0 0 0x3500 0,
    format 0x306 0xd0c 0 0 0x7500 0x100,
    format 0x209 0x306 0 0 0x1d00 0,
    format 0x90a 0x306 0 0 0x5d00 0,
    format 0xb0b 0x306 0 0 0x3700 0,
    format 0xd0c 0x306 0 0 0x7700 0x100], ["ldl", "LDL"]⟩,
  ⟨[format 0x313 0x90a 0 0 0x7600 0,
    format 0x313 0xb0b 0 0 0x3400 0,
    format 0x313 0xd0c 0 0 0x7400 0x100], ["lda", "LDA"]⟩,
  ⟨[format 0x313 0x1b03 0 0 0x3400 0], ["ldar", "LDAR"]⟩,
  ⟨[format 0x11 0x204 0 0 0x8c09 0,
    format 0x204 0x11 0 0 0x8c01 0], ["ldctlb", "LDCTLB"]⟩,
  ⟨[format 0x310 0x205 0 0 0x7d08 0,
    format 0x205 0x310 0 0 0x7d00 0], ["ldctl", "LDCTL"]⟩,
  ⟨[format 0x609 0x209 0x505 0 0xbb09 0x108], ["ldd", "LDD"]⟩,
  ⟨[format 0x609 0x209 0x505 0 0xba09 0x108], ["lddb", "LDDB"]⟩,
  ⟨[format 0x609 0x209 0x505 0 0xbb09 0x100], ["lddr", "LDDR"]⟩,
  ⟨[format 0x609 0x209 0x505 0 0xba09 0x100], ["lddrb", "LDDRB"]⟩,
  ⟨[format 0x609 0x209 0x505 0 0xbb01 0x108], ["ldi", "LDI"]⟩,
  ⟨[format 0x609 0x209 0x505 0 0xba01 0x108], ["ldib", "LDIB"]⟩,
  ⟨[format 0x609 0x209 0x505 0 0xbb01 0x100], ["ldir", "LDIR"]⟩,
  ⟨[format 0x609 0x209 0x505 0 0xba01 0x100], ["ldirb", "LDIRB"]⟩,
  ⟨[format 0x205 0x308 0 0 0xbd00 0], ["ldk", "LDK"]⟩,
  ⟨[format 0x505 0x209 0x1708 0 0x1c01 0x100,
    format 0x505 0x90a 0x1708 0 0x5c01 0x100,
    format 0x209 0x505 0x1708 0 0x1c09 0x100,
    format 0x90a 0x505 0x1708 0 0x5c09 0x100], ["ldm", "LDM"]⟩,
  ⟨[format 0x209 0 0 0 0x3900 0,
    format 0x90a 0 0 0 0x7900 0], ["ldps", "LDPS"]⟩,
  ⟨[format 0x305 0x1b03 0 0 0x3100 0,
    format 0x1b03 0x305 0 0 0x3300 0], ["ldr", "LDR"]⟩,
  ⟨[format 0x304 0x1b03 0 0 0x3000 0,
    format 0x1b03 0x304 0 0 0x3200 0], ["ldrb", "LDRB"]⟩,
  ⟨[format 0x306 0x1b03 0 0 0x3500 0,
    format 0x1b03 0x306 0 0 0x3700 0], ["ldrl", "LDRL"]⟩,
  ⟨[format 0 0 0 0 0x7b0a 0], ["mbit", "MBIT"]⟩,
  ⟨[format 0x205 0 0 0 0x7b0d 0], ["mreq", "MREQ"]⟩,
  ⟨[format 0 0 0 0 0x7b09 0], ["mres", "MRES"]⟩,
  ⟨[format 0 0 0 0 0x7b08 0], ["mset", "MSET"]⟩,
  ⟨[format 0x306 0x205 0 0 0x9900 0,
    format 0x306 0x1d08 0 0 0x1900 0,
    format 0x306 0x209 0 0 0x1900 0,
    format 0x306 0x90a 0 0 0x5900 0], ["mult", "MULT"]⟩,
  ⟨[format 0x307 0x206 0 0 0x9800 0,
    format 0x307 0x1e08 0 0 0x1800 0,
    format 0x307 0x209 0 0 0x1800 0,
    format 0x307 0x90a 0 0 0x5800 0], ["multl", "MULTL"]⟩]

def opcodes_n_r : List Opcode := [
  ⟨[format 0x205 0 0 0 0x8d02 0,
    format 0x209 0 0 0 0xd02 0,
    format 0x90a 0 0 0 0x4d02 0], ["neg", "NEG"]⟩,
  ⟨[format 0x204 0 0 0 0x8c02 0,
    format 0x209 0 0 0 0xc02 0,
    format 0x90a 0 0 0 0x4c02 0], ["negb", "NEGB"]⟩,
  ⟨[format 0 0 0 0 0x8d07 0], ["nop", "NOP"]⟩,
  ⟨[format 0x305 0x205 0 0 0x8500 0,
    format 0x305 0x1d08 0 0 0x500 0,
    format 0x305 0x209 0 0 0x500 0,
    format 0x305 0x90a 0 0 0x4500 0], ["or", "OR"]⟩,
  ⟨[format 0x304 0x204 0 0 0x8400 0,
    format 0x304 0x1c08 0 0 0x400 0,
    format 0x304 0x209 0 0 0x400 0,
    format 0x304 0x90a 0 0 0x4400 0], ["orb", "ORB"]⟩,
  ⟨[format 0x612 0x209 0x505 0 0x3b0a 0x100], ["otdr", "OTDR"]⟩,
  ⟨[format 0x612 0x209 0x505 0 0x3a0a 0x100], ["otdrb", "OTDRB"]⟩,
  ⟨[format 0x612 0x209 0x505 0 0x3b02 0x100], ["otir", "OTIR"]⟩,
  ⟨[format 0x612 0x209 0x505 0 0x3a02 0x100], ["otirb", "OTIRB"]⟩,
  ⟨[format 0x212 0x305 0 0 0x3f00 0,
    format 0x1d03 0x205 0 0 0x3b06 0], ["out", "OUT"]⟩,
  ⟨[format 0x212 0x304 0 0 0x3e00 0,
    format 0x1d03 0x204 0 0 0x3a06 0], ["outb", "OUTB"]⟩,
  ⟨[format 0x612 0x209 0x505 0 0x3b0a 0x108], ["outd", "OUTD"]⟩,
  ⟨[format 0x612 0x209 0x505 0 0x3a0a 0x108], ["outdb", "OUTDB"]⟩,
  ⟨[format 0x612 0x209 0x505 0 0x3b02 0x108], ["outi", "OUTI"]⟩,
  ⟨[format 0x612 0x209 0x505 0 0x3a02 0x108], ["outib", "OUTIB"]⟩,
  ⟨[format 0x305 0x209 0 0 0x9700 0,
    format 0x309 0x209 0 0 0x1700 0,
    format 0xa0a 0x209 0 0 0x5700 0], ["pop", "POP"]⟩,
  ⟨[format 0x306 0x209 0 0 0x9500 0,
    format 0x309 0x209 0 0 0x1500 0,
    format 0xa0a 0x209 0 0 0x5500 0], ["popl", "POPL"]⟩,
  ⟨[format 0x209 0x305 0 0 0x9300 0,
    format 0x209 0x309 0 0 0x1300 0,
    format 0x209 0xa0a 0 0 0x5300 0,
    format 0x209 0x1d08 0 0 0xd09 0], ["push", "PUSH"]⟩,
  ⟨[format 0x209 0x306 0 0 0x9100 0,
    format 0x209 0x309 0 0 0x1100 0,
    format 0x209 0xa0a 0 0 0x5100 0], ["pushl", "PUSHL"]⟩,
  ⟨[format 0x205 0x308 0 0 0xa300 0,
    format 0x209 0x308 0 0 0x2300 0,
    format 0x90a 0x308 0 0 0x6300 0,
    format 0x505 0x305 0 0 0x2300 0x100], ["res", "RES"]⟩,
  ⟨[format 0x204 0x1108 0 0 0xa200 0,
    format 0x209 0x1108 0 0 0x2200 0,
    format 0x90a 0x1108 0 0 0x6200 0,
    format 0x504 0x1105 0 0 0x2200 0x100], ["resb", "RESB"]⟩,
  ⟨[format 0xf0e 0 0 0 0x8d03 0,
    format 0xf0e 0xf0e 0 0 0x8d03 0,
    format 0xf0e 0xf0e 0xf0e 0 0x8d03 0,
    format 0xf0e 0xf0e 0xf0e 0xf0e 0x8d03 0], ["resflg", "RESFLG"]⟩,
  ⟨[format 0 0 0 0 0x9e08 0,
    format 0x30d 0 0 0 0x9e00 0], ["ret", "RET"]⟩,
  ⟨[format 0x205 0 0 0 0xb300 0,
    format 0x205 0x1f08 0 0 0xb300 0], ["rl", "RL"]⟩,
  ⟨[format 0x204 0 0 0 0xb200 0,
    format 0x204 0x1f08 0 0 0xb200 0], ["rlb", "RLB"]⟩,
  ⟨[format 0x205 0 0 0 0xb308 0,
    format 0x205 0x1f08 0 0 0xb308 0], ["rlc", "RLC"]⟩,
  ⟨[format 0x204 0 0 0 0xb208 0,
    format 0x204 0x1f08 0 0 0xb208 0], ["rlcb", "RLCB"]⟩,
  ⟨[format 0x304 0x204 0 0 0xbe00 0], ["rldb", "RLDB"]⟩,
  ⟨[format 0x205 0 0 0 0xb304 0,
    format 0x205 0x1f08 0 0 0xb304 0], ["rr", "RR"]⟩,
  ⟨[format 0x204 0 0 0 0xb204 0,
    format 0x204 0x1f08 0 0 0xb204 0], ["rrb", "RRB"]⟩,
  ⟨[format 0x205 0 0 0 0xb30c 0,
    format 0x205 0x1f08 0 0 0xb30c 0], ["rrc", "RRC"]⟩,
  ⟨[format 0x204 0 0 0 0xb20c 0,
    format 0x204 0x1f08 0 0 0xb20c 0], ["rrcb", "RRCB"]⟩,
  ⟨[format 0x304 0x204 0 0 0xbc00 0], ["rrdb", "RRDB"]⟩]

def opcodes_s_x : List Opcode := [
  ⟨[format 0x305 0x205 0 0 0xb700 0], ["sbc", "SBC"]⟩,
  ⟨[format 0x304 0x204 0 0 0xb600 0], ["sbcb", "SBCB"]⟩,
  ⟨[format 0x808 0 0 0 0x7f00 0], ["sc", "SC"]⟩,
  ⟨[format 0x205 0x505 0 0 0xb30b 0x100], ["sda", "SDA"]⟩,
  ⟨[format 0x204 0x505 0 0 0xb20b 0x100], ["sdab", "SDAB"]⟩,
  ⟨[format 0x206 0x505 0 0 0xb30f 0x100], ["sdal", "SDAL"]⟩,
  ⟨[format 0x205 0x505 0 0 0xb303 0x100], ["sdl", "SDL"]⟩,
  ⟨[format 0x204 0x505 0 0 0xb203 0x100], ["sdlb", "SDLB"]⟩,
  ⟨[format 0x206 0x505 0 0 0xb307 0x100], ["sdll", "SDLL"]⟩,
  ⟨[format 0x205 0x308 0 0 0xa500 0,
    format 0x209 0x308 0 0 0x2500 0,
    format 0x90a 0x308 0 0 0x6500 0,
    format 0x505 0x305 0 0 0x2500 0x100], ["set", "SET"]⟩,
  ⟨[format 0x204 0x1108 0 0 0xa400 0,
    format 0x209 0x1108 0 0 0x2400 0,
    format 0x90a 0x1108 0 0 0x6400 0,
    format 0x504 0x1105 0 0 0x2400 0x100], ["setb", "SETB"]⟩,
  ⟨[format 0xf0e 0 0 0 0x8d01 0,
    format 0xf0e 0xf0e 0 0 0x8d01 0,
    format 0xf0e 0xf0e 0xf0e 0 0x8d01 0,
    format 0xf0e 0xf0e 0xf0e 0xf0e 0x8d01 0], ["setflg", "SETFLG"]⟩,
  ⟨[format 0x205 0x1d03 0 0 0x3b05 0], ["sin", "SIN"]⟩,
  ⟨[format 0x204 0x1d03 0 0 0x3a05 0], ["sinb", "SINB"]⟩,
  ⟨[format 0x609 0x212 0x505 0 0x3b09 0x108], ["sind", "SIND"]⟩,
  ⟨[format 0x609 0x212 0x505 0 0x3a09 0x108], ["sindb", "SINDB"]⟩,
  ⟨[format 0x609 0x212 0x505 0 0x3b09 0x100], ["sindr", "SINDR"]⟩,
  ⟨[format 0x609 0x212 0x505 0 0x3a09 0x100], ["sindrb", "SINDRB"]⟩,
  ⟨[format 0x609 0x212 0x505 0 0x3b01 0x108], ["sini", "SINI"]⟩,
  ⟨[format 0x609 0x212 0x505 0 0x3a01 0x108], ["sinib", "SINIB"]⟩,
  ⟨[format 0x609 0x212 0x505 0 0x3b01 0x100], ["sinir", "SINIR"]⟩,
  ⟨[format 0x609 0x212 0x505 0 0x3a01 0x100], ["sinirb", "SINIRB"]⟩,
  ⟨[format 0x205 0 0 0 0xb309 0x101,
    format 0x205 0x1d08 0 0 0xb309 0], ["sla", "SLA"]⟩,
  ⟨[format 0x204 0 0 0 0xb209 0x101,
    format 0x204 0x1d08 0 0 0xb209 0], ["slab", "SLAB"]⟩,
  ⟨[format 0x206 0 0 0 0xb30d 0x101,
    format 0x206 0x1d08 0 0 0xb30d 0], ["slal", "SLAL"]⟩,
  ⟨[format 0x205 0 0 0 0xb301 0x101,
    format 0x205 0x1d08 0 0 0xb301 0], ["sll", "SLL"]⟩,
  ⟨[format 0x204 0 0 0 0xb201 0x101,
    format 0x204 0x1d08 0 0 0xb201 0], ["sllb", "SLLB"]⟩,
  ⟨[format 0x206 0 0 0 0xb305 0x101,
    format 0x206 0x1d08 0 0 0xb305 0], ["slll", "SLLL"]⟩,
  ⟨[format 0x612 0x209 0x505 0 0x3b0b 0x100], ["sotdr", "SOTDR"]⟩,
  ⟨[format 0x612 0x209 0x505 0 0x3a0b 0x100], ["sotdrb", "SOTDRB"]⟩,
  ⟨[format 0x612 0x209 0x505 0 0x3b03 0x100], ["sotir", "SOTIR"]⟩,
  ⟨[format 0x612 0x209 0x505 0 0x3a03 0x100], ["sotirb", "SOTIRB"]⟩,
  ⟨[format 0x1d03 0x205 0 0 0x3b07 0], ["sout", "SOUT"]⟩,
  ⟨[format 0x1d03 0x204 0 0 0x3a07 0], ["soutb", "SOUTB"]⟩,
  ⟨[format 0x612 0x209 0x505 0 0x3b0b 0x108], ["soutd", "SOUTD"]⟩,
  ⟨[format 0x612 0x209 0x505 0 0x3a0b 0x108], ["soutdb", "SOUTDB"]⟩,
  ⟨[format 0x612 0x209 0x505 0 0x3b03 0x108], ["souti", "SOUTI"]⟩,
  ⟨[format 0x612 0x209 0x505 0 0x3a03 0x108], ["soutib", "SOUTIB"]⟩,
  ⟨[format 0x205 0 0 0 0xb309 0x301,
    format 0x205 0x1d08 0 0 0xb309 0x200], ["sra", "SRA"]⟩,
  ⟨[format 0x204 0 0 0 0xb209 0x301,
    format 0x204 0x1d08 0 0 0xb209 0x200], ["srab", "SRAB"]⟩,
  ⟨[format 0x206 0 0 0 0xb30d 0x301,
    format 0x206 0x1d08 0 0 0xb30d 0x200], ["sral", "SRAL"]⟩,
  ⟨[format 0x205 0 0 0 0xb301 0x301,
    format 0x205 0x1d08 0 0 0xb301 0x200], ["srl", "SRL"]⟩,
  ⟨[format 0x204 0 0 0 0xb201 0x301,
    format 0x204 0x1d08 0 0 0xb201 0x200], ["srlb", "SRLB"]⟩,
  ⟨[format 0x206 0 0 0 0xb305 0x301,
    format 0x206 0x1d08 0 0 0xb305 0x200], ["srll", "SRLL"]⟩,
  ⟨[format 0x305 0x205 0 0 0x8300 0,
    format 0x305 0x1d08 0 0 0x300 0,
    format 0x305 0x209 0 0 0x300 0,
    format 0x305 0x90a 0 0 0x4300 0], ["sub", "SUB"]⟩,
  ⟨[format 0x304 0x204 0 0 0x8200 0,
    format 0x304 0x1c08 0 0 0x200 0,
    format 0x304 0x209 0 0 0x200 0,
    format 0x304 0x90a 0 0 0x4200 0], ["subb", "SUBB"]⟩,
  ⟨[format 0x306 0x206 0 0 0x9200 0,
    format 0x306 0x1e08 0 0 0x1200 0,
    format 0x306 0x209 0 0 0x1200 0,
    format 0x306 0x90a 0 0 0x5200 0], ["subl", "SUBL"]⟩,
  ⟨[format 0x30d 0x205 0 0 0xaf00 0], ["tcc", "TCC"]⟩,
  ⟨[format 0x30d 0x204 0 0 0xae00 0], ["tccb", "TCCB"]⟩,
  ⟨[format 0x205 0 0 0 0x8d04 0,
    format 0x209 0 0 0 0xd04 0,
    format 0x90a 0 0 0 0x4d04 0], ["test", "TEST"]⟩,
  ⟨[format 0x204 0 0 0 0x8c04 0,
    format 0x209 0 0 0 0xc04 0,
    format 0x90a 0 0 0 0x4c04 0], ["testb", "TESTB"]⟩,
  ⟨[format 0x206 0 0 0 0x9c08 0,
    format 0x209 0 0 0 0x1c08 0,
    format 0x90a 0 0 0 0x5c08 0], ["testl", "TESTL"]⟩,
  ⟨[format 0x209 0x609 0x505 0 0xb808 0x100], ["trdb", "TRDB"]⟩,
  ⟨[format 0x209 0x609 0x505 0 0xb80c 0x100], ["trdrb", "TRDRB"]⟩,
  ⟨[format 0x209 0x609 0x505 0 0xb800 0x100], ["trib", "TRIB"]⟩,
  ⟨[format 0x209 0x609 0x505 0 0xb804 0x100], ["trirb", "TRIRB"]⟩,
  ⟨[format 0x209 0x609 0x505 0 0xb80a 0x100], ["trtdb", "TRTDB"]⟩,
  ⟨[format 0x209 0x609 0x505 0 0xb80e 0x10e], ["trtdrb", "TRTDRB"]⟩,
  ⟨[format 0x209 0x609 0x505 0 0xb802 0x100], ["trtib", "TRTIB"]⟩,
  ⟨[format 0x209 0x609 0x505 0 0xb806 0x10e], ["trtirb", "TRTIRB"]⟩,
  ⟨[format 0x205 0 0 0 0x8d06 0,
    format 0x209 0 0 0 0xd06 0,
    format 0x90a 0 0 0 0x4d06 0], ["tset", "TSET"]⟩,
  ⟨[format 0x204 0 0 0 0x8c06 0,
    format 0x209 0 0 0 0xc06 0,
    format 0x90a 0 0 0 0x4c06 0], ["tsetb", "TSETB"]⟩,
  ⟨[format 0x305 0x205 0 0 0x8900 0,
    format 0x305 0x1d08 0 0 0x900 0,
    format 0x305 0x209 0 0 0x900 0,
    format 0x305 0x90a 0 0 0x4900 0], ["xor", "XOR"]⟩,
  ⟨[format 0x304 0x204 0 0 0x8800 0,
    format 0x304 0x1c08 0 0 0x800 0,
    format 0x304 0x209 0 0 0x800 0,
    format 0x304 0x90a 0 0 0x4800 0], ["xorb", "XORB"]⟩]

/-- The instructions. -/
def opcodes : List Opcode :=
  opcodes_a_d ++ opcodes_e ++ opcodes_f ++ opcodes_h_m ++ opcodes_n_r ++ opcodes_s_x

/-! ## 2. Keywords -/

def TKREG8 : BitVec 16 := 16
def TKREG16 : BitVec 16 := 17
def TKREG32 : BitVec 16 := 18
def TKREG64 : BitVec 16 := 19
def TKCCODE : BitVec 16 := 20
def TKINT : BitVec 16 := 21
def TKCTL : BitVec 16 := 22
def TKFLAGS : BitVec 16 := 23

/-- A symbol that stands for a keyword: the kind of token it is, and its value behind that. -/
structure Keyword where
  sy_val : BitVec 16
  names : List String

def keywords : List Keyword := [
  ⟨0x100, ["$"]⟩, ⟨0x1000, ["rh0", "RH0"]⟩, ⟨0x1001, ["rh1", "RH1"]⟩, ⟨0x1002, ["rh2", "RH2"]⟩,
  ⟨0x1003, ["rh3", "RH3"]⟩, ⟨0x1004, ["rh4", "RH4"]⟩, ⟨0x1005, ["rh5", "RH5"]⟩,
  ⟨0x1006, ["rh6", "RH6"]⟩, ⟨0x1007, ["rh7", "RH7"]⟩, ⟨0x1008, ["rl0", "RL0"]⟩,
  ⟨0x1009, ["rl1", "RL1"]⟩, ⟨0x100a, ["rl2", "RL2"]⟩, ⟨0x100b, ["rl3", "RL3"]⟩,
  ⟨0x100c, ["rl4", "RL4"]⟩, ⟨0x100d, ["rl5", "RL5"]⟩, ⟨0x100e, ["rl6", "RL6"]⟩,
  ⟨0x100f, ["rl7", "RL7"]⟩, ⟨0x1100, ["r0", "R0"]⟩, ⟨0x1101, ["r1", "R1"]⟩, ⟨0x1102, ["r2", "R2"]⟩,
  ⟨0x1103, ["r3", "R3"]⟩, ⟨0x1104, ["r4", "R4"]⟩, ⟨0x1105, ["r5", "R5"]⟩, ⟨0x1106, ["r6", "R6"]⟩,
  ⟨0x1107, ["r7", "R7"]⟩, ⟨0x1108, ["r8", "R8"]⟩, ⟨0x1109, ["r9", "R9"]⟩, ⟨0x110a, ["r10", "R10"]⟩,
  ⟨0x110b, ["r11", "R11"]⟩, ⟨0x110c, ["r12", "R12"]⟩, ⟨0x110d, ["r13", "R13"]⟩,
  ⟨0x110e, ["r14", "R14"]⟩, ⟨0x110f, ["r15", "R15"]⟩, ⟨0x1200, ["rr0", "RR0"]⟩,
  ⟨0x1202, ["rr2", "RR2"]⟩, ⟨0x1204, ["rr4", "RR4"]⟩, ⟨0x1206, ["rr6", "RR6"]⟩,
  ⟨0x1208, ["rr8", "RR8"]⟩, ⟨0x120a, ["rr10", "RR10"]⟩, ⟨0x120c, ["rr12", "RR12"]⟩,
  ⟨0x120e, ["rr14", "RR14"]⟩, ⟨0x1300, ["rq0", "RQ0"]⟩, ⟨0x1304, ["rq4", "RQ4"]⟩,
  ⟨0x1308, ["rq8", "RQ8"]⟩, ⟨0x130c, ["rq12", "RQ12"]⟩, ⟨0x1401, ["lt", "LT", "flu", "FLU"]⟩,
  ⟨0x1402, ["le", "LE", "flue", "FLUE"]⟩, ⟨0x1403, ["ule", "ULE", "fle", "FLE"]⟩,
  ⟨0x1404, ["ov", "OV", "pe", "PE", "p", "P", "v", "V", "fun", "FUN"]⟩,
  ⟨0x1405, ["mi", "MI", "s", "S"]⟩, ⟨0x1406, ["z", "Z", "eq", "EQ", "feq", "FEQ"]⟩,
  ⟨0x1407, ["c", "C", "ult", "ULT", "flt", "FLT"]⟩, ⟨0x1409, ["ge", "GE", "fge", "FGE"]⟩,
  ⟨0x140a, ["gt", "GT", "fgt", "FGT"]⟩, ⟨0x140b, ["ugt", "UGT", "fgu", "FGU"]⟩,
  ⟨0x140c, ["nov", "NOV", "po", "PO", "ford", "FORD"]⟩, ⟨0x140d, ["pl", "PL"]⟩,
  ⟨0x140e, ["nz", "NZ", "ne", "NE", "fneu", "FNEU"]⟩,
  ⟨0x140f, ["nc", "NC", "uge", "UGE", "fgeu", "FGEU"]⟩, ⟨0x150e, ["nvi", "NVI"]⟩,
  ⟨0x150d, ["vi", "VI"]⟩, ⟨0x1602, ["fcw", "FCW"]⟩, ⟨0x1603, ["refresh", "REFRESH"]⟩,
  ⟨0x1604, ["psapseg", "PSAPSEG"]⟩, ⟨0x1605, ["psapoff", "PSAPOFF", "psap", "PSAP"]⟩,
  ⟨0x1606, ["nspseg", "NSPSEG"]⟩, ⟨0x1607, ["nspoff", "NSPOFF", "nsp", "NSP"]⟩,
  ⟨0x1701, ["flags", "FLAGS"]⟩, ⟨0x1800, ["f0", "F0"]⟩, ⟨0x1801, ["f1", "F1"]⟩,
  ⟨0x1802, ["f2", "F2"]⟩, ⟨0x1803, ["f3", "F3"]⟩, ⟨0x1804, ["f4", "F4"]⟩, ⟨0x1805, ["f5", "F5"]⟩,
  ⟨0x1806, ["f6", "F6"]⟩, ⟨0x1807, ["f7", "F7"]⟩, ⟨0x1900, ["sc", "SC"]⟩, ⟨0x1901, ["pc1", "PC1"]⟩,
  ⟨0x1902, ["pc2", "PC2"]⟩, ⟨0x1904, ["fflags", "FFLAGS"]⟩, ⟨0x1a06, ["fop1", "FOP1"]⟩,
  ⟨0x1a07, ["fop2", "FOP2"]⟩, ⟨0x1b00, ["ouflg", "OUFLG"]⟩, ⟨0x1b01, ["invflg", "INVFLG"]⟩,
  ⟨0x1b02, ["intflg", "INTFLG"]⟩, ⟨0x1b03, ["sysflg", "SYSFLG"]⟩, ⟨0x1b04, ["cmpflg", "CMPFLG"]⟩,
  ⟨0x1c01, ["inv", "INV"]⟩, ⟨0x1c02, ["fov", "FOV"]⟩, ⟨0x1c04, ["un", "UN"]⟩, ⟨0x1c08, ["dz", "DZ"]⟩,
  ⟨0x1c10, ["inx", "INX"]⟩, ⟨0x1c20, ["de", "DE"]⟩, ⟨0x1c40, ["nan", "NAN", "NaN"]⟩,
  ⟨0x1c80, ["ix", "IX"]⟩, ⟨0x1d00, ["rn", "RN"]⟩, ⟨0x1d10, ["rz", "RZ"]⟩, ⟨0x1d20, ["rp", "RP"]⟩,
  ⟨0x1d30, ["rm", "RM"]⟩, ⟨0x1e05, ["user", "USER"]⟩, ⟨0x1f01, ["sgl", "SGL"]⟩,
  ⟨0x1f03, ["dbl", "DBL"]⟩]

/-- The kind of token a keyword is. -/
def Keyword.tok (k : Keyword) : BitVec 16 := k.sy_val >>> 8

/-- The values of the keywords that are tokens of a kind. -/
def keyvals (tok : BitVec 16) : List (BitVec 16) :=
  (keywords.filter fun k => k.tok = tok).map fun k => k.sy_val &&& 0xff

end Cpm8000.Asm
