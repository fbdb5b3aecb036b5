import Dynarec.Guest.Context
import Dynarec.Host.Reg

/-!
# Operands, moves and instructions

An `Operand` is where a guest value is: a constant known while code is emitted, a
host register, or a word of memory at a displacement from a base register.
`GuestReg.home` is the operand in the guest context that a register goes back
to. A `Move` copies one operand to another.

`Instr` lists the x86-64 instructions that the recompiler emits, over a type of
memory operands: the encoder takes an `Address`, a decoder may meet more.
`Move.instr?` is the instruction that carries out a move of one 32-bit word;
none does when the destination is a constant or both sides are in memory.
-/

namespace Dynarec

/-! ## Operands and moves -/

/-- Memory at a signed displacement from a base register. -/
structure Address where
  base : HostReg
  disp : Word
  deriving DecidableEq

inductive Operand where
  | imm (v : Word)
  | reg (x : HostReg)
  | mem (a : Address)
  deriving DecidableEq

namespace Operand

def isImm : Operand → Bool
  | imm _ => true
  | _ => false

def isReg : Operand → Bool
  | reg _ => true
  | _ => false

def imm? : Operand → Option Word
  | imm v => some v
  | _ => none

def text : Operand → String
  | imm v => s!"Imm({v.toNat})"
  | reg x => s!"Reg({x.title})"
  | mem a => s!"Mem(MemSlot \x7b base: {a.base.title}, disp: {a.disp.toInt} \x7d)"

end Operand

namespace GuestReg

def address (g : GuestReg) : Address := ⟨.contextBase, g.displacement⟩

/-- The register's own word of the guest context. -/
def home (g : GuestReg) : Operand := .mem g.address

theorem address_inj {g h : GuestReg} (e : g.address = h.address) : g = h :=
  displacement_inj (congrArg Address.disp e)

theorem home_inj {g h : GuestReg} (e : g.home = h.home) : g = h :=
  address_inj (Operand.mem.inj e)

end GuestReg

structure Move where
  dst : Operand
  src : Operand
  deriving DecidableEq

/-! ## Instructions -/

/-- The operations that share one instruction form, in the order of their codes. -/
inductive ArithOp where
  | add | or | adc | sbb | and | sub | xor | cmp
  deriving DecidableEq

namespace ArithOp

def all : List ArithOp := [add, or, adc, sbb, and, sub, xor, cmp]

def code : ArithOp → Byte
  | add => 0 | or => 1 | adc => 2 | sbb => 3 | and => 4 | sub => 5 | xor => 6 | cmp => 7

def ofNumber? (n : Nat) : Option ArithOp := all[n]?

end ArithOp

/-- An instruction whose memory operands are of type `M`. `wide` tells 64-bit operands from
32-bit ones. -/
inductive Instr (M : Type) where
  | arithImm (op : ArithOp) (wide : Bool) (dst : HostReg) (imm : Word)
  | movReg (wide : Bool) (dst src : HostReg)
  | movImm (dst : HostReg) (imm : Word)
  | load (wide : Bool) (dst : HostReg) (src : M)
  | store (wide : Bool) (dst : M) (src : HostReg)
  | storeImm (dst : M) (imm : Word)
  | push (src : HostReg)
  | pop (dst : HostReg)
  | ret
  deriving DecidableEq

namespace Instr

def map {M N : Type} (f : M → N) : Instr M → Instr N
  | arithImm op wide dst imm => arithImm op wide dst imm
  | movReg wide dst src => movReg wide dst src
  | movImm dst imm => movImm dst imm
  | load wide dst src => load wide dst (f src)
  | store wide dst src => store wide (f dst) src
  | storeImm dst imm => storeImm (f dst) imm
  | push src => push src
  | pop dst => pop dst
  | ret => ret

end Instr

namespace Move

def instr? : Move → Option (Instr Address)
  | ⟨.reg x, .reg y⟩ => some (.movReg false x y)
  | ⟨.reg x, .imm v⟩ => some (.movImm x v)
  | ⟨.reg x, .mem a⟩ => some (.load false x a)
  | ⟨.mem a, .reg x⟩ => some (.store false a x)
  | ⟨.mem a, .imm v⟩ => some (.storeImm a v)
  | ⟨.mem _, .mem _⟩ => none
  | ⟨.imm _, _⟩ => none

end Move

end Dynarec
