import Dynarec.Host.Instr

/-!
# Instruction encoding

`Instr.encode` gives the bytes of an instruction. An encoding is an optional
extension byte, an opcode byte, an operand byte with what belongs to it, and an
immediate. `Opcode.head` writes the first two; `Opcode.onRegs`, `onReg`,
`onMem` and `groupOnMem` add the operand. Register fields hold three bits: the
fourth is in the extension byte.
-/

namespace Dynarec

/-- An opcode byte and whether the operands are 64 bits wide. -/
structure Opcode where
  byte : Byte
  wide : Bool
  deriving DecidableEq

namespace Opcode

/-- A word holds the opcode in its low byte and the width in bit 12. -/
def ofWord (w : Word) : Opcode := ⟨w.lowByte, w.getLsbD 12⟩

def arithByte (wide : Bool) : Opcode := ⟨0x83, wide⟩

def arithWord (wide : Bool) : Opcode := ⟨0x81, wide⟩

def movToRm (wide : Bool) : Opcode := ⟨0x89, wide⟩

def movFromRm (wide : Bool) : Opcode := ⟨0x8B, wide⟩

def movImmToRm : Opcode := ⟨0xC7, false⟩

def movImm (x : HostReg) : Opcode := ⟨0xB8 + x.low3, false⟩

def push (x : HostReg) : Opcode := ⟨0x50 + x.low3, false⟩

def pop (x : HostReg) : Opcode := ⟨0x58 + x.low3, false⟩

def ret : Opcode := ⟨0xC3, false⟩

/-! ## Head -/

/-- Width and fourth register bits; the byte is left out when it would carry none. -/
def extension (wide : Bool) (r rm : Byte) : List Byte :=
  let flags : Byte :=
    (if wide then 8 else 0) ||| (if 8 ≤ r then 4 else 0) ||| (if 8 ≤ rm then 1 else 0)
  if flags = 0 then [] else [0x40 ||| flags]

def head (o : Opcode) (r rm : Byte) : List Byte := extension o.wide r rm ++ [o.byte]

/-! ## Operands -/

/-- Two registers. -/
def onRegs (o : Opcode) (r rm : HostReg) : List Byte :=
  o.head r.code rm.code ++ [0xC0 ||| r.low3 <<< 3 ||| rm.low3]

/-- One register; `ext` selects the operation of a group. Bits of `ext` that the operand byte has
no room for are lost. -/
def onReg (o : Opcode) (ext : Byte) (rm : HostReg) : List Byte :=
  o.head ext rm.code ++ [0xC0 ||| ext <<< 3 ||| rm.low3]

/-- The three forms of a displacement: none, one byte, four bytes. The mode bits come first.
A base with low bits 101 has no form without a displacement. -/
def displacement (a : Address) : Byte × List Byte :=
  if a.disp = 0 ∧ a.base.low3 ≠ 5 then (0x00, [])
  else if a.disp.fitsByte then (0x40, [a.disp.lowByte])
  else (0x80, a.disp.bytes)

/-- The operand byte of memory, with register field `field`. A base with low bits 100 needs a
second byte. -/
def memory (field : Byte) (a : Address) : List Byte :=
  let (mode, disp) := displacement a
  if a.base.low3 = 4 then [mode ||| field <<< 3 ||| 4, 0x24] ++ disp
  else [mode ||| field <<< 3 ||| a.base.low3] ++ disp

/-- A register and memory. -/
def onMem (o : Opcode) (r : HostReg) (a : Address) : List Byte :=
  o.head r.code a.base.code ++ memory r.low3 a

/-- Memory alone; `ext` selects the operation of a group. -/
def groupOnMem (o : Opcode) (ext : Byte) (a : Address) : List Byte :=
  o.head ext a.base.code ++ memory ext a

end Opcode

namespace Instr

def encode : Instr Address → List Byte
  | arithImm op wide dst imm =>
    if imm.fitsByte then (Opcode.arithByte wide).onReg op.code dst ++ [imm.lowByte]
    else (Opcode.arithWord wide).onReg op.code dst ++ imm.bytes
  | movReg wide dst src => (Opcode.movToRm wide).onRegs src dst
  | movImm dst imm => (Opcode.movImm dst).head 0 dst.code ++ imm.bytes
  | load wide dst src => (Opcode.movFromRm wide).onMem dst src
  | store wide dst src => (Opcode.movToRm wide).onMem src dst
  | storeImm dst imm => Opcode.movImmToRm.groupOnMem 0 dst ++ imm.bytes
  | push src => (Opcode.push src).head 0 src.code
  | pop dst => (Opcode.pop dst).head 0 dst.code
  | ret => Opcode.ret.head 0 0

def encodeAll (is : List (Instr Address)) : List Byte := is.flatMap encode

end Instr

end Dynarec
