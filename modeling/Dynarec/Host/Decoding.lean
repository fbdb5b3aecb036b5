import Dynarec.Host.Encoding

/-!
# Instruction decoding

`decode` reads one instruction from the front of a byte list, following the
instruction format of x86-64 rather than what the encoder writes: an operand
byte can name memory in ways that the encoder never uses, and `MemRef` has all
of them. It refuses opcodes and operands that `Instr` has no form for.
`decodeAll` reads a whole list.
-/

namespace Dynarec

/-- Memory as an operand byte names it. -/
inductive MemRef where
  /-- A base register and a displacement. -/
  | based (a : Address)
  /-- A displacement from the next instruction. -/
  | ripRelative (disp : Word)
  /-- A displacement, perhaps with a base, and perhaps with an index shifted left by `scale`. -/
  | scaled (base index : Option HostReg) (scale : BitVec 2) (disp : Word)
  deriving DecidableEq

namespace Decoding

/-- What was read and the bytes after it. -/
abbrev Reader (α : Type) := List Byte → Option (α × List Byte)

def byte : Reader Byte
  | b :: bs => some (b, bs)
  | [] => none

def word : Reader Word
  | b₀ :: b₁ :: b₂ :: b₃ :: bs => some (Word.ofBytes b₀ b₁ b₂ b₃, bs)
  | _ => none

/-! ## Extension byte -/

/-- The four flags of an extension byte: the operand width, and the high bits of the register
field, of the index and of the base or register operand. -/
structure Extension where
  wide : Bool
  field : Bool
  index : Bool
  rm : Bool
  deriving DecidableEq

/-- An extension byte has the high half 0100. Without one every flag is off. -/
def extension : List Byte → Extension × List Byte
  | b :: bs =>
    if b.extractLsb' 4 4 = 4 then
      (⟨b.getLsbD 3, b.getLsbD 2, b.getLsbD 1, b.getLsbD 0⟩, bs)
    else (⟨false, false, false, false⟩, b :: bs)
  | [] => (⟨false, false, false, false⟩, [])

/-- A register from its high bit and its three-bit field. -/
def register (high : Bool) (low : BitVec 3) : HostReg :=
  HostReg.ofIndex (BitVec.ofBool high ++ low).toFin

/-! ## Operands -/

/-- The displacement that goes with a mode. -/
def displacement (mode : BitVec 2) : Reader Word := fun bs =>
  if mode = 0 then some (0, bs)
  else if mode = 1 then (byte bs).map fun (b, bs) => (Word.ofByte b, bs)
  else word bs

/-- Memory by a scale byte. Index 100 is no index, and base 101 is no base in mode 00. -/
def scaled (e : Extension) (mode : BitVec 2) : Reader MemRef := fun bs => do
  let (s, bs) ← byte bs
  let base := register e.rm (s.extractLsb' 0 3)
  let index := register e.index (s.extractLsb' 3 3)
  let noBase := s.extractLsb' 0 3 = 5 ∧ mode = 0
  let (disp, bs) ← if noBase then word bs else displacement mode bs
  if index = .rsp ∧ ¬noBase then
    return (.based ⟨base, disp⟩, bs)
  else
    return (.scaled (if noBase then none else some base)
      (if index = .rsp then none else some index) (s.extractLsb' 6 2) disp, bs)

/-- Memory by an operand byte. -/
def memory (e : Extension) (mode : BitVec 2) (low : BitVec 3) : Reader MemRef := fun bs =>
  if low = 4 then scaled e mode bs
  else if low = 5 ∧ mode = 0 then (word bs).map fun (d, bs) => (.ripRelative d, bs)
  else (displacement mode bs).map fun (d, bs) => (.based ⟨register e.rm low, d⟩, bs)

/-- What the operand byte names besides its register field. -/
inductive Rm where
  | reg (x : HostReg)
  | mem (m : MemRef)

/-- The three-bit register field and the other operand. -/
def operands (e : Extension) : Reader (BitVec 3 × Rm) := fun bs => do
  let (b, bs) ← byte bs
  let field := b.extractLsb' 3 3
  if b.extractLsb' 6 2 = 3 then
    return ((field, .reg (register e.rm (b.extractLsb' 0 3))), bs)
  else
    let (m, bs) ← memory e (b.extractLsb' 6 2) (b.extractLsb' 0 3) bs
    return ((field, .mem m), bs)

/-! ## Instructions -/

/-- An operation of the group with a register and an immediate. -/
def arith (e : Extension) (imm : Reader Word) : Reader (Instr MemRef) := fun bs => do
  let ((field, rm), bs) ← operands e bs
  let op ← ArithOp.ofNumber? field.toNat
  let (v, bs) ← imm bs
  match rm with
  | .reg x => return (.arithImm op e.wide x v, bs)
  | .mem _ => none

/-- The move that writes the operand besides the register field. -/
def moveToRm (e : Extension) : Reader (Instr MemRef) := fun bs => do
  let ((field, rm), bs) ← operands e bs
  let src := register e.field field
  match rm with
  | .reg x => return (.movReg e.wide x src, bs)
  | .mem m => return (.store e.wide m src, bs)

/-- The move that writes the register field. -/
def moveFromRm (e : Extension) : Reader (Instr MemRef) := fun bs => do
  let ((field, rm), bs) ← operands e bs
  let dst := register e.field field
  match rm with
  | .reg x => return (.movReg e.wide dst x, bs)
  | .mem m => return (.load e.wide dst m, bs)

/-- The 32-bit move of an immediate to either operand kind. -/
def moveImm (e : Extension) : Reader (Instr MemRef) := fun bs => do
  let ((field, rm), bs) ← operands e bs
  let (v, bs) ← word bs
  if e.wide ∨ field ≠ 0 then none
  else match rm with
    | .reg x => return (.movImm x v, bs)
    | .mem m => return (.storeImm m v, bs)

def signedByte : Reader Word := fun bs => (byte bs).map fun (b, bs) => (Word.ofByte b, bs)

/-- The instruction after its extension byte. -/
def body (e : Extension) : Reader (Instr MemRef) := fun bs => do
  let (o, bs) ← byte bs
  let x := register e.rm (o.extractLsb' 0 3)
  if o = 0x83 then arith e signedByte bs
  else if o = 0x81 then arith e word bs
  else if o = 0x89 then moveToRm e bs
  else if o = 0x8B then moveFromRm e bs
  else if o = 0xC7 then moveImm e bs
  else if o = 0xC3 then return (.ret, bs)
  else if o.extractLsb' 3 5 = 10 then return (.push x, bs)
  else if o.extractLsb' 3 5 = 11 then return (.pop x, bs)
  else if o.extractLsb' 3 5 = 23 ∧ e.wide = false then
    (word bs).map fun (v, bs) => (.movImm x v, bs)
  else none

end Decoding

namespace Instr

def decode : Decoding.Reader (Instr MemRef) := fun bs =>
  let (e, rest) := Decoding.extension bs
  Decoding.body e rest

/-- All instructions of a byte list; none if some bytes are no instruction. An instruction takes at
least one byte. -/
def decodeAll (bs : List Byte) : Option (List (Instr MemRef)) :=
  if bs = [] then some []
  else match decode bs with
    | some (i, rest) =>
      if rest.length < bs.length then (decodeAll rest).map (i :: ·) else none
    | none => none
termination_by bs.length

end Instr

end Dynarec
