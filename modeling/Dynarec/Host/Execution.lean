import Dynarec.Host.Instr

/-!
# What instructions do

`Instr.writes` and `Instr.reads` are the host registers that an instruction gives a value and
takes a value from; a register that only addresses memory is in neither. `Instr.setsFlags` tells
whether it changes the flags. `Instr.move?` reads an instruction as the move of a 32-bit word
that it is, and undoes `Move.instr?`.

Two machines run emitted code. `MoveMachine` is what the moves of the cache act on: a 32-bit word
in each host register and the guest context. Memory is the guest context there and is addressed
from `HostReg.contextBase` alone; any other address has no meaning. `Cpu` is a 64-bit register file
and a byte memory with addresses that wrap around. `Instr.exec?` carries out the instructions of
block entry and exit on it: push and pop, 64-bit addition to and subtraction from a register, moves
between registers, and return. `Instr.run?` executes straight-line code up to its end or a return.
-/

namespace Dynarec

/-! ## What an instruction touches -/

namespace Instr

variable {M : Type}

def writes : Instr M → List HostReg
  | arithImm .cmp _ _ _ => []
  | arithImm _ _ dst _ => [dst]
  | movReg _ dst _ => [dst]
  | movImm dst _ => [dst]
  | load _ dst _ => [dst]
  | store .. => []
  | storeImm .. => []
  | push _ => [.rsp]
  | pop dst => [dst, .rsp]
  | ret => [.rsp]

def reads : Instr M → List HostReg
  | arithImm _ _ dst _ => [dst]
  | movReg _ _ src => [src]
  | movImm .. => []
  | load .. => []
  | store _ _ src => [src]
  | storeImm .. => []
  | push src => [src, .rsp]
  | pop _ => [.rsp]
  | ret => [.rsp]

def setsFlags : Instr M → Bool
  | arithImm .. => true
  | _ => false

/-- Only the 32-bit moves are moves of one word. -/
def move? : Instr Address → Option Move
  | movReg false x y => some ⟨.reg x, .reg y⟩
  | movImm x v => some ⟨.reg x, .imm v⟩
  | load false x a => some ⟨.reg x, .mem a⟩
  | store false a x => some ⟨.mem a, .reg x⟩
  | storeImm a v => some ⟨.mem a, .imm v⟩
  | _ => none

end Instr

theorem Move.instr?_eq_some_iff {m : Move} {i : Instr Address} :
    m.instr? = some i ↔ i.move? = some m := by
  constructor
  · intro h
    obtain ⟨dst, src⟩ := m
    cases dst <;> cases src <;> cases h <;> rfl
  · intro h
    unfold Instr.move? at h
    split at h <;> cases h <;> rfl

/-! ## Moves -/

structure MoveMachine where
  host : HostReg → Word
  context : Context

namespace MoveMachine

def eval? (m : MoveMachine) : Operand → Option Word
  | .imm v => some v
  | .reg x => some (m.host x)
  | .mem a => if a.base = .contextBase then m.context.load? a.disp else none

def setHost (m : MoveMachine) (x : HostReg) (v : Word) : MoveMachine :=
  { m with host := fun y => if y = x then v else m.host y }

def assign? (m : MoveMachine) : Operand → Word → Option MoveMachine
  | .imm _, _ => none
  | .reg x, v => some (m.setHost x v)
  | .mem a, v =>
    if a.base = .contextBase then
      (m.context.store? a.disp v).map fun c => { m with context := c }
    else none

/-- One move. There is none from memory to memory. -/
def exec? (m : MoveMachine) (mv : Move) : Option MoveMachine := do
  let _ ← mv.instr?
  m.assign? mv.dst (← m.eval? mv.src)

def execAll? (m : MoveMachine) (mvs : List Move) : Option MoveMachine := mvs.foldlM exec? m

end MoveMachine

/-! ## Block entry and exit -/

abbrev Long := BitVec 64

structure Cpu where
  regs : HostReg → Long
  memory : Long → Byte

namespace Cpu

def setReg (s : Cpu) (x : HostReg) (v : Long) : Cpu :=
  { s with regs := fun y => if y = x then v else s.regs y }

/-- The eight bytes from `a` on, least significant first. -/
def readLong (s : Cpu) (a : Long) : Long :=
  s.memory (a + 7) ++ s.memory (a + 6) ++ s.memory (a + 5) ++ s.memory (a + 4) ++
    s.memory (a + 3) ++ s.memory (a + 2) ++ s.memory (a + 1) ++ s.memory a

def writeLong (s : Cpu) (a v : Long) : Cpu :=
  { s with
    memory := fun b => if b - a < 8 then v.extractLsb' (8 * (b - a).toNat) 8 else s.memory b }

def push (s : Cpu) (v : Long) : Cpu :=
  let top := s.regs .rsp - 8
  (s.setReg .rsp top).writeLong top v

/-- The stack without its top word. -/
def drop (s : Cpu) : Cpu := s.setReg .rsp (s.regs .rsp + 8)

def top (s : Cpu) : Long := s.readLong (s.regs .rsp)

@[simp] theorem regs_setReg_self (s : Cpu) (x : HostReg) (v : Long) :
    (s.setReg x v).regs x = v := by
  simp [setReg]

theorem regs_setReg_of_ne (s : Cpu) {x y : HostReg} (v : Long) (h : y ≠ x) :
    (s.setReg x v).regs y = s.regs y := by
  simp [setReg, h]

@[simp] theorem memory_setReg (s : Cpu) (x : HostReg) (v : Long) :
    (s.setReg x v).memory = s.memory := rfl

@[simp] theorem regs_writeLong (s : Cpu) (a v : Long) : (s.writeLong a v).regs = s.regs := rfl

end Cpu

/-- Where control is after an instruction. -/
inductive Control where
  | next (s : Cpu)
  | returned (target : Long) (s : Cpu)

namespace Instr

/-- None for an instruction that frame code does not use. -/
def exec? : Instr Address → Cpu → Option Control
  | push src, s => some (.next (s.push (s.regs src)))
  | pop dst, s => some (.next (s.drop.setReg dst s.top))
  | arithImm .add true dst imm, s => some (.next (s.setReg dst (s.regs dst + imm.signExtend 64)))
  | arithImm .sub true dst imm, s => some (.next (s.setReg dst (s.regs dst - imm.signExtend 64)))
  | movReg true dst src, s => some (.next (s.setReg dst (s.regs src)))
  | ret, s => some (.returned s.top s.drop)
  | _, _ => none

/-- Executes code in order; what follows a return is not reached. -/
def run? : List (Instr Address) → Cpu → Option Control
  | [], s => some (.next s)
  | i :: rest, s =>
    match i.exec? s with
    | some (.next t) => run? rest t
    | outcome => outcome

end Instr

end Dynarec
