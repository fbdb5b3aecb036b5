import Dynarec.Cache.Event
import Dynarec.Code.Buffer
import Dynarec.Host.Encoding

/-!
# The assembler

`Failure` is every reason for which a request to the recompiler can fail: a fault
of the cache, an error of the code buffer, a move that no instruction carries
out, or a register number that is none.

A block is called with the guest context in the first argument register and
guest memory in the second. `Frame.entry` saves the registers that the caller
keeps, aligns the stack and sets the two base registers; `Frame.exit` undoes it
and returns. `Frame.padding` is what the pushes leave missing to a multiple of
`Frame.alignment`.

An `Assembler` appends instructions to a code buffer and remembers where block
entry and exit code was last put. `play` turns the events of the cache into code
and log records, stopping at the first move that cannot be appended.
-/

namespace Dynarec

/-! ## Failures -/

inductive Failure where
  | fault (f : Fault)
  | code (e : CodeError)
  | unencodable (m : Move)
  | notConstant (g : GuestReg)
  /-- A register number was looked up in a table that has no such entry. -/
  | outsideTable
  /-- A register number has no word in the guest context. -/
  | badGuest (n : Nat)
  /-- A register number has no bit in a mask. -/
  | outsideMask
  deriving DecidableEq

def Failure.message : Failure → String
  | fault f => f.text
  | code e => e.message
  | unencodable m => s!"unencodable move {m.src.text} -> {m.dst.text}"
  | notConstant g => s!"{g} must be an immediate"
  | outsideTable => "index out of bounds"
  | badGuest n => s!"bad guest register {n}"
  | outsideMask => "shift out of range"

namespace GuestReg

/-- The guest register with the number of a table entry. -/
def lookup (n : Nat) : Except Failure GuestReg :=
  match ofNumber? n with
  | some g => .ok g
  | none => .error .outsideTable

/-- The guest register with a number that must have a word in the context. -/
def check (n : Nat) : Except Failure GuestReg :=
  match ofNumber? n with
  | some g => .ok g
  | none => .error (.badGuest n)

end GuestReg

/-! ## Block entry and exit -/

namespace Frame

def alignment : Nat := 16

/-- Bytes on the stack after the pushes, with the return address. -/
def pushed : Nat := (1 + HostReg.calleeSaved.length) * 8

def padding : Nat := (pushed + alignment - 1) / alignment * alignment - pushed

def entry : List (Instr Address) :=
  HostReg.calleeSaved.map .push ++
    [.arithImm .sub true .rsp (BitVec.ofNat 32 padding),
     .movReg true .contextBase HostReg.callArgs[0],
     .movReg true .memoryBase HostReg.callArgs[1]]

def exit : List (Instr Address) :=
  .arithImm .add true .rsp (BitVec.ofNat 32 padding) ::
    (HostReg.calleeSaved.reverse.map .pop ++ [.ret])

end Frame

/-! ## Appending code -/

structure Assembler where
  buffer : CodeBuffer
  entryOffset : Nat
  exitOffset : Nat

namespace Assembler

def onBuffer (buffer : CodeBuffer) : Assembler := ⟨buffer, 0, 0⟩

/-- An assembler on a new buffer of at least `size` bytes. -/
def create (size : Nat) : Except Failure Assembler :=
  match CodeBuffer.allocate size with
  | .ok b => .ok (onBuffer b)
  | .error e => .error (.code e)

/-- Carries out a step on the buffer. -/
def onCode (a : Assembler) (step : CodeBuffer → Except CodeError CodeBuffer) :
    Except Failure Assembler :=
  match step a.buffer with
  | .ok b => .ok { a with buffer := b }
  | .error e => .error (.code e)

def emit (a : Assembler) (bytes : List Byte) : Except Failure Assembler :=
  a.onCode (·.emit bytes)

/-- Appends a whole instruction or nothing of it. What a full buffer is left with is a convention:
an encoder that works byte by byte leaves the front of the instruction there. -/
def emitInstr (a : Assembler) (i : Instr Address) : Except Failure Assembler := a.emit i.encode

def emitMove (a : Assembler) (m : Move) : Except Failure Assembler :=
  match m.instr? with
  | some i => a.emitInstr i
  | none => .error (.unencodable m)

def emitEntry (a : Assembler) : Except Failure Assembler :=
  Frame.entry.foldlM emitInstr { a with entryOffset := a.buffer.offset }

def emitExit (a : Assembler) : Except Failure Assembler :=
  Frame.exit.foldlM emitInstr { a with exitOffset := a.buffer.offset }

def emitEvent (a : Assembler) (e : Event) : Except Failure Assembler :=
  match e.move? with
  | some m => a.emitMove m
  | none => .ok a

/-- The log records end with that of the event that failed. -/
def play (a : Assembler) : List Event → List LogRecord × Except Failure Assembler
  | [] => ([], .ok a)
  | e :: rest =>
    match a.emitEvent e with
    | .ok b => (e.record :: (play b rest).1, (play b rest).2)
    | .error f => ([e.record], .error f)

end Assembler

end Dynarec
