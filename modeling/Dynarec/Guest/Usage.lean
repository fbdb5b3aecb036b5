import Dynarec.Guest.Reg
import Dynarec.RegMask

/-!
# Register usage ahead

A `UsageOracle` tells the cache whether a guest register is read again soon.
`noUsage` says never. `BlockUsage` answers from the registers that each
instruction of a block reads and writes: `window` is the stretch of
instructions looked at, and `scan` goes through it until one of them reads or
writes the register. Past a branch only its delay slot is looked at.
-/

namespace Dynarec

/-- Whether a guest register is read within `lookahead` instructions from `pc`. -/
abbrev UsageOracle := (g : GuestReg) → (pc : Word) → (lookahead : Nat) → Bool

def noUsage : UsageOracle := fun _ _ _ => false

/-! ## One instruction -/

structure InsnUsage where
  reads : RegMask := .empty
  writes : RegMask := .empty
  branch : Bool := false
  deriving DecidableEq, Inhabited

namespace InsnUsage

def read? (u : InsnUsage) (r : Nat) : Option InsnUsage :=
  (u.reads.insert? r).map fun m => { u with reads := m }

def write? (u : InsnUsage) (r : Nat) : Option InsnUsage :=
  (u.writes.insert? r).map fun m => { u with writes := m }

def asBranch (u : InsnUsage) : InsnUsage := { u with branch := true }

end InsnUsage

/-! ## A block -/

structure BlockUsage where
  startPc : Word
  insns : List InsnUsage
  deriving DecidableEq

namespace BlockUsage

/-- The index of the instruction at `pc`, which may lie past the block's end. -/
def index? (b : BlockUsage) (pc : Word) : Option Nat :=
  if b.startPc ≤ pc ∧ (pc - b.startPc).toNat % 4 = 0 then some ((pc - b.startPc).toNat / 4)
  else none

/-- The index of the first instruction looked at and the one where looking ends; none is looked at
if `pc` is no instruction's address. -/
def window (b : BlockUsage) (pc : Word) (lookahead : Nat) : Nat × Nat :=
  match b.index? pc with
  | some start => (start, min (start + lookahead) b.insns.length)
  | none => (0, 0)

/-- Goes through the instructions, of which the first has index `i`, until one before `stop` reads
or writes the register. -/
def scan (r : Nat) : List InsnUsage → (i stop : Nat) → Bool
  | [], _, _ => false
  | u :: rest, i, stop =>
    if i < stop then
      if u.reads.has r then true
      else if u.writes.has r then false
      -- only the delay slot of a branch is left on this path
      else scan r rest (i + 1) (if u.branch then min stop (i + 2) else stop)
    else false

def isUsed (b : BlockUsage) (r : Nat) (pc : Word) (lookahead : Nat) : Bool :=
  let (start, stop) := b.window pc lookahead
  scan r (b.insns.drop start) start stop

/-- `isUsed` for any register number. One that no mask can hold is refused as soon as there is an
instruction to look at. -/
def isUsed? (b : BlockUsage) (r : Nat) (pc : Word) (lookahead : Nat) : Option Bool :=
  let (start, stop) := b.window pc lookahead
  if r < 64 ∨ stop ≤ start then some (b.isUsed r pc lookahead) else none

def oracle (b : BlockUsage) : UsageOracle := fun g pc lookahead => b.isUsed g.number pc lookahead

end BlockUsage

end Dynarec
