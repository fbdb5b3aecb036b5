import Dynarec.Cache.Allocation
import Dynarec.Cache.Tables
import Dynarec.Code.Assembler

/-!
# The recompiler

A `Recompiler` is a register cache together with the assembler that its moves go
to. `RecompilerM` is a computation on it that writes log records and may fail.
`RecompilerM.cache` runs a computation of the cache: the events it wrote become
code and log records, and only then does its own fault, if any, come to light.
-/

namespace Dynarec

structure Recompiler where
  cache : Cache
  assembler : Assembler

abbrev RecompilerM := Journal Failure Recompiler LogRecord

namespace RecompilerM

open Journal

/-! ## Parts -/

def ofExcept {α : Type} : Except Failure α → RecompilerM α
  | .ok a => pure a
  | .error f => stop f

def assemble (step : Assembler → Except Failure Assembler) : RecompilerM Unit := do
  let a ← ofExcept (step (← read).assembler)
  modify fun t => { t with assembler := a }

def emit (i : Instr Address) : RecompilerM Unit := assemble (·.emitInstr i)

/-- Turns events into code and log records. -/
def play (events : List Event) : RecompilerM Unit := do
  let (log, played) := (← read).assembler.play events
  write log
  let a ← ofExcept played
  modify fun t => { t with assembler := a }

def raise {α : Type} (f : Fault) : RecompilerM α := do
  write [f.record]
  stop (.fault f)

/-- Runs a computation of the cache. If its code cannot be emitted, then cache and code stay as they
were before. This is a convention: a recompiler that emits while its tables change would stop with
some of both, but a full buffer ends its work, and no state is looked at after that. -/
def cache {α : Type} (m : CacheM α) : RecompilerM α := do
  let o := m (← read).cache
  play o.journal
  modify fun t => { t with cache := o.state }
  match o.result with
  | .ok a => pure a
  | .error f => raise f

def request (r : Request) : RecompilerM (Option HostReg) := cache r.perform

def save : RecompilerM Snapshot := do return (← read).cache.tables.save

/-- Goes back to a snapshot. An owner that is no guest register comes to light here. -/
def restore (s : Snapshot) : RecompilerM Unit := do
  match s.tables? with
  | some t =>
    let _ ← request (.restore t)
  | none => stop .outsideTable

/-! ## Guest registers by number -/

def guest (n : Nat) : RecompilerM GuestReg := ofExcept (GuestReg.lookup n)

/-- The host register that a guest register is mapped to. -/
def hostOf (n : Nat) : RecompilerM HostReg := do
  let g ← guest n
  cache (CacheM.hostOf g)

/-- The constant that a guest register is known to be. -/
def constOf (n : Nat) : RecompilerM Word := do
  let g ← guest n
  match (← read).cache.tables.const? g with
  | some v => pure v
  | none => stop (.notConstant g)

/-- Locks guest registers. Their count is checked before the numbers are. -/
def lockGuests (ns : List Nat) : RecompilerM Unit := do
  cache (CacheM.checkLockCount ns.length)
  let gs ← ns.mapM guest
  cache (CacheM.lockGuests gs)

end RecompilerM

end Dynarec
