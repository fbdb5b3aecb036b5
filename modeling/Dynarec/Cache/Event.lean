import Dynarec.Host.Instr

/-!
# Faults and events of the cache

A `Fault` ends the work on a block: the cache was misused, or its tables cannot
be trusted any more. An `Inconsistency` is what the check of the tables finds. Both
have a `message`.

The cache reports what it does as a list of `Event`s. A load or a store carries
the one `move?` that the generated code needs for it; `record` is the line that
each event leaves in the log, and `Fault.record` the line of a fault.
-/

namespace Dynarec

/-! ## Faults -/

inductive Fault where
  | hostAlreadyLocked (x : HostReg)
  | boundToLockedHost (x : HostReg)
  | hostLeftLocked (x : HostReg)
  | guestLeftLocked (g : GuestReg)
  | outOfRegisters
  | hostAlreadyDirty (x : HostReg)
  | aliasedHost (x : HostReg) (owner intruder : GuestReg)
  /-- A slot holds an immediate without being away from home. -/
  | badImmediate (g : GuestReg)
  /-- A slot's place contradicts its away flag. -/
  | corruptSlot (g : GuestReg)
  | notMapped (g : GuestReg)
  | tooManyLocks (count : Nat)
  deriving DecidableEq

def Fault.message : Fault → String
  | hostAlreadyLocked x => s!"host register {x} already locked"
  | boundToLockedHost x => s!"guest register bound to alloc-locked host register {x}"
  | hostLeftLocked x => s!"host register {x} still locked at flush"
  | guestLeftLocked g => s!"guest register {g} still locked at flush"
  | outOfRegisters => "ran out of host registers"
  | hostAlreadyDirty x => s!"free host register {x} is already dirty"
  | aliasedHost x owner intruder =>
    s!"host register {x} owned by {owner} is also bound to {intruder}"
  | badImmediate g => s!"guest register {g} holds an immediate but is not bound"
  | corruptSlot g => s!"guest register {g} has a location inconsistent with its bound flag"
  | notMapped g => s!"guest register {g} is not in a host register"
  | tooManyLocks count => s!"at most 4 registers can be locked per call, got {count}"

inductive Inconsistency where
  | lockedHost (g : GuestReg) (x : HostReg)
  | ownerMismatch (g : GuestReg) (x : HostReg) (owner : Option GuestReg)
  | unboundImmediate (g : GuestReg)
  | staleHost (x : HostReg)
  deriving DecidableEq

namespace Inconsistency

def ownerText : Option GuestReg → String
  | none => "None"
  | some g => s!"Some({g.text})"

def message : Inconsistency → String
  | lockedHost g x => s!"{g} is bound to alloc-locked host register {x}"
  | ownerMismatch g x owner => s!"{g} is bound to {x}, which is owned by {ownerText owner}"
  | unboundImmediate g => s!"{g} holds an immediate but is not bound"
  | staleHost x => s!"free host register {x} still has an owner or dirty bit"

end Inconsistency

/-! ## Events -/

inductive LogLevel where
  | trace
  | debug
  | error
  deriving DecidableEq

def LogLevel.name : LogLevel → String
  | trace => "TRACE"
  | debug => "DEBUG"
  | error => "ERROR"

structure LogRecord where
  level : LogLevel
  text : String
  deriving DecidableEq

inductive Event where
  | start (pc : Word)
  | flush (pc : Word)
  | spill (g : GuestReg) (x : HostReg)
  | load (g : GuestReg) (x : HostReg) (src : Operand)
  | store (g : GuestReg) (src : Operand)
  deriving DecidableEq

namespace Event

def move? : Event → Option Move
  | load _ x src => some ⟨.reg x, src⟩
  | store g src => some ⟨g.home, src⟩
  | _ => none

def record : Event → LogRecord
  | start pc => ⟨.debug, s!"regcache: start block at {pc.hex}"⟩
  | flush pc => ⟨.debug, s!"regcache: flush at {pc.hex}"⟩
  | spill g x => ⟨.trace, s!"regcache: spill {g} from {x}"⟩
  | load g x src => ⟨.trace, s!"regcache: load {g} into {x} from {src.text}"⟩
  | store g src => ⟨.trace, s!"regcache: store {g} from {src.text}"⟩

end Event

/-- The moves that a list of events asks for, in order. -/
def movesOf (events : List Event) : List Move := events.filterMap Event.move?

theorem movesOf_append (a b : List Event) : movesOf (a ++ b) = movesOf a ++ movesOf b :=
  List.filterMap_append

def Fault.text (f : Fault) : String := s!"regcache: {f.message}"

def Fault.record (f : Fault) : LogRecord := ⟨.error, f.text⟩

end Dynarec
