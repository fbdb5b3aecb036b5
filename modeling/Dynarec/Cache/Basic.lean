import Dynarec.Cache.Tables
import Dynarec.Guest.Usage
import Dynarec.Journal

/-!
# The register cache

`Cache` holds the tables, the position of the recompiler and what it knows of
register usage ahead. `CacheM` is a computation on it that writes events and may
stop with a fault. This module has the operations that leave the host registers'
contents alone: starting a block, constants, locks and going back to saved tables.
-/

namespace Dynarec

structure Cache where
  tables : Tables
  oracle : UsageOracle
  pc : Word
  /-- How many instructions ahead a spill looks. -/
  lookahead : Nat

abbrev CacheM := Journal Fault Cache Event

namespace Cache

def defaultLookahead : Nat := 30

/-- The most registers that one request may lock. -/
def maxLocks : Nat := 4

def withLookahead (lookahead : Nat) : Cache := ⟨.fresh, noUsage, 0, lookahead⟩

def fresh : Cache := withLookahead defaultLookahead

instance : Inhabited Cache := ⟨fresh⟩

/-- The cache after a change of its tables. -/
def mapTables (f : Tables → Tables) (c : Cache) : Cache := { c with tables := f c.tables }

@[simp] theorem tables_mapTables (f : Tables → Tables) (c : Cache) :
    (c.mapTables f).tables = f c.tables := rfl

end Cache

namespace CacheM

open Journal

def changeTables (f : Tables → Tables) : CacheM Unit := modify (Cache.mapTables f)

@[simp] theorem changeTables_run (f : Tables → Tables) (c : Cache) :
    changeTables f c = ⟨.ok (), c.mapTables f, []⟩ := rfl

/-! ## Position -/

/-- Begins a block at `pc`, forgetting the last one. -/
def start (oracle : UsageOracle) (pc : Word) : CacheM Unit := do
  write [.start pc]
  modify fun c => { c with tables := .fresh, oracle, pc }

def setPc (pc : Word) : CacheM Unit := modify fun c => { c with pc }

/-! ## Constants -/

def setConst (g : GuestReg) (v : Word) : CacheM Unit := changeTables (·.setConst g v)

def discard (g : GuestReg) : CacheM Unit := changeTables (·.discard g)

/-! ## Locks -/

def checkLockCount (count : Nat) : CacheM Unit :=
  if Cache.maxLocks < count then stop (.tooManyLocks count) else pure ()

/-- Protects guest registers from being spilled. -/
def lockGuests (gs : List GuestReg) : CacheM Unit := do
  checkLockCount gs.length
  changeTables fun t => gs.foldl Tables.lockGuest t

def lockHost (x : HostReg) : CacheM Unit := do
  if ((← read).tables.host x).locked then stop (.hostAlreadyLocked x)
  changeTables (·.lockHost x)

/-- Reserves host registers as scratch. -/
def lockHosts (xs : List HostReg) : CacheM Unit := do
  checkLockCount xs.length
  xs.forM lockHost

def unlockGuests : CacheM Unit := changeTables Tables.unlockGuests

def unlockHosts : CacheM Unit := changeTables Tables.unlockHosts

/-! ## Going back -/

/-- Takes both tables as they were saved, without looking at them. -/
def restore (saved : Tables) : CacheM Unit := changeTables fun _ => saved

/-! ## Looking up -/

/-- The host register that `g` is mapped to. -/
def hostOf (g : GuestReg) : CacheM HostReg := do
  match (← read).tables.hostOf? g with
  | some x => pure x
  | none => stop (.notMapped g)

theorem hostOf_of_mapped {c : Cache} {g : GuestReg} {x : HostReg}
    (h : c.tables.hostOf? g = some x) : hostOf g c = ⟨.ok x, c, []⟩ := by
  simp [hostOf, h]

end CacheM

end Dynarec
