import Dynarec.Cache.Basic

/-!
# Allocation

`Cache.freeHost?` is the first host register that can be handed out as it is,
`Cache.victim?` the first whose guest value may be sent home to make room. Both
follow `HostReg.allocationOrder`. `CacheM.acquire` tries a free register, then a
victim that is not read again soon, then any victim. `mapGuest` gives a guest
register a host register, `materialize` does so for a constant, `evict` and
`flush` empty one host register and all of them.

`Request` lists what a recompiler asks of the cache and `Request.perform`
carries it out. Only a request for a free host register has an answer.
-/

namespace Dynarec

namespace Cache

/-- The owner of `x` must keep it: locked, or with `unusedOnly` read again soon. -/
def keepsOwner (c : Cache) (unusedOnly : Bool) (x : HostReg) : Bool :=
  match (c.tables.host x).owner with
  | none => false
  | some g => (c.tables.guest g).locked || unusedOnly && c.oracle g c.pc c.lookahead

def freeHost? (c : Cache) : Option HostReg :=
  HostReg.allocationOrder.find? fun x => !(c.tables.host x).locked && (c.tables.host x).free

def victim? (c : Cache) (unusedOnly : Bool) : Option HostReg :=
  HostReg.allocationOrder.find? fun x => !(c.tables.host x).locked && !c.keepsOwner unusedOnly x

end Cache

namespace CacheM

open Journal

/-! ## Writing back -/

/-- Sends `g` home, storing its value there if that is newer. -/
def writeBack (g : GuestReg) : CacheM Unit := do
  write ((← read).tables.storesOf g)
  changeTables (·.release g)

theorem writeBack_run (g : GuestReg) (c : Cache) :
    writeBack g c = ⟨.ok (), c.mapTables (·.release g), c.tables.storesOf g⟩ := by
  simp [writeBack]

/-- Sends home whatever owns a host register. -/
def evict (x : HostReg) : CacheM Unit := do
  let s := (← read).tables.host x
  match s.free, s.owner with
  | false, some g => writeBack g
  | _, _ => pure ()

/-- Makes room in `x`. -/
def spill (x : HostReg) : CacheM Unit := do
  match ((← read).tables.host x).owner with
  | some g =>
    write [.spill g x]
    writeBack g
  | none => pure ()

theorem spill_run (x : HostReg) (c : Cache) :
    spill x c = match (c.tables.host x).owner with
      | some g => ⟨.ok (), c.mapTables (·.release g), .spill g x :: c.tables.storesOf g⟩
      | none => ⟨.ok (), c, []⟩ := by
  simp only [spill, bind_run, read_run, Outcome.andThen_ok, Outcome.after_nil]
  split <;> simp [writeBack_run, *]

/-! ## Mapping -/

/-- A host register that holds nothing any more. -/
def acquire : CacheM HostReg := do
  let c ← read
  match c.freeHost? with
  | some x => pure x
  | none =>
    match (c.victim? true).or (c.victim? false) with
    | some x =>
      spill x
      pure x
    | none => stop .outOfRegisters

theorem acquire_of_free {c : Cache} {x : HostReg} (h : c.freeHost? = some x) :
    acquire c = ⟨.ok x, c, []⟩ := by
  simp [acquire, h]

theorem acquire_of_victim {c : Cache} {x : HostReg} (hf : c.freeHost? = none)
    (hv : (c.victim? true).or (c.victim? false) = some x) :
    acquire c = ⟨.ok x, (spill x c).state, (spill x c).journal⟩ := by
  simp [acquire, hf, hv, spill_run]
  split <;> simp

theorem acquire_of_none {c : Cache} (hf : c.freeHost? = none)
    (hv : (c.victim? true).or (c.victim? false) = none) :
    acquire c = ⟨.error .outOfRegisters, c, []⟩ := by
  simp [acquire, hf, hv]

/-- Binds a free host register to `g`. A constant is nowhere in memory, so its copy is dirty. -/
def claim (x : HostReg) (g : GuestReg) (dirty : Bool) : CacheM Unit := do
  let s := (← read).tables.host x
  if s.dirty then stop (.hostAlreadyDirty x)
  if s.locked then stop (.boundToLockedHost x)
  changeTables (·.setHost x ⟨false, dirty, some g, false⟩)

/-- Moves `g` from its place `src` to a host register of its own. -/
def occupy (g : GuestReg) (src : Operand) (load dirty : Bool) : CacheM Unit := do
  let x ← acquire
  claim x g (dirty || src.isImm)
  if load then write [.load g x (if g.isZero then .imm 0 else src)]
  match (← read).tables.intruder? x g with
  | some h => stop (.aliasedHost x g h)
  | none => pure ()
  changeTables fun t => t.setGuest g { t.guest g with place := .reg x, away := true }

/-- Maps `g` to a host register. With `load` the register receives its value; `dirty` announces
that it is about to be written. -/
def mapGuest (g : GuestReg) (load dirty : Bool) : CacheM Unit := do
  let s := (← read).tables.guest g
  match s.away, s.place with
  | true, .reg x => changeTables (·.markDirty x dirty)
  | true, .imm v => occupy g (.imm v) load dirty
  | false, .mem a => occupy g (.mem a) load dirty
  | false, .imm _ => stop (.badImmediate g)
  | true, .mem _ => stop (.corruptSlot g)
  | false, .reg _ => stop (.corruptSlot g)
  let x ← hostOf g
  if ((← read).tables.host x).locked then stop (.boundToLockedHost x)

/-- Maps `g` to a host register if it is bound to a constant. -/
def materialize (g : GuestReg) (load dirty : Bool) : CacheM Unit := do
  let s := (← read).tables.guest g
  match s.away, s.place with
  | true, .imm _ => mapGuest g load dirty
  | true, .reg x => changeTables (·.markDirty x dirty)
  | _, _ => pure ()

/-! ## Flushing -/

def checkUnlocked : CacheM Unit := do
  let t := (← read).tables
  match HostReg.all.find? fun x => (t.host x).locked with
  | some x => stop (.hostLeftLocked x)
  | none => pure ()
  match GuestReg.all.find? fun g => (t.guest g).locked with
  | some g => stop (.guestLeftLocked g)
  | none => pure ()

def flushGuest (g : GuestReg) : CacheM Unit := do
  let s := (← read).tables.guest g
  match s.away, s.place with
  | true, .mem _ => stop (.corruptSlot g)
  | true, _ => writeBack g
  | false, _ => pure ()

/-- Sends every guest register home. Nothing may be locked. -/
def flush : CacheM Unit := do
  checkUnlocked
  write [.flush (← read).pc]
  changeTables (·.setConst .zero 0)
  GuestReg.all.tail.forM flushGuest

/-- Every host register is sent home before a call, whether the callee keeps it or not. -/
def flushBeforeCall : CacheM Unit := flush

end CacheM

/-! ## Requests -/

inductive Request where
  | start (oracle : UsageOracle) (pc : Word)
  | setPc (pc : Word)
  | setConst (g : GuestReg) (v : Word)
  | discard (g : GuestReg)
  | materialize (g : GuestReg) (load dirty : Bool)
  | lockGuests (gs : List GuestReg)
  | lockHosts (xs : List HostReg)
  | unlockGuests
  | unlockHosts
  | acquire
  | mapGuest (g : GuestReg) (load dirty : Bool)
  | writeBack (g : GuestReg)
  | evict (x : HostReg)
  | flush
  | flushBeforeCall
  | restore (saved : Tables)

namespace Request

/-- A computation without an answer. -/
def silent (m : CacheM Unit) : CacheM (Option HostReg) := do
  m
  pure none

def perform : Request → CacheM (Option HostReg)
  | start oracle pc => silent (CacheM.start oracle pc)
  | setPc pc => silent (CacheM.setPc pc)
  | setConst g v => silent (CacheM.setConst g v)
  | discard g => silent (CacheM.discard g)
  | materialize g load dirty => silent (CacheM.materialize g load dirty)
  | lockGuests gs => silent (CacheM.lockGuests gs)
  | lockHosts xs => silent (CacheM.lockHosts xs)
  | unlockGuests => silent CacheM.unlockGuests
  | unlockHosts => silent CacheM.unlockHosts
  | acquire => some <$> CacheM.acquire
  | mapGuest g load dirty => silent (CacheM.mapGuest g load dirty)
  | writeBack g => silent (CacheM.writeBack g)
  | evict x => silent (CacheM.evict x)
  | flush => silent CacheM.flush
  | flushBeforeCall => silent CacheM.flushBeforeCall
  | restore saved => silent (CacheM.restore saved)

end Request

end Dynarec
