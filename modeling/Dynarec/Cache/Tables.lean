import Dynarec.Cache.Event

/-!
# The tables

The cache keeps one `GuestSlot` for each guest register and one `HostSlot` for
each host register. `Tables` holds both, and a copy of it is taken where control
flow divides. A slot that is `away` holds a constant or is mapped to a host
register; otherwise its value is at home in the guest context.

The operations here change both tables together: `discard` unbinds a host
register without writing it back, `setConst` binds a constant, `release` sends a
register home after `storesOf` has written it back. `inconsistency?` checks the
tables against each other.

A `Snapshot` is both tables as they are kept outside the cache, where single
slots may be edited. It names the owner of a host register by number, and
nothing is checked while it is kept: `Snapshot.tables?` turns it back into tables
if every number is a guest register's.
-/

namespace Dynarec

structure GuestSlot where
  place : Operand
  away : Bool
  locked : Bool
  deriving DecidableEq

structure HostSlot where
  free : Bool
  /-- The guest value is newer than the one at home. -/
  dirty : Bool
  owner : Option GuestReg
  /-- Reserved as scratch; never handed out. -/
  locked : Bool
  deriving DecidableEq

def GuestSlot.atHome (g : GuestReg) : GuestSlot := ⟨g.home, false, false⟩

def HostSlot.vacant : HostSlot := ⟨true, false, none, false⟩

def GuestSlot.unlocked (s : GuestSlot) : GuestSlot := { s with locked := false }

def HostSlot.unlocked (s : HostSlot) : HostSlot := { s with locked := false }

structure Tables where
  guests : Vector GuestSlot 36
  hosts : Vector HostSlot 16
  deriving DecidableEq

namespace Tables

/-! ## Slots -/

def guest (t : Tables) (g : GuestReg) : GuestSlot :=
  getElem t.guests g.number g.number_lt

def host (t : Tables) (x : HostReg) : HostSlot :=
  getElem t.hosts x.number x.number_lt

def setGuest (t : Tables) (g : GuestReg) (s : GuestSlot) : Tables :=
  { t with guests := t.guests.set g.number s g.number_lt }

def setHost (t : Tables) (x : HostReg) (s : HostSlot) : Tables :=
  { t with hosts := t.hosts.set x.number s x.number_lt }

@[simp] theorem guest_setGuest_self (t : Tables) (g : GuestReg) (s : GuestSlot) :
    (t.setGuest g s).guest g = s := by
  simp [guest, setGuest]

theorem guest_setGuest_of_ne (t : Tables) {g h : GuestReg} (s : GuestSlot) (hne : g ≠ h) :
    (t.setGuest g s).guest h = t.guest h := by
  have : g.number ≠ h.number := fun e => hne (GuestReg.ext_number e)
  simp [guest, setGuest, this]

theorem guest_setGuest (t : Tables) (g h : GuestReg) (s : GuestSlot) :
    (t.setGuest g s).guest h = if g = h then s else t.guest h := by
  split
  · next e => subst e; simp
  · next hne => exact guest_setGuest_of_ne t s hne

@[simp] theorem host_setHost_self (t : Tables) (x : HostReg) (s : HostSlot) :
    (t.setHost x s).host x = s := by
  simp [host, setHost]

theorem host_setHost_of_ne (t : Tables) {x y : HostReg} (s : HostSlot) (hne : x ≠ y) :
    (t.setHost x s).host y = t.host y := by
  have : x.number ≠ y.number := fun e => hne (HostReg.number_inj e)
  simp [host, setHost, this]

theorem host_setHost (t : Tables) (x y : HostReg) (s : HostSlot) :
    (t.setHost x s).host y = if x = y then s else t.host y := by
  split
  · next e => subst e; simp
  · next hne => exact host_setHost_of_ne t s hne

@[simp] theorem host_setGuest (t : Tables) (g : GuestReg) (s : GuestSlot) (x : HostReg) :
    (t.setGuest g s).host x = t.host x := rfl

@[simp] theorem guest_setHost (t : Tables) (x : HostReg) (s : HostSlot) (g : GuestReg) :
    (t.setHost x s).guest g = t.guest g := rfl

@[ext] theorem ext_slots {t u : Tables} (hg : ∀ g, t.guest g = u.guest g)
    (hx : ∀ x, t.host x = u.host x) : t = u := by
  cases t with
  | mk gs xs =>
    cases u with
    | mk gs' xs' =>
      congr 1
      · exact Vector.ext fun i hi => hg ⟨⟨i, hi⟩⟩
      · refine Vector.ext fun i hi => ?_
        have h := hx (HostReg.ofIndex ⟨i, hi⟩)
        have e : (HostReg.ofIndex ⟨i, hi⟩).index = ⟨i, hi⟩ := by
          have : ∀ j : Fin 16, (HostReg.ofIndex j).index = j := by decide
          exact this _
        simpa [host, HostReg.number, e] using h

/-! ## Constants and bindings -/

/-- The host register that `g` is mapped to. -/
def hostOf? (t : Tables) (g : GuestReg) : Option HostReg :=
  match (t.guest g).away, (t.guest g).place with
  | true, .reg x => some x
  | _, _ => none

/-- Unbinds the host register of `g`, if it has one; the value it held is lost. -/
def discard (t : Tables) (g : GuestReg) : Tables :=
  match t.hostOf? g with
  | some x =>
    (t.setHost x { HostSlot.vacant with locked := (t.host x).locked }).setGuest g
      { GuestSlot.atHome g with locked := (t.guest g).locked }
  | none => t

/-- Binds `g` to a constant, dropping whatever it was bound to. The hardwired zero stays 0. -/
def setConst (t : Tables) (g : GuestReg) (v : Word) : Tables :=
  (t.discard g).setGuest g
    { (t.discard g).guest g with place := .imm (if g.isZero then 0 else v), away := true }

theorem hostOf?_eq_some_iff {t : Tables} {g : GuestReg} {x : HostReg} :
    t.hostOf? g = some x ↔ (t.guest g).away = true ∧ (t.guest g).place = .reg x := by
  unfold hostOf?
  split <;> simp_all

theorem guest_discard_of_ne (t : Tables) {g h : GuestReg} (hne : g ≠ h) :
    (t.discard g).guest h = t.guest h := by
  unfold discard
  split
  · rw [guest_setGuest_of_ne _ _ hne, guest_setHost]
  · rfl

theorem locked_guest_discard (t : Tables) (g h : GuestReg) :
    ((t.discard g).guest h).locked = (t.guest h).locked := by
  by_cases e : g = h
  · subst e
    unfold discard
    split <;> simp
  · rw [guest_discard_of_ne t e]

theorem host_discard_of_ne (t : Tables) {g : GuestReg} {x : HostReg} (h : t.hostOf? g ≠ some x) :
    (t.discard g).host x = t.host x := by
  unfold discard
  split
  · next y e =>
    rw [host_setGuest, host_setHost_of_ne]
    rintro rfl
    exact h e
  · rfl

theorem guest_setConst_self (t : Tables) (g : GuestReg) (v : Word) :
    (t.setConst g v).guest g = ⟨.imm (if g.isZero then 0 else v), true, (t.guest g).locked⟩ := by
  simp [setConst, locked_guest_discard]

theorem guest_setConst_of_ne (t : Tables) {g h : GuestReg} (v : Word) (hne : g ≠ h) :
    (t.setConst g v).guest h = t.guest h := by
  rw [setConst, guest_setGuest_of_ne _ _ hne, guest_discard_of_ne t hne]

theorem host_setConst (t : Tables) (g : GuestReg) (v : Word) (x : HostReg) :
    (t.setConst g v).host x = (t.discard g).host x := rfl

/-- Every register at home and every host register free. -/
def blank : Tables where
  guests := .ofFn fun i => .atHome ⟨i⟩
  hosts := .replicate 16 .vacant

/-- The tables at the start of a block: only the hardwired zero is bound. -/
def fresh : Tables := blank.setConst .zero 0

instance : Inhabited Tables := ⟨fresh⟩

/-! ## Writing back -/

/-- The value of `g` is newer than the word at its home. -/
def pending (t : Tables) (g : GuestReg) : Bool :=
  (t.guest g).away && match (t.guest g).place with
    | .reg x => (t.host x).dirty
    | .imm _ => true
    | .mem _ => false

/-- The store that writes `g` back, if one is needed. The hardwired zero has none. -/
def storesOf (t : Tables) (g : GuestReg) : List Event :=
  if t.pending g && !g.isZero then [.store g (t.guest g).place] else []

/-- Sends `g` home and frees the host register it was mapped to. -/
def release (t : Tables) (g : GuestReg) : Tables :=
  let freed := match (t.guest g).place with
    | .reg x => t.setHost x { t.host x with free := true, dirty := false, owner := none }
    | _ => t
  if (t.guest g).away then
    freed.setGuest g { GuestSlot.atHome g with locked := (t.guest g).locked }
  else t

theorem guest_release_self (t : Tables) (g : GuestReg) :
    (t.release g).guest g =
      if (t.guest g).away then { GuestSlot.atHome g with locked := (t.guest g).locked }
      else t.guest g := by
  simp only [release]
  split
  · split <;> simp
  · rfl

theorem guest_release_of_ne (t : Tables) {g h : GuestReg} (hne : g ≠ h) :
    (t.release g).guest h = t.guest h := by
  simp only [release]
  split
  · rw [guest_setGuest_of_ne _ _ hne]
    split <;> rfl
  · rfl

/-! ## Locks -/

def lockGuest (t : Tables) (g : GuestReg) : Tables :=
  t.setGuest g { t.guest g with locked := true }

def lockHost (t : Tables) (x : HostReg) : Tables :=
  t.setHost x { t.host x with locked := true }

/-- Unlocks every guest register. The hardwired zero, which an operand may have mapped, is a
constant again. -/
def unlockGuests (t : Tables) : Tables :=
  setConst { t with guests := t.guests.map GuestSlot.unlocked } .zero 0

def unlockHosts (t : Tables) : Tables :=
  { t with hosts := t.hosts.map HostSlot.unlocked }

/-! ## Queries -/

def isMapped (t : Tables) (g : GuestReg) : Bool := (t.hostOf? g).isSome

/-- The constant that `g` is known to be; the hardwired zero is 0 under any constant. -/
def const? (t : Tables) (g : GuestReg) : Option Word :=
  (t.guest g).place.imm?.map fun v => if g.isZero then 0 else v

def markDirty (t : Tables) (x : HostReg) (dirty : Bool) : Tables :=
  t.setHost x { t.host x with dirty := (t.host x).dirty || dirty }

/-- The first guest register other than `g` whose place is the host register `x`. -/
def intruder? (t : Tables) (x : HostReg) (g : GuestReg) : Option GuestReg :=
  GuestReg.all.find? fun h => h != g && (t.guest h).place == .reg x

/-! ## Consistency -/

def guestInconsistency? (t : Tables) (g : GuestReg) : Option Inconsistency :=
  match (t.guest g).away, (t.guest g).place with
  | true, .reg x =>
    if (t.host x).locked then some (.lockedHost g x)
    else if (t.host x).owner ≠ some g ∨ (t.host x).free then
      some (.ownerMismatch g x (t.host x).owner)
    else none
  | false, .imm _ => some (.unboundImmediate g)
  | _, _ => none

def hostInconsistency? (t : Tables) (x : HostReg) : Option Inconsistency :=
  if (t.host x).free ∧ ((t.host x).owner.isSome ∨ (t.host x).dirty) then some (.staleHost x)
  else none

/-- The first inconsistency, looking at the guest registers before the host registers. -/
def inconsistency? (t : Tables) : Option Inconsistency :=
  (GuestReg.all.findSome? t.guestInconsistency?).or
    (HostReg.all.findSome? t.hostInconsistency?)

end Tables

/-! ## Snapshots -/

structure SavedHost where
  free : Bool
  dirty : Bool
  owner : Option Nat
  locked : Bool
  deriving DecidableEq

def HostSlot.save (s : HostSlot) : SavedHost :=
  ⟨s.free, s.dirty, s.owner.map GuestReg.number, s.locked⟩

def SavedHost.slot? (s : SavedHost) : Option HostSlot :=
  match s.owner with
  | none => some ⟨s.free, s.dirty, none, s.locked⟩
  | some n => (GuestReg.ofNumber? n).map fun g => ⟨s.free, s.dirty, some g, s.locked⟩

structure Snapshot where
  guests : Vector GuestSlot 36
  hosts : Vector SavedHost 16
  deriving DecidableEq

def Tables.save (t : Tables) : Snapshot := ⟨t.guests, t.hosts.map HostSlot.save⟩

namespace Snapshot

def tables? (s : Snapshot) : Option Tables :=
  (s.hosts.mapM SavedHost.slot?).map fun hosts => ⟨s.guests, hosts⟩

def setGuest (s : Snapshot) (g : GuestReg) (slot : GuestSlot) : Snapshot :=
  { s with guests := s.guests.set g.number slot g.number_lt }

def setHost (s : Snapshot) (x : HostReg) (slot : SavedHost) : Snapshot :=
  { s with hosts := s.hosts.set x.number slot x.number_lt }

theorem slot?_save (s : HostSlot) : s.save.slot? = some s := by
  cases s with
  | mk free dirty owner locked =>
    cases owner <;> simp [HostSlot.save, SavedHost.slot?, GuestReg.ofNumber?_number]

theorem tables?_save (t : Tables) : t.save.tables? = some t := by
  have h : SavedHost.slot? ∘ HostSlot.save = fun s => pure (id s) := funext slot?_save
  have hosts : (t.hosts.map HostSlot.save).mapM SavedHost.slot? = some t.hosts := by
    rw [Vector.mapM_map, h, Vector.mapM_pure, Vector.map_id]
    rfl
  simp [tables?, Tables.save, hosts]

end Snapshot

end Dynarec
