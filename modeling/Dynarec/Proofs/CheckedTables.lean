import Mathlib.Logic.Relation
import Dynarec.Proofs.Coherence

/-!
# Tables that pass the check

`Tables.Checked` is what `Tables.inconsistency?` finds nothing against
(`Tables.inconsistency?_eq_none_iff`). It is weaker than `Tables.Coherent`: it says nothing of a
slot whose flag contradicts its place (`Tables.SlotsAgree`), of such a slot that has a host register
as its place (`Tables.StraysKept`) and of the owner of a host register that is not mapped to it
(`Tables.DirtyKept`).

A `Tables.Change` is what making room, mapping and sending home do to such tables. All four
properties are kept by changes, and `Tables.Contradicts` lists the internal faults with the tables
that bring them about.
-/

namespace Dynarec

namespace Tables

variable {t u : Tables} {g h : GuestReg} {x y : HostReg}

/-! ## What the check looks at -/

structure Checked (t : Tables) : Prop where
  mapped : ∀ {g x}, t.hostOf? g = some x →
    (t.host x).locked = false ∧ (t.host x).owner = some g ∧ (t.host x).free = false
  bound : ∀ {g v}, (t.guest g).place = .imm v → (t.guest g).away = true
  vacant : ∀ {x}, (t.host x).free = true → (t.host x).owner = none ∧ (t.host x).dirty = false

theorem guestInconsistency?_eq_none_iff :
    t.guestInconsistency? g = none ↔
      (∀ x, t.hostOf? g = some x →
        (t.host x).locked = false ∧ (t.host x).owner = some g ∧ (t.host x).free = false) ∧
      ∀ v, (t.guest g).place = .imm v → (t.guest g).away = true := by
  unfold guestInconsistency? hostOf?
  cases away : (t.guest g).away with
  | false => cases (t.guest g).place <;> simp
  | true =>
    cases (t.guest g).place with
    | imm _ | mem _ => simp
    | reg x =>
      by_cases locked : (t.host x).locked = true
      · simp [locked]
      · simp [locked, not_or]

theorem hostInconsistency?_eq_none_iff :
    t.hostInconsistency? x = none ↔
      ((t.host x).free = true → (t.host x).owner = none ∧ (t.host x).dirty = false) := by
  unfold hostInconsistency?
  simp [not_or]

/-- **The check.** It finds nothing exactly in checked tables. -/
theorem inconsistency?_eq_none_iff : t.inconsistency? = none ↔ t.Checked := by
  rw [inconsistency?, Option.or_eq_none_iff, List.findSome?_eq_none_iff,
    List.findSome?_eq_none_iff]
  simp only [guestInconsistency?_eq_none_iff, hostInconsistency?_eq_none_iff]
  constructor
  · rintro ⟨guests, hosts⟩
    exact ⟨fun {g x} => (guests g g.mem_all).1 x, fun {g v} => (guests g g.mem_all).2 v,
      fun {x} => hosts x x.mem_all⟩
  · intro k
    exact ⟨fun g _ => ⟨fun _ => k.mapped, fun _ => k.bound⟩, fun x _ => k.vacant⟩

/-! ## What it does not look at -/

/-- In every slot the flag agrees with the place. -/
def SlotsAgree (t : Tables) : Prop := ∀ g, (t.guest g).agrees = true

/-- Of the registers of the allocation order, those that are the place of a slot at home are locked,
or left to a locked owner that is not mapped to them. In particular this holds if every slot whose
place is a host register is away. -/
def StraysKept (t : Tables) : Prop :=
  ∀ x ∈ HostReg.allocationOrder, ∀ g, (t.guest g).place = .reg x → (t.guest g).away = false →
    (t.host x).locked = true ∨
      ∃ h ∈ (t.host x).owner, (t.guest h).locked = true ∧ t.hostOf? h ≠ some x

/-- Of the registers of the allocation order, the dirty ones are locked, or have an owner that is
locked or mapped to them. -/
def DirtyKept (t : Tables) : Prop :=
  ∀ x ∈ HostReg.allocationOrder, (t.host x).dirty = true →
    (t.host x).locked = true ∨
      ∃ g ∈ (t.host x).owner, (t.guest g).locked = true ∨ t.hostOf? g = some x

instance : Decidable t.SlotsAgree := inferInstanceAs (Decidable (∀ _, _))

instance : Decidable t.StraysKept := inferInstanceAs (Decidable (∀ _ ∈ _, ∀ _, _ → _ → _))

instance : Decidable t.DirtyKept := inferInstanceAs (Decidable (∀ _ ∈ _, _ → _))

theorem straysKept_of_away (away : ∀ g x, (t.guest g).place = .reg x → (t.guest g).away = true) :
    t.StraysKept := by
  intro x _ g place home
  exact nomatch home.symm.trans (away g x place)

theorem SlotsAgree.straysKept (a : t.SlotsAgree) : t.StraysKept := by
  apply straysKept_of_away
  intro g x place
  have agrees := a g
  rwa [GuestSlot.agrees, place] at agrees

/-! ## Changes -/

/-- From `t` to `u`, `g` is no longer mapped. The host register that it was mapped to is vacant but
for a lock, and nothing else has changed. -/
structure Unbinds (t u : Tables) (g : GuestReg) : Prop where
  unmapped : u.hostOf? g = none
  slot : u.guest g = t.guest g ∨ (u.guest g).agrees = true
  locked : (u.guest g).locked = (t.guest g).locked
  guest : ∀ h, g ≠ h → u.guest h = t.guest h
  freed : ∀ x, t.hostOf? g = some x →
    u.host x = { HostSlot.vacant with locked := (t.host x).locked }
  host : ∀ x, t.hostOf? g ≠ some x → u.host x = t.host x

inductive Change (t : Tables) : Tables → Prop where
  | unbind {g : GuestReg} {u : Tables} (unbinds : t.Unbinds u g) : Change t u
  | bind {g : GuestReg} {x : HostReg} (dirty : Bool) (unmapped : t.hostOf? g = none)
      (alone : ∀ h, g ≠ h → (t.guest h).place ≠ .reg x) : Change t (t.bind g x dirty)
  | markDirty {g : GuestReg} {x : HostReg} (dirty : Bool) (mapped : t.hostOf? g = some x) :
      Change t (t.markDirty x dirty)

abbrev Changes : Tables → Tables → Prop := Relation.ReflTransGen Change

theorem host_release (t : Tables) (g : GuestReg) (x : HostReg) :
    (t.release g).host x =
      if t.hostOf? g = some x then { HostSlot.vacant with locked := (t.host x).locked }
      else t.host x := by
  unfold release hostOf?
  cases (t.guest g).away with
  | false => simp
  | true =>
    cases (t.guest g).place with
    | imm _ | mem _ => simp
    | reg y =>
      by_cases e : y = x
      · subst e
        simp [HostSlot.vacant]
      · simp [e, host_setHost]

theorem unbinds_release (t : Tables) (g : GuestReg) : t.Unbinds (t.release g) g := by
  have self := guest_release_self t g
  have slot : ((t.release g).guest g).away = false ∧
      ((t.release g).guest g).locked = (t.guest g).locked ∧
      ((t.release g).guest g = t.guest g ∨ ((t.release g).guest g).agrees = true) := by
    cases away : (t.guest g).away with
    | false =>
      rw [self, if_neg (by simp [away])]
      exact ⟨away, rfl, .inl rfl⟩
    | true =>
      rw [self, if_pos away]
      exact ⟨rfl, rfl, .inr rfl⟩
  refine ⟨?_, slot.2.2, slot.2.1, fun h => guest_release_of_ne t, fun x mapped => ?_,
    fun x unmapped => ?_⟩
  · unfold hostOf?
    rw [slot.1]
  · rw [host_release, if_pos mapped]
  · rw [host_release, if_neg unmapped]

theorem unbinds_setConst (t : Tables) (g : GuestReg) (v : Word) : t.Unbinds (t.setConst g v) g := by
  have self := guest_setConst_self t g v
  refine ⟨hostOf?_setConst_self t g v, .inr ?_, ?_, fun h => guest_setConst_of_ne t v,
    fun x => host_discard_self, fun x => host_discard_of_ne t⟩
  · rw [self]
    rfl
  · rw [self]

theorem Unbinds.hostOf?_eq_none (k : t.Unbinds u g) (unmapped : t.hostOf? h = none) :
    u.hostOf? h = none := by
  by_cases e : g = h
  · exact e ▸ k.unmapped
  · rw [hostOf?_of_guest_eq (k.guest h e), unmapped]

theorem Unbinds.guest_or_agrees (k : t.Unbinds u g) (h : GuestReg) :
    u.guest h = t.guest h ∨ (u.guest h).agrees = true := by
  by_cases e : g = h
  · exact e ▸ k.slot
  · exact .inl (k.guest h e)

theorem disagrees_of_stray (place : (t.guest g).place = .reg x)
    (home : (t.guest g).away = false) : (t.guest g).agrees = false := by
  rw [GuestSlot.agrees, place]
  exact home

/-! ## What changes keep -/

namespace Checked

/-- A host register that another guest register is mapped to is not touched. -/
theorem host_of_mapped (k : t.Checked) (n : t.Unbinds u g) (hne : g ≠ h)
    (mapped : t.hostOf? h = some x) : u.host x = t.host x := by
  apply n.host
  intro mapped'
  obtain ⟨-, owner, -⟩ := k.mapped mapped
  obtain ⟨-, owner', -⟩ := k.mapped mapped'
  exact hne (Option.some.inj (owner'.symm.trans owner))

theorem unbind (k : t.Checked) (n : t.Unbinds u g) : u.Checked := by
  refine ⟨?_, ?_, ?_⟩
  · intro h x mapped
    by_cases e : g = h
    · subst e
      exact nomatch n.unmapped.symm.trans mapped
    · rw [hostOf?_of_guest_eq (n.guest h e)] at mapped
      rw [k.host_of_mapped n e mapped]
      exact k.mapped mapped
  · intro h v place
    rcases n.guest_or_agrees h with same | agrees
    · rw [same] at place ⊢
      exact k.bound place
    · rwa [GuestSlot.agrees, place] at agrees
  · intro x free
    by_cases mapped : t.hostOf? g = some x
    · rw [n.freed x mapped]
      exact ⟨rfl, rfl⟩
    · rw [n.host x mapped] at free ⊢
      exact k.vacant free

theorem bind (k : t.Checked) (alone : ∀ h, g ≠ h → (t.guest h).place ≠ .reg x) (dirty : Bool) :
    (t.bind g x dirty).Checked := by
  refine ⟨?_, ?_, ?_⟩
  · intro h y mapped
    by_cases e : g = h
    · subst e
      rw [hostOf?_bind_self] at mapped
      cases mapped
      rw [host_bind_self]
      exact ⟨rfl, rfl, rfl⟩
    · rw [hostOf?_bind_of_ne t x dirty e] at mapped
      have apart : x ≠ y := fun same => alone h e (same ▸ (hostOf?_eq_some_iff.1 mapped).2)
      rw [host_bind_of_ne t g dirty apart]
      exact k.mapped mapped
  · intro h v place
    by_cases e : g = h
    · subst e
      rw [guest_bind_self]
    · rw [guest_bind_of_ne t x dirty e] at place ⊢
      exact k.bound place
  · intro y free
    by_cases e : x = y
    · subst e
      rw [host_bind_self] at free
      cases free
    · rw [host_bind_of_ne t g dirty e] at free ⊢
      exact k.vacant free

theorem markDirty (k : t.Checked) (mapped : t.hostOf? g = some x) (dirty : Bool) :
    (t.markDirty x dirty).Checked := by
  refine ⟨?_, k.bound, ?_⟩
  · intro h y mapped'
    rw [hostOf?_markDirty] at mapped'
    by_cases e : x = y
    · subst e
      rw [host_markDirty_self]
      exact k.mapped mapped'
    · rw [host_markDirty_of_ne t dirty e]
      exact k.mapped mapped'
  · intro y free
    by_cases e : x = y
    · subst e
      obtain ⟨-, -, taken⟩ := k.mapped mapped
      rw [host_markDirty_self, taken] at free
      cases free
    · rw [host_markDirty_of_ne t dirty e] at free ⊢
      exact k.vacant free

theorem change (k : t.Checked) (s : t.Change u) : u.Checked := by
  cases s with
  | unbind n => exact k.unbind n
  | bind dirty unmapped alone => exact k.bind alone dirty
  | markDirty dirty mapped => exact k.markDirty mapped dirty

theorem changes (k : t.Checked) (s : t.Changes u) : u.Checked := by
  induction s with
  | refl => exact k
  | tail _ s ih => exact ih.change s

end Checked

theorem Change.agrees (s : t.Change u) (a : (t.guest h).agrees = true) :
    (u.guest h).agrees = true := by
  cases s with
  | unbind n =>
    rcases n.guest_or_agrees h with same | agrees
    · rwa [same]
    · exact agrees
  | @bind g x dirty =>
    by_cases e : g = h
    · subst e
      rw [guest_bind_self]
      rfl
    · rw [guest_bind_of_ne t x dirty e]
      exact a
  | markDirty => exact a

theorem Changes.agrees (s : t.Changes u) (a : (t.guest h).agrees = true) :
    (u.guest h).agrees = true := by
  induction s with
  | refl => exact a
  | tail _ s ih => exact s.agrees ih

theorem SlotsAgree.changes (a : t.SlotsAgree) (s : t.Changes u) : u.SlotsAgree :=
  fun g => s.agrees (a g)

namespace StraysKept

theorem unbind (k : t.StraysKept) (c : t.Checked) (n : t.Unbinds u g) : u.StraysKept := by
  intro x hx h place home
  have same : u.guest h = t.guest h := by
    refine (n.guest_or_agrees h).resolve_right ?_
    rw [disagrees_of_stray place home]
    exact Bool.false_ne_true
  rw [same] at place home
  by_cases freed : t.hostOf? g = some x
  · -- the owner of `x` is mapped to it, so it is the lock of `x` that kept it
    obtain ⟨-, owner, -⟩ := c.mapped freed
    rw [n.freed x freed]
    rcases k x hx h place home with locked | ⟨i, owner', -, apart⟩
    · exact .inl locked
    · cases owner.symm.trans owner'
      exact absurd freed apart
  · rw [n.host x freed]
    refine (k x hx h place home).imp_right ?_
    rintro ⟨i, owner, locked, apart⟩
    refine ⟨i, owner, ?_⟩
    by_cases e : g = i
    · subst e
      rw [n.locked, n.unmapped]
      exact ⟨locked, (Option.some_ne_none x).symm⟩
    · rw [n.guest i e, hostOf?_of_guest_eq (n.guest i e)]
      exact ⟨locked, apart⟩

theorem bind (k : t.StraysKept) (alone : ∀ h, g ≠ h → (t.guest h).place ≠ .reg x) (dirty : Bool) :
    (t.bind g x dirty).StraysKept := by
  intro y hy h place home
  by_cases e : g = h
  · subst e
    rw [guest_bind_self] at home
    cases home
  rw [guest_bind_of_ne t x dirty e] at place home
  have apart : x ≠ y := fun same => alone h e (same ▸ place)
  rw [host_bind_of_ne t g dirty apart]
  refine (k y hy h place home).imp_right ?_
  rintro ⟨i, owner, locked, unmapped⟩
  refine ⟨i, owner, ?_⟩
  by_cases e' : g = i
  · subst e'
    rw [guest_bind_self, hostOf?_bind_self]
    exact ⟨locked, fun same => apart (Option.some.inj same)⟩
  · rw [guest_bind_of_ne t x dirty e', hostOf?_bind_of_ne t x dirty e']
    exact ⟨locked, unmapped⟩

theorem markDirty (k : t.StraysKept) (x : HostReg) (dirty : Bool) :
    (t.markDirty x dirty).StraysKept := by
  intro y hy h place home
  have kept := k y hy h place home
  by_cases e : x = y
  · subst e
    rwa [host_markDirty_self]
  · rwa [host_markDirty_of_ne t dirty e]

theorem change (k : t.StraysKept) (c : t.Checked) (s : t.Change u) : u.StraysKept := by
  cases s with
  | unbind n => exact k.unbind c n
  | bind dirty unmapped alone => exact k.bind alone dirty
  | markDirty dirty mapped => exact k.markDirty _ dirty

theorem changes (k : t.StraysKept) (c : t.Checked) (s : t.Changes u) : u.StraysKept := by
  induction s with
  | refl => exact k
  | tail before s ih => exact ih.change (c.changes before) s

end StraysKept

namespace DirtyKept

theorem unbind (d : t.DirtyKept) (n : t.Unbinds u g) : u.DirtyKept := by
  intro x hx dirty
  by_cases freed : t.hostOf? g = some x
  · rw [n.freed x freed] at dirty
    cases dirty
  rw [n.host x freed] at dirty ⊢
  refine (d x hx dirty).imp_right ?_
  rintro ⟨h, owner, kept⟩
  refine ⟨h, owner, ?_⟩
  by_cases e : g = h
  · subst e
    -- `g` was not mapped to `x`, so it is its lock that keeps `x`
    rw [n.locked]
    exact .inl (kept.resolve_right freed)
  · rwa [n.guest h e, hostOf?_of_guest_eq (n.guest h e)]

theorem bind (d : t.DirtyKept) (unmapped : t.hostOf? g = none) (dirty : Bool) :
    (t.bind g x dirty).DirtyKept := by
  intro y hy dirty'
  by_cases e : x = y
  · subst e
    rw [host_bind_self]
    exact .inr ⟨g, rfl, .inr (hostOf?_bind_self t g x dirty)⟩
  rw [host_bind_of_ne t g dirty e] at dirty' ⊢
  refine (d y hy dirty').imp_right ?_
  rintro ⟨h, owner, kept⟩
  refine ⟨h, owner, ?_⟩
  by_cases e' : g = h
  · subst e'
    rw [guest_bind_self]
    exact .inl (kept.resolve_right (by rw [unmapped]; nofun))
  · rwa [guest_bind_of_ne t x dirty e', hostOf?_bind_of_ne t x dirty e']

theorem markDirty (d : t.DirtyKept) (k : t.Checked) (mapped : t.hostOf? g = some x)
    (dirty : Bool) : (t.markDirty x dirty).DirtyKept := by
  intro y hy dirty'
  by_cases e : x = y
  · subst e
    rw [host_markDirty_self]
    obtain ⟨-, owner, -⟩ := k.mapped mapped
    exact .inr ⟨g, owner, .inr mapped⟩
  · rw [host_markDirty_of_ne t dirty e] at dirty' ⊢
    exact d y hy dirty'

theorem change (d : t.DirtyKept) (k : t.Checked) (s : t.Change u) : u.DirtyKept := by
  cases s with
  | unbind n => exact d.unbind n
  | bind dirty unmapped alone => exact d.bind unmapped dirty
  | markDirty dirty mapped => exact d.markDirty k mapped dirty

theorem changes (d : t.DirtyKept) (k : t.Checked) (s : t.Changes u) : u.DirtyKept := by
  induction s with
  | refl => exact d
  | tail before s ih => exact ih.change (k.changes before) s

end DirtyKept

/-! ## Internal faults -/

/-- A host register that is handed out: nothing is mapped to it, and the owner that it may be left
with is not locked. -/
structure Offered (t : Tables) (x : HostReg) : Prop where
  allocatable : x ∈ HostReg.allocationOrder
  unlocked : (t.host x).locked = false
  unmapped : ∀ g, t.hostOf? g ≠ some x
  owner : ∀ g, (t.host x).owner = some g → (t.guest g).locked = false

/-- The tables that bring an internal fault about. -/
inductive Contradicts (t : Tables) : Fault → Prop where
  | badImmediate {g : GuestReg} {v : Word} (place : (t.guest g).place = .imm v)
      (away : (t.guest g).away = false) : Contradicts t (.badImmediate g)
  | corruptSlot {g : GuestReg} (disagrees : (t.guest g).agrees = false) :
      Contradicts t (.corruptSlot g)
  | aliasedHost {x : HostReg} {g h : GuestReg} (offered : t.Offered x)
      (place : (t.guest h).place = .reg x) : Contradicts t (.aliasedHost x g h)
  | hostAlreadyDirty {x : HostReg} (offered : t.Offered x) (dirty : (t.host x).dirty = true) :
      Contradicts t (.hostAlreadyDirty x)

theorem Checked.not_badImmediate (k : t.Checked) : ¬ t.Contradicts (.badImmediate g) := by
  rintro (⟨place, away⟩)
  exact nomatch (k.bound place).symm.trans away

theorem SlotsAgree.not_corruptSlot (a : t.SlotsAgree) : ¬ t.Contradicts (.corruptSlot g) := by
  rintro (_ | disagrees)
  exact nomatch (a g).symm.trans disagrees

theorem StraysKept.not_aliasedHost (k : t.StraysKept) : ¬ t.Contradicts (.aliasedHost x g h) := by
  rintro (_ | _ | ⟨offered, place⟩)
  cases away : (t.guest h).away with
  | true => exact offered.unmapped h (hostOf?_eq_some_iff.2 ⟨away, place⟩)
  | false =>
    rcases k x offered.allocatable h place away with locked | ⟨i, owner, locked, -⟩
    · exact nomatch offered.unlocked.symm.trans locked
    · exact nomatch (offered.owner i owner).symm.trans locked

theorem DirtyKept.not_hostAlreadyDirty (d : t.DirtyKept) :
    ¬ t.Contradicts (.hostAlreadyDirty x) := by
  rintro (_ | _ | _ | ⟨offered, dirty⟩)
  rcases d x offered.allocatable dirty with locked | ⟨g, owner, locked | mapped⟩
  · exact nomatch offered.unlocked.symm.trans locked
  · exact nomatch (offered.owner g owner).symm.trans locked
  · exact offered.unmapped g mapped

end Tables

end Dynarec
