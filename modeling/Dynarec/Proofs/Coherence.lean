import Mathlib.Logic.ExistsUnique
import Dynarec.Cache.Tables

/-!
# Coherent tables

A guest register is bound at home, to a constant or to a host register: `Binding` lists
the three and `Tables.Binds` reads them off a slot. `Tables.Coherent` says that every
guest slot is one of them, that the owners of the host registers are the inverse of the
mapping, that exactly the registers without an owner are free, that these are clean, and
that only registers of the allocation order have an owner. It is stronger than what
`Tables.inconsistency?` looks at.

The operations on the tables are made of four changes: a mapped register is unbound, an
unmapped one bound to something else, an unmapped one bound to a free host register
(`Tables.bind`), and locks and dirty bits are set. Each keeps `Coherent`.
-/

namespace Dynarec

/-- Where the value of a guest register is kept. -/
inductive Binding where
  | home
  | const (v : Word)
  | mapped (x : HostReg)
  deriving DecidableEq

namespace Binding

def away : Binding → Bool
  | home => false
  | _ => true

def place (g : GuestReg) : Binding → Operand
  | home => g.home
  | const v => .imm v
  | mapped x => .reg x

theorem place_inj {g : GuestReg} {a b : Binding} (e : a.place g = b.place g) : a = b := by
  cases a <;> cases b <;> simp [place, GuestReg.home] at e ⊢ <;> exact e

end Binding

theorem GuestSlot.eq_of_fields {s s' : GuestSlot} (place : s.place = s'.place)
    (away : s.away = s'.away) (locked : s.locked = s'.locked) : s = s' := by
  cases s
  cases s'
  exact (GuestSlot.mk.injEq ..).mpr ⟨place, away, locked⟩

/-- The value is away exactly if its place is not in memory. -/
def GuestSlot.agrees (s : GuestSlot) : Bool :=
  match s.place with
  | .mem _ => !s.away
  | .imm _ | .reg _ => s.away

namespace Tables

variable {t u : Tables} {g h : GuestReg} {x y : HostReg}

/-! ## Bindings -/

/-- The slot of `g` has the form that `b` asks for. -/
structure Binds (t : Tables) (g : GuestReg) (b : Binding) : Prop where
  away : (t.guest g).away = b.away
  place : (t.guest g).place = b.place g

instance {b : Binding} : Decidable (t.Binds g b) :=
  decidable_of_iff ((t.guest g).away = b.away ∧ (t.guest g).place = b.place g)
    ⟨fun ⟨away, place⟩ => ⟨away, place⟩, fun h => ⟨h.away, h.place⟩⟩

theorem Binds.unique {a b : Binding} (ha : t.Binds g a) (hb : t.Binds g b) : a = b :=
  Binding.place_inj (ha.place.symm.trans hb.place)

theorem Binds.agrees {b : Binding} (hb : t.Binds g b) : (t.guest g).agrees = true := by
  rw [GuestSlot.agrees, hb.away, hb.place]
  cases b <;> rfl

theorem Binds.congr {b : Binding} (hb : t.Binds g b) (ha : (u.guest g).away = (t.guest g).away)
    (hp : (u.guest g).place = (t.guest g).place) : u.Binds g b :=
  ⟨ha.trans hb.away, hp.trans hb.place⟩

theorem Binds.of_guest_eq {b : Binding} (hb : t.Binds g b) (e : u.guest g = t.guest g) :
    u.Binds g b :=
  hb.congr (by rw [e]) (by rw [e])

theorem binds_mapped_iff : t.Binds g (.mapped x) ↔ t.hostOf? g = some x :=
  ⟨fun h => hostOf?_eq_some_iff.2 ⟨h.away, h.place⟩,
    fun h => ⟨(hostOf?_eq_some_iff.1 h).1, (hostOf?_eq_some_iff.1 h).2⟩⟩

theorem hostOf?_congr (ha : (u.guest g).away = (t.guest g).away)
    (hp : (u.guest g).place = (t.guest g).place) : u.hostOf? g = t.hostOf? g := by
  simp only [hostOf?, ha, hp]

theorem hostOf?_of_guest_eq (e : u.guest g = t.guest g) : u.hostOf? g = t.hostOf? g := by
  simp only [hostOf?, e]

theorem hostOf?_eq_none_of_binds {b : Binding} (hb : t.Binds g b) (hm : ∀ x, b ≠ .mapped x) :
    t.hostOf? g = none := by
  cases e : t.hostOf? g with
  | none => rfl
  | some x => exact absurd (hb.unique (binds_mapped_iff.2 e)) (hm x)

theorem hostOf?_of_home (hb : t.Binds g .home) : t.hostOf? g = none :=
  hostOf?_eq_none_of_binds hb nofun

theorem hostOf?_of_const {v : Word} (hb : t.Binds g (.const v)) : t.hostOf? g = none :=
  hostOf?_eq_none_of_binds hb nofun

/-! ## The invariant -/

/-- The slot of `x` fits the bindings of the guest registers. -/
structure FitsHost (t : Tables) (x : HostReg) : Prop where
  owner_iff : ∀ g, (t.host x).owner = some g ↔ t.hostOf? g = some x
  free_iff : (t.host x).free = true ↔ (t.host x).owner = none
  clean : (t.host x).free = true → (t.host x).dirty = false

/-- The two tables describe one partial bijection between guest and host registers. -/
structure Coherent (t : Tables) : Prop where
  binds : ∀ g, ∃ b, t.Binds g b
  fits : ∀ x, t.FitsHost x
  allocatable : ∀ {g x}, t.hostOf? g = some x → x ∈ HostReg.allocationOrder

/-- A slot without an owner fits if nothing is mapped to it. -/
theorem FitsHost.of_vacant {locked : Bool}
    (hx : t.host x = { HostSlot.vacant with locked := locked })
    (hm : ∀ g, t.hostOf? g ≠ some x) : t.FitsHost x := by
  refine ⟨?_, ?_, ?_⟩
  · intro g
    rw [hx]
    exact ⟨nofun, fun e => absurd e (hm g)⟩
  · rw [hx]
    exact ⟨fun _ => rfl, fun _ => rfl⟩
  · intro _
    rw [hx]
    rfl

/-- A slot that did not change fits if the mappings to it did not change. -/
theorem FitsHost.congr (f : t.FitsHost x) (hx : u.host x = t.host x)
    (hm : ∀ g, u.hostOf? g = some x ↔ t.hostOf? g = some x) : u.FitsHost x := by
  refine ⟨?_, ?_, ?_⟩
  · intro g
    rw [hx]
    exact (f.owner_iff g).trans (hm g).symm
  · rw [hx]
    exact f.free_iff
  · rw [hx]
    exact f.clean

namespace Coherent

theorem existsUnique_binds (c : t.Coherent) (g : GuestReg) : ∃! b, t.Binds g b := by
  obtain ⟨b, hb⟩ := c.binds g
  exact ⟨b, hb, fun _ ha => ha.unique hb⟩

theorem owner_of_mapped (c : t.Coherent) (hx : t.hostOf? g = some x) :
    (t.host x).owner = some g :=
  ((c.fits x).owner_iff g).2 hx

/-- No two guest registers are mapped to one host register. -/
theorem mapped_inj (c : t.Coherent) (hg : t.hostOf? g = some x) (hh : t.hostOf? h = some x) :
    g = h :=
  Option.some.inj ((c.owner_of_mapped hg).symm.trans (c.owner_of_mapped hh))

theorem not_free_of_mapped (c : t.Coherent) (hx : t.hostOf? g = some x) :
    (t.host x).free = false := by
  cases hf : (t.host x).free with
  | false => rfl
  | true => exact nomatch (c.owner_of_mapped hx).symm.trans ((c.fits x).free_iff.1 hf)

theorem not_mapped_of_free (c : t.Coherent) (hx : (t.host x).free = true) (g : GuestReg) :
    t.hostOf? g ≠ some x := fun e => by
  rw [c.not_free_of_mapped e] at hx
  exact Bool.false_ne_true hx

theorem owner_of_not_free (c : t.Coherent) (hx : (t.host x).free = false) :
    ∃ g, (t.host x).owner = some g := by
  cases ho : (t.host x).owner with
  | none => exact absurd ((c.fits x).free_iff.2 ho) (by simp [hx])
  | some g => exact ⟨g, rfl⟩

/-- A register whose place is a host register is mapped to it. -/
theorem mapped_of_place (c : t.Coherent) (hp : (t.guest g).place = .reg x) :
    t.hostOf? g = some x := by
  obtain ⟨b, hb⟩ := c.binds g
  cases b with
  | home => exact nomatch hb.place.symm.trans hp
  | const v => exact nomatch hb.place.symm.trans hp
  | mapped y => exact hostOf?_eq_some_iff.2 ⟨hb.away, hp⟩

/-- A host register without an owner is vacant up to its lock. -/
theorem host_eq_of_no_owner (c : t.Coherent) (owner : (t.host x).owner = none) :
    t.host x = { HostSlot.vacant with locked := (t.host x).locked } := by
  have free := (c.fits x).free_iff.2 owner
  have clean := (c.fits x).clean free
  cases e : t.host x with
  | mk f d o l =>
    rw [e] at owner free clean
    exact (HostSlot.mk.injEq ..).mpr ⟨free, clean, owner, rfl⟩

theorem host_eq_vacant (c : t.Coherent) (hm : ∀ g, t.hostOf? g ≠ some x)
    (hl : (t.host x).locked = false) : t.host x = .vacant := by
  have owner : (t.host x).owner = none := by
    cases ho : (t.host x).owner with
    | none => rfl
    | some g => exact absurd (((c.fits x).owner_iff g).1 ho) (hm g)
  rw [c.host_eq_of_no_owner owner, hl]
  rfl

end Coherent

/-! ## Changes at one register -/

/-- `u` differs from `t` in the slot of `g` and in host registers that no other guest register is
mapped to. -/
structure ChangesOnly (t u : Tables) (g : GuestReg) : Prop where
  guest : ∀ h, g ≠ h → u.guest h = t.guest h
  host : ∀ h x, g ≠ h → t.hostOf? h = some x → u.host x = t.host x

theorem ChangesOnly.refl (t : Tables) (g : GuestReg) : ChangesOnly t t g :=
  ⟨fun _ _ => rfl, fun _ _ _ _ => rfl⟩

theorem ChangesOnly.hostOf? (k : ChangesOnly t u g) (hne : g ≠ h) : u.hostOf? h = t.hostOf? h :=
  hostOf?_of_guest_eq (k.guest h hne)

/-! ## Unbinding a mapped register -/

theorem discard_of_unmapped (hg : t.hostOf? g = none) : t.discard g = t := by
  simp only [discard, hg]

theorem guest_discard_self (hx : t.hostOf? g = some x) :
    (t.discard g).guest g = { GuestSlot.atHome g with locked := (t.guest g).locked } := by
  simp only [discard, hx, guest_setGuest_self]

theorem host_discard_self (hx : t.hostOf? g = some x) :
    (t.discard g).host x = { HostSlot.vacant with locked := (t.host x).locked } := by
  simp only [discard, hx, host_setGuest, host_setHost_self]

theorem hostOf?_discard_of_ne (hne : g ≠ h) : (t.discard g).hostOf? h = t.hostOf? h :=
  hostOf?_of_guest_eq (guest_discard_of_ne t hne)

@[simp] theorem hostOf?_discard_self (t : Tables) (g : GuestReg) :
    (t.discard g).hostOf? g = none := by
  cases hx : t.hostOf? g with
  | none => rw [discard_of_unmapped hx, hx]
  | some x =>
    unfold hostOf?
    rw [guest_discard_self hx]
    rfl

theorem Coherent.changesOnly_discard (c : t.Coherent) (g : GuestReg) :
    t.ChangesOnly (t.discard g) g := by
  refine ⟨?_, ?_⟩
  · intro h hne
    exact guest_discard_of_ne t hne
  · intro h x hne hx
    apply host_discard_of_ne t
    intro hg
    exact hne (c.mapped_inj hg hx)

theorem Coherent.discard (c : t.Coherent) (g : GuestReg) : (t.discard g).Coherent := by
  cases hx : t.hostOf? g with
  | none => rwa [discard_of_unmapped hx]
  | some x =>
    -- `g` was the only register mapped to `x`, so the other bindings do not mention `x`
    have mapped_iff {h y} : (t.discard g).hostOf? h = some y ↔ t.hostOf? h = some y ∧ y ≠ x := by
      by_cases e : g = h
      · subst e
        rw [hostOf?_discard_self, hx]
        exact ⟨nofun, fun ⟨hy, hne⟩ => absurd (Option.some.inj hy).symm hne⟩
      · rw [hostOf?_discard_of_ne e]
        exact ⟨fun hy => ⟨hy, fun hyx => e (c.mapped_inj hx (hyx ▸ hy))⟩, And.left⟩
    refine ⟨?_, ?_, ?_⟩
    · intro h
      by_cases e : g = h
      · subst e
        exact ⟨.home, by rw [guest_discard_self hx]; rfl, by rw [guest_discard_self hx]; rfl⟩
      · obtain ⟨b, hb⟩ := c.binds h
        exact ⟨b, hb.of_guest_eq (guest_discard_of_ne t e)⟩
    · intro y
      by_cases e : y = x
      · subst e
        apply FitsHost.of_vacant (host_discard_self hx)
        intro h hm
        exact (mapped_iff.1 hm).2 rfl
      · have same : (t.discard g).host y = t.host y :=
          host_discard_of_ne t fun hy => e (Option.some.inj (hy.symm.trans hx))
        apply (c.fits y).congr same
        intro h
        exact ⟨fun hm => (mapped_iff.1 hm).1, fun hm => mapped_iff.2 ⟨hm, e⟩⟩
    · intro h y hy
      exact c.allocatable (mapped_iff.1 hy).1

/-! ## Binding an unmapped register -/

/-- The slot of an unmapped register may take any other unmapped form. -/
theorem Coherent.setGuest_unmapped (c : t.Coherent) (hg : t.hostOf? g = none) {s : GuestSlot}
    {b : Binding} (hb : (t.setGuest g s).Binds g b) (hm : ∀ x, b ≠ .mapped x) :
    (t.setGuest g s).Coherent := by
  have mapped_eq (h : GuestReg) : (t.setGuest g s).hostOf? h = t.hostOf? h := by
    by_cases e : g = h
    · subst e
      rw [hg, hostOf?_eq_none_of_binds hb hm]
    · exact hostOf?_of_guest_eq (guest_setGuest_of_ne t s e)
  refine ⟨?_, ?_, ?_⟩
  · intro h
    by_cases e : g = h
    · subst e
      exact ⟨b, hb⟩
    · obtain ⟨b', hb'⟩ := c.binds h
      exact ⟨b', hb'.of_guest_eq (guest_setGuest_of_ne t s e)⟩
  · intro y
    apply (c.fits y).congr (host_setGuest t g s y)
    intro h
    rw [mapped_eq]
  · intro h y hy
    rw [mapped_eq] at hy
    exact c.allocatable hy

theorem binds_setConst (t : Tables) (g : GuestReg) (v : Word) :
    (t.setConst g v).Binds g (.const (if g.isZero then 0 else v)) :=
  ⟨by rw [guest_setConst_self]; rfl, by rw [guest_setConst_self]; rfl⟩

theorem Coherent.setConst (c : t.Coherent) (g : GuestReg) (v : Word) :
    (t.setConst g v).Coherent :=
  (c.discard g).setGuest_unmapped (hostOf?_discard_self t g) (binds_setConst t g v) nofun

theorem Coherent.changesOnly_setConst (c : t.Coherent) (g : GuestReg) (v : Word) :
    t.ChangesOnly (t.setConst g v) g := by
  refine ⟨?_, ?_⟩
  · intro h hne
    exact guest_setConst_of_ne t v hne
  · intro h x hne hx
    rw [host_setConst]
    exact (c.changesOnly_discard g).host h x hne hx

theorem hostOf?_setConst_self (t : Tables) (g : GuestReg) (v : Word) :
    (t.setConst g v).hostOf? g = none :=
  hostOf?_of_const (binds_setConst t g v)

/-! ## Sending home -/

theorem release_of_mapped (hx : t.hostOf? g = some x) : t.release g = t.discard g := by
  obtain ⟨ha, hp⟩ := hostOf?_eq_some_iff.1 hx
  simp only [release, discard, ha, hp, hx, if_true]
  rfl

theorem release_of_home (hb : t.Binds g .home) : t.release g = t := by
  have ha : (t.guest g).away = false := hb.away
  simp only [release, ha, Bool.false_eq_true, if_false]

theorem release_of_const {v : Word} (hb : t.Binds g (.const v)) :
    t.release g = t.setGuest g { GuestSlot.atHome g with locked := (t.guest g).locked } := by
  have ha : (t.guest g).away = true := hb.away
  have hp : (t.guest g).place = .imm v := hb.place
  simp only [release, ha, hp, if_true]

theorem Coherent.binds_release_self (c : t.Coherent) (g : GuestReg) :
    (t.release g).Binds g .home := by
  obtain ⟨b, hb⟩ := c.binds g
  cases b with
  | home => rwa [release_of_home hb]
  | const v => exact ⟨by rw [release_of_const hb, guest_setGuest_self]; rfl,
      by rw [release_of_const hb, guest_setGuest_self]; rfl⟩
  | mapped x =>
    have hx := binds_mapped_iff.1 hb
    rw [release_of_mapped hx]
    exact ⟨by rw [guest_discard_self hx]; rfl, by rw [guest_discard_self hx]; rfl⟩

theorem Coherent.release (c : t.Coherent) (g : GuestReg) : (t.release g).Coherent := by
  obtain ⟨b, hb⟩ := c.binds g
  cases b with
  | home => rwa [release_of_home hb]
  | const v =>
    have hh := c.binds_release_self g
    rw [release_of_const hb] at hh ⊢
    exact c.setGuest_unmapped (hostOf?_of_const hb) hh nofun
  | mapped x =>
    rw [release_of_mapped (binds_mapped_iff.1 hb)]
    exact c.discard g

theorem host_release_self (hx : t.hostOf? g = some x) :
    (t.release g).host x = { HostSlot.vacant with locked := (t.host x).locked } := by
  rw [release_of_mapped hx, host_discard_self hx]

/-- Sending `g` home leaves every host register alone but the one it was mapped to. -/
theorem Coherent.host_release_of_ne (c : t.Coherent) (hx : t.hostOf? g ≠ some x) :
    (t.release g).host x = t.host x := by
  obtain ⟨b, hb⟩ := c.binds g
  cases b with
  | home => rw [release_of_home hb]
  | const v => rw [release_of_const hb, host_setGuest]
  | mapped y => rw [release_of_mapped (binds_mapped_iff.1 hb), host_discard_of_ne t hx]

theorem Coherent.changesOnly_release (c : t.Coherent) (g : GuestReg) :
    t.ChangesOnly (t.release g) g := by
  refine ⟨?_, ?_⟩
  · intro h hne
    exact guest_release_of_ne t hne
  · intro h x hne hx
    apply c.host_release_of_ne
    intro hg
    exact hne (c.mapped_inj hg hx)

/-! ## Mapping -/

/-- Binds the free host register `x` to `g`, which is not mapped. -/
def bind (t : Tables) (g : GuestReg) (x : HostReg) (dirty : Bool) : Tables :=
  (t.setHost x ⟨false, dirty, some g, false⟩).setGuest g
    { t.guest g with place := .reg x, away := true }

theorem guest_bind_self (t : Tables) (g : GuestReg) (x : HostReg) (dirty : Bool) :
    (t.bind g x dirty).guest g = ⟨.reg x, true, (t.guest g).locked⟩ := by
  simp [bind]

theorem guest_bind_of_ne (t : Tables) (x : HostReg) (dirty : Bool) (hne : g ≠ h) :
    (t.bind g x dirty).guest h = t.guest h := by
  unfold bind
  rw [guest_setGuest_of_ne _ _ hne, guest_setHost]

theorem host_bind_self (t : Tables) (g : GuestReg) (x : HostReg) (dirty : Bool) :
    (t.bind g x dirty).host x = ⟨false, dirty, some g, false⟩ := by
  unfold bind
  rw [host_setGuest, host_setHost_self]

theorem host_bind_of_ne (t : Tables) (g : GuestReg) (dirty : Bool) (hne : x ≠ y) :
    (t.bind g x dirty).host y = t.host y := by
  unfold bind
  rw [host_setGuest, host_setHost_of_ne _ _ hne]

theorem hostOf?_bind_self (t : Tables) (g : GuestReg) (x : HostReg) (dirty : Bool) :
    (t.bind g x dirty).hostOf? g = some x := by
  rw [hostOf?_eq_some_iff, guest_bind_self]
  exact ⟨rfl, rfl⟩

theorem hostOf?_bind_of_ne (t : Tables) (x : HostReg) (dirty : Bool) (hne : g ≠ h) :
    (t.bind g x dirty).hostOf? h = t.hostOf? h :=
  hostOf?_of_guest_eq (guest_bind_of_ne t x dirty hne)

theorem Coherent.changesOnly_bind (c : t.Coherent) (g : GuestReg) (hx : (t.host x).free = true)
    (dirty : Bool) : t.ChangesOnly (t.bind g x dirty) g := by
  refine ⟨?_, ?_⟩
  · intro h hne
    exact guest_bind_of_ne t x dirty hne
  · intro h y hne hy
    apply host_bind_of_ne
    rintro rfl
    exact c.not_mapped_of_free hx h hy

theorem fitsHost_bind_self (c : t.Coherent) (hx : (t.host x).free = true) (dirty : Bool) :
    (t.bind g x dirty).FitsHost x := by
  refine ⟨?_, ?_, ?_⟩
  · intro h
    rw [host_bind_self]
    by_cases e : g = h
    · subst e
      exact ⟨fun _ => hostOf?_bind_self t g x dirty, fun _ => rfl⟩
    · rw [hostOf?_bind_of_ne t x dirty e]
      exact ⟨fun ho => absurd (Option.some.inj ho) e,
        fun hm => absurd hm (c.not_mapped_of_free hx h)⟩
  · rw [host_bind_self]
    exact ⟨nofun, nofun⟩
  · rw [host_bind_self]
    exact nofun

theorem Coherent.bind (c : t.Coherent) (hg : t.hostOf? g = none) (hx : (t.host x).free = true)
    (ha : x ∈ HostReg.allocationOrder) (dirty : Bool) : (t.bind g x dirty).Coherent := by
  refine ⟨?_, ?_, ?_⟩
  · intro h
    by_cases e : g = h
    · subst e
      exact ⟨.mapped x, binds_mapped_iff.2 (hostOf?_bind_self t g x dirty)⟩
    · obtain ⟨b, hb⟩ := c.binds h
      exact ⟨b, hb.of_guest_eq (guest_bind_of_ne t x dirty e)⟩
  · intro y
    by_cases e : x = y
    · subst e
      exact fitsHost_bind_self c hx dirty
    · apply (c.fits y).congr (host_bind_of_ne t g dirty e)
      intro h
      by_cases e' : g = h
      · subst e'
        rw [hostOf?_bind_self, hg]
        exact ⟨fun hm => absurd (Option.some.inj hm) e, nofun⟩
      · rw [hostOf?_bind_of_ne t x dirty e']
  · intro h y hy
    by_cases e : g = h
    · subst e
      rw [hostOf?_bind_self] at hy
      exact Option.some.inj hy ▸ ha
    · rw [hostOf?_bind_of_ne t x dirty e] at hy
      exact c.allocatable hy

theorem host_markDirty_self (t : Tables) (x : HostReg) (dirty : Bool) :
    (t.markDirty x dirty).host x = { t.host x with dirty := (t.host x).dirty || dirty } := by
  unfold markDirty
  rw [host_setHost_self]

theorem host_markDirty_of_ne (t : Tables) (dirty : Bool) (hne : x ≠ y) :
    (t.markDirty x dirty).host y = t.host y := by
  unfold markDirty
  rw [host_setHost_of_ne _ _ hne]

@[simp] theorem hostOf?_markDirty (t : Tables) (x : HostReg) (dirty : Bool) (g : GuestReg) :
    (t.markDirty x dirty).hostOf? g = t.hostOf? g := rfl

theorem Coherent.markDirty (c : t.Coherent) (hx : (t.host x).free = false) (dirty : Bool) :
    (t.markDirty x dirty).Coherent := by
  refine ⟨?_, ?_, c.allocatable⟩
  · intro g
    obtain ⟨b, hb⟩ := c.binds g
    exact ⟨b, hb.of_guest_eq rfl⟩
  · intro y
    by_cases e : x = y
    · subst e
      refine ⟨?_, ?_, ?_⟩
      · intro g
        rw [host_markDirty_self]
        exact (c.fits x).owner_iff g
      · rw [host_markDirty_self]
        exact (c.fits x).free_iff
      · rw [host_markDirty_self]
        exact fun hf => nomatch hx.symm.trans hf
    · apply (c.fits y).congr (host_markDirty_of_ne t dirty e)
      intro g
      rw [hostOf?_markDirty]

/-! ## Locks -/

/-- `u` differs from `t` in its locks at most. -/
structure SameButLocks (t u : Tables) : Prop where
  guest : ∀ g, (u.guest g).unlocked = (t.guest g).unlocked
  host : ∀ x, (u.host x).unlocked = (t.host x).unlocked

namespace SameButLocks

theorem refl (t : Tables) : SameButLocks t t := ⟨fun _ => rfl, fun _ => rfl⟩

theorem trans {v : Tables} (a : SameButLocks t u) (b : SameButLocks u v) : SameButLocks t v :=
  ⟨fun g => (b.guest g).trans (a.guest g), fun x => (b.host x).trans (a.host x)⟩

theorem away (s : SameButLocks t u) (g : GuestReg) : (u.guest g).away = (t.guest g).away :=
  (congrArg GuestSlot.away (s.guest g) :)

theorem place (s : SameButLocks t u) (g : GuestReg) : (u.guest g).place = (t.guest g).place :=
  (congrArg GuestSlot.place (s.guest g) :)

theorem hostOf? (s : SameButLocks t u) (g : GuestReg) : u.hostOf? g = t.hostOf? g :=
  hostOf?_congr (s.away g) (s.place g)

theorem dirty (s : SameButLocks t u) (x : HostReg) : (u.host x).dirty = (t.host x).dirty :=
  (congrArg HostSlot.dirty (s.host x) :)

theorem free (s : SameButLocks t u) (x : HostReg) : (u.host x).free = (t.host x).free :=
  (congrArg HostSlot.free (s.host x) :)

theorem owner (s : SameButLocks t u) (x : HostReg) : (u.host x).owner = (t.host x).owner :=
  (congrArg HostSlot.owner (s.host x) :)

theorem coherent (s : SameButLocks t u) (c : t.Coherent) : u.Coherent := by
  refine ⟨?_, ?_, ?_⟩
  · intro g
    obtain ⟨b, hb⟩ := c.binds g
    exact ⟨b, hb.congr (s.away g) (s.place g)⟩
  · intro x
    refine ⟨?_, ?_, ?_⟩
    · intro g
      rw [s.owner, s.hostOf?]
      exact (c.fits x).owner_iff g
    · rw [s.free, s.owner]
      exact (c.fits x).free_iff
    · rw [s.free, s.dirty]
      exact (c.fits x).clean
  · intro g x hx
    rw [s.hostOf?] at hx
    exact c.allocatable hx

end SameButLocks

theorem sameButLocks_lockGuest (t : Tables) (g : GuestReg) : SameButLocks t (t.lockGuest g) := by
  refine ⟨?_, fun _ => rfl⟩
  intro h
  unfold lockGuest
  rw [guest_setGuest]
  split
  · next e => subst e; rfl
  · rfl

theorem sameButLocks_lockGuests (t : Tables) (gs : List GuestReg) :
    SameButLocks t (gs.foldl lockGuest t) := by
  induction gs generalizing t with
  | nil => exact .refl t
  | cons g gs ih => exact (sameButLocks_lockGuest t g).trans (ih _)

theorem sameButLocks_lockHost (t : Tables) (x : HostReg) : SameButLocks t (t.lockHost x) := by
  refine ⟨fun _ => rfl, ?_⟩
  intro y
  unfold lockHost
  rw [host_setHost]
  split
  · next e => subst e; rfl
  · rfl

theorem sameButLocks_lockHosts (t : Tables) (xs : List HostReg) :
    SameButLocks t (xs.foldl lockHost t) := by
  induction xs generalizing t with
  | nil => exact .refl t
  | cons x xs ih => exact (sameButLocks_lockHost t x).trans (ih _)

/-- A guest register stays locked, and those listed become so. -/
theorem locked_lockGuests (t : Tables) (gs : List GuestReg) (g : GuestReg) :
    ((gs.foldl lockGuest t).guest g).locked = ((t.guest g).locked || decide (g ∈ gs)) := by
  induction gs generalizing t with
  | nil => simp
  | cons h gs ih =>
    rw [List.foldl_cons, ih, lockGuest, guest_setGuest]
    by_cases e : h = g
    · subst e
      simp
    · simp [e, Ne.symm e]

theorem locked_lockHosts (t : Tables) (xs : List HostReg) (x : HostReg) :
    ((xs.foldl lockHost t).host x).locked = ((t.host x).locked || decide (x ∈ xs)) := by
  induction xs generalizing t with
  | nil => simp
  | cons y xs ih =>
    rw [List.foldl_cons, ih, lockHost, host_setHost]
    by_cases e : y = x
    · subst e
      simp
    · simp [e, Ne.symm e]

theorem host_lockGuests (t : Tables) (gs : List GuestReg) (x : HostReg) :
    (gs.foldl lockGuest t).host x = t.host x := by
  induction gs generalizing t with
  | nil => rfl
  | cons g gs ih => exact ih (t.lockGuest g)

theorem guest_lockHosts (t : Tables) (xs : List HostReg) (g : GuestReg) :
    (xs.foldl lockHost t).guest g = t.guest g := by
  induction xs generalizing t with
  | nil => rfl
  | cons x xs ih => exact ih (t.lockHost x)

theorem host_unlockHosts (t : Tables) (x : HostReg) :
    t.unlockHosts.host x = (t.host x).unlocked := by
  simp [unlockHosts, host]

theorem sameButLocks_unlockHosts (t : Tables) : SameButLocks t t.unlockHosts :=
  ⟨fun _ => rfl, fun x => by rw [host_unlockHosts]; rfl⟩

theorem sameButLocks_map_unlocked (t : Tables) :
    SameButLocks t { t with guests := t.guests.map GuestSlot.unlocked } :=
  ⟨fun g => by simp [guest, GuestSlot.unlocked], fun _ => rfl⟩

theorem Coherent.unlockGuests (c : t.Coherent) : t.unlockGuests.Coherent :=
  ((sameButLocks_map_unlocked t).coherent c).setConst .zero 0

/-! ## The start of a block -/

theorem guest_blank (g : GuestReg) : blank.guest g = .atHome g := by
  simp [blank, guest, GuestReg.number]

theorem host_blank (x : HostReg) : blank.host x = .vacant := by
  simp [blank, host]

theorem hostOf?_blank (g : GuestReg) : blank.hostOf? g = none := by
  unfold hostOf?
  rw [guest_blank]
  rfl

theorem coherent_blank : blank.Coherent := by
  refine ⟨?_, ?_, ?_⟩
  · intro g
    exact ⟨.home, by rw [guest_blank]; rfl, by rw [guest_blank]; rfl⟩
  · intro x
    apply FitsHost.of_vacant (host_blank x)
    intro g
    rw [hostOf?_blank]
    nofun
  · intro g x hx
    rw [hostOf?_blank] at hx
    cases hx

theorem coherent_fresh : fresh.Coherent := coherent_blank.setConst .zero 0

theorem guest_fresh_zero : fresh.guest .zero = ⟨.imm 0, true, false⟩ := by
  unfold fresh
  rw [guest_setConst_self, guest_blank]
  rfl

theorem guest_fresh_of_ne (hz : g ≠ .zero) : fresh.guest g = .atHome g := by
  unfold fresh
  rw [guest_setConst_of_ne _ _ (Ne.symm hz), guest_blank]

theorem host_fresh (x : HostReg) : fresh.host x = .vacant := by
  unfold fresh
  rw [host_setConst, discard_of_unmapped (hostOf?_blank .zero), host_blank]

/-! ## What the check finds -/

/-- A locked host register that `g` is mapped to is all that can be found at `g`. -/
theorem Coherent.guestInconsistency?_eq (c : t.Coherent) (g : GuestReg) :
    t.guestInconsistency? g =
      (t.hostOf? g).bind fun x => if (t.host x).locked then some (.lockedHost g x) else none := by
  obtain ⟨b, hb⟩ := c.binds g
  cases b with
  | home =>
    have ha : (t.guest g).away = false := hb.away
    have hp : (t.guest g).place = g.home := hb.place
    simp [guestInconsistency?, hostOf?, ha, hp, GuestReg.home]
  | const v =>
    have ha : (t.guest g).away = true := hb.away
    have hp : (t.guest g).place = .imm v := hb.place
    simp [guestInconsistency?, hostOf?, ha, hp]
  | mapped x =>
    have hx := binds_mapped_iff.1 hb
    have ha : (t.guest g).away = true := hb.away
    have hp : (t.guest g).place = .reg x := hb.place
    simp [guestInconsistency?, ha, hp, hx, c.owner_of_mapped hx, c.not_free_of_mapped hx]

theorem Coherent.hostInconsistency?_eq (c : t.Coherent) (x : HostReg) :
    t.hostInconsistency? x = none := by
  apply if_neg
  rintro ⟨hf, h⟩
  rw [(c.fits x).free_iff.1 hf, (c.fits x).clean hf] at h
  simp at h

theorem Coherent.inconsistency?_eq (c : t.Coherent) :
    t.inconsistency? = GuestReg.all.findSome? t.guestInconsistency? := by
  have hosts : HostReg.all.findSome? t.hostInconsistency? = none :=
    List.findSome?_eq_none_iff.2 fun x _ => c.hostInconsistency?_eq x
  unfold inconsistency?
  rw [hosts, Option.or_none]

theorem Coherent.guestInconsistency?_eq_some (c : t.Coherent) {i : Inconsistency} :
    t.guestInconsistency? g = some i ↔
      ∃ x, i = .lockedHost g x ∧ t.hostOf? g = some x ∧ (t.host x).locked = true := by
  rw [c.guestInconsistency?_eq]
  refine ⟨?_, ?_⟩
  · intro h
    obtain ⟨x, hx, e⟩ := Option.bind_eq_some_iff.1 h
    split at e
    · next hl => exact ⟨x, (Option.some.inj e).symm, hx, hl⟩
    · exact nomatch e
  · rintro ⟨x, rfl, hx, hl⟩
    simp [hx, hl]

theorem Coherent.lockedHost_of_inconsistency? (c : t.Coherent) {i : Inconsistency}
    (hi : t.inconsistency? = some i) :
    ∃ g x, i = .lockedHost g x ∧ t.Binds g (.mapped x) ∧ (t.host x).locked = true := by
  rw [c.inconsistency?_eq] at hi
  obtain ⟨g, -, hg⟩ := List.exists_of_findSome?_eq_some hi
  obtain ⟨x, e, hx, hl⟩ := c.guestInconsistency?_eq_some.1 hg
  exact ⟨g, x, e, binds_mapped_iff.2 hx, hl⟩

theorem Coherent.inconsistency?_isSome_iff (c : t.Coherent) :
    t.inconsistency?.isSome = true ↔
      ∃ g x, t.Binds g (.mapped x) ∧ (t.host x).locked = true := by
  refine ⟨?_, ?_⟩
  · intro h
    obtain ⟨i, hi⟩ := Option.isSome_iff_exists.1 h
    obtain ⟨g, x, -, hb, hl⟩ := c.lockedHost_of_inconsistency? hi
    exact ⟨g, x, hb, hl⟩
  · rintro ⟨g, x, hb, hl⟩
    have found := c.guestInconsistency?_eq_some.2 ⟨x, rfl, binds_mapped_iff.1 hb, hl⟩
    rw [c.inconsistency?_eq, List.findSome?_isSome_iff]
    exact ⟨g, g.mem_all, by rw [found]; rfl⟩

end Tables

end Dynarec
