import Mathlib.Data.List.Basic
import Dynarec.Cache.Allocation
import Dynarec.Proofs.Coherence

/-!
# The operations on coherent tables

Each operation of the cache on coherent tables, as one equation. `Room` is what
`acquire` may do before it hands out a host register: nothing, or one spill.
`mapGuest` maps an unmapped register by `acquire` and `Tables.bind`; on a mapped one it
sets the dirty bit. `evict` and the loop of `flush` are made of `writeBack`, and a flush
that goes through leaves the tables of a fresh block. Locking changes locks alone.
-/

namespace Dynarec

open Journal

/-! ## Choosing a host register -/

namespace Cache

variable {c : Cache} {x : HostReg} {unusedOnly : Bool}

theorem freeHost?_some (h : c.freeHost? = some x) :
    x ∈ HostReg.allocationOrder ∧ (c.tables.host x).locked = false ∧
      (c.tables.host x).free = true := by
  have hp := List.find?_some h
  simp only [Bool.and_eq_true, Bool.not_eq_true'] at hp
  exact ⟨List.mem_of_find?_eq_some h, hp.1, hp.2⟩

theorem freeHost?_none (h : c.freeHost? = none) (hx : x ∈ HostReg.allocationOrder)
    (hl : (c.tables.host x).locked = false) : (c.tables.host x).free = false := by
  have hp := List.find?_eq_none.1 h x hx
  simpa [hl] using hp

theorem victim?_some (h : c.victim? unusedOnly = some x) :
    x ∈ HostReg.allocationOrder ∧ (c.tables.host x).locked = false ∧
      c.keepsOwner unusedOnly x = false := by
  have hp := List.find?_some h
  simp only [Bool.and_eq_true, Bool.not_eq_true'] at hp
  exact ⟨List.mem_of_find?_eq_some h, hp.1, hp.2⟩

/-- The first choice of a victim or, failing that, the second. -/
theorem victim_some (h : (c.victim? true).or (c.victim? false) = some x) :
    ∃ b, c.victim? b = some x := by
  cases ht : c.victim? true with
  | some y =>
    rw [ht, Option.some_or] at h
    exact ⟨true, ht.trans h⟩
  | none =>
    rw [ht, Option.none_or] at h
    exact ⟨false, h⟩

end Cache

/-! ## Making room -/

/-- No host register can be had: each one that may hold guest values is locked, or its owner is. -/
def Cache.Full (c : Cache) : Prop :=
  ∀ x ∈ HostReg.allocationOrder, (c.tables.host x).locked = true ∨
    ∃ g, c.tables.hostOf? g = some x ∧ (c.tables.guest g).locked = true

/-- What happens in `c` before the host register `x` is handed out: the state it leaves and the
events it writes. -/
inductive Room (c : Cache) (x : HostReg) : Cache → List Event → Prop where
  | free (hf : c.freeHost? = some x) : Room c x c []
  | spill (g : GuestReg) (hf : c.freeHost? = none)
      (hv : (c.victim? true).or (c.victim? false) = some x)
      (hx : c.tables.hostOf? g = some x) :
      Room c x (c.mapTables (·.release g)) (.spill g x :: c.tables.storesOf g)

namespace Room

variable {c c' : Cache} {x : HostReg} {j : List Event} {g : GuestReg}

theorem allocatable (r : Room c x c' j) : x ∈ HostReg.allocationOrder := by
  cases r with
  | free hf => exact (Cache.freeHost?_some hf).1
  | spill g hf hv hx =>
    obtain ⟨b, hb⟩ := Cache.victim_some hv
    exact (Cache.victim?_some hb).1

theorem host_unlocked (r : Room c x c' j) : (c.tables.host x).locked = false := by
  cases r with
  | free hf => exact (Cache.freeHost?_some hf).2.1
  | spill g hf hv hx =>
    obtain ⟨b, hb⟩ := Cache.victim_some hv
    exact (Cache.victim?_some hb).2.1

theorem coherent (r : Room c x c' j) (h : c.tables.Coherent) : c'.tables.Coherent := by
  cases r with
  | free _ => exact h
  | spill g _ _ _ => exact h.release g

/-- The register that is handed out is vacant. -/
theorem host_eq (r : Room c x c' j) (h : c.tables.Coherent) : c'.tables.host x = .vacant := by
  have hl := r.host_unlocked
  cases r with
  | free hf => exact h.host_eq_vacant (h.not_mapped_of_free (Cache.freeHost?_some hf).2.2) hl
  | spill g hf hv hx =>
    rw [Cache.tables_mapTables, Tables.host_release_self hx, hl]
    rfl

theorem guest_of_unmapped (r : Room c x c' j) (hg : c.tables.hostOf? g = none) :
    c'.tables.guest g = c.tables.guest g := by
  cases r with
  | free _ => rfl
  | spill h _ _ hx =>
    apply Tables.guest_release_of_ne
    rintro rfl
    rw [hg] at hx
    cases hx

theorem unmapped (r : Room c x c' j) (hg : c.tables.hostOf? g = none) :
    c'.tables.hostOf? g = none :=
  (Tables.hostOf?_of_guest_eq (r.guest_of_unmapped hg)).trans hg

/-- Making room maps nothing. -/
theorem mapped_before (r : Room c x c' j) (h : c.tables.Coherent) {y : HostReg}
    (mapped : c'.tables.hostOf? g = some y) : c.tables.hostOf? g = some y := by
  cases r with
  | free _ => exact mapped
  | spill g' _ _ _ =>
    by_cases e : g' = g
    · subst e
      rw [Cache.tables_mapTables, Tables.hostOf?_of_home (h.binds_release_self g')] at mapped
      cases mapped
    · rwa [Cache.tables_mapTables, (h.changesOnly_release g').hostOf? e] at mapped

end Room

namespace CacheM

variable {c c' : Cache} {g : GuestReg} {x : HostReg} {j : List Event}

theorem full_of_none (h : c.tables.Coherent) (hf : c.freeHost? = none)
    (hv : c.victim? false = none) : c.Full := by
  intro x hx
  cases hl : (c.tables.host x).locked with
  | true => exact .inl rfl
  | false =>
    obtain ⟨g, ho⟩ := h.owner_of_not_free (Cache.freeHost?_none hf hx hl)
    have kept := List.find?_eq_none.1 hv x hx
    simp only [hl, Cache.keepsOwner, ho, Bool.not_false, Bool.true_and, Bool.false_and,
      Bool.or_false, Bool.not_eq_true', Bool.not_eq_false] at kept
    exact .inr ⟨g, ((h.fits x).owner_iff g).1 ho, kept⟩

/-- A host register is handed out, or there is none and nothing has changed. -/
theorem acquire_cases (h : c.tables.Coherent) :
    (∃ x c' j, acquire c = ⟨.ok x, c', j⟩ ∧ Room c x c' j) ∨
      acquire c = ⟨.error .outOfRegisters, c, []⟩ ∧ c.Full := by
  cases hf : c.freeHost? with
  | some x => exact .inl ⟨x, c, [], acquire_of_free hf, .free hf⟩
  | none =>
    cases hv : (c.victim? true).or (c.victim? false) with
    | none =>
      exact .inr ⟨acquire_of_none hf hv, full_of_none h hf (Option.or_eq_none_iff.1 hv).2⟩
    | some x =>
      obtain ⟨b, hb⟩ := Cache.victim_some hv
      obtain ⟨hx, hl, -⟩ := Cache.victim?_some hb
      -- no register is free, so the victim has an owner
      obtain ⟨g, ho⟩ := h.owner_of_not_free (Cache.freeHost?_none hf hx hl)
      have hg := ((h.fits x).owner_iff g).1 ho
      refine .inl ⟨x, _, _, ?_, .spill g hf hv hg⟩
      rw [acquire_of_victim hf hv, spill_run, ho]

end CacheM

/-! ## Mapping -/

/-- The load that gives the host register `x` the value of `g`, if one is asked for. -/
def Tables.loadsOf (t : Tables) (g : GuestReg) (x : HostReg) (load : Bool) : List Event :=
  if load then [.load g x (if g.isZero then .imm 0 else (t.guest g).place)] else []

/-- Nothing is mapped to a free register, so no other register is found there. -/
theorem Tables.Coherent.intruder?_of_free {t : Tables} {x : HostReg} (h : t.Coherent)
    (hx : (t.host x).free = true) (s : HostSlot) (g : GuestReg) :
    (t.setHost x s).intruder? x g = none := by
  apply List.find?_eq_none.2
  intro y _ hy
  simp only [Tables.guest_setHost, Bool.and_eq_true, beq_iff_eq] at hy
  exact h.not_mapped_of_free hx y (h.mapped_of_place hy.2)

namespace CacheM

variable {c c' : Cache} {g : GuestReg} {x : HostReg} {j : List Event}

theorem claim_of_vacant (hx : c.tables.host x = .vacant) (g : GuestReg) (dirty : Bool) :
    claim x g dirty c = ⟨.ok (), c.mapTables (·.setHost x ⟨false, dirty, some g, false⟩), []⟩ := by
  simp [claim, hx, HostSlot.vacant]

theorem occupy_of_room (h : c.tables.Coherent) (hg : c.tables.hostOf? g = none)
    (ha : acquire c = ⟨.ok x, c', j⟩) (r : Room c x c' j) (load dirty : Bool) :
    occupy g (c.tables.guest g).place load dirty c =
      ⟨.ok (), c'.mapTables (·.bind g x (dirty || (c.tables.guest g).place.isImm)),
        j ++ c.tables.loadsOf g x load⟩ := by
  have vacant := r.host_eq h
  have alone (s : HostSlot) : (c'.tables.setHost x s).intruder? x g = none :=
    (r.coherent h).intruder?_of_free (by rw [vacant]; rfl) s g
  cases load <;>
    simp [occupy, ha, claim_of_vacant vacant, alone, Tables.loadsOf, Cache.mapTables, Tables.bind,
      r.guest_of_unmapped hg]

theorem occupy_of_full (ha : acquire c = ⟨.error .outOfRegisters, c, []⟩) (src : Operand)
    (load dirty : Bool) : occupy g src load dirty c = ⟨.error .outOfRegisters, c, []⟩ := by
  simp [occupy, ha]

/-- What `mapGuest` looks at last. -/
def checkBound (g : GuestReg) : CacheM Unit := do
  let x ← hostOf g
  if ((← read).tables.host x).locked then stop (.boundToLockedHost x)

theorem checkBound_run (hx : c.tables.hostOf? g = some x) :
    checkBound g c =
      ⟨if (c.tables.host x).locked then .error (.boundToLockedHost x) else .ok (), c, []⟩ := by
  simp only [checkBound, bind_run, hostOf_of_mapped hx, read_run, Outcome.andThen_ok,
    Outcome.after_nil]
  split <;> rfl

theorem mapGuest_of_mapped (hx : c.tables.hostOf? g = some x) (load dirty : Bool) :
    mapGuest g load dirty c =
      ⟨if (c.tables.host x).locked then .error (.boundToLockedHost x) else .ok (),
        c.mapTables (·.markDirty x dirty), []⟩ := by
  obtain ⟨ha, hp⟩ := Tables.hostOf?_eq_some_iff.1 hx
  have check := checkBound_run (c := c.mapTables (·.markDirty x dirty)) hx
  rw [Cache.tables_mapTables, Tables.host_markDirty_self] at check
  rw [← check]
  simp only [mapGuest, bind_run, read_run, Outcome.andThen_ok, Outcome.after_nil, ha, hp,
    changeTables_run]
  rfl

/-- A slot that agrees and is not mapped is given a host register. -/
theorem mapGuest_of_agreeing (agrees : (c.tables.guest g).agrees = true)
    (unmapped : c.tables.hostOf? g = none) (load dirty : Bool) :
    mapGuest g load dirty c =
      (occupy g (c.tables.guest g).place load dirty c).andThen fun _ => checkBound g := by
  unfold GuestSlot.agrees at agrees
  cases place : (c.tables.guest g).place with
  | imm v =>
    simp only [place] at agrees
    simp only [mapGuest, bind_run, read_run, Outcome.andThen_ok, Outcome.after_nil, agrees, place]
    rfl
  | reg x =>
    simp only [place] at agrees
    rw [Tables.hostOf?_eq_some_iff.2 ⟨agrees, place⟩] at unmapped
    cases unmapped
  | mem a =>
    simp only [place, Bool.not_eq_true'] at agrees
    simp only [mapGuest, bind_run, read_run, Outcome.andThen_ok, Outcome.after_nil, agrees, place]
    rfl

theorem mapGuest_of_unmapped (h : c.tables.Coherent) (hg : c.tables.hostOf? g = none)
    (load dirty : Bool) :
    mapGuest g load dirty c =
      (occupy g (c.tables.guest g).place load dirty c).andThen fun _ => checkBound g := by
  obtain ⟨b, hb⟩ := h.binds g
  exact mapGuest_of_agreeing hb.agrees hg load dirty

theorem mapGuest_of_room (h : c.tables.Coherent) (hg : c.tables.hostOf? g = none)
    (ha : acquire c = ⟨.ok x, c', j⟩) (r : Room c x c' j) (load dirty : Bool) :
    mapGuest g load dirty c =
      ⟨.ok (), c'.mapTables (·.bind g x (dirty || (c.tables.guest g).place.isImm)),
        j ++ c.tables.loadsOf g x load⟩ := by
  rw [mapGuest_of_unmapped h hg, occupy_of_room h hg ha r, Outcome.andThen_ok,
    checkBound_run (Tables.hostOf?_bind_self ..), Cache.tables_mapTables, Tables.host_bind_self]
  simp

theorem mapGuest_of_full (h : c.tables.Coherent) (hg : c.tables.hostOf? g = none)
    (ha : acquire c = ⟨.error .outOfRegisters, c, []⟩) (load dirty : Bool) :
    mapGuest g load dirty c = ⟨.error .outOfRegisters, c, []⟩ := by
  rw [mapGuest_of_unmapped h hg, occupy_of_full ha]
  rfl

theorem materialize_of_const {v : Word} (hb : c.tables.Binds g (.const v)) (load dirty : Bool) :
    materialize g load dirty c = mapGuest g load dirty c := by
  simp only [materialize, bind_run, read_run, Outcome.andThen_ok, Outcome.after_nil, hb.away,
    hb.place, Binding.away, Binding.place]

theorem materialize_of_mapped (hx : c.tables.hostOf? g = some x) (load dirty : Bool) :
    materialize g load dirty c = ⟨.ok (), c.mapTables (·.markDirty x dirty), []⟩ := by
  obtain ⟨ha, hp⟩ := Tables.hostOf?_eq_some_iff.1 hx
  simp only [materialize, bind_run, read_run, Outcome.andThen_ok, Outcome.after_nil, ha, hp,
    changeTables_run]

theorem materialize_of_home (hb : c.tables.Binds g .home) (load dirty : Bool) :
    materialize g load dirty c = ⟨.ok (), c, []⟩ := by
  simp only [materialize, bind_run, read_run, Outcome.andThen_ok, Outcome.after_nil, hb.away,
    Binding.away, pure_run]

end CacheM

/-! ## Writing back -/

namespace Tables

variable {t u : Tables} {g h : GuestReg} {x : HostReg}

theorem storesOf_zero (t : Tables) : t.storesOf .zero = [] := by
  simp [storesOf, GuestReg.isZero_iff.2 rfl]

theorem storesOf_of_home (hb : t.Binds g .home) : t.storesOf g = [] := by
  have ha : (t.guest g).away = false := hb.away
  simp [storesOf, pending, ha]

theorem storesOf_of_const {v : Word} (hb : t.Binds g (.const v)) (hz : g ≠ .zero) :
    t.storesOf g = [.store g (.imm v)] := by
  have ha : (t.guest g).away = true := hb.away
  have hp : (t.guest g).place = .imm v := hb.place
  simp [storesOf, pending, ha, hp, mt GuestReg.isZero_iff.1 hz]

theorem storesOf_of_mapped (hx : t.hostOf? g = some x) (hz : g ≠ .zero) :
    t.storesOf g = if (t.host x).dirty then [.store g (.reg x)] else [] := by
  obtain ⟨ha, hp⟩ := hostOf?_eq_some_iff.1 hx
  simp [storesOf, pending, ha, hp, mt GuestReg.isZero_iff.1 hz]

theorem ChangesOnly.pending (k : t.ChangesOnly u g) (hne : g ≠ h) :
    u.pending h = t.pending h := by
  unfold Tables.pending
  rw [k.guest h hne]
  cases ha : (t.guest h).away with
  | false => rfl
  | true =>
    cases e : (t.guest h).place with
    | imm v => rfl
    | mem a => rfl
    | reg x =>
      have hx : t.hostOf? h = some x := hostOf?_eq_some_iff.2 ⟨ha, e⟩
      simp only [k.host h x hne hx]

/-- What is stored for a register does not depend on the others. -/
theorem ChangesOnly.storesOf (k : t.ChangesOnly u g) (hne : g ≠ h) :
    u.storesOf h = t.storesOf h := by
  unfold Tables.storesOf
  rw [k.pending hne, k.guest h hne]

theorem ChangesOnly.flatMap_storesOf {gs : List GuestReg} (k : t.ChangesOnly u g) (hg : g ∉ gs) :
    gs.flatMap u.storesOf = gs.flatMap t.storesOf := by
  apply List.flatMap_congr
  intro h hh
  apply k.storesOf
  rintro rfl
  exact hg hh

end Tables

namespace CacheM

variable {c c' : Cache} {g : GuestReg} {x : HostReg} {j : List Event}

theorem evict_of_owner (h : c.tables.Coherent) (hx : (c.tables.host x).owner = some g) :
    evict x c = writeBack g c := by
  have hf := h.not_free_of_mapped (((h.fits x).owner_iff g).1 hx)
  simp only [evict, bind_run, read_run, Outcome.andThen_ok, Outcome.after_nil, hf, hx]

theorem evict_of_vacant (hx : (c.tables.host x).owner = none) : evict x c = ⟨.ok (), c, []⟩ := by
  simp only [evict, bind_run, read_run, Outcome.andThen_ok, Outcome.after_nil, hx]
  cases (c.tables.host x).free <;> rfl

end CacheM

/-! ## Flushing -/

/-- The listed registers sent home one after the other. -/
def Tables.releaseAll (t : Tables) (gs : List GuestReg) : Tables := gs.foldl Tables.release t

namespace CacheM

variable {c : Cache}

/-- Why a flush is refused: the first locked host register or, if there is none, the first locked
guest register. -/
inductive LeftLocked (c : Cache) : Fault → Prop where
  | host {x : HostReg} (first : HostReg.all.find? (fun x => (c.tables.host x).locked) = some x) :
      LeftLocked c (.hostLeftLocked x)
  | guest {g : GuestReg} (hosts : HostReg.all.find? (fun x => (c.tables.host x).locked) = none)
      (first : GuestReg.all.find? (fun g => (c.tables.guest g).locked) = some g) :
      LeftLocked c (.guestLeftLocked g)

theorem checkUnlocked_cases (c : Cache) :
    (checkUnlocked c = ⟨.ok (), c, []⟩ ∧ (∀ x, (c.tables.host x).locked = false) ∧
      ∀ g, (c.tables.guest g).locked = false) ∨
    ∃ f, checkUnlocked c = ⟨.error f, c, []⟩ ∧ LeftLocked c f := by
  cases hx : HostReg.all.find? fun x => (c.tables.host x).locked with
  | some x => exact .inr ⟨.hostLeftLocked x, by simp [checkUnlocked, hx], .host hx⟩
  | none =>
    cases hg : GuestReg.all.find? fun g => (c.tables.guest g).locked with
    | some g => exact .inr ⟨.guestLeftLocked g, by simp [checkUnlocked, hx, hg], .guest hx hg⟩
    | none =>
      refine .inl ⟨by simp [checkUnlocked, hx, hg], ?_, ?_⟩
      · intro x
        simpa using List.find?_eq_none.1 hx x (HostReg.mem_all x)
      · intro g
        simpa using List.find?_eq_none.1 hg g (GuestReg.mem_all g)

theorem flushGuest_run (h : c.tables.Coherent) (g : GuestReg) :
    flushGuest g c = writeBack g c := by
  obtain ⟨b, hb⟩ := h.binds g
  have ha := hb.away
  have hp := hb.place
  cases b <;> simp only [Binding.away, Binding.place] at ha hp <;>
    simp only [flushGuest, bind_run, read_run, Outcome.andThen_ok, Outcome.after_nil, ha, hp]
  case home =>
    rw [writeBack_run, Tables.storesOf_of_home hb]
    simp only [pure_run, Cache.mapTables, Tables.release_of_home hb]

/-- The loop of a flush: every listed register is sent home and the stores follow in the order of
the list. -/
theorem forM_flushGuest_run (gs : List GuestReg) (nodup : gs.Nodup) (h : c.tables.Coherent) :
    gs.forM flushGuest c =
      ⟨.ok (), c.mapTables (·.releaseAll gs), gs.flatMap c.tables.storesOf⟩ := by
  induction gs generalizing c with
  | nil => rfl
  | cons g gs ih =>
    obtain ⟨hg, nodup⟩ := List.nodup_cons.1 nodup
    have rest := (h.changesOnly_release g).flatMap_storesOf hg
    show (flushGuest g c).andThen (fun _ => gs.forM flushGuest) = _
    rw [flushGuest_run h, writeBack_run, Outcome.andThen_ok, ih nodup (h.release g),
      Cache.tables_mapTables, rest]
    rfl

end CacheM

namespace Tables

variable {t : Tables} {g : GuestReg}

theorem Coherent.releaseAll (c : t.Coherent) (gs : List GuestReg) :
    (t.releaseAll gs).Coherent := by
  induction gs generalizing t with
  | nil => exact c
  | cons g gs ih => exact ih (c.release g)

theorem guest_releaseAll_of_not_mem (gs : List GuestReg) (hg : g ∉ gs) :
    (t.releaseAll gs).guest g = t.guest g := by
  induction gs generalizing t with
  | nil => rfl
  | cons h gs ih =>
    rw [List.mem_cons, not_or] at hg
    rw [releaseAll, List.foldl_cons, ← releaseAll, ih hg.2, guest_release_of_ne t (Ne.symm hg.1)]

theorem binds_home_release (c : t.Coherent) (hb : t.Binds g .home) (h : GuestReg) :
    (t.release h).Binds g .home := by
  by_cases e : h = g
  · exact e ▸ c.binds_release_self h
  · exact hb.of_guest_eq (guest_release_of_ne t e)

theorem Coherent.binds_releaseAll (c : t.Coherent) (gs : List GuestReg)
    (hg : g ∈ gs ∨ t.Binds g .home) : (t.releaseAll gs).Binds g .home := by
  induction gs generalizing t with
  | nil => exact hg.resolve_left (List.not_mem_nil)
  | cons h gs ih =>
    refine ih (c.release h) ?_
    rcases hg with hm | hb
    · rcases List.mem_cons.1 hm with rfl | hm
      · exact .inr (c.binds_release_self g)
      · exact .inl hm
    · exact .inr (binds_home_release c hb h)

theorem locked_guest_release (t : Tables) (g h : GuestReg) :
    ((t.release g).guest h).locked = (t.guest h).locked := by
  by_cases e : g = h
  · subst e
    rw [guest_release_self]
    split <;> rfl
  · rw [guest_release_of_ne t e]

theorem locked_host_discard (t : Tables) (g : GuestReg) (x : HostReg) :
    ((t.discard g).host x).locked = (t.host x).locked := by
  by_cases hx : t.hostOf? g = some x
  · rw [host_discard_self hx]
  · rw [host_discard_of_ne t hx]

theorem Coherent.locked_host_release (c : t.Coherent) (g : GuestReg) (x : HostReg) :
    ((t.release g).host x).locked = (t.host x).locked := by
  by_cases hx : t.hostOf? g = some x
  · rw [host_release_self hx]
  · rw [c.host_release_of_ne hx]

theorem locked_releaseAll (c : t.Coherent) (gs : List GuestReg) :
    (∀ g, ((t.releaseAll gs).guest g).locked = (t.guest g).locked) ∧
      ∀ x, ((t.releaseAll gs).host x).locked = (t.host x).locked := by
  induction gs generalizing t with
  | nil => exact ⟨fun _ => rfl, fun _ => rfl⟩
  | cons h gs ih =>
    obtain ⟨hg, hx⟩ := ih (c.release h)
    exact ⟨fun g => (hg g).trans (locked_guest_release t h g),
      fun x => (hx x).trans (c.locked_host_release h x)⟩

/-- Sending every register but the hardwired zero home leaves the tables of a fresh block. -/
theorem Coherent.flushed (c : t.Coherent) (hg : ∀ g, (t.guest g).locked = false)
    (hx : ∀ x, (t.host x).locked = false) :
    (t.setConst .zero 0).releaseAll GuestReg.all.tail = fresh := by
  have c' := c.setConst .zero 0
  have done := c'.releaseAll GuestReg.all.tail
  obtain ⟨lg, lx⟩ := locked_releaseAll c' GuestReg.all.tail
  have zero : ((t.setConst .zero 0).releaseAll GuestReg.all.tail).guest .zero =
      (t.setConst .zero 0).guest .zero :=
    guest_releaseAll_of_not_mem _ (by decide)
  have home (g : GuestReg) (hz : g ≠ .zero) :
      ((t.setConst .zero 0).releaseAll GuestReg.all.tail).Binds g .home := by
    have all : ∀ g : GuestReg, g = .zero ∨ g ∈ GuestReg.all.tail := by decide
    exact c'.binds_releaseAll _ (.inl ((all g).resolve_left hz))
  have unmapped (g : GuestReg) (x : HostReg) :
      ((t.setConst .zero 0).releaseAll GuestReg.all.tail).hostOf? g ≠ some x := by
    by_cases hz : g = .zero
    · rw [hz, hostOf?_of_guest_eq zero, hostOf?_setConst_self]
      nofun
    · rw [hostOf?_of_home (home g hz)]
      nofun
  apply ext_slots
  · intro g
    by_cases hz : g = .zero
    · rw [hz, zero, guest_setConst_self, hg, guest_fresh_zero]
      rfl
    · have away := (home g hz).away
      have place := (home g hz).place
      have locked := lg g
      rw [guest_setConst_of_ne t 0 (Ne.symm hz), hg] at locked
      rw [guest_fresh_of_ne hz]
      exact GuestSlot.eq_of_fields place away locked
  · intro x
    rw [host_fresh]
    apply done.host_eq_vacant (fun g => unmapped g x)
    rw [lx, host_setConst, locked_host_discard, hx]

/-- Binding the hardwired zero to its constant changes no store of the others. -/
theorem Coherent.storesOf_tail (c : t.Coherent) :
    GuestReg.all.tail.flatMap (t.setConst .zero 0).storesOf =
      GuestReg.all.tail.flatMap t.storesOf :=
  (c.changesOnly_setConst .zero 0).flatMap_storesOf (by decide)

end Tables

namespace CacheM

variable {c : Cache}

/-- **A flush that goes through** stores what is newer than its home, in table order, and leaves
the tables of a fresh block. -/
theorem flush_of_unlocked (h : c.tables.Coherent) (hx : ∀ x, (c.tables.host x).locked = false)
    (hg : ∀ g, (c.tables.guest g).locked = false)
    (check : checkUnlocked c = ⟨.ok (), c, []⟩) :
    flush c = ⟨.ok (), c.mapTables fun _ => .fresh,
      .flush c.pc :: GuestReg.all.tail.flatMap c.tables.storesOf⟩ := by
  simp only [flush, bind_run, check, read_run, write_run, changeTables_run, Outcome.andThen_ok,
    Outcome.after_nil]
  rw [forM_flushGuest_run _ (by decide) (h.setConst .zero 0), Cache.tables_mapTables,
    h.storesOf_tail, Outcome.after_mk]
  simp only [Cache.mapTables, h.flushed hg hx, List.singleton_append]

theorem flush_cases (h : c.tables.Coherent) :
    (flush c = ⟨.ok (), c.mapTables fun _ => .fresh,
        .flush c.pc :: GuestReg.all.tail.flatMap c.tables.storesOf⟩ ∧
      (∀ x, (c.tables.host x).locked = false) ∧ ∀ g, (c.tables.guest g).locked = false) ∨
    ∃ f, flush c = ⟨.error f, c, []⟩ ∧ LeftLocked c f := by
  rcases checkUnlocked_cases c with ⟨check, hx, hg⟩ | ⟨f, check, left⟩
  · exact .inl ⟨flush_of_unlocked h hx hg check, hx, hg⟩
  · exact .inr ⟨f, by simp [flush, check], left⟩

/-! ## Locks -/

theorem checkLockCount_cases (n : Nat) (c : Cache) :
    checkLockCount n c = ⟨.ok (), c, []⟩ ∨
      Cache.maxLocks < n ∧ checkLockCount n c = ⟨.error (.tooManyLocks n), c, []⟩ := by
  unfold checkLockCount
  split
  · next many => exact .inr ⟨many, rfl⟩
  · exact .inl rfl

theorem lockHost_of_unlocked {x : HostReg} (hl : (c.tables.host x).locked = false) :
    lockHost x c = ⟨.ok (), c.mapTables (·.lockHost x), []⟩ := by
  simp [lockHost, hl]

theorem lockHost_of_locked {x : HostReg} (hl : (c.tables.host x).locked = true) :
    lockHost x c = ⟨.error (.hostAlreadyLocked x), c, []⟩ := by
  simp [lockHost, hl]

/-- The listed host registers are locked one after the other, up to one that is locked already. -/
theorem forM_lockHost_cases (xs : List HostReg) (c : Cache) :
    xs.forM lockHost c = ⟨.ok (), c.mapTables (xs.foldl Tables.lockHost ·), []⟩ ∨
    ∃ x ∈ xs, ∃ u, xs.forM lockHost c =
        ⟨.error (.hostAlreadyLocked x), c.mapTables fun _ => u, []⟩ ∧
      Tables.SameButLocks c.tables u := by
  induction xs generalizing c with
  | nil => exact .inl rfl
  | cons x xs ih =>
    show (lockHost x c).andThen (fun _ => xs.forM lockHost) = _ ∨
      ∃ y ∈ x :: xs, ∃ u, (lockHost x c).andThen (fun _ => xs.forM lockHost) = _ ∧ _
    cases hl : (c.tables.host x).locked with
    | true =>
      rw [lockHost_of_locked hl]
      exact .inr ⟨x, List.mem_cons_self, c.tables, rfl, .refl _⟩
    | false =>
      rw [lockHost_of_unlocked hl, Outcome.andThen_ok, Outcome.after_nil]
      rcases ih (c.mapTables (·.lockHost x)) with run | ⟨y, hy, u, run, same⟩
      · exact .inl run
      · exact .inr ⟨y, List.mem_cons_of_mem x hy, u, run,
          (Tables.sameButLocks_lockHost _ x).trans same⟩

theorem lockHosts_cases (xs : List HostReg) (c : Cache) :
    lockHosts xs c = ⟨.ok (), c.mapTables (xs.foldl Tables.lockHost ·), []⟩ ∨
    (∃ x ∈ xs, ∃ u, lockHosts xs c =
        ⟨.error (.hostAlreadyLocked x), c.mapTables fun _ => u, []⟩ ∧
      Tables.SameButLocks c.tables u) ∨
    Cache.maxLocks < xs.length ∧ lockHosts xs c = ⟨.error (.tooManyLocks xs.length), c, []⟩ := by
  rcases checkLockCount_cases xs.length c with run | ⟨many, run⟩
  · have locks : lockHosts xs c = xs.forM lockHost c := by
      simp only [lockHosts, bind_run, run, Outcome.andThen_ok, Outcome.after_nil]
    rw [locks]
    exact (forM_lockHost_cases xs c).imp id .inl
  · exact .inr (.inr ⟨many, by simp only [lockHosts, bind_run, run, Outcome.andThen_error]⟩)

theorem lockGuests_cases (gs : List GuestReg) (c : Cache) :
    lockGuests gs c = ⟨.ok (), c.mapTables (gs.foldl Tables.lockGuest ·), []⟩ ∨
    Cache.maxLocks < gs.length ∧ lockGuests gs c = ⟨.error (.tooManyLocks gs.length), c, []⟩ := by
  rcases checkLockCount_cases gs.length c with run | ⟨many, run⟩
  · exact .inl (by simp only [lockGuests, bind_run, run, Outcome.andThen_ok]; rfl)
  · exact .inr ⟨many, by simp only [lockGuests, bind_run, run, Outcome.andThen_error]⟩

/-- Whatever comes of locking host registers, at most locks have changed. -/
theorem lockHosts_run (xs : List HostReg) (c : Cache) :
    ∃ r u, lockHosts xs c = ⟨r, c.mapTables fun _ => u, []⟩ ∧
      Tables.SameButLocks c.tables u := by
  rcases lockHosts_cases xs c with run | ⟨x, -, u, run, same⟩ | ⟨-, run⟩
  · exact ⟨_, _, run, Tables.sameButLocks_lockHosts c.tables xs⟩
  · exact ⟨_, u, run, same⟩
  · exact ⟨_, c.tables, run, .refl _⟩

theorem lockGuests_run (gs : List GuestReg) (c : Cache) :
    ∃ r u, lockGuests gs c = ⟨r, c.mapTables fun _ => u, []⟩ ∧
      Tables.SameButLocks c.tables u := by
  rcases lockGuests_cases gs c with run | ⟨-, run⟩
  · exact ⟨_, _, run, Tables.sameButLocks_lockGuests c.tables gs⟩
  · exact ⟨_, c.tables, run, .refl _⟩

end CacheM

/-! ## Requests -/

namespace Request

theorem silent_run (m : CacheM Unit) (c : Cache) :
    silent m c = (m c).andThen fun _ => pure none := rfl

@[simp] theorem state_silent (m : CacheM Unit) (c : Cache) :
    (silent m c).state = (m c).state := by
  rw [silent_run]
  cases h : m c with
  | mk r s j => cases r <;> rfl

@[simp] theorem journal_silent (m : CacheM Unit) (c : Cache) :
    (silent m c).journal = (m c).journal := by
  rw [silent_run]
  cases h : m c with
  | mk r s j => cases r <;> simp

theorem state_perform_acquire (c : Cache) :
    (acquire.perform c).state = (CacheM.acquire c).state := by
  rw [perform, map_run]
  cases h : CacheM.acquire c with
  | mk r s j => cases r <;> rfl

theorem journal_perform_acquire (c : Cache) :
    (acquire.perform c).journal = (CacheM.acquire c).journal := by
  rw [perform, map_run]
  cases h : CacheM.acquire c with
  | mk r s j => cases r <;> simp

end Request

end Dynarec
