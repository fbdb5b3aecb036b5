import Dynarec.Proofs.AllocationPolicy
import Dynarec.Proofs.Residency

/-!
# What mapping a register changes

Mapping a register that is mapped already only adds to the dirty bit of its host register
(`Tables.Remaps`). Otherwise the register moves into a host register, whose owner goes home before
(`Tables.MovesIn`, `Room.movesIn_bind`). No other slot changes, and the code is the one store that
makes room and the one load that was asked for.
-/

namespace Dynarec

open Journal

namespace Tables

/-- From `t` to `u` the dirty bit of `x` is set if `dirty` says so, and nothing else changes. -/
structure Remaps (t u : Tables) (x : HostReg) (dirty : Bool) : Prop where
  guest : ∀ g, u.guest g = t.guest g
  host_self : u.host x = { t.host x with dirty := (t.host x).dirty || dirty }
  host_of_ne : ∀ y, y ≠ x → u.host y = t.host y

/-- From `t` to `u` the register `g` moves into `x`, the owner of `x`, which is not locked, goes
home, and nothing else changes. A constant is newer than its home, so its copy is dirty. -/
structure MovesIn (t u : Tables) (g : GuestReg) (x : HostReg) (dirty : Bool) : Prop where
  binds : u.Binds g (.mapped x)
  free : (u.host x).free = false
  owner : (u.host x).owner = some g
  dirty_iff : (u.host x).dirty = true ↔ dirty = true ∨ ∃ v, t.Binds g (.const v)
  host_of_ne : ∀ y, y ≠ x → u.host y = t.host y
  guest_of_owner : ∀ h, (t.host x).owner = some h →
    (t.guest h).locked = false ∧ u.guest h = .atHome h
  guest_of_ne : ∀ h, h ≠ g → (t.host x).owner ≠ some h → u.guest h = t.guest h

variable {t : Tables} {g : GuestReg} {x : HostReg}

theorem remaps_markDirty (t : Tables) (x : HostReg) (dirty : Bool) :
    t.Remaps (t.markDirty x dirty) x dirty where
  guest _ := rfl
  host_self := host_markDirty_self t x dirty
  host_of_ne _ other := host_markDirty_of_ne t dirty other.symm

/-- A register that is mapped nowhere is found at an immediate just if it is a constant. -/
theorem Coherent.isImm_place_iff (h : t.Coherent) (unmapped : t.hostOf? g = none) :
    (t.guest g).place.isImm = true ↔ ∃ v, t.Binds g (.const v) := by
  obtain ⟨b, hb⟩ := h.binds g
  rw [hb.place]
  cases b with
  | home => exact iff_of_false nofun fun ⟨v, const⟩ => nomatch hb.unique const
  | const v => exact iff_of_true rfl ⟨v, hb⟩
  | mapped x =>
    rw [binds_mapped_iff.1 hb] at unmapped
    cases unmapped

end Tables

/-- What is mapped nowhere moves into the room that was made. -/
theorem Room.movesIn_bind {c c' : Cache} {g : GuestReg} {x : HostReg} {j : List Event}
    (room : Room c x c' j) (h : c.tables.Coherent) (unmapped : c.tables.hostOf? g = none)
    (dirty : Bool) :
    c.tables.MovesIn (c'.tables.bind g x (dirty || (c.tables.guest g).place.isImm)) g x dirty where
  binds := Tables.binds_mapped_iff.2 (Tables.hostOf?_bind_self ..)
  free := by rw [Tables.host_bind_self]
  owner := by rw [Tables.host_bind_self]
  dirty_iff := by rw [Tables.host_bind_self, Bool.or_eq_true, h.isImm_place_iff unmapped]
  host_of_ne y other := by
    rw [Tables.host_bind_of_ne _ _ _ other.symm, room.host_of_ne h other]
  guest_of_owner g' owner := by
    refine ⟨room.owner_unlocked h owner, ?_⟩
    rw [Tables.guest_bind_of_ne, room.guest_of_owner h owner]
    -- the owner is mapped, and `g` is not
    rintro rfl
    rw [((h.fits x).owner_iff g).1 owner] at unmapped
    cases unmapped
  guest_of_ne g' other notOwner := by
    rw [Tables.guest_bind_of_ne _ _ _ other.symm, room.guest_of_not_owner h notOwner]

/-- **Mapping a register, exactly.** Let `mapGuest` go through in a reachable state. If the register
was mapped already, nothing is emitted and its host register gets the dirty bit that was asked for.
Otherwise it moves into a host register; the code is a store of the owner from there, if its value
was newer than its home, and then a load, if one was asked for. No other slot changes, nothing is
locked or unlocked, and the rest of the cache stays as it was. -/
theorem Reachable.mapGuest_effect {c : Cache} {saved : List Snapshot} (run : Reachable c saved)
    {b : Assembler} {g : GuestReg} {load dirty : Bool} {a : Option HostReg}
    (done : (RecompilerM.request (.mapGuest g load dirty) ⟨c, b⟩).result = .ok a) :
    let mapped := (RecompilerM.request (.mapGuest g load dirty) ⟨c, b⟩).state
    ∃ (u : Tables) (is : List (Instr Address)), mapped.cache = { c with tables := u } ∧
      mapped.assembler.buffer.contents = b.buffer.contents ++ Instr.encodeAll is ∧
      (∀ h, (u.guest h).locked = (c.tables.guest h).locked) ∧
      (∀ x, (u.host x).locked = (c.tables.host x).locked) ∧
      (∀ x, c.tables.Binds g (.mapped x) → c.tables.Remaps u x dirty ∧ is = []) ∧
      ((∀ x, ¬ c.tables.Binds g (.mapped x)) → ∃ x, c.tables.MovesIn u g x dirty ∧
        is = c.tables.spillCode x ++ if load then [c.tables.loadCode g x] else []) := by
  have h := run.coherent
  intro mapped
  obtain ⟨c', j, performed, state, appended⟩ := RecompilerM.done_of_request done
  have d : Request.Done c (.mapGuest g load dirty) c' j := by
    have d := Request.done_of_ok h (congrArg Outcome.result performed)
    rwa [performed] at d
  obtain ⟨guests, hosts⟩ := d.locks_of_mapGuest h
  cases d with
  | @remap _ x _ _ mappedTo unlocked =>
    refine ⟨_, _, state, appended, guests, hosts, ?_, ?_⟩
    · intro y binds
      obtain rfl : x = y := by
        rw [Tables.binds_mapped_iff.1 binds] at mappedTo
        exact (Option.some.inj mappedTo).symm
      exact ⟨Tables.remaps_markDirty .., rfl⟩
    · intro none
      exact absurd (Tables.binds_mapped_iff.2 mappedTo) (none x)
  | @map _ x c₁ j₁ _ _ unmapped room =>
    refine ⟨_, _, ?_, appended, guests, hosts, ?_, ?_⟩
    · rw [state, room.cache_eq]
      rfl
    · intro y binds
      rw [Tables.binds_mapped_iff.1 binds] at unmapped
      cases unmapped
    · intro _
      refine ⟨x, room.movesIn_bind h unmapped dirty, ?_⟩
      rw [codeOf_append, room.codeOf_eq h, h.codeOf_loadsOf unmapped]

/-- All host registers are taken. The constant moves into the first, whose owner is stored and goes
home; the register that is mapped already stays and its host register gets dirty. -/
theorem Reachable.mapGuest_effect_of_taken :
    let rs : List Request := [.mapGuest ⟨4⟩ false true, .mapGuest ⟨5⟩ true true,
      .mapGuest ⟨6⟩ false true, .mapGuest ⟨7⟩ true false, .mapGuest ⟨8⟩ true true,
      .mapGuest ⟨9⟩ false true, .mapGuest ⟨10⟩ true false, .setConst ⟨11⟩ 7]
    let c := (Request.performAll rs (.withLookahead 30)).state
    let b := Assembler.onBuffer ⟨.replicate 32 0, 0, .write⟩
    Reachable c [] ∧
      (∃ u, (RecompilerM.request (.mapGuest ⟨11⟩ true false) ⟨c, b⟩).state.cache =
          { c with tables := u } ∧
        (RecompilerM.request (.mapGuest ⟨11⟩ true false) ⟨c, b⟩).state.assembler.buffer.contents =
          b.buffer.contents ++ Instr.encodeAll
            [.store false (GuestReg.address ⟨4⟩) .rbp, .movImm .rbp 7] ∧
        c.tables.MovesIn u ⟨11⟩ .rbp false ∧ u.guest ⟨4⟩ = .atHome ⟨4⟩ ∧
        (u.host .rbp).dirty = true) ∧
      ∃ u, (RecompilerM.request (.mapGuest ⟨10⟩ true true) ⟨c, b⟩).state.cache =
          { c with tables := u } ∧
        (RecompilerM.request (.mapGuest ⟨10⟩ true true) ⟨c, b⟩).state.assembler.buffer.contents =
          b.buffer.contents ∧
        (c.tables.host .r12).dirty = false ∧ (u.host .r12).dirty = true := by
  intro rs c b
  have ok : (Request.performAll rs (.withLookahead 30)).result = .ok () := by decide +kernel
  have run : Reachable c [] := (Reachable.init 30).performAll (by simp [rs]) ok
  have done : (RecompilerM.request (.mapGuest ⟨11⟩ true false) ⟨c, b⟩).result = .ok none := by
    decide +kernel
  have done' : (RecompilerM.request (.mapGuest ⟨10⟩ true true) ⟨c, b⟩).result = .ok none := by
    decide +kernel
  have const : c.tables.Binds ⟨11⟩ (.const 7) := by decide +kernel
  have unmapped : ∀ x, ¬ c.tables.Binds ⟨11⟩ (.mapped x) := by
    intro x mapped
    cases const.unique mapped
  have here : (RecompilerM.request (.mapGuest ⟨11⟩ true false) ⟨c, b⟩).state.cache.tables.Binds
      ⟨11⟩ (.mapped .rbp) := by
    decide +kernel
  have owner : (c.tables.host .rbp).owner = some ⟨4⟩ := by decide +kernel
  have code : c.tables.spillCode .rbp ++ [c.tables.loadCode ⟨11⟩ .rbp] =
      [.store false (GuestReg.address ⟨4⟩) .rbp, .movImm .rbp 7] := by
    decide +kernel
  have ten : c.tables.Binds ⟨10⟩ (.mapped .r12) ∧ (c.tables.host .r12).dirty = false := by
    decide +kernel
  obtain ⟨u, is, state, appended, -, -, -, moves⟩ := run.mapGuest_effect done
  obtain ⟨x, into, rfl⟩ := moves unmapped
  rw [state] at here
  obtain rfl : x = .rbp := by
    cases into.binds.unique here
    rfl
  rw [if_pos rfl, code] at appended
  obtain ⟨v, is, state', appended', -, -, remaps, -⟩ := run.mapGuest_effect done'
  obtain ⟨remap, rfl⟩ := remaps .r12 ten.1
  rw [Instr.encodeAll, List.flatMap_nil, List.append_nil] at appended'
  have dirty : (v.host .r12).dirty = true := by
    rw [remap.host_self, ten.2]
    rfl
  exact ⟨run, ⟨u, state, appended, into, (into.guest_of_owner _ owner).2,
    into.dirty_iff.2 (.inr ⟨7, const⟩)⟩, v, state', appended', ten.2, dirty⟩

end Dynarec
