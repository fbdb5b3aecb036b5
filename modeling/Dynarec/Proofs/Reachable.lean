import Dynarec.Proofs.Operations

/-!
# The states a cache reaches

`Reachable` is every state that a cache comes to from a new one by requests that
succeed, and by going back to snapshots of its own. `Request.coherent_perform` says that
no request, whether it succeeds or not, leaves the coherent tables, so every reachable
cache has them (`Reachable.coherent`). What that means is read off slot by slot and for
the check of the tables.
-/

namespace Dynarec

open Journal

/-! ## Every request keeps the tables coherent -/

namespace CacheM

variable {c : Cache}

theorem coherent_writeBack (h : c.tables.Coherent) (g : GuestReg) :
    (writeBack g c).state.tables.Coherent := by
  rw [writeBack_run]
  exact h.release g

theorem coherent_evict (h : c.tables.Coherent) (x : HostReg) :
    (evict x c).state.tables.Coherent := by
  cases ho : (c.tables.host x).owner with
  | none => rwa [evict_of_vacant ho]
  | some g =>
    rw [evict_of_owner h ho]
    exact coherent_writeBack h g

theorem coherent_acquire (h : c.tables.Coherent) : (acquire c).state.tables.Coherent := by
  rcases acquire_cases h with ⟨x, c', j, ha, r⟩ | ⟨ha, -⟩
  · rw [ha]
    exact r.coherent h
  · rwa [ha]

theorem coherent_mapGuest (h : c.tables.Coherent) (g : GuestReg) (load dirty : Bool) :
    (mapGuest g load dirty c).state.tables.Coherent := by
  cases hg : c.tables.hostOf? g with
  | some x =>
    rw [mapGuest_of_mapped hg]
    exact h.markDirty (h.not_free_of_mapped hg) dirty
  | none =>
    rcases acquire_cases h with ⟨x, c', j, ha, r⟩ | ⟨ha, -⟩
    · rw [mapGuest_of_room h hg ha r]
      exact (r.coherent h).bind (r.unmapped hg) (by rw [r.host_eq h]; rfl) r.allocatable _
    · rwa [mapGuest_of_full h hg ha]

theorem coherent_materialize (h : c.tables.Coherent) (g : GuestReg) (load dirty : Bool) :
    (materialize g load dirty c).state.tables.Coherent := by
  obtain ⟨b, hb⟩ := h.binds g
  cases b with
  | home => rwa [materialize_of_home hb]
  | const v =>
    rw [materialize_of_const hb]
    exact coherent_mapGuest h g load dirty
  | mapped x =>
    have hx := Tables.binds_mapped_iff.1 hb
    rw [materialize_of_mapped hx]
    exact h.markDirty (h.not_free_of_mapped hx) dirty

theorem coherent_flush (h : c.tables.Coherent) : (flush c).state.tables.Coherent := by
  rcases flush_cases h with ⟨run, -, -⟩ | ⟨f, run, -⟩
  · rw [run]
    exact Tables.coherent_fresh
  · rwa [run]

theorem coherent_lockGuests (h : c.tables.Coherent) (gs : List GuestReg) :
    (lockGuests gs c).state.tables.Coherent := by
  obtain ⟨r, u, run, same⟩ := lockGuests_run gs c
  rw [run]
  exact same.coherent h

theorem coherent_lockHosts (h : c.tables.Coherent) (xs : List HostReg) :
    (lockHosts xs c).state.tables.Coherent := by
  obtain ⟨r, u, run, same⟩ := lockHosts_run xs c
  rw [run]
  exact same.coherent h

end CacheM

namespace Request

variable {c : Cache}

/-- **One step.** A request leaves coherent tables coherent, also when it stops with a fault. -/
theorem coherent_perform (r : Request) (h : c.tables.Coherent)
    (saved : ∀ t, r = .restore t → t.Coherent) : (r.perform c).state.tables.Coherent := by
  cases r with
  | acquire =>
    rw [state_perform_acquire]
    exact CacheM.coherent_acquire h
  | start oracle pc => exact Tables.coherent_fresh
  | setPc pc => exact h
  | setConst g v => exact h.setConst g v
  | discard g => exact h.discard g
  | materialize g load dirty =>
    rw [perform, state_silent]
    exact CacheM.coherent_materialize h g load dirty
  | lockGuests gs =>
    rw [perform, state_silent]
    exact CacheM.coherent_lockGuests h gs
  | lockHosts xs =>
    rw [perform, state_silent]
    exact CacheM.coherent_lockHosts h xs
  | unlockGuests => exact h.unlockGuests
  | unlockHosts => exact (Tables.sameButLocks_unlockHosts c.tables).coherent h
  | mapGuest g load dirty =>
    rw [perform, state_silent]
    exact CacheM.coherent_mapGuest h g load dirty
  | writeBack g =>
    rw [perform, state_silent]
    exact CacheM.coherent_writeBack h g
  | evict x =>
    rw [perform, state_silent]
    exact CacheM.coherent_evict h x
  | flush =>
    rw [perform, state_silent]
    exact CacheM.coherent_flush h
  | flushBeforeCall =>
    rw [perform, state_silent]
    exact CacheM.coherent_flush h
  | restore t => exact saved t rfl

end Request

/-! ## Every run -/

/-- The caches that a new cache becomes, each with the snapshots taken of it on the way. -/
inductive Reachable : Cache → List Snapshot → Prop where
  | init (lookahead : Nat) : Reachable (.withLookahead lookahead) []
  | request {c saved a} (r : Request) (run : Reachable c saved) (plain : ∀ t, r ≠ .restore t)
      (ok : (r.perform c).result = .ok a) : Reachable (r.perform c).state saved
  | save {c saved} (run : Reachable c saved) : Reachable c (c.tables.save :: saved)
  | restore {c saved s t} (run : Reachable c saved) (kept : s ∈ saved)
      (valid : s.tables? = some t) : Reachable ((Request.restore t).perform c).state saved

namespace Reachable

variable {c : Cache} {saved : List Snapshot}

theorem coherent_and_saved (run : Reachable c saved) :
    c.tables.Coherent ∧ ∀ s ∈ saved, ∃ t : Tables, s = t.save ∧ t.Coherent := by
  induction run with
  | init lookahead => exact ⟨Tables.coherent_fresh, nofun⟩
  | request r _ plain _ ih => exact ⟨r.coherent_perform ih.1 fun t e => absurd e (plain t), ih.2⟩
  | save _ ih =>
    refine ⟨ih.1, ?_⟩
    intro s hs
    rcases List.mem_cons.1 hs with rfl | hs
    · exact ⟨_, rfl, ih.1⟩
    · exact ih.2 s hs
  | restore _ kept valid ih =>
    obtain ⟨u, rfl, hu⟩ := ih.2 _ kept
    rw [Snapshot.tables?_save] at valid
    exact ⟨Option.some.inj valid ▸ hu, ih.2⟩

/-- **Every run.** A reachable cache has coherent tables. -/
theorem coherent (run : Reachable c saved) : c.tables.Coherent := run.coherent_and_saved.1

/-- **Table coherence.** In every reachable state each guest slot has exactly one of the three
forms, a host register is taken exactly if it has an owner, owners and mappings are inverse to
each other, a free host register is clean and a mapped one belongs to the allocation order. So all
that the check of the tables can find is a guest register mapped to a locked host register, and
it finds one whenever there is one. -/
theorem bindings_exact (run : Reachable c saved) :
    (∀ g, ∃! b, c.tables.Binds g b) ∧
    (∀ x, (c.tables.host x).free = false ↔ (c.tables.host x).owner.isSome = true) ∧
    (∀ x g, (c.tables.host x).owner = some g ↔ c.tables.Binds g (.mapped x)) ∧
    (∀ x, (c.tables.host x).free = true → (c.tables.host x).dirty = false) ∧
    (∀ g x, c.tables.Binds g (.mapped x) → x ∈ HostReg.allocationOrder) ∧
    (∀ i, c.tables.inconsistency? = some i → ∃ g x, i = .lockedHost g x ∧
      c.tables.Binds g (.mapped x) ∧ (c.tables.host x).locked = true) ∧
    (c.tables.inconsistency?.isSome = true ↔
      ∃ g x, c.tables.Binds g (.mapped x) ∧ (c.tables.host x).locked = true) := by
  have h := run.coherent
  refine ⟨h.existsUnique_binds, ?_, ?_, ?_, ?_, ?_, h.inconsistency?_isSome_iff⟩
  · intro x
    rw [Option.isSome_iff_ne_none, ne_eq, ← (h.fits x).free_iff, Bool.not_eq_true]
  · intro x g
    rw [(h.fits x).owner_iff, Tables.binds_mapped_iff]
  · intro x
    exact (h.fits x).clean
  · intro g x hb
    exact h.allocatable (Tables.binds_mapped_iff.1 hb)
  · intro i hi
    exact h.lockedHost_of_inconsistency? hi

/-- A host register is locked while a guest register is mapped to it. -/
theorem bindings_exact_of_locked_host :
    let mapped := ((Request.mapGuest ⟨4⟩ true false).perform (.withLookahead 30)).state
    let c := ((Request.lockHosts [.rbp]).perform mapped).state
    Reachable c [mapped.tables.save] ∧ c.tables.inconsistency? = some (.lockedHost ⟨4⟩ .rbp) ∧
      c.tables.Binds ⟨4⟩ (.mapped .rbp) := by
  intro mapped c
  have run : Reachable c [mapped.tables.save] :=
    .request (a := none) _ (.save (.request (a := none) _ (.init 30) nofun rfl)) nofun rfl
  have found : c.tables.inconsistency? = some (.lockedHost ⟨4⟩ .rbp) := by decide +kernel
  obtain ⟨-, -, -, -, -, explained, -⟩ := bindings_exact run
  obtain ⟨g, x, e, hb, -⟩ := explained _ found
  cases e
  exact ⟨run, found, hb⟩

end Reachable

end Dynarec
