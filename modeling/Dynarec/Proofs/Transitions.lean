import Dynarec.Proofs.Operations

/-!
# What a request can do

`Request.Done` lists what the requests that go through make of coherent tables, with the events
they write, and `Request.Misuse` the faults that stop the others, each with what was wrong.
`Request.perform_cases` says that nothing else happens: a request is done, or it stops with a
fault of the second list and has written nothing. What every run keeps is proved by cases on
`Done`.
-/

namespace Dynarec

open Journal

namespace Request

/-- What a request that goes through makes of the cache, and the events it writes. -/
inductive Done (c : Cache) : Request → Cache → List Event → Prop where
  | start (oracle : UsageOracle) (pc : Word) :
      Done c (.start oracle pc) { c with tables := .fresh, oracle, pc } [.start pc]
  | setPc (pc : Word) : Done c (.setPc pc) { c with pc } []
  | setConst (g : GuestReg) (v : Word) : Done c (.setConst g v) (c.mapTables (·.setConst g v)) []
  | discard (g : GuestReg) : Done c (.discard g) (c.mapTables (·.discard g)) []
  | lockGuests (gs : List GuestReg) :
      Done c (.lockGuests gs) (c.mapTables (gs.foldl Tables.lockGuest ·)) []
  | lockHosts (xs : List HostReg) :
      Done c (.lockHosts xs) (c.mapTables (xs.foldl Tables.lockHost ·)) []
  | unlockGuests : Done c .unlockGuests (c.mapTables Tables.unlockGuests) []
  | unlockHosts : Done c .unlockHosts (c.mapTables Tables.unlockHosts) []
  | acquire {x : HostReg} {c' : Cache} {j : List Event} (room : Room c x c' j) :
      Done c .acquire c' j
  /-- A register that is mapped already only gets its dirty bit. -/
  | remap {g : GuestReg} {x : HostReg} (load dirty : Bool) (mapped : c.tables.hostOf? g = some x)
      (unlocked : (c.tables.host x).locked = false) :
      Done c (.mapGuest g load dirty) (c.mapTables (·.markDirty x dirty)) []
  | map {g : GuestReg} {x : HostReg} {c' : Cache} {j : List Event} (load dirty : Bool)
      (unmapped : c.tables.hostOf? g = none) (room : Room c x c' j) :
      Done c (.mapGuest g load dirty)
        (c'.mapTables (·.bind g x (dirty || (c.tables.guest g).place.isImm)))
        (j ++ c.tables.loadsOf g x load)
  /-- There is nothing to materialize in a register that is at home. -/
  | keep {g : GuestReg} (load dirty : Bool) (home : c.tables.Binds g .home) :
      Done c (.materialize g load dirty) c []
  | touch {g : GuestReg} {x : HostReg} (load dirty : Bool)
      (mapped : c.tables.hostOf? g = some x) :
      Done c (.materialize g load dirty) (c.mapTables (·.markDirty x dirty)) []
  | materialize {g : GuestReg} {v : Word} {load dirty : Bool} {c' : Cache} {j : List Event}
      (const : c.tables.Binds g (.const v)) (map : Done c (.mapGuest g load dirty) c' j) :
      Done c (.materialize g load dirty) c' j
  | writeBack (g : GuestReg) :
      Done c (.writeBack g) (c.mapTables (·.release g)) (c.tables.storesOf g)
  | evict {g : GuestReg} {x : HostReg} (owner : (c.tables.host x).owner = some g) :
      Done c (.evict x) (c.mapTables (·.release g)) (c.tables.storesOf g)
  | evictVacant {x : HostReg} (vacant : (c.tables.host x).owner = none) : Done c (.evict x) c []
  | flush (hosts : ∀ x, (c.tables.host x).locked = false)
      (guests : ∀ g, (c.tables.guest g).locked = false) :
      Done c .flush (c.mapTables fun _ => .fresh)
        (.flush c.pc :: GuestReg.all.tail.flatMap c.tables.storesOf)
  | flushBeforeCall {c' : Cache} {j : List Event} (flush : Done c .flush c' j) :
      Done c .flushBeforeCall c' j
  | restore (saved : Tables) : Done c (.restore saved) (c.mapTables fun _ => saved) []

/-- What is wrong with a request that stops with a fault. -/
inductive Misuse (c : Cache) : Request → Fault → Prop where
  | tooManyGuests {gs : List GuestReg} (many : Cache.maxLocks < gs.length) :
      Misuse c (.lockGuests gs) (.tooManyLocks gs.length)
  | tooManyHosts {xs : List HostReg} (many : Cache.maxLocks < xs.length) :
      Misuse c (.lockHosts xs) (.tooManyLocks xs.length)
  | lockedAgain {xs : List HostReg} {x : HostReg} (hx : x ∈ xs) :
      Misuse c (.lockHosts xs) (.hostAlreadyLocked x)
  | acquireFull (full : c.Full) : Misuse c .acquire .outOfRegisters
  | boundToLocked {g : GuestReg} {x : HostReg} (load dirty : Bool)
      (mapped : c.tables.hostOf? g = some x) (locked : (c.tables.host x).locked = true) :
      Misuse c (.mapGuest g load dirty) (.boundToLockedHost x)
  | mapFull {g : GuestReg} (load dirty : Bool) (unmapped : c.tables.hostOf? g = none)
      (full : c.Full) : Misuse c (.mapGuest g load dirty) .outOfRegisters
  | materializeFull {g : GuestReg} (load dirty : Bool) (unmapped : c.tables.hostOf? g = none)
      (full : c.Full) : Misuse c (.materialize g load dirty) .outOfRegisters
  | leftLocked {f : Fault} (left : CacheM.LeftLocked c f) : Misuse c .flush f
  | leftLockedBeforeCall {f : Fault} (left : CacheM.LeftLocked c f) : Misuse c .flushBeforeCall f

/-- The outcome `o` of the request is one of those listed. -/
def Listed {α : Type} (c : Cache) (r : Request) (o : Outcome Fault Cache Event α) : Prop :=
  (∃ a c' j, o = ⟨.ok a, c', j⟩ ∧ Done c r c' j) ∨
    ∃ f c', o = ⟨.error f, c', []⟩ ∧ Misuse c r f

theorem Listed.silent {c : Cache} {r : Request} {m : CacheM Unit} (l : Listed c r (m c)) :
    Listed c r (silent m c) := by
  rcases l with ⟨a, c', j, run, done⟩ | ⟨f, c', run, misuse⟩
  · exact .inl ⟨none, c', j, by rw [silent_run, run]; simp, done⟩
  · exact .inr ⟨f, c', by rw [silent_run, run]; rfl, misuse⟩

variable {c : Cache}

theorem listed_lockGuests (gs : List GuestReg) (c : Cache) :
    Listed c (.lockGuests gs) (CacheM.lockGuests gs c) := by
  rcases CacheM.lockGuests_cases gs c with run | ⟨many, run⟩
  · exact .inl ⟨_, _, _, run, .lockGuests gs⟩
  · exact .inr ⟨_, _, run, .tooManyGuests many⟩

theorem listed_lockHosts (xs : List HostReg) (c : Cache) :
    Listed c (.lockHosts xs) (CacheM.lockHosts xs c) := by
  rcases CacheM.lockHosts_cases xs c with run | ⟨x, hx, u, run, -⟩ | ⟨many, run⟩
  · exact .inl ⟨_, _, _, run, .lockHosts xs⟩
  · exact .inr ⟨_, _, run, .lockedAgain hx⟩
  · exact .inr ⟨_, _, run, .tooManyHosts many⟩

theorem listed_acquire (h : c.tables.Coherent) : Listed c .acquire (CacheM.acquire c) := by
  rcases CacheM.acquire_cases h with ⟨x, c', j, run, room⟩ | ⟨run, full⟩
  · exact .inl ⟨_, _, _, run, .acquire room⟩
  · exact .inr ⟨_, _, run, .acquireFull full⟩

theorem listed_mapGuest (h : c.tables.Coherent) (g : GuestReg) (load dirty : Bool) :
    Listed c (.mapGuest g load dirty) (CacheM.mapGuest g load dirty c) := by
  cases hg : c.tables.hostOf? g with
  | some x =>
    have run := CacheM.mapGuest_of_mapped hg load dirty
    cases hl : (c.tables.host x).locked with
    | true => exact .inr ⟨_, _, by rw [run, if_pos hl], .boundToLocked load dirty hg hl⟩
    | false =>
      refine .inl ⟨(), _, _, ?_, .remap load dirty hg hl⟩
      rw [run, if_neg (by simp [hl])]
  | none =>
    rcases CacheM.acquire_cases h with ⟨x, c', j, ha, room⟩ | ⟨ha, full⟩
    · exact .inl ⟨_, _, _, CacheM.mapGuest_of_room h hg ha room load dirty,
        .map load dirty hg room⟩
    · exact .inr ⟨_, _, CacheM.mapGuest_of_full h hg ha load dirty, .mapFull load dirty hg full⟩

theorem listed_materialize (h : c.tables.Coherent) (g : GuestReg) (load dirty : Bool) :
    Listed c (.materialize g load dirty) (CacheM.materialize g load dirty c) := by
  obtain ⟨b, hb⟩ := h.binds g
  cases b with
  | home => exact .inl ⟨_, _, _, CacheM.materialize_of_home hb load dirty, .keep load dirty hb⟩
  | mapped x =>
    have hg := Tables.binds_mapped_iff.1 hb
    exact .inl ⟨_, _, _, CacheM.materialize_of_mapped hg load dirty, .touch load dirty hg⟩
  | const v =>
    rw [CacheM.materialize_of_const hb]
    rcases listed_mapGuest h g load dirty with ⟨a, c', j, run, done⟩ | ⟨f, c', run, misuse⟩
    · exact .inl ⟨a, c', j, run, .materialize hb done⟩
    · cases misuse with
      | boundToLocked _ _ mapped _ =>
        rw [Tables.hostOf?_of_const hb] at mapped
        cases mapped
      | mapFull _ _ unmapped full =>
        exact .inr ⟨_, c', run, .materializeFull load dirty unmapped full⟩

theorem listed_evict (h : c.tables.Coherent) (x : HostReg) :
    Listed c (.evict x) (CacheM.evict x c) := by
  cases ho : (c.tables.host x).owner with
  | none => exact .inl ⟨_, _, _, CacheM.evict_of_vacant ho, .evictVacant ho⟩
  | some g =>
    rw [CacheM.evict_of_owner h ho]
    exact .inl ⟨_, _, _, CacheM.writeBack_run g c, .evict ho⟩

theorem listed_flush (h : c.tables.Coherent) : Listed c .flush (CacheM.flush c) := by
  rcases CacheM.flush_cases h with ⟨run, hosts, guests⟩ | ⟨f, run, left⟩
  · exact .inl ⟨_, _, _, run, .flush hosts guests⟩
  · exact .inr ⟨f, c, run, .leftLocked left⟩

theorem listed_flushBeforeCall (h : c.tables.Coherent) :
    Listed c .flushBeforeCall (CacheM.flush c) := by
  rcases CacheM.flush_cases h with ⟨run, hosts, guests⟩ | ⟨f, run, left⟩
  · exact .inl ⟨_, _, _, run, .flushBeforeCall (.flush hosts guests)⟩
  · exact .inr ⟨f, c, run, .leftLockedBeforeCall left⟩

/-- **One step.** On coherent tables a request does what `Done` says, or it stops with a fault that
`Misuse` explains and has written nothing. -/
theorem perform_cases (h : c.tables.Coherent) (r : Request) : Listed c r (r.perform c) := by
  cases r with
  | start oracle pc => exact .inl ⟨none, _, _, rfl, .start oracle pc⟩
  | setPc pc => exact .inl ⟨none, _, _, rfl, .setPc pc⟩
  | setConst g v => exact .inl ⟨none, _, _, rfl, .setConst g v⟩
  | discard g => exact .inl ⟨none, _, _, rfl, .discard g⟩
  | materialize g load dirty => exact (listed_materialize h g load dirty).silent
  | lockGuests gs => exact (listed_lockGuests gs c).silent
  | lockHosts xs => exact (listed_lockHosts xs c).silent
  | unlockGuests => exact .inl ⟨none, _, _, rfl, .unlockGuests⟩
  | unlockHosts => exact .inl ⟨none, _, _, rfl, .unlockHosts⟩
  | acquire =>
    rw [perform, map_run]
    rcases listed_acquire h with ⟨x, c', j, run, done⟩ | ⟨f, c', run, misuse⟩
    · exact .inl ⟨some x, c', j, by rw [run]; simp, done⟩
    · exact .inr ⟨f, c', by rw [run]; rfl, misuse⟩
  | mapGuest g load dirty => exact (listed_mapGuest h g load dirty).silent
  | writeBack g =>
    have done : Listed c (.writeBack g) (CacheM.writeBack g c) :=
      .inl ⟨_, _, _, CacheM.writeBack_run g c, .writeBack g⟩
    exact done.silent
  | evict x => exact (listed_evict h x).silent
  | flush => exact (listed_flush h).silent
  | flushBeforeCall => exact (listed_flushBeforeCall h).silent
  | restore saved => exact .inl ⟨none, _, _, rfl, .restore saved⟩

theorem done_of_ok (h : c.tables.Coherent) {r : Request} {a : Option HostReg}
    (ok : (r.perform c).result = .ok a) :
    Done c r (r.perform c).state (r.perform c).journal := by
  rcases perform_cases h r with ⟨b, c', j, run, done⟩ | ⟨f, c', run, -⟩
  · rwa [run]
  · rw [run] at ok
    cases ok

theorem misuse_of_error (h : c.tables.Coherent) {r : Request} {f : Fault}
    (stopped : (r.perform c).result = .error f) : Misuse c r f := by
  rcases perform_cases h r with ⟨b, c', j, run, -⟩ | ⟨f', c', run, misuse⟩
  · rw [run] at stopped
    cases stopped
  · rw [run] at stopped
    cases stopped
    exact misuse

end Request

end Dynarec
