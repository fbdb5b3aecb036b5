import Dynarec.Proofs.Runs

/-!
# What locks promise

A guest register that is locked and mapped (`Tables.Pinned`) stays where it is, with a value no
older than before, as long as it is not disturbed itself; `Request.Disturbs` lists how it can be.
A host register that is locked while it has no owner (`Tables.Reserved`) stays as it is until host
registers are unlocked. Each is proved for one request first and by `emitAll?_keeps` for all the
code that steps emit, which neither begin a block nor go back to saved tables: no move of it
writes the host register of a pinned guest register, and none touches a reserved one. So the code
keeps the value of a reserved register (`Tables.Reserved.host_runCode?`) and does not depend on it
(`Tables.Reserved.runCode?_setHost`).
-/

namespace Dynarec

/-! ## Pinned guest registers -/

/-- The guest register is locked and mapped to the host register. -/
structure Tables.Pinned (t : Tables) (g : GuestReg) (x : HostReg) : Prop where
  locked : (t.guest g).locked = true
  mapped : t.hostOf? g = some x

/-- In `u` the guest register is pinned, with a value that is no older than in `t`. -/
structure Tables.Stays (t u : Tables) (g : GuestReg) (x : HostReg) : Prop
    extends u.Pinned g x where
  dirty : (t.host x).dirty = true → (u.host x).dirty = true

/-- The requests that may move the guest register `g` out of the host register `x`, or undo its
lock. -/
inductive Request.Disturbs (g : GuestReg) (x : HostReg) : Request → Prop where
  | unlockGuests : Disturbs g x .unlockGuests
  | setConst (v : Word) : Disturbs g x (.setConst g v)
  | discard : Disturbs g x (.discard g)
  | writeBack : Disturbs g x (.writeBack g)
  | evict : Disturbs g x (.evict x)

namespace Tables

variable {t u v : Tables} {g h : GuestReg} {x y : HostReg}

theorem Pinned.stays_refl (p : t.Pinned g x) : t.Stays t g x := ⟨p, id⟩

theorem Stays.trans (a : t.Stays u g x) (b : u.Stays v g x) : t.Stays v g x :=
  ⟨b.toPinned, b.dirty ∘ a.dirty⟩

/-- A change at another guest register. -/
theorem Pinned.stays_of_changesOnly (p : t.Pinned g x) (k : t.ChangesOnly u h) (hne : h ≠ g) :
    t.Stays u g x := by
  refine ⟨⟨?_, (k.hostOf? hne).trans p.mapped⟩, ?_⟩
  · rw [k.guest g hne]
    exact p.locked
  · rw [k.host g x hne p.mapped]
    exact id

theorem Pinned.stays_of_sameButLocks (p : t.Pinned g x) (same : t.SameButLocks u)
    (locked : (u.guest g).locked = true) : t.Stays u g x :=
  ⟨⟨locked, (same.hostOf? g).trans p.mapped⟩, by rw [same.dirty]; exact id⟩

theorem Pinned.stays_markDirty (p : t.Pinned g x) (y : HostReg) (dirty : Bool) :
    t.Stays (t.markDirty y dirty) g x := by
  refine ⟨⟨p.locked, p.mapped⟩, ?_⟩
  intro hd
  by_cases e : y = x
  · subst e
    rw [host_markDirty_self, hd, Bool.true_or]
  · rwa [host_markDirty_of_ne t dirty e]

end Tables

section Allocation

variable {c c' : Cache} {g : GuestReg} {x y : HostReg} {j : List Event}

theorem Tables.Pinned.victim?_ne (p : c.tables.Pinned g x) (h : c.tables.Coherent)
    (unusedOnly : Bool) : c.victim? unusedOnly ≠ some x := by
  intro hv
  have kept := (Cache.victim?_some hv).2.2
  rw [Cache.keepsOwner, h.owner_of_mapped p.mapped] at kept
  simp [p.locked] at kept

/-- Room is made at other registers. -/
theorem Room.ne_of_pinned (room : Room c y c' j) (p : c.tables.Pinned g x)
    (h : c.tables.Coherent) : y ≠ x := by
  rintro rfl
  cases room with
  | free hf =>
    exact h.not_mapped_of_free (Cache.freeHost?_some hf).2.2 g p.mapped
  | spill _ _ hv _ =>
    obtain ⟨b, hb⟩ := Cache.victim_some hv
    exact p.victim?_ne h b hb

theorem Room.stays_of_pinned (room : Room c y c' j) (p : c.tables.Pinned g x)
    (h : c.tables.Coherent) : c.tables.Stays c'.tables g x := by
  have hne := room.ne_of_pinned p h
  cases room with
  | free _ => exact p.stays_refl
  | spill g' _ _ hy =>
    refine p.stays_of_changesOnly (h.changesOnly_release g') ?_
    rintro rfl
    exact hne (Option.some.inj (hy.symm.trans p.mapped))

theorem CacheM.room_of_acquire (h : c.tables.Coherent) (ok : (acquire c).result = .ok y) :
    ∃ c' j, Room c y c' j := by
  rcases acquire_cases h with ⟨z, c', j, run, room⟩ | ⟨run, -⟩
  · rw [run] at ok
    cases ok
    exact ⟨c', j, room⟩
  · rw [run] at ok
    cases ok

end Allocation

/-- **One step.** A request that does not disturb a pinned guest register leaves it pinned. -/
theorem Request.Done.stays {c c' : Cache} {r : Request} {j : List Event} {g : GuestReg}
    {x : HostReg} (d : r.Done c c' j) (h : c.tables.Coherent) (p : c.tables.Pinned g x)
    (straight : r.straight = true) (quiet : ¬ r.Disturbs g x) : c.tables.Stays c'.tables g x := by
  induction d with
  | start | restore => cases straight
  | setPc pc => exact p.stays_refl
  | setConst g' v =>
    refine p.stays_of_changesOnly (h.changesOnly_setConst g' v) ?_
    rintro rfl
    exact quiet (.setConst v)
  | discard g' =>
    refine p.stays_of_changesOnly (h.changesOnly_discard g') ?_
    rintro rfl
    exact quiet .discard
  | lockGuests gs =>
    refine p.stays_of_sameButLocks (Tables.sameButLocks_lockGuests c.tables gs) ?_
    rw [Cache.tables_mapTables, Tables.locked_lockGuests, p.locked, Bool.true_or]
  | lockHosts xs =>
    refine p.stays_of_sameButLocks (Tables.sameButLocks_lockHosts c.tables xs) ?_
    rw [Cache.tables_mapTables, Tables.guest_lockHosts, p.locked]
  | unlockGuests => exact absurd .unlockGuests quiet
  | unlockHosts =>
    exact p.stays_of_sameButLocks (Tables.sameButLocks_unlockHosts c.tables) p.locked
  | acquire room => exact room.stays_of_pinned p h
  | @remap _ y load dirty mapped unlocked => exact p.stays_markDirty y dirty
  | @touch _ y load dirty mapped => exact p.stays_markDirty y dirty
  | @map g' y c₁ j₁ load dirty unmapped room =>
    have s := room.stays_of_pinned p h
    have free : (c₁.tables.host y).free = true := by
      rw [room.host_eq h]
      rfl
    refine s.trans (s.stays_of_changesOnly
      ((room.coherent h).changesOnly_bind g' free _) ?_)
    rintro rfl
    rw [p.mapped] at unmapped
    cases unmapped
  | keep load dirty home => exact p.stays_refl
  | materialize const map ih => exact ih rfl nofun
  | writeBack g' =>
    refine p.stays_of_changesOnly (h.changesOnly_release g') ?_
    rintro rfl
    exact quiet .writeBack
  | @evict g' y owner =>
    refine p.stays_of_changesOnly (h.changesOnly_release g') ?_
    rintro rfl
    obtain rfl := Option.some.inj ((((h.fits y).owner_iff g').1 owner).symm.trans p.mapped)
    exact quiet .evict
  | evictVacant vacant => exact p.stays_refl
  | flush hosts guests => exact absurd p.locked (by simp [guests g])
  | flushBeforeCall flush ih => exact ih rfl nofun

theorem Tables.Pinned.run {c c' : Cache} {g : GuestReg} {x : HostReg} {ss : List Step}
    {code : List Item} (p : c.tables.Pinned g x) (h : c.tables.Coherent)
    (e : emitAll? ss c = some (c', code)) (quiet : ∀ r, .request r ∈ ss → ¬ r.Disturbs g x) :
    c'.tables.Coherent ∧ c.tables.Stays c'.tables g x ∧ ∀ i, Emits code i → x ∉ i.writes := by
  refine emitAll?_keeps (P := c.tables.Stays (g := g) (x := x)) ?_ h p.stays_refl e quiet
  intro c₁ c₂ r j h₁ s₁ straight quiet d h₂
  have s₂ := d.stays h₁ s₁.toPinned straight quiet
  exact ⟨s₁.trans s₂, fun i => d.not_mem_writes_of_mapped h₁ h₂ s₁.mapped s₂.mapped⟩

/-- The value of a pinned guest register is still in its host register when the code has run, unless
the translator has written it there anew. -/
theorem Tables.Pinned.host_runCode? {c c' : Cache} {g : GuestReg} {x : HostReg} {ss : List Step}
    {code : List Item} {m m' : MoveMachine} (p : c.tables.Pinned g x) (h : c.tables.Coherent)
    (e : emitAll? ss c = some (c', code)) (quiet : ∀ r, .request r ∈ ss → ¬ r.Disturbs g x)
    (run : runCode? code m = some m') (own : ∀ f, .compute x f ∉ code) :
    m'.host x = m.host x :=
  Dynarec.host_runCode? run (p.run h e quiet).2.2 own

/-- **A locked operand stays put.** A guest register that is locked and mapped to `x` in a
reachable state is still so after any steps that do not disturb it: `x` belongs to it and is not
free, a value newer than its home is not forgotten between any two points of the run, `x` is
neither spilled nor handed out, and no move of the emitted code writes it. -/
theorem Reachable.locked_operand_stays {c c₁ c₂ : Cache} {saved : List Snapshot}
    (run : Reachable c saved) {g : GuestReg} {x : HostReg}
    (locked : (c.tables.guest g).locked = true) (mapped : c.tables.hostOf? g = some x)
    {ss₁ ss₂ : List Step} {code₁ code₂ : List Item} (emit₁ : emitAll? ss₁ c = some (c₁, code₁))
    (emit₂ : emitAll? ss₂ c₁ = some (c₂, code₂))
    (quiet : ∀ r, .request r ∈ ss₁ ++ ss₂ → ¬ r.Disturbs g x) :
    (c₂.tables.guest g).locked = true ∧ c₂.tables.Binds g (.mapped x) ∧
      (c₂.tables.host x).owner = some g ∧ (c₂.tables.host x).free = false ∧
      ((c₁.tables.host x).dirty = true → (c₂.tables.host x).dirty = true) ∧
      (∀ unusedOnly, c₂.victim? unusedOnly ≠ some x) ∧ (CacheM.acquire c₂).result ≠ .ok x ∧
      ∀ i, Emits (code₁ ++ code₂) i → x ∉ i.writes := by
  have p : c.tables.Pinned g x := ⟨locked, mapped⟩
  obtain ⟨h₁, s₁, w₁⟩ := p.run run.coherent emit₁ fun r hr => quiet r (List.mem_append_left _ hr)
  obtain ⟨h₂, s₂, w₂⟩ := s₁.toPinned.run h₁ emit₂ fun r hr => quiet r (List.mem_append_right _ hr)
  refine ⟨s₂.locked, Tables.binds_mapped_iff.2 s₂.mapped, h₂.owner_of_mapped s₂.mapped,
    h₂.not_free_of_mapped s₂.mapped, s₂.dirty, s₂.toPinned.victim?_ne h₂, ?_, ?_⟩
  · intro ok
    obtain ⟨c', j, room⟩ := CacheM.room_of_acquire h₂ ok
    exact room.ne_of_pinned s₂.toPinned h₂ rfl
  · exact fun i hi => (emits_append.1 hi).elim (w₁ i) (w₂ i)

/-- The host register of a locked guest register, while seven others are mapped and one of them is
spilled. -/
theorem Reachable.locked_operand_stays_under_pressure :
    let mapped := ((Request.mapGuest ⟨4⟩ true true).perform (.withLookahead 30)).state
    let c := ((Request.lockGuests [⟨4⟩]).perform mapped).state
    let ss₁ := [5, 6, 7, 8, 9, 10].map fun n => Step.request (.mapGuest ⟨n⟩ true false)
    let ss₂ : List Step := [.request (.mapGuest ⟨11⟩ true true), .request (.setConst ⟨6⟩ 1),
      .request (.writeBack ⟨11⟩), .request (.mapGuest ⟨4⟩ true false)]
    ∃ c₁ c₂ code₁ code₂, emitAll? ss₁ c = some (c₁, code₁) ∧
      emitAll? ss₂ c₁ = some (c₂, code₂) ∧ c₁.freeHost? = none ∧
      c₂.tables.Binds ⟨4⟩ (.mapped .rbp) ∧ (c₂.tables.host .rbp).dirty = true ∧
      ∀ i, Emits (code₁ ++ code₂) i → .rbp ∉ i.writes := by
  intro mapped c ss₁ ss₂
  have ok₁ : ((Request.mapGuest ⟨4⟩ true true).perform (.withLookahead 30)).result = .ok none := rfl
  have ok₂ : ((Request.lockGuests [⟨4⟩]).perform mapped).result = .ok none := by decide +kernel
  have run₁ : Reachable mapped [] := .request _ (.init 30) nofun ok₁
  have run : Reachable c [] := .request _ run₁ nofun ok₂
  have pinned : (c.tables.guest ⟨4⟩).locked = true ∧ c.tables.hostOf? ⟨4⟩ = some .rbp := by
    decide +kernel
  have between : (emitAll? ss₁ c).map (fun p => (p.1.freeHost?, (p.1.tables.host .rbp).dirty)) =
      some (none, true) := by
    decide +kernel
  have emitted : ((emitAll? ss₁ c).bind fun p => emitAll? ss₂ p.1).isSome = true := by
    decide +kernel
  obtain ⟨⟨c₁, code₁⟩, e₁, between⟩ := Option.map_eq_some_iff.1 between
  obtain ⟨full, dirty⟩ := Prod.mk.inj between
  rw [e₁, Option.bind_some] at emitted
  obtain ⟨⟨c₂, code₂⟩, e₂⟩ := Option.isSome_iff_exists.1 emitted
  have quiet : ∀ r, .request r ∈ ss₁ ++ ss₂ → ¬ r.Disturbs ⟨4⟩ .rbp := by
    intro r hr d
    cases d <;> simp [ss₁, ss₂] at hr
  obtain ⟨-, binds, -, -, kept, -, -, unwritten⟩ :=
    run.locked_operand_stays pinned.1 pinned.2 e₁ e₂ quiet
  exact ⟨c₁, c₂, code₁, code₂, e₁, e₂, full, binds, kept dirty, unwritten⟩

/-! ## Reserved host registers -/

/-- The host register is locked and vacant. -/
def Tables.Reserved (t : Tables) (x : HostReg) : Prop :=
  t.host x = { HostSlot.vacant with locked := true }

namespace Tables

variable {t u : Tables} {g : GuestReg} {x : HostReg}

theorem Reserved.locked (s : t.Reserved x) : (t.host x).locked = true := by rw [s]

theorem Reserved.owner (s : t.Reserved x) : (t.host x).owner = none := by
  rw [s]
  rfl

theorem Reserved.hostOf?_ne (s : t.Reserved x) (h : t.Coherent) (g : GuestReg) :
    t.hostOf? g ≠ some x := by
  intro hg
  exact nomatch s.owner.symm.trans (h.owner_of_mapped hg)

theorem Reserved.of_host_eq (s : t.Reserved x) (e : u.host x = t.host x) : u.Reserved x :=
  e.trans s

theorem Coherent.reserved_lockHosts (h : t.Coherent) (owner : (t.host x).owner = none)
    {xs : List HostReg} (hx : x ∈ xs ∨ (t.host x).locked = true) :
    (xs.foldl lockHost t).Reserved x := by
  have same := sameButLocks_lockHosts t xs
  rw [Reserved, (same.coherent h).host_eq_of_no_owner ((same.owner x).trans owner),
    locked_lockHosts]
  rcases hx with hx | hl
  · simp [hx]
  · simp [hl]

end Tables

section Scratch

variable {c c' : Cache} {x y : HostReg} {j : List Event}

theorem Tables.Reserved.victim?_ne (s : c.tables.Reserved x) (unusedOnly : Bool) :
    c.victim? unusedOnly ≠ some x := by
  intro hv
  exact nomatch s.locked.symm.trans (Cache.victim?_some hv).2.1

theorem Room.ne_of_reserved (room : Room c y c' j) (s : c.tables.Reserved x) : y ≠ x := by
  rintro rfl
  exact nomatch s.locked.symm.trans room.host_unlocked

theorem Room.reserved (room : Room c y c' j) (s : c.tables.Reserved x) (h : c.tables.Coherent) :
    c'.tables.Reserved x := by
  cases room with
  | free _ => exact s
  | spill g _ _ _ => exact s.of_host_eq (h.host_release_of_ne (s.hostOf?_ne h g))

end Scratch

/-- **One step.** Until host registers are unlocked a reserved one stays as it is. -/
theorem Request.Done.reserved {c c' : Cache} {r : Request} {j : List Event} {x : HostReg}
    (d : r.Done c c' j) (h : c.tables.Coherent) (s : c.tables.Reserved x)
    (straight : r.straight = true) (kept : r ≠ .unlockHosts) : c'.tables.Reserved x := by
  induction d with
  | start | restore => cases straight
  | setPc pc => exact s
  | setConst g v =>
    refine s.of_host_eq ?_
    rw [Cache.tables_mapTables, Tables.host_setConst,
      Tables.host_discard_of_ne _ (s.hostOf?_ne h g)]
  | discard g => exact s.of_host_eq (Tables.host_discard_of_ne _ (s.hostOf?_ne h g))
  | lockGuests gs => exact s.of_host_eq (Tables.host_lockGuests c.tables gs x)
  | lockHosts xs => exact h.reserved_lockHosts s.owner (.inr s.locked)
  | unlockGuests =>
    have same := Tables.sameButLocks_map_unlocked c.tables
    refine s.of_host_eq ?_
    rw [Cache.tables_mapTables, Tables.unlockGuests, Tables.host_setConst]
    apply Tables.host_discard_of_ne
    rw [same.hostOf?]
    exact s.hostOf?_ne h .zero
  | unlockHosts => exact absurd rfl kept
  | acquire room => exact room.reserved s h
  | remap load dirty mapped unlocked =>
    refine s.of_host_eq (Tables.host_markDirty_of_ne _ dirty ?_)
    rintro rfl
    exact s.hostOf?_ne h _ mapped
  | touch load dirty mapped =>
    refine s.of_host_eq (Tables.host_markDirty_of_ne _ dirty ?_)
    rintro rfl
    exact s.hostOf?_ne h _ mapped
  | map load dirty unmapped room =>
    exact (room.reserved s h).of_host_eq
      (Tables.host_bind_of_ne _ _ _ (room.ne_of_reserved s))
  | keep load dirty home => exact s
  | materialize const map ih => exact ih rfl nofun
  | writeBack g => exact s.of_host_eq (h.host_release_of_ne (s.hostOf?_ne h g))
  | evict owner => exact s.of_host_eq (h.host_release_of_ne (s.hostOf?_ne h _))
  | evictVacant vacant => exact s
  | flush hosts guests => exact absurd s.locked (by simp [hosts x])
  | flushBeforeCall flush ih => exact ih rfl nofun

/-- The instruction neither writes nor reads the host register, and addresses memory from the
context register only. -/
def Instr.Spares (x : HostReg) (i : Instr Address) : Prop :=
  x ∉ i.writes ∧ x ∉ i.reads ∧ ∀ a, i.memory? = some a → a.base = .contextBase

/-- Nor do the instructions that it asks for touch the register. -/
theorem Request.Done.spares_of_reserved {c c' : Cache} {r : Request} {j : List Event}
    {x : HostReg} {i : Instr Address} (d : r.Done c c' j) (h : c.tables.Coherent)
    (h' : c'.tables.Coherent) (s : c.tables.Reserved x) (s' : c'.tables.Reserved x)
    (hi : i ∈ codeOf j) : i.Spares x := by
  obtain ⟨g, permitted⟩ := d.permitted h hi
  refine ⟨?_, ?_, ?_⟩
  · intro hx
    exact s'.hostOf?_ne h' g (permitted.into_of_writes hx).mapped
  · intro hx
    exact nomatch s.owner.symm.trans (permitted.owner_of_reads hx)
  · intro a ha
    rw [permitted.address_of_memory? ha]
    rfl

theorem Tables.Reserved.run {c c' : Cache} {x : HostReg} {ss : List Step} {code : List Item}
    (s : c.tables.Reserved x) (h : c.tables.Coherent) (e : emitAll? ss c = some (c', code))
    (kept : .request .unlockHosts ∉ ss) :
    c'.tables.Coherent ∧ c'.tables.Reserved x ∧ ∀ i, Emits code i → i.Spares x := by
  have allowed : ∀ r, .request r ∈ ss → r ≠ .unlockHosts := by
    rintro r hr rfl
    exact kept hr
  refine emitAll?_keeps (P := (Tables.Reserved · x)) ?_ h s e allowed
  intro c₁ c₂ r j h₁ s₁ straight kept d h₂
  have s₂ := d.reserved h₁ s₁ straight kept
  exact ⟨s₂, fun i => d.spares_of_reserved h₁ h₂ s₁ s₂⟩

/-- What the translator puts into a reserved host register is still there when the code has run. -/
theorem Tables.Reserved.host_runCode? {c c' : Cache} {x : HostReg} {ss : List Step}
    {code : List Item} {m m' : MoveMachine} (s : c.tables.Reserved x) (h : c.tables.Coherent)
    (e : emitAll? ss c = some (c', code)) (kept : .request .unlockHosts ∉ ss)
    (run : runCode? code m = some m') (own : ∀ f, .compute x f ∉ code) :
    m'.host x = m.host x :=
  Dynarec.host_runCode? run (fun i hi => ((s.run h e kept).2.2 i hi).1) own

/-- The code does not depend on what a reserved host register holds, unless the translator's own
instructions do. -/
theorem Tables.Reserved.runCode?_setHost {c c' : Cache} {x : HostReg} {ss : List Step}
    {code : List Item} (s : c.tables.Reserved x) (h : c.tables.Coherent)
    (e : emitAll? ss c = some (c', code)) (kept : .request .unlockHosts ∉ ss)
    (own : ∀ y f, .compute y f ∈ code → x ≠ y ∧ ∀ m v, f (m.setHost x v) = f m)
    (m : MoveMachine) (v : Word) :
    runCode? code (m.setHost x v) = (runCode? code m).map (·.setHost x v) := by
  obtain ⟨-, -, spared⟩ := s.run h e kept
  exact Dynarec.runCode?_setHost (fun i hi => ⟨(spared i hi).1, (spared i hi).2.1⟩) own m v

/-- **A scratch register is never touched.** A host register without an owner that is locked in a
reachable state stays locked and vacant after any steps until host registers are unlocked: nothing
is mapped to it, it is neither spilled nor handed out, and no move of the emitted code reads or
writes it. -/
theorem Reachable.scratch_untouched {c c' : Cache} {saved : List Snapshot}
    (run : Reachable c saved) {xs : List HostReg} {x : HostReg} (hx : x ∈ xs)
    (vacant : (c.tables.host x).owner = none) {ss : List Step} {code : List Item}
    (emit : emitAll? (.request (.lockHosts xs) :: ss) c = some (c', code))
    (kept : .request .unlockHosts ∉ ss) :
    (c'.tables.host x).locked = true ∧ (c'.tables.host x).free = true ∧
      (c'.tables.host x).dirty = false ∧ (c'.tables.host x).owner = none ∧
      (∀ g, (c'.tables.guest g).place ≠ .reg x) ∧ (∀ unusedOnly, c'.victim? unusedOnly ≠ some x) ∧
      (CacheM.acquire c').result ≠ .ok x ∧
      ∀ i, Emits code i → i.Spares x := by
  obtain ⟨c₁, code₁, code₂, head, tail, rfl⟩ := emitAll?_cons emit
  obtain ⟨j, -, done, rfl⟩ := Step.done_of_emit?_request run.coherent head
  have h₁ := Step.coherent head run.coherent
  cases done
  have s₁ : ((c.mapTables (xs.foldl Tables.lockHost ·)).tables).Reserved x :=
    run.coherent.reserved_lockHosts vacant (.inl hx)
  obtain ⟨h₂, s₂, spared⟩ := s₁.run h₁ tail kept
  refine ⟨s₂.locked, by rw [s₂]; rfl, by rw [s₂]; rfl, s₂.owner,
    fun g hp => s₂.hostOf?_ne h₂ g (h₂.mapped_of_place hp), s₂.victim?_ne, ?_, spared⟩
  intro ok
  obtain ⟨c'', j, room⟩ := CacheM.room_of_acquire h₂ ok
  exact room.ne_of_reserved s₂ rfl

/-- A scratch register is locked while one guest register is mapped, and six more are mapped to the
others, with one spill. -/
theorem Reachable.scratch_untouched_under_pressure :
    let c := ((Request.mapGuest ⟨4⟩ true true).perform (.withLookahead 30)).state
    let ss := [5, 6, 7, 8, 9, 10].map fun n => Step.request (.mapGuest ⟨n⟩ true true)
    ∃ c' code, emitAll? (.request (.lockHosts [.rax, .r8]) :: ss) c = some (c', code) ∧
      c'.freeHost? = none ∧ (c'.tables.host .r8).free = true ∧
      ∀ i, Emits code i → i.Spares .r8 := by
  intro c ss
  have ok : ((Request.mapGuest ⟨4⟩ true true).perform (.withLookahead 30)).result = .ok none := rfl
  have run : Reachable c [] := .request _ (.init 30) nofun ok
  have vacant : (c.tables.host .r8).owner = none := by decide +kernel
  have full : (emitAll? (.request (.lockHosts [.rax, .r8]) :: ss) c).map (·.1.freeHost?) =
      some none := by
    decide +kernel
  obtain ⟨⟨c', code⟩, e, none_free⟩ := Option.map_eq_some_iff.1 full
  have kept : .request .unlockHosts ∉ ss := by simp [ss]
  obtain ⟨-, free, -, -, -, -, -, spared⟩ :=
    run.scratch_untouched (x := .r8) (by decide) vacant e kept
  exact ⟨c', code, e, none_free, free, spared⟩

end Dynarec
