import Dynarec.Proofs.Locks
import Dynarec.Proofs.RequestCode
import Dynarec.Proofs.Sequences

/-!
# Which host register is handed out

`Cache.Chooses` is the policy of `acquire`, read off the tables: the first register of the
allocation order that is vacant, else the first whose owner may go home and is not read again soon,
else the first whose owner may go home. `CacheM.acquire_eq_ok_iff` says that `acquire` follows it
and `CacheM.acquire_eq_error_iff` when there is no register to be had. The slots that making room
changes are those of the register and of its owner (`Room.host_of_ne`, `Room.guest_of_owner`,
`Room.guest_of_not_owner`).
-/

namespace Dynarec

open Journal

/-- The first register of the allocation order with the property. -/
structure HostReg.First (p : HostReg → Prop) (x : HostReg) : Prop where
  holds : p x
  first : ∃ before after, allocationOrder = before ++ x :: after ∧ ∀ y ∈ before, ¬ p y

/-- The host register can be handed out as it is. -/
structure Tables.Vacant (t : Tables) (x : HostReg) : Prop where
  free : (t.host x).free = true
  unlocked : (t.host x).locked = false

/-- The host register can be handed out once its owner, which is not locked, has gone home. -/
structure Tables.Evictable (t : Tables) (x : HostReg) (g : GuestReg) : Prop where
  owner : (t.host x).owner = some g
  unlocked : (t.host x).locked = false
  released : (t.guest g).locked = false

namespace Cache

/-- The host register may be emptied; with `unusedOnly` its owner is not read again soon. -/
def Candidate (c : Cache) (unusedOnly : Bool) (x : HostReg) : Prop :=
  ∃ g, c.tables.Evictable x g ∧ (unusedOnly = true → c.oracle g c.pc c.lookahead = false)

/-- The host register that the policy hands out. -/
inductive Chooses (c : Cache) (x : HostReg) : Prop where
  | vacant (first : HostReg.First c.tables.Vacant x)
  | unused (full : ∀ y ∈ HostReg.allocationOrder, ¬ c.tables.Vacant y)
      (first : HostReg.First (c.Candidate true) x)
  | used (full : ∀ y ∈ HostReg.allocationOrder, ¬ c.tables.Vacant y)
      (allUsed : ∀ y ∈ HostReg.allocationOrder, ¬ c.Candidate true y)
      (first : HostReg.First (c.Candidate false) x)

end Cache

/-! ## The choice -/

theorem HostReg.find?_eq_some_iff_first {p : HostReg → Prop} {q : HostReg → Bool} {x : HostReg}
    (same : ∀ y ∈ allocationOrder, q y = true ↔ p y) :
    allocationOrder.find? q = some x ↔ First p x := by
  rw [List.find?_eq_some_iff_append]
  constructor
  · rintro ⟨holds, before, after, order, none⟩
    rw [order] at same
    refine ⟨(same x (by simp)).1 holds, before, after, order, ?_⟩
    intro y hy
    rw [← same y (List.mem_append_left _ hy)]
    simpa using none y hy
  · rintro ⟨holds, before, after, order, none⟩
    rw [order] at same
    refine ⟨(same x (by simp)).2 holds, before, after, order, ?_⟩
    intro y hy
    have refuted := none y hy
    rw [← same y (List.mem_append_left _ hy)] at refuted
    simpa using refuted

theorem HostReg.find?_eq_none_iff {p : HostReg → Prop} {q : HostReg → Bool}
    (same : ∀ y ∈ allocationOrder, q y = true ↔ p y) :
    allocationOrder.find? q = none ↔ ∀ y ∈ allocationOrder, ¬ p y := by
  rw [List.find?_eq_none]
  exact forall₂_congr fun y hy => not_congr (same y hy)

namespace Cache

variable {c : Cache} {x : HostReg}

theorem isVacant_iff (x : HostReg) :
    (!(c.tables.host x).locked && (c.tables.host x).free) = true ↔ c.tables.Vacant x := by
  rw [Bool.and_eq_true, Bool.not_eq_true']
  exact ⟨fun ⟨unlocked, free⟩ => ⟨free, unlocked⟩, fun v => ⟨v.unlocked, v.free⟩⟩

/-- If no register is vacant, an unlocked one of the allocation order has an owner to look at. -/
theorem isCandidate_iff (h : c.tables.Coherent) (full : c.freeHost? = none) (unusedOnly : Bool)
    (hx : x ∈ HostReg.allocationOrder) :
    (!(c.tables.host x).locked && !c.keepsOwner unusedOnly x) = true ↔
      c.Candidate unusedOnly x := by
  simp only [Bool.and_eq_true, Bool.not_eq_true']
  constructor
  · rintro ⟨unlocked, goes⟩
    obtain ⟨g, owner⟩ := h.owner_of_not_free (freeHost?_none full hx unlocked)
    simp only [keepsOwner, owner, Bool.or_eq_false_iff, Bool.and_eq_false_iff] at goes
    refine ⟨g, ⟨owner, unlocked, goes.1⟩, ?_⟩
    rintro rfl
    exact goes.2.resolve_left (by decide)
  · rintro ⟨g, ⟨owner, unlocked, released⟩, unused⟩
    refine ⟨unlocked, ?_⟩
    simp only [keepsOwner, owner, released, Bool.false_or]
    cases unusedOnly with
    | false => rfl
    | true => exact unused rfl

theorem freeHost?_eq_some_iff : c.freeHost? = some x ↔ HostReg.First c.tables.Vacant x :=
  HostReg.find?_eq_some_iff_first fun y _ => isVacant_iff y

/-- The three choices of `acquire` are those of the policy. -/
theorem chooses_iff (h : c.tables.Coherent) :
    c.Chooses x ↔ c.freeHost?.or ((c.victim? true).or (c.victim? false)) = some x := by
  have full_iff : c.freeHost? = none ↔ ∀ y ∈ HostReg.allocationOrder, ¬ c.tables.Vacant y :=
    HostReg.find?_eq_none_iff fun y _ => isVacant_iff y
  have victim (full : c.freeHost? = none) (unusedOnly : Bool) :
      c.victim? unusedOnly = some x ↔ HostReg.First (c.Candidate unusedOnly) x :=
    HostReg.find?_eq_some_iff_first fun y hy => isCandidate_iff h full unusedOnly hy
  have allUsed (full : c.freeHost? = none) :
      c.victim? true = none ↔ ∀ y ∈ HostReg.allocationOrder, ¬ c.Candidate true y :=
    HostReg.find?_eq_none_iff fun y hy => isCandidate_iff h full true hy
  rw [Option.or_eq_some_iff, Option.or_eq_some_iff]
  constructor
  · rintro (first | ⟨full, first⟩ | ⟨full, used, first⟩)
    · exact .inl (freeHost?_eq_some_iff.2 first)
    · have full := full_iff.2 full
      exact .inr ⟨full, .inl ((victim full true).2 first)⟩
    · have full := full_iff.2 full
      exact .inr ⟨full, .inr ⟨(allUsed full).2 used, (victim full false).2 first⟩⟩
  · rintro (first | ⟨full, first | ⟨used, first⟩⟩)
    · exact .vacant (freeHost?_eq_some_iff.1 first)
    · exact .unused (full_iff.1 full) ((victim full true).1 first)
    · exact .used (full_iff.1 full) ((allUsed full).1 used) ((victim full false).1 first)

end Cache

namespace CacheM

variable {c : Cache} {x : HostReg} {f : Fault}

theorem acquire_eq_ok_iff (h : c.tables.Coherent) :
    (acquire c).result = .ok x ↔ c.Chooses x := by
  rw [Cache.chooses_iff h]
  cases hf : c.freeHost? with
  | some y => simp [acquire_of_free hf]
  | none =>
    cases hv : (c.victim? true).or (c.victim? false) with
    | some y => simp [acquire_of_victim hf hv]
    | none => simp [acquire_of_none hf hv]

theorem acquire_eq_error_iff (h : c.tables.Coherent) :
    (acquire c).result = .error f ↔ f = .outOfRegisters ∧ c.Full := by
  rcases acquire_cases h with ⟨x, c', j, run, room⟩ | ⟨run, full⟩
  · rw [run]
    refine iff_of_false nofun ?_
    rintro ⟨-, full⟩
    -- the register that was handed out is neither locked nor the place of a locked register
    rcases full x room.allocatable with locked | ⟨g, mapped, locked⟩
    · rw [room.host_unlocked] at locked
      cases locked
    · exact room.ne_of_pinned ⟨locked, mapped⟩ h rfl
  · rw [run]
    constructor
    · rintro ⟨⟩
      exact ⟨rfl, full⟩
    · rintro ⟨rfl, -⟩
      rfl

end CacheM

theorem Request.perform_acquire_of_run {c c' : Cache} {o : Except Fault HostReg} {j : List Event}
    (run : CacheM.acquire c = ⟨o, c', j⟩) : acquire.perform c = ⟨o.map some, c', j⟩ := by
  rw [perform, map_run, run]
  cases o <;> simp [Except.map]

theorem Cache.full_iff {c : Cache} (h : c.tables.Coherent) :
    c.Full ↔ ∀ x ∈ HostReg.allocationOrder, (c.tables.host x).locked = true ∨
      ∃ g, (c.tables.host x).owner = some g ∧ (c.tables.guest g).locked = true := by
  unfold Full
  simp only [(h.fits _).owner_iff]

/-! ## What making room changes -/

namespace Room

variable {c c' : Cache} {x y : HostReg} {j : List Event} {g : GuestReg}

theorem cache_eq (room : Room c x c' j) : c' = { c with tables := c'.tables } := by
  cases room <;> rfl

theorem host_of_ne (room : Room c x c' j) (h : c.tables.Coherent) (hne : y ≠ x) :
    c'.tables.host y = c.tables.host y := by
  cases room with
  | free _ => rfl
  | spill g _ _ hx =>
    apply h.host_release_of_ne
    intro hy
    exact hne (Option.some.inj (hy.symm.trans hx))

theorem owner_unlocked (room : Room c x c' j) (h : c.tables.Coherent)
    (owner : (c.tables.host x).owner = some g) : (c.tables.guest g).locked = false := by
  rw [← Bool.not_eq_true]
  intro locked
  exact room.ne_of_pinned ⟨locked, ((h.fits x).owner_iff g).1 owner⟩ h rfl

theorem guest_of_owner (room : Room c x c' j) (h : c.tables.Coherent)
    (owner : (c.tables.host x).owner = some g) : c'.tables.guest g = .atHome g := by
  have unlocked := room.owner_unlocked h owner
  cases room with
  | free hf =>
    rw [(h.fits x).free_iff.1 (Cache.freeHost?_some hf).2.2] at owner
    cases owner
  | spill g' _ _ hx =>
    obtain rfl : g' = g := Option.some.inj ((h.owner_of_mapped hx).symm.trans owner)
    rw [Cache.tables_mapTables, Tables.release_of_mapped hx, Tables.guest_discard_self hx, unlocked]
    rfl

theorem guest_of_not_owner (room : Room c x c' j) (h : c.tables.Coherent)
    (other : (c.tables.host x).owner ≠ some g) : c'.tables.guest g = c.tables.guest g := by
  cases room with
  | free _ => rfl
  | spill g' _ _ hx =>
    apply Tables.guest_release_of_ne
    rintro rfl
    exact other (h.owner_of_mapped hx)

end Room

/-! ## In the recompiler -/

namespace RecompilerM

variable {c : Cache} {b : Assembler} {a : Option HostReg} {x : HostReg} {g : GuestReg} {f : Failure}

theorem acquire_of_vacant (first : HostReg.First c.tables.Vacant x) :
    (request .acquire ⟨c, b⟩).state = ⟨c, b⟩ := by
  have quiet := CacheM.acquire_of_free (Cache.freeHost?_eq_some_iff.2 first)
  exact (request_of_quiet (Request.perform_acquire_of_run quiet)).2

section Fits

variable (h : c.tables.Coherent)
  (fits : (Instr.encodeAll (codeOf (Request.acquire.perform c).journal)).length ≤
    b.buffer.remaining)

include h fits

theorem result_acquire :
    (request .acquire ⟨c, b⟩).result = ((CacheM.acquire c).result.map some).mapError .fault := by
  rw [request_of_fits h fits]
  cases made : CacheM.acquire c with
  | mk o c' j => rw [Request.perform_acquire_of_run made]

theorem acquire_eq_ok_iff_chooses :
    (request .acquire ⟨c, b⟩).result = .ok a ↔ ∃ x, a = some x ∧ c.Chooses x := by
  simp only [result_acquire h fits, ← CacheM.acquire_eq_ok_iff h]
  cases (CacheM.acquire c).result <;> simp [Except.map, Except.mapError, eq_comm]

theorem acquire_eq_error_iff_full :
    (request .acquire ⟨c, b⟩).result = .error f ↔ f = .fault .outOfRegisters ∧ c.Full := by
  have refused_iff (e : Fault) := CacheM.acquire_eq_error_iff h (f := e)
  rw [result_acquire h fits]
  cases run : (CacheM.acquire c).result with
  | ok x =>
    refine iff_of_false nofun ?_
    rintro ⟨-, full⟩
    exact nomatch run.symm.trans ((refused_iff _).2 ⟨rfl, full⟩)
  | error e =>
    obtain ⟨rfl, full⟩ := (refused_iff e).1 run
    simp [Except.map, Except.mapError, full, eq_comm]

/-- **Granted.** The owner of the register is at home, and nothing else has changed. -/
theorem acquire_granted (granted : (request .acquire ⟨c, b⟩).result = .ok (some x))
    (owner : (c.tables.host x).owner = some g) :
    ∃ u, (request .acquire ⟨c, b⟩).state.cache = { c with tables := u } ∧
      u.guest g = .atHome g ∧ (∀ h, h ≠ g → u.guest h = c.tables.guest h) ∧
      u.host x = .vacant ∧ (∀ y, y ≠ x → u.host y = c.tables.host y) ∧
      (request .acquire ⟨c, b⟩).state.assembler.buffer.contents =
        b.buffer.contents ++ Instr.encodeAll (if (c.tables.host x).dirty = true ∧ g ≠ .zero
          then [.store false g.address x] else []) := by
  rcases CacheM.acquire_cases h with ⟨y, c', j, made, room⟩ | ⟨made, -⟩
  · have performed := Request.perform_acquire_of_run made
    obtain ⟨result, state, appended⟩ := request_of_done (b := b) h performed fits
    cases result.symm.trans granted
    have others (g' : GuestReg) (other : g' ≠ g) : c'.tables.guest g' = c.tables.guest g' := by
      apply room.guest_of_not_owner h
      rw [owner]
      exact fun e => other (Option.some.inj e).symm
    rw [room.codeOf_eq h, Tables.spillCode, owner] at appended
    exact ⟨c'.tables, state.trans room.cache_eq, room.guest_of_owner h owner, others,
      room.host_eq h, fun y => room.host_of_ne h, appended⟩
  · rw [(request_of_quiet (Request.perform_acquire_of_run made)).1] at granted
    cases granted

/-- **Refused.** Nothing has changed. -/
theorem acquire_refused (refused : (request .acquire ⟨c, b⟩).result = .error f) :
    (request .acquire ⟨c, b⟩).state = ⟨c, b⟩ := by
  rcases CacheM.acquire_cases h with ⟨y, c', j, made, -⟩ | ⟨made, -⟩
  · have performed := Request.perform_acquire_of_run made
    rw [(request_of_done (b := b) h performed fits).1] at refused
    cases refused
  · exact (request_of_quiet (Request.perform_acquire_of_run made)).2

end Fits

end RecompilerM

/-- **The allocation policy.** On the tables of a reachable state, with any oracle, position and
lookahead and with room for the code, `acquire` hands out just the register that the policy
chooses. A vacant one is handed out without any change. One with an owner is vacant afterwards and
the owner is at home and unbound; nothing else changes, and the code is one store of the owner if
the register was dirty and the owner is not the hardwired zero. Only if every register of the
allocation order is locked or owned by a locked register is there none to be had, and then nothing
changes either. -/
theorem Reachable.acquire_policy {c : Cache} {saved : List Snapshot} (run : Reachable c saved)
    (oracle : UsageOracle) (pc : Word) (lookahead : Nat) (b : Assembler)
    (fits : (Instr.encodeAll (codeOf
      (Request.acquire.perform ⟨c.tables, oracle, pc, lookahead⟩).journal)).length ≤
        b.buffer.remaining) :
    let d : Cache := ⟨c.tables, oracle, pc, lookahead⟩
    let acquired := RecompilerM.request .acquire ⟨d, b⟩
    (∀ a, acquired.result = .ok a ↔ ∃ x, a = some x ∧ d.Chooses x) ∧
    (∀ x, HostReg.First d.tables.Vacant x → acquired.state = ⟨d, b⟩) ∧
    (∀ x g, acquired.result = .ok (some x) → (d.tables.host x).owner = some g →
      ∃ u, acquired.state.cache = { d with tables := u } ∧
        u.guest g = .atHome g ∧ (∀ h, h ≠ g → u.guest h = d.tables.guest h) ∧
        u.host x = .vacant ∧ (∀ y, y ≠ x → u.host y = d.tables.host y) ∧
        acquired.state.assembler.buffer.contents = b.buffer.contents ++ Instr.encodeAll
          (if (d.tables.host x).dirty = true ∧ g ≠ .zero then [.store false g.address x] else [])) ∧
    (∀ f, acquired.result = .error f ↔ f = .fault .outOfRegisters ∧
      ∀ x ∈ HostReg.allocationOrder, (d.tables.host x).locked = true ∨
        ∃ g, (d.tables.host x).owner = some g ∧ (d.tables.guest g).locked = true) ∧
    ∀ f, acquired.result = .error f → acquired.state = ⟨d, b⟩ := by
  intro d acquired
  have h : d.tables.Coherent := run.coherent
  have granted_iff (a : Option HostReg) :
      acquired.result = .ok a ↔ ∃ x, a = some x ∧ d.Chooses x :=
    RecompilerM.acquire_eq_ok_iff_chooses h fits
  have vacant (x : HostReg) (first : HostReg.First d.tables.Vacant x) :
      acquired.state = ⟨d, b⟩ :=
    RecompilerM.acquire_of_vacant first
  have refused_iff (f : Failure) :
      acquired.result = .error f ↔ f = .fault .outOfRegisters ∧ d.Full :=
    RecompilerM.acquire_eq_error_iff_full h fits
  have unchanged (f : Failure) (refused : acquired.result = .error f) :
      acquired.state = ⟨d, b⟩ :=
    RecompilerM.acquire_refused h fits refused
  simp only [Cache.full_iff h] at refused_iff
  exact ⟨granted_iff, vacant, fun x g => RecompilerM.acquire_granted h fits, refused_iff, unchanged⟩

/-- One host register is reserved, the first owner is locked and the second is read again soon, so
the third is stored and its register handed out. With the other owners locked too there is none. -/
theorem Reachable.acquire_policy_of_taken :
    let oracle : UsageOracle := fun g pc lookahead => g == ⟨5⟩ && pc == 64 && lookahead == 30
    let rs : List Request := [.lockHosts [.r12], .mapGuest ⟨4⟩ true true, .mapGuest ⟨5⟩ true true,
      .mapGuest ⟨6⟩ false true, .mapGuest ⟨7⟩ true false, .mapGuest ⟨8⟩ true true,
      .mapGuest ⟨9⟩ false true, .lockGuests [⟨4⟩]]
    let c := (Request.performAll rs (.withLookahead 30)).state
    let full := (Request.performAll [.lockGuests [⟨5⟩, ⟨6⟩, ⟨7⟩, ⟨8⟩], .lockGuests [⟨9⟩]] c).state
    let b := Assembler.onBuffer ⟨.replicate 16 0, 0, .write⟩
    let spilled := RecompilerM.request .acquire ⟨⟨c.tables, oracle, 64, 30⟩, b⟩
    let refused := RecompilerM.request .acquire ⟨⟨full.tables, oracle, 64, 30⟩, b⟩
    Reachable c [] ∧ Reachable full [] ∧
      Cache.Chooses ⟨c.tables, oracle, 64, 30⟩ .r8 ∧ spilled.result = .ok (some .r8) ∧
      spilled.state.cache.tables.guest ⟨6⟩ = .atHome ⟨6⟩ ∧
      spilled.state.assembler.buffer.contents =
        b.buffer.contents ++ Instr.encodeAll [.store false (GuestReg.address ⟨6⟩) .r8] ∧
      refused.result = .error (.fault .outOfRegisters) ∧
      refused.state = ⟨⟨full.tables, oracle, 64, 30⟩, b⟩ := by
  intro oracle rs c full b spilled refused
  have ok₁ : (Request.performAll rs (.withLookahead 30)).result = .ok () := by decide +kernel
  have ok₂ : (Request.performAll [.lockGuests [⟨5⟩, ⟨6⟩, ⟨7⟩, ⟨8⟩], .lockGuests [⟨9⟩]] c).result =
      .ok () := by
    decide +kernel
  have run : Reachable c [] := (Reachable.init 30).performAll (by simp [rs]) ok₁
  have run' : Reachable full [] := run.performAll (by simp) ok₂
  have fits : (Instr.encodeAll (codeOf (Request.acquire.perform
      ⟨c.tables, oracle, 64, 30⟩).journal)).length ≤ b.buffer.remaining := by
    decide +kernel
  have fits' : (Instr.encodeAll (codeOf (Request.acquire.perform
      ⟨full.tables, oracle, 64, 30⟩).journal)).length ≤ b.buffer.remaining := by
    decide +kernel
  have granted : spilled.result = .ok (some .r8) := by decide +kernel
  have third : (c.tables.host .r8).owner = some ⟨6⟩ ∧ (c.tables.host .r8).dirty = true := by
    decide +kernel
  have taken : ∀ x ∈ HostReg.allocationOrder, (full.tables.host x).locked = true ∨
      (full.tables.host x).owner.any (fun g => (full.tables.guest g).locked) = true := by
    decide +kernel
  simp only [Option.any_eq_true] at taken
  obtain ⟨chosen, -, effect, -, -⟩ := run.acquire_policy oracle 64 30 b fits
  obtain ⟨-, -, -, exhausted, unchanged⟩ := run'.acquire_policy oracle 64 30 b fits'
  obtain ⟨x, hx, chooses⟩ := (chosen _).1 granted
  cases hx
  obtain ⟨u, state, home, -, -, -, appended⟩ := effect .r8 ⟨6⟩ granted third.1
  have none := (exhausted _).2 ⟨rfl, taken⟩
  refine ⟨run, run', chooses, granted, ?_, ?_, none, unchanged _ none⟩
  · rw [state]
    exact home
  · rw [appended, if_pos ⟨third.2, by decide⟩]

end Dynarec
