import Mathlib.Data.List.Perm.Subperm
import Dynarec.Proofs.Locks
import Dynarec.Proofs.Sequences

/-!
# Locked operands fit

The operands of an instruction are locked and then mapped one by one. `Tables.Accommodates` says
that no guest register is mapped to a locked host register and that there is a host register for
each locked guest register. Then no host register can be missing for a locked guest register that
is still unmapped (`Tables.Accommodates.not_full`, a count over both tables), and mapping one keeps
the others in place. So any list of `Demand`s for locked registers is met, and in the end all of
them are mapped at the same time.
-/

namespace Dynarec

namespace Tables

/-- The host registers that could hold a guest value but are reserved as scratch. -/
def lockedHosts (t : Tables) : List HostReg :=
  HostReg.allocationOrder.filter fun x => (t.host x).locked

def lockedGuests (t : Tables) : List GuestReg := GuestReg.all.filter fun g => (t.guest g).locked

/-- There is a host register for each locked guest register, and nothing is mapped to a locked
one. -/
structure Accommodates (t : Tables) : Prop where
  unlocked : ∀ {g x}, t.hostOf? g = some x → (t.host x).locked = false
  enough : t.lockedHosts.length + t.lockedGuests.length ≤ HostReg.allocationOrder.length

variable {t u : Tables} {g : GuestReg} {x : HostReg}

theorem mem_lockedGuests : g ∈ t.lockedGuests ↔ (t.guest g).locked = true := by
  simp [lockedGuests, g.mem_all]

theorem lockedHosts_congr (same : ∀ x, (u.host x).locked = (t.host x).locked) :
    u.lockedHosts = t.lockedHosts := by
  simp only [lockedHosts, same]

theorem lockedGuests_congr (same : ∀ g, (u.guest g).locked = (t.guest g).locked) :
    u.lockedGuests = t.lockedGuests := by
  simp only [lockedGuests, same]

/-- Tables that the check finds in order have nothing mapped to a locked host register. -/
theorem Coherent.unlocked_of_sane (c : t.Coherent) (sane : t.inconsistency? = none)
    (hx : t.hostOf? g = some x) : (t.host x).locked = false := by
  rw [← Bool.not_eq_true]
  intro locked
  have found := c.inconsistency?_isSome_iff.2 ⟨g, x, binds_mapped_iff.2 hx, locked⟩
  rw [sane] at found
  cases found

end Tables

/-- If no host register can be had, there are at least as many locks as host registers to allocate,
even without that of a guest register which is not mapped. -/
theorem Cache.Full.length_le {c : Cache} (full : c.Full) {g : GuestReg}
    (unmapped : c.tables.hostOf? g = none) :
    HostReg.allocationOrder.length ≤
      c.tables.lockedHosts.length + (c.tables.lockedGuests.erase g).length := by
  have sub : (HostReg.allocationOrder.filter fun x => !(c.tables.host x).locked) ⊆
      (c.tables.lockedGuests.erase g).filterMap c.tables.hostOf? := by
    intro x hx
    obtain ⟨hx, unlocked⟩ := List.mem_filter.1 hx
    rcases full x hx with locked | ⟨g', mapped, locked⟩
    · simp [locked] at unlocked
    · refine List.mem_filterMap.2 ⟨g', ?_, mapped⟩
      refine (List.mem_erase_of_ne ?_).2 (Tables.mem_lockedGuests.2 locked)
      rintro rfl
      rw [unmapped] at mapped
      cases mapped
  have few := (List.subperm_of_subset (HostReg.nodup_allocationOrder.filter _) sub).length_le
  have fewer := List.length_filterMap_le c.tables.hostOf? (c.tables.lockedGuests.erase g)
  have split := List.length_eq_length_filter_add (l := HostReg.allocationOrder)
    fun x => (c.tables.host x).locked
  simp only [Tables.lockedHosts]
  omega

/-- There is always a host register to be had for a locked guest register. -/
theorem Tables.Accommodates.not_full {c : Cache} {g : GuestReg} (a : c.tables.Accommodates)
    (locked : (c.tables.guest g).locked = true) (unmapped : c.tables.hostOf? g = none) :
    ¬ c.Full := by
  intro full
  have many := full.length_le unmapped
  have hg := Tables.mem_lockedGuests.2 locked
  have enough := a.enough
  have nonempty := List.length_pos_of_mem hg
  rw [List.length_erase_of_mem hg] at many
  omega

/-! ## Mapping one register -/

namespace Room

variable {c c' : Cache} {x y : HostReg} {j : List Event} {g : GuestReg}

theorem locked_guest (room : Room c x c' j) (g : GuestReg) :
    (c'.tables.guest g).locked = (c.tables.guest g).locked := by
  cases room with
  | free _ => rfl
  | spill h _ _ _ => exact Tables.locked_guest_release c.tables h g

theorem locked_host (room : Room c x c' j) (h : c.tables.Coherent) (y : HostReg) :
    (c'.tables.host y).locked = (c.tables.host y).locked := by
  cases room with
  | free _ => rfl
  | spill g _ _ _ => exact h.locked_host_release g y

end Room

namespace Request.Done

variable {c c' : Cache} {g : GuestReg} {load dirty : Bool} {j : List Event}

/-- Mapping a register locks and unlocks nothing. -/
theorem locks_of_mapGuest (d : Done c (.mapGuest g load dirty) c' j) (h : c.tables.Coherent) :
    (∀ g', (c'.tables.guest g').locked = (c.tables.guest g').locked) ∧
      ∀ x, (c'.tables.host x).locked = (c.tables.host x).locked := by
  cases d with
  | @remap _ x _ _ mapped unlocked =>
    refine ⟨fun _ => rfl, ?_⟩
    intro y
    by_cases e : x = y
    · subst e
      rw [Cache.tables_mapTables, Tables.host_markDirty_self]
    · rw [Cache.tables_mapTables, Tables.host_markDirty_of_ne _ _ e]
  | @map _ x c₁ j₁ _ _ unmapped room =>
    refine ⟨?_, ?_⟩
    · intro g'
      rw [← room.locked_guest, Cache.tables_mapTables]
      by_cases e : g = g'
      · subst e
        rw [Tables.guest_bind_self]
      · rw [Tables.guest_bind_of_ne _ _ _ e]
    · intro y
      by_cases e : x = y
      · subst e
        rw [Cache.tables_mapTables, Tables.host_bind_self, room.host_unlocked]
      · rw [Cache.tables_mapTables, Tables.host_bind_of_ne _ _ _ e, room.locked_host h]

/-- Afterwards the register is mapped to a host register that is not locked; the others are where
they were, or have been sent home. -/
theorem mapped_of_mapGuest (d : Done c (.mapGuest g load dirty) c' j) (h : c.tables.Coherent) :
    (∃ x, c'.tables.hostOf? g = some x ∧ (c'.tables.host x).locked = false) ∧
      ∀ g' x, g ≠ g' → c'.tables.hostOf? g' = some x → c.tables.hostOf? g' = some x := by
  cases d with
  | @remap _ x _ _ mapped unlocked =>
    refine ⟨⟨x, mapped, ?_⟩, fun _ _ _ => id⟩
    rw [Cache.tables_mapTables, Tables.host_markDirty_self]
    exact unlocked
  | @map _ x c₁ j₁ _ _ unmapped room =>
    refine ⟨⟨x, Tables.hostOf?_bind_self .., ?_⟩, ?_⟩
    · rw [Cache.tables_mapTables, Tables.host_bind_self]
    · intro g' y hne mapped
      rw [Cache.tables_mapTables, Tables.hostOf?_bind_of_ne _ _ _ hne] at mapped
      exact room.mapped_before h mapped

theorem accommodates (d : Done c (.mapGuest g load dirty) c' j) (h : c.tables.Coherent)
    (a : c.tables.Accommodates) : c'.tables.Accommodates := by
  obtain ⟨guests, hosts⟩ := d.locks_of_mapGuest h
  obtain ⟨⟨x, mapped, unlocked⟩, others⟩ := d.mapped_of_mapGuest h
  refine ⟨?_, ?_⟩
  · intro g' y hy
    by_cases e : g = g'
    · subst e
      rw [mapped] at hy
      obtain rfl := Option.some.inj hy
      exact unlocked
    · rw [hosts]
      exact a.unlocked (others g' y e hy)
  · rw [Tables.lockedHosts_congr hosts, Tables.lockedGuests_congr guests]
    exact a.enough

end Request.Done

/-! ## Mapping all of them -/

/-- An operand to be mapped, with whether its value is needed and whether it is about to be
written. -/
structure Demand where
  guest : GuestReg
  load : Bool
  dirty : Bool

namespace Demand

def request (d : Demand) : Request := .mapGuest d.guest d.load d.dirty

theorem request_ne_restore (d : Demand) (t : Tables) : d.request ≠ .restore t := by
  rw [request]
  nofun

variable {c : Cache}

/-- A demand for a locked register is met. -/
theorem done_of_accommodates (d : Demand) (h : c.tables.Coherent) (a : c.tables.Accommodates)
    (locked : (c.tables.guest d.guest).locked = true) :
    ∃ r c' j, d.request.perform c = ⟨.ok r, c', j⟩ ∧ d.request.Done c c' j := by
  rcases Request.perform_cases h d.request with run | ⟨f, c', -, misuse⟩
  · exact run
  · cases misuse with
    | boundToLocked _ _ mapped hostLocked =>
      rw [a.unlocked mapped] at hostLocked
      cases hostLocked
    | mapFull _ _ unmapped full => exact absurd full (a.not_full locked unmapped)

/-- Demands for locked registers are met one after the other, and what is mapped stays. -/
theorem performAll_of_accommodates (ds : List Demand) (h : c.tables.Coherent)
    (a : c.tables.Accommodates) (locked : ∀ d ∈ ds, (c.tables.guest d.guest).locked = true) :
    ∃ c' j, Request.performAll (ds.map request) c = ⟨.ok (), c', j⟩ ∧ c'.tables.Coherent ∧
      c'.tables.Accommodates ∧ (∀ g x, c.tables.Pinned g x → c'.tables.Pinned g x) ∧
      ∀ d ∈ ds, ∃ x, c'.tables.Pinned d.guest x := by
  induction ds generalizing c with
  | nil => exact ⟨c, [], rfl, h, a, fun _ _ => id, nofun⟩
  | cons d ds ih =>
    obtain ⟨r, c₁, j₁, run₁, done⟩ := d.done_of_accommodates h a (locked d List.mem_cons_self)
    have h₁ := Request.coherent_of_run h d.request_ne_restore run₁
    obtain ⟨guests, -⟩ := done.locks_of_mapGuest h
    obtain ⟨⟨x, mapped, -⟩, -⟩ := done.mapped_of_mapGuest h
    have pinned : c₁.tables.Pinned d.guest x :=
      ⟨(guests d.guest).trans (locked d List.mem_cons_self), mapped⟩
    have locked₁ : ∀ d' ∈ ds, (c₁.tables.guest d'.guest).locked = true := fun d' hd' =>
      (guests d'.guest).trans (locked d' (List.mem_cons_of_mem d hd'))
    obtain ⟨c₂, j₂, run₂, h₂, a₂, stay, met⟩ := ih h₁ (done.accommodates h a) locked₁
    refine ⟨c₂, j₁ ++ j₂, ?_, h₂, a₂, ?_, ?_⟩
    · rw [List.map_cons, Request.performAll_cons, run₁, Outcome.andThen_ok, run₂]
      rfl
    · intro g y p
      exact stay g y (done.stays h p rfl nofun).toPinned
    · intro d' hd'
      rcases List.mem_cons.1 hd' with rfl | hd'
      · exact ⟨x, stay _ x pinned⟩
      · exact met d' hd'

end Demand

/-- **Locked operands can be held together.** In a reachable state that passes the check, let there
be no more locked registers than host registers to allocate, counting the locked ones of these and
the locked guest registers. Then mapping locked guest registers in any order, each as often as one
likes, goes through, and also with the code buffer if the code fits. Afterwards all of them are
mapped at the same time, to different host registers, and nothing is mapped to a locked one. -/
theorem Reachable.locked_operands_coresident {c : Cache} {saved : List Snapshot}
    (run : Reachable c saved) (sane : c.tables.inconsistency? = none)
    (enough : c.tables.lockedHosts.length + c.tables.lockedGuests.length ≤
      HostReg.allocationOrder.length)
    (ds : List Demand) (locked : ∀ d ∈ ds, (c.tables.guest d.guest).locked = true) :
    ∃ c' j, Request.performAll (ds.map Demand.request) c = ⟨.ok (), c', j⟩ ∧
      (∀ b : Assembler, (Instr.encodeAll (codeOf j)).length ≤ b.buffer.remaining →
        ∃ b' log, RecompilerM.requestAll (ds.map Demand.request) ⟨c, b⟩ =
          ⟨.ok (), ⟨c', b'⟩, log⟩) ∧
      (∀ d ∈ ds, ∃ x, c'.tables.Binds d.guest (.mapped x)) ∧
      (∀ g h x, c'.tables.Binds g (.mapped x) → c'.tables.Binds h (.mapped x) → g = h) ∧
      ∀ g x, c'.tables.Binds g (.mapped x) → (c'.tables.host x).locked = false := by
  have h := run.coherent
  have a : c.tables.Accommodates := ⟨h.unlocked_of_sane sane, enough⟩
  obtain ⟨c', j, made, h', a', -, met⟩ := Demand.performAll_of_accommodates ds h a locked
  refine ⟨c', j, made, ?_, ?_, ?_, ?_⟩
  · intro b fits
    refine RecompilerM.requestAll_of_fits h ?_ made fits
    intro r hr
    obtain ⟨d, -, rfl⟩ := List.mem_map.1 hr
    exact d.request_ne_restore
  · intro d hd
    obtain ⟨x, p⟩ := met d hd
    exact ⟨x, Tables.binds_mapped_iff.2 p.mapped⟩
  · intro g g' x hg hg'
    exact h'.mapped_inj (Tables.binds_mapped_iff.1 hg) (Tables.binds_mapped_iff.1 hg')
  · intro g x hg
    exact a'.unlocked (Tables.binds_mapped_iff.1 hg)

/-- Three host registers are reserved, the other four hold registers that are soon read again, and
the four locked operands, the hardwired zero among them, take their places. -/
theorem Reachable.locked_operands_coresident_under_pressure :
    let rs : List Request := [.start (fun _ _ _ => true) 0, .lockHosts [.r8, .r9, .r10],
      .mapGuest ⟨8⟩ true true, .mapGuest ⟨9⟩ true false, .mapGuest ⟨10⟩ false true,
      .mapGuest ⟨11⟩ true true, .lockGuests [.zero, ⟨4⟩, ⟨5⟩, ⟨6⟩]]
    let c := (Request.performAll rs (.withLookahead 30)).state
    let ds : List Demand := [⟨⟨4⟩, true, false⟩, ⟨⟨5⟩, false, true⟩, ⟨.zero, true, false⟩,
      ⟨⟨4⟩, true, true⟩, ⟨⟨6⟩, true, true⟩]
    Reachable c [] ∧ c.freeHost? = none ∧
      ∃ c' j, Request.performAll (ds.map Demand.request) c = ⟨.ok (), c', j⟩ ∧
        ∀ d ∈ ds, ∃ x, c'.tables.Binds d.guest (.mapped x) := by
  intro rs c ds
  have ok : (Request.performAll rs (.withLookahead 30)).result = .ok () := by decide +kernel
  have run : Reachable c [] := (Reachable.init 30).performAll (by simp [rs]) ok
  have full : c.freeHost? = none := by decide +kernel
  have sane : c.tables.inconsistency? = none := by decide +kernel
  have counts : c.tables.lockedHosts = [.r8, .r9, .r10] ∧
      c.tables.lockedGuests = [.zero, ⟨4⟩, ⟨5⟩, ⟨6⟩] := by
    decide +kernel
  have locked : ∀ d ∈ ds, (c.tables.guest d.guest).locked = true := by decide +kernel
  obtain ⟨c', j, made, -, met, -, -⟩ :=
    run.locked_operands_coresident sane (by rw [counts.1, counts.2]; decide) ds locked
  exact ⟨run, full, c', j, made, met⟩

end Dynarec
