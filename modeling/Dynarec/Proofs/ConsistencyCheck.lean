import Mathlib.Data.List.Perm.Subperm
import Dynarec.Proofs.CheckedRuns

/-!
# What the consistency check is good for

Of the four internal faults, tables that pass the check exclude one outright and each of the others
on a condition that the check does not look at (`RecompilerM.internal_faults_of_checked`). Each
condition is needed: a slot that does not agree cannot be mapped, and a host register that nothing
keeps is handed out in the end, once every other one holds a value that is read soon. If it is dirty
or the place of a slot at home, that is a fault (`Request.exists_barred_fault`).
-/

namespace Dynarec

open Journal

/-! ## Host registers that nothing keeps -/

namespace Tables

variable {t u : Tables} {g h : GuestReg} {x y z : HostReg} {o : Option GuestReg}

/-- Nothing keeps the host register from being handed out as it is. -/
structure Exposed (t : Tables) (x : HostReg) : Prop where
  allocatable : x ∈ HostReg.allocationOrder
  unlocked : (t.host x).locked = false
  stale : ∀ g, (t.host x).owner = some g → (t.guest g).locked = false ∧ t.hostOf? g ≠ some x

/-- The host register is the place of a slot at home. -/
def HasStray (t : Tables) (x : HostReg) : Prop :=
  ∃ g, (t.guest g).place = .reg x ∧ (t.guest g).away = false

/-- Handing out the host register is a fault. -/
def Barred (t : Tables) (x : HostReg) : Prop := (t.host x).dirty = true ∨ t.HasStray x

theorem exists_exposed_of_dirty (d : ¬ t.DirtyKept) :
    ∃ x, t.Exposed x ∧ (t.host x).dirty = true := by
  simp only [DirtyKept, not_forall, not_or, not_exists, not_and, Bool.not_eq_true] at d
  obtain ⟨x, allocatable, dirty, unlocked, stale⟩ := d
  exact ⟨x, ⟨allocatable, unlocked, fun g owner => stale g owner⟩, dirty⟩

/-- The host register of a stray slot is exposed, at the latest when the register that is mapped to
it is sent home. -/
theorem exists_exposed_of_stray (k : ¬ t.StraysKept) :
    ∃ x, t.HasStray x ∧ (t.Exposed x ∨ ∃ g, (t.release g).Exposed x) := by
  simp only [StraysKept, not_forall, not_or, not_exists, not_and, Bool.not_eq_true, not_not] at k
  obtain ⟨x, allocatable, h, place, home, unlocked, kept⟩ := k
  refine ⟨x, ⟨h, place, home⟩, ?_⟩
  cases owner : (t.host x).owner with
  | none => exact .inl ⟨allocatable, unlocked, fun g owner' => nomatch owner.symm.trans owner'⟩
  | some g =>
    by_cases mapped : t.hostOf? g = some x
    · have freed := (unbinds_release t g).freed x mapped
      refine .inr ⟨g, allocatable, ?_, ?_⟩
      · rw [freed]
        exact unlocked
      · rw [freed]
        exact nofun
    · refine .inl ⟨allocatable, unlocked, fun i owner' => ?_⟩
      cases owner.symm.trans owner'
      exact ⟨Bool.eq_false_iff.2 fun locked => mapped (kept g owner locked), mapped⟩

/-- There are more guest registers than host registers: one that is not listed is not mapped. -/
theorem Checked.exists_unmapped (k : t.Checked) {gs : List GuestReg} (few : gs.length ≤ 2) :
    ∃ h ∉ gs, t.hostOf? h = none := by
  by_contra none
  simp only [not_exists, not_and] at none
  have nodup : GuestReg.all.Nodup := by decide
  have sub : GuestReg.all ⊆ gs ++ HostReg.all.filterMap fun x => (t.host x).owner := by
    intro h _
    by_cases listed : h ∈ gs
    · exact List.mem_append_left _ listed
    · obtain ⟨x, mapped⟩ := Option.ne_none_iff_exists'.1 (none h listed)
      have owner := (k.mapped mapped).2.1
      exact List.mem_append_right _ (List.mem_filterMap.2 ⟨x, x.mem_all, owner⟩)
  have bound := (List.subperm_of_subset nodup sub).length_le
  have owners := List.length_filterMap_le (fun x => (t.host x).owner) HostReg.all
  rw [List.length_append, GuestReg.length_all] at bound
  have hosts : HostReg.all.length = 16 := rfl
  have guests : guestRegCount = 36 := rfl
  omega

/-- The host register will not be handed out as long as all guest registers but `o` are read soon:
it is locked, or holds the value of one of the others. -/
def settled (t : Tables) (o : Option GuestReg) (x : HostReg) : Bool :=
  (t.host x).locked ||
    (t.host x).owner.any fun g => t.hostOf? g == some x && o != some g

theorem settled_iff : t.settled o x = true ↔
    (t.host x).locked = true ∨
      ∃ g, (t.host x).owner = some g ∧ t.hostOf? g = some x ∧ o ≠ some g := by
  simp [settled, Option.any_eq_true]

/-- The host registers of the allocation order that are not settled. -/
def unsettled (t : Tables) (o : Option GuestReg) : List HostReg :=
  HostReg.allocationOrder.filter fun x => !t.settled o x

/-- Fewer are unsettled if one more is settled and none less. -/
theorem length_unsettled_lt (hy : y ∈ HostReg.allocationOrder) (before : t.settled o y = false)
    (after : u.settled o y = true)
    (others : ∀ z, t.settled o z = true → u.settled o z = true) :
    (u.unsettled o).length < (t.unsettled o).length := by
  have nodup : (u.unsettled o).Nodup := HostReg.nodup_allocationOrder.filter _
  have here : y ∈ t.unsettled o := List.mem_filter.2 ⟨hy, by rw [before]; rfl⟩
  have sub : u.unsettled o ⊆ (t.unsettled o).erase y := by
    intro z hz
    obtain ⟨hz, unsettled⟩ := List.mem_filter.1 hz
    rw [Bool.not_eq_true'] at unsettled
    have apart : z ≠ y := by
      rintro rfl
      exact nomatch unsettled.symm.trans after
    refine (List.mem_erase_of_ne apart).2 (List.mem_filter.2 ⟨hz, ?_⟩)
    rw [Bool.not_eq_true', Bool.eq_false_iff]
    intro settled
    exact nomatch unsettled.symm.trans (others z settled)
  have less := (List.subperm_of_subset nodup sub).length_le
  rw [List.length_erase_of_mem here] at less
  have nonempty := List.length_pos_of_mem here
  omega

/-- Sending the owner of an exposed host register home does not help: it is not mapped there. -/
theorem Exposed.unbind (e : t.Exposed x) (n : t.Unbinds u g)
    (owner : (t.host x).owner = some g) : u.Exposed x ∧ u.host x = t.host x := by
  obtain ⟨unlocked, apart⟩ := e.stale g owner
  have same := n.host x apart
  refine ⟨⟨e.allocatable, ?_, ?_⟩, same⟩
  · rw [same]
    exact e.unlocked
  · intro h owner'
    rw [same, owner] at owner'
    obtain rfl := Option.some.inj owner'
    rw [n.locked, n.unmapped]
    exact ⟨unlocked, nofun⟩

theorem Exposed.bind (e : t.Exposed x) (apart : y ≠ x) (other : (t.host x).owner ≠ some h)
    (dirty : Bool) : (t.bind h y dirty).Exposed x := by
  have same := host_bind_of_ne t h dirty apart
  refine ⟨e.allocatable, ?_, ?_⟩
  · rw [same]
    exact e.unlocked
  · intro g owner
    rw [same] at owner
    have ne : h ≠ g := fun eq => other (eq ▸ owner)
    rw [guest_bind_of_ne t y dirty ne, hostOf?_bind_of_ne t y dirty ne]
    exact e.stale g owner

/-- What is at home is not sent there. -/
theorem HasStray.release (s : t.HasStray x) (g : GuestReg) : (t.release g).HasStray x := by
  obtain ⟨h, place, home⟩ := s
  have same : (t.release g).guest h = t.guest h := by
    by_cases e : g = h
    · subst e
      rw [guest_release_self, if_neg (by rw [home]; nofun)]
    · exact guest_release_of_ne t e
  refine ⟨h, ?_⟩
  rw [same]
  exact ⟨place, home⟩

theorem ne_of_stray (agrees : (t.guest h).agrees = true) (place : (t.guest g).place = .reg x)
    (home : (t.guest g).away = false) : h ≠ g := by
  rintro rfl
  exact nomatch agrees.symm.trans (disagrees_of_stray place home)

theorem HasStray.bind (s : t.HasStray x) (agrees : (t.guest h).agrees = true) (y : HostReg)
    (dirty : Bool) : (t.bind h y dirty).HasStray x := by
  obtain ⟨g, place, home⟩ := s
  refine ⟨g, ?_⟩
  rw [guest_bind_of_ne t y dirty (ne_of_stray agrees place home)]
  exact ⟨place, home⟩

theorem Barred.release (b : t.Barred x) (apart : t.hostOf? g ≠ some x) :
    (t.release g).Barred x := by
  refine b.imp (fun dirty => ?_) (·.release g)
  rw [(unbinds_release t g).host x apart]
  exact dirty

theorem Barred.bind (b : t.Barred x) (apart : y ≠ x) (agrees : (t.guest h).agrees = true)
    (dirty : Bool) : (t.bind h y dirty).Barred x := by
  refine b.imp (fun before => ?_) (·.bind agrees y dirty)
  rw [host_bind_of_ne t h dirty apart]
  exact before

theorem settled_unbind (k : t.Checked) (n : t.Unbinds u g) (ho : o = some g)
    (settled : t.settled o z = true) : u.settled o z = true := by
  rw [settled_iff] at settled ⊢
  rcases settled with locked | ⟨h, owner, mapped, other⟩
  · refine .inl ?_
    by_cases freed : t.hostOf? g = some z
    · rw [n.freed z freed]
      exact locked
    · rw [n.host z freed]
      exact locked
  · have ne : g ≠ h := fun eq => other (ho.trans (congrArg some eq))
    refine .inr ⟨h, ?_, ?_, other⟩
    · rw [k.host_of_mapped n ne mapped, owner]
    · rw [hostOf?_of_guest_eq (n.guest h ne), mapped]

theorem settled_bind (unmapped : t.hostOf? h = none) (other : o ≠ some h) (dirty : Bool)
    (settled : t.settled o z = true ∨ z = y) : (t.bind h y dirty).settled o z = true := by
  rw [settled_iff]
  by_cases e : y = z
  · subst e
    refine .inr ⟨h, ?_, hostOf?_bind_self t h y dirty, other⟩
    rw [host_bind_self]
  · rcases settled_iff.1 (settled.resolve_right (Ne.symm e)) with locked | ⟨g, owner, mapped, ne⟩
    · exact .inl (by rw [host_bind_of_ne t h dirty e, locked])
    · have apart : h ≠ g := by
        rintro rfl
        exact nomatch unmapped.symm.trans mapped
      refine .inr ⟨g, ?_, ?_, ne⟩
      · rw [host_bind_of_ne t h dirty e, owner]
      · rw [hostOf?_bind_of_ne t y dirty apart, mapped]

/-- A barred host register is not the one that is mapped to without a fault. -/
theorem Barred.ne (b : t.Barred x) (agrees : (t.guest h).agrees = true)
    (clean : (t.host y).dirty = false) (alone : ∀ g, h ≠ g → (t.guest g).place ≠ .reg y) :
    y ≠ x := by
  rintro rfl
  rcases b with dirty | ⟨g, place, home⟩
  · exact nomatch clean.symm.trans dirty
  · exact alone g (ne_of_stray agrees place home) place

/-- On the way from `t`, in `u`, to handing out the barred host register, whose owner is `o`. -/
structure Nears (t u : Tables) (x : HostReg) (o : Option GuestReg) : Prop where
  changes : t.Changes u
  exposed : u.Exposed x
  barred : u.Barred x
  owner : (u.host x).owner = o
  settled : ∀ z, t.settled o z = true → u.settled o z = true

theorem Exposed.nears (e : t.Exposed x) (b : t.Barred x) (ho : (t.host x).owner = o) :
    t.Nears t x o :=
  ⟨.refl, e, b, ho, fun _ => id⟩

/-- Neither the exposed host register nor a settled one misses the owner that is sent home. -/
theorem Exposed.nears_release (e : t.Exposed x) (k : t.Checked) (b : t.Barred x)
    (ho : (t.host x).owner = some g) : t.Nears (t.release g) x (some g) := by
  have n := unbinds_release t g
  obtain ⟨exposed, same⟩ := e.unbind n ho
  refine ⟨.single (.unbind n), exposed, b.release (e.stale g ho).2, ?_,
    fun z => settled_unbind k n rfl⟩
  rw [same, ho]

theorem Nears.bind (a : t.Nears u x o) (unmapped : u.hostOf? h = none) (other : o ≠ some h)
    (alone : ∀ g, h ≠ g → (u.guest g).place ≠ .reg y) (agrees : (u.guest h).agrees = true)
    (clean : (u.host y).dirty = false) (dirty : Bool) : t.Nears (u.bind h y dirty) x o := by
  have apart : y ≠ x := a.barred.ne agrees clean alone
  have owner : ((u.bind h y dirty).host x).owner = o := by
    rw [host_bind_of_ne u h dirty apart, a.owner]
  exact ⟨a.changes.tail (.bind dirty unmapped alone), a.exposed.bind apart (a.owner ▸ other) dirty,
    a.barred.bind apart agrees dirty, owner,
    fun z hz => settled_bind unmapped other dirty (.inl (a.settled z hz))⟩

end Tables

/-- The faults that handing out a host register can end with. -/
inductive Fault.OfHandingOut : Fault → Prop where
  | hostAlreadyDirty (x : HostReg) : OfHandingOut (.hostAlreadyDirty x)
  | aliasedHost (x : HostReg) (g h : GuestReg) : OfHandingOut (.aliasedHost x g h)

namespace CacheM

variable {c : Cache} {h : GuestReg} {x : HostReg} {o : Option GuestReg}

/-- While `x` is exposed, and its owner alone is not read soon, a host register is handed out that
is not settled, and if anything is sent home it is that owner. -/
theorem acquire_of_exposed (k : c.tables.Checked) (e : c.tables.Exposed x)
    (barred : c.tables.Barred x) (ho : (c.tables.host x).owner = o)
    (soon : ∀ g, c.oracle g c.pc c.lookahead = decide (o ≠ some g)) :
    ∃ y u j, acquire c = ⟨.ok y, c.mapTables fun _ => u, j⟩ ∧ u.Offered y ∧
      c.tables.settled o y = false ∧ c.tables.Nears u x o ∧
      ∀ h, c.tables.hostOf? h = none → u.hostOf? h = none := by
  cases hf : c.freeHost? with
  | some y =>
    obtain ⟨-, unlocked, free⟩ := Cache.freeHost?_some hf
    refine ⟨y, c.tables, [], acquire_of_free hf, offered_of_free k hf, ?_, e.nears barred ho,
      fun _ => id⟩
    simp [Tables.settled, unlocked, (k.vacant free).1]
  | none =>
    have candidate : (c.victim? true).isSome = true := by
      refine List.find?_isSome.2 ⟨x, e.allocatable, ?_⟩
      cases owner : (c.tables.host x).owner with
      | none => simp [Cache.keepsOwner, e.unlocked, owner]
      | some g =>
        have here : o = some g := ho.symm.trans owner
        simp [Cache.keepsOwner, e.unlocked, owner, soon, here, (e.stale g owner).1]
    obtain ⟨y, hy⟩ := Option.isSome_iff_exists.1 candidate
    obtain ⟨-, unlocked, kept⟩ := Cache.victim?_some hy
    have hv : (c.victim? true).or (c.victim? false) = some y := by rw [hy, Option.some_or]
    have run := acquire_of_victim hf hv
    rw [spill_run] at run
    cases owner : (c.tables.host y).owner with
    | none =>
      rw [owner] at run
      refine ⟨y, c.tables, [], run, offered_of_unowned k hy owner, ?_, e.nears barred ho,
        fun _ => id⟩
      simp [Tables.settled, unlocked, owner]
    | some g =>
      rw [owner] at run
      simp only [Cache.keepsOwner, owner, soon, Bool.true_and, Bool.or_eq_false_iff,
        decide_eq_false_iff_not, not_not] at kept
      obtain ⟨-, rfl⟩ := kept
      have n := Tables.unbinds_release c.tables g
      refine ⟨y, _, _, run, offered_of_spilled k hy owner, ?_, e.nears_release k barred ho,
        fun h => n.hostOf?_eq_none⟩
      simp [Tables.settled, unlocked, owner]

/-- **One mapping.** Mapping a register that is not the owner of the exposed one stops there, or it
leaves one host register less to hand out. -/
theorem mapGuest_of_exposed (k : c.tables.Checked) (agrees : (c.tables.guest h).agrees = true)
    (e : c.tables.Exposed x) (barred : c.tables.Barred x) (ho : (c.tables.host x).owner = o)
    (soon : ∀ g, c.oracle g c.pc c.lookahead = decide (o ≠ some g))
    (unmapped : c.tables.hostOf? h = none) (other : o ≠ some h) :
    (∃ f c' j, mapGuest h false false c = ⟨.error f, c', j⟩ ∧ f.OfHandingOut) ∨
    ∃ v j, mapGuest h false false c = ⟨.ok (), c.mapTables fun _ => v, j⟩ ∧
      c.tables.Nears v x o ∧ (v.unsettled o).length < (c.tables.unsettled o).length := by
  obtain ⟨y, u, j, run, offered, unsettled, near, still⟩ := acquire_of_exposed k e barred ho soon
  rw [mapGuest_of_agreeing agrees unmapped]
  rcases occupy_cases run offered.unlocked h (c.tables.guest h).place false false with
    ⟨-, stopped⟩ | ⟨g, s, j', -, stopped⟩ | ⟨j', clean, alone, bound⟩
  · exact .inl ⟨_, _, _, by rw [stopped]; rfl, .hostAlreadyDirty y⟩
  · exact .inl ⟨_, _, _, by rw [stopped]; rfl, .aliasedHost y h g⟩
  · have still := still h unmapped
    have near := near.bind still other alone (near.changes.agrees agrees) clean
      (false || (c.tables.guest h).place.isImm)
    refine .inr ⟨_, j', ?_, near, ?_⟩
    · rw [bound, Outcome.andThen_ok, checkBound_run (Tables.hostOf?_bind_self ..),
        Cache.tables_mapTables, Tables.host_bind_self]
      simp [Cache.mapTables]
    · exact Tables.length_unsettled_lt offered.allocatable unsettled
        (Tables.settled_bind still other _ (.inr rfl)) near.settled

end CacheM

/-- Every register but `o` is read soon. -/
def UsageOracle.allBut (o : Option GuestReg) : UsageOracle := fun g _ _ => decide (o ≠ some g)

namespace Request

/-- **A run.** Mapping one register after the other hands out the barred host register in the end:
each mapping that goes through leaves fewer that are not settled. One slot, `d`, need not agree, and
is not mapped. -/
theorem exists_barred_fault {c : Cache} {x : HostReg} (k : c.tables.Checked) {d : Option GuestReg}
    (agree : ∀ g, d ≠ some g → (c.tables.guest g).agrees = true) (e : c.tables.Exposed x)
    (barred : c.tables.Barred x) {o : Option GuestReg} (ho : (c.tables.host x).owner = o)
    (soon : ∀ g, c.oracle g c.pc c.lookahead = decide (o ≠ some g)) :
    ∃ rs : List Request, (∀ r ∈ rs, r.Transfers) ∧
      ∃ f : Fault, (performAll rs c).result = .error f ∧ f.OfHandingOut := by
  induction left : (c.tables.unsettled o).length using Nat.strongRecOn generalizing c with
  | ind n ih =>
    have few : (o.toList ++ d.toList).length ≤ 2 := by cases o <;> cases d <;> simp
    obtain ⟨h, unlisted, unmapped⟩ := k.exists_unmapped few
    simp only [List.mem_append, Option.mem_toList, not_or] at unlisted
    obtain ⟨other, sound⟩ := unlisted
    have head : (mapGuest h false false).Transfers := .mapGuest h false false
    rcases CacheM.mapGuest_of_exposed k (agree h sound) e barred ho soon unmapped other with
      ⟨f, c', j, run, handingOut⟩ | ⟨v, j, run, near, fewer⟩
    · refine ⟨[mapGuest h false false], List.forall_mem_singleton.2 head, f, ?_, handingOut⟩
      rw [performAll_cons, perform, silent_run, run]
      rfl
    · rw [left] at fewer
      obtain ⟨rs, transfers, f, stopped⟩ :=
        ih _ fewer (c := c.mapTables fun _ => v) (k.changes near.changes)
          (fun g sound => near.changes.agrees (agree g sound)) near.exposed near.barred near.owner
          soon rfl
      refine ⟨mapGuest h false false :: rs, List.forall_mem_cons.2 ⟨head, transfers⟩, f, ?_⟩
      rw [performAll_cons, perform, silent_run, run]
      exact stopped

variable {c : Cache}

theorem exists_dirty_fault (k : c.tables.Checked) (agree : c.tables.SlotsAgree)
    (unkept : ¬ c.tables.DirtyKept) :
    ∃ oracle, ∃ rs : List Request, (∀ r ∈ rs, r.Transfers) ∧
      ∃ x, (performAll rs { c with oracle }).result = .error (.hostAlreadyDirty x) := by
  obtain ⟨x, exposed, dirty⟩ := Tables.exists_exposed_of_dirty unkept
  let oracle := UsageOracle.allBut (c.tables.host x).owner
  obtain ⟨rs, transfers, f, stopped, handingOut⟩ := exists_barred_fault (c := { c with oracle })
    k (d := none) (fun g _ => agree g) exposed (.inl dirty) rfl fun _ => rfl
  have reached := reached_performAll (c := { c with oracle }) k transfers
  cases handingOut with
  | hostAlreadyDirty y => exact ⟨oracle, rs, transfers, y, stopped⟩
  | aliasedHost y g h =>
    obtain ⟨u, changes, contradicts⟩ := reached.of_error stopped rfl
    exact absurd contradicts (agree.straysKept.changes k changes).not_aliasedHost

theorem exists_alias_fault (k : c.tables.Checked) (kept : c.tables.DirtyKept) {d : GuestReg}
    (agree : ∀ g, d ≠ g → (c.tables.guest g).agrees = true) (unkept : ¬ c.tables.StraysKept) :
    ∃ oracle, ∃ rs : List Request, (∀ r ∈ rs, r.Transfers) ∧
      ∃ x g h, (performAll rs { c with oracle }).result = .error (.aliasedHost x g h) := by
  obtain ⟨x, stray, exposed⟩ := Tables.exists_exposed_of_stray unkept
  have agree (g : GuestReg) (sound : some d ≠ some g) : (c.tables.guest g).agrees = true :=
    agree g fun same => sound (congrArg some same)
  -- it is a fault of handing out, and no dirty host register is handed out
  suffices ∃ oracle, ∃ rs : List Request, (∀ r ∈ rs, r.Transfers) ∧
      ∃ f : Fault, (performAll rs { c with oracle }).result = .error f ∧ f.OfHandingOut by
    obtain ⟨oracle, rs, transfers, f, stopped, handingOut⟩ := this
    have reached := reached_performAll (c := { c with oracle }) k transfers
    cases handingOut with
    | hostAlreadyDirty y =>
      obtain ⟨u, changes, contradicts⟩ := reached.of_error stopped rfl
      exact absurd contradicts (kept.changes k changes).not_hostAlreadyDirty
    | aliasedHost y g h => exact ⟨oracle, rs, transfers, y, g, h, stopped⟩
  rcases exposed with exposed | ⟨g, exposed⟩
  · let oracle := UsageOracle.allBut (c.tables.host x).owner
    obtain ⟨rs, transfers, stops⟩ := exists_barred_fault (c := { c with oracle })
      k agree exposed (.inr stray) rfl fun _ => rfl
    exact ⟨oracle, rs, transfers, stops⟩
  · have unbind := Tables.Change.unbind (Tables.unbinds_release c.tables g)
    let oracle := UsageOracle.allBut ((c.tables.release g).host x).owner
    obtain ⟨rs, transfers, f, stopped, handingOut⟩ := exists_barred_fault
      (c := { c with tables := c.tables.release g, oracle }) (k.change unbind)
      (fun h sound => unbind.agrees (agree h sound)) exposed (.inr (stray.release g)) rfl
      fun _ => rfl
    refine ⟨oracle, .writeBack g :: rs, List.forall_mem_cons.2 ⟨.writeBack g, transfers⟩, f, ?_,
      handingOut⟩
    rw [performAll_cons, perform, silent_run, CacheM.writeBack_run]
    exact stopped

end Request

/-! ## The check and the faults -/

namespace RecompilerM

/-- A slot that does not agree cannot be mapped. -/
theorem mapGuest_stops_of_disagreeing {t : Tables} {g : GuestReg} (k : t.Checked)
    (disagrees : (t.guest g).agrees = false) (c : Cache) (b : Assembler) (load dirty : Bool) :
    (requestAll [.restore t, .mapGuest g load dirty] ⟨c, b⟩).result =
      .error (.fault (.corruptSlot g)) := by
  have run : (Request.mapGuest g load dirty).perform (c.mapTables fun _ => t) =
      ⟨.error (.corruptSlot g), c.mapTables fun _ => t, []⟩ := by
    rw [Request.perform, Request.silent_run, CacheM.mapGuest_of_disagreeing k disagrees]
    rfl
  obtain ⟨result, -⟩ := request_of_played (r := .mapGuest g load dirty) (a := b)
    (t := ⟨c.mapTables fun _ => t, b⟩) (by rw [run]; rfl)
  rw [run] at result
  have restored : request (.restore t) ⟨c, b⟩ = ⟨.ok none, ⟨c.mapTables fun _ => t, b⟩, []⟩ := rfl
  rw [requestAll_cons, restored, Outcome.andThen_ok, Outcome.result_after, requestAll_cons]
  cases made : request (.mapGuest g load dirty) ⟨c.mapTables fun _ => t, b⟩ with
  | mk result' state log =>
    rw [made] at result
    cases result
    rfl

/-- **What the check rules out.** Tables that pass the check are gone back to, and values are
brought into host registers and sent home any number of times. No slot turns out to hold an
immediate without being away. If the slots agree none turns out corrupt, if strays are kept (for
one, if every slot whose place is a host register is away) no host register turns out shared, and
if dirty host registers are kept none that is handed out turns out dirty. The tables still pass the
check in the end.

Conversely a slot that does not agree cannot be mapped. If the slots agree but some dirty host
register is not kept, then there are an oracle and requests that find one. So there are for a stray
that is not kept, if dirty host registers are and but for one the slots agree. -/
theorem internal_faults_of_checked (t : Tables) (passes : t.inconsistency? = none) (c : Cache)
    (b : Assembler) :
    (∀ rs : List Request, (∀ r ∈ rs, r.Transfers) →
      let o := requestAll (.restore t :: rs) ⟨c, b⟩
      (∀ g, o.result ≠ .error (.fault (.badImmediate g))) ∧
      (t.SlotsAgree → ∀ g, o.result ≠ .error (.fault (.corruptSlot g))) ∧
      (t.StraysKept → ∀ x g h, o.result ≠ .error (.fault (.aliasedHost x g h))) ∧
      (t.DirtyKept → ∀ x, o.result ≠ .error (.fault (.hostAlreadyDirty x))) ∧
      (o.result = .ok () → o.state.cache.tables.inconsistency? = none)) ∧
    (∀ g, (t.guest g).agrees = false → ∀ load dirty,
      (requestAll [.restore t, .mapGuest g load dirty] ⟨c, b⟩).result =
        .error (.fault (.corruptSlot g))) ∧
    (t.DirtyKept → ∀ d, (∀ g, d ≠ g → (t.guest g).agrees = true) → ¬ t.StraysKept →
      ∃ oracle, ∃ rs : List Request, (∀ r ∈ rs, r.Transfers) ∧
        ∃ x g h, (Request.performAll (.restore t :: rs) { c with oracle }).result =
          .error (.aliasedHost x g h)) ∧
    (t.SlotsAgree → ¬ t.DirtyKept → ∃ oracle, ∃ rs : List Request, (∀ r ∈ rs, r.Transfers) ∧
      ∃ x, (Request.performAll (.restore t :: rs) { c with oracle }).result =
        .error (.hostAlreadyDirty x)) := by
  have k := Tables.inconsistency?_eq_none_iff.1 passes
  refine ⟨?_, ?_, ?_, ?_⟩
  · intro rs transfers o
    have follows := requestAll_follows (.restore t :: rs) ⟨c, b⟩
    have reached : CacheM.Reached t (Request.performAll (.restore t :: rs) c) :=
      Request.reached_performAll (c := c.mapTables fun _ => t) k transfers
    have explained (f : Fault) (internal : f.internal = true)
        (stopped : o.result = .error (.fault f)) : ∃ u, t.Changes u ∧ u.Contradicts f :=
      reached.of_error (follows.of_fault stopped) internal
    refine ⟨?_, ?_, ?_, ?_, ?_⟩
    · intro g stopped
      obtain ⟨u, changes, contradicts⟩ := explained _ rfl stopped
      exact (k.changes changes).not_badImmediate contradicts
    · intro agree g stopped
      obtain ⟨u, changes, contradicts⟩ := explained _ rfl stopped
      exact (agree.changes changes).not_corruptSlot contradicts
    · intro kept x g h stopped
      obtain ⟨u, changes, contradicts⟩ := explained _ rfl stopped
      exact (kept.changes k changes).not_aliasedHost contradicts
    · intro kept x stopped
      obtain ⟨u, changes, contradicts⟩ := explained _ rfl stopped
      exact (kept.changes k changes).not_hostAlreadyDirty contradicts
    · intro run
      obtain ⟨done, state⟩ := follows.of_ok run
      rw [state]
      exact Tables.inconsistency?_eq_none_iff.2 (k.changes (reached.of_ok done))
  · intro g disagrees load dirty
    exact mapGuest_stops_of_disagreeing k disagrees c b load dirty
  · intro kept d agree unkept
    exact Request.exists_alias_fault (c := c.mapTables fun _ => t) k kept agree unkept
  · intro agree unkept
    exact Request.exists_dirty_fault (c := c.mapTables fun _ => t) k agree unkept

/-- A host register that is taken but owned by none, and a dirty one left to a locked register that
is at home: the check finds nothing, and requests go through until a flush finds the lock. With one
slot that is away but in memory and a stray one in the host register that is left, the slots no
longer agree, but strays are kept. A stray slot in a host register that is free is found. -/
theorem internal_faults_of_stale_owner :
    let b := Assembler.onBuffer ⟨.replicate 64 0, 0, .write⟩
    let t := ((Tables.fresh.setHost .rbp ⟨false, false, none, false⟩).setHost .r13
      ⟨false, true, some ⟨5⟩, false⟩).lockGuest ⟨5⟩
    let u := (t.setGuest ⟨6⟩ ⟨GuestReg.home ⟨6⟩, true, false⟩).setGuest ⟨7⟩
      ⟨.reg .r13, false, false⟩
    let v := Tables.fresh.setGuest ⟨5⟩ ⟨.reg .rbp, false, false⟩
    let rs : List Request := [.mapGuest ⟨4⟩ true true, .materialize .zero true false, .acquire,
      .writeBack ⟨4⟩]
    t.inconsistency? = none ∧ t.SlotsAgree ∧ t.DirtyKept ∧ ¬ t.Coherent ∧
    (requestAll (.restore t :: rs) ⟨.fresh, b⟩).result = .ok () ∧
    (requestAll (.restore t :: rs) ⟨.fresh, b⟩).state.cache.tables.inconsistency? = none ∧
    (requestAll (.restore t :: (rs ++ [.flush])) ⟨.fresh, b⟩).result =
      .error (.fault (.guestLeftLocked ⟨5⟩)) ∧
    (∀ g, (requestAll (.restore t :: (rs ++ [.flush])) ⟨.fresh, b⟩).result ≠
      .error (.fault (.corruptSlot g))) ∧
    (∀ x, (requestAll (.restore t :: (rs ++ [.flush])) ⟨.fresh, b⟩).result ≠
      .error (.fault (.hostAlreadyDirty x))) ∧
    u.inconsistency? = none ∧ ¬ u.SlotsAgree ∧ u.StraysKept ∧
    (∀ x g h, (requestAll (.restore u :: rs) ⟨.fresh, b⟩).result ≠
      .error (.fault (.aliasedHost x g h))) ∧
    v.inconsistency? = none ∧
    ∃ oracle, ∃ rs : List Request, (∀ r ∈ rs, r.Transfers) ∧
      ∃ x g h, (Request.performAll (.restore v :: rs) { Cache.fresh with oracle }).result =
        .error (.aliasedHost x g h) := by
  intro b t u v rs
  have passes : t.inconsistency? = none := by decide +kernel
  have agree : t.SlotsAgree := by decide +kernel
  have kept : t.DirtyKept := by decide +kernel
  have left : (t.host .rbp).owner = none ∧ ¬ (t.host .rbp).free = true := by decide +kernel
  have incoherent : ¬ t.Coherent := fun h => left.2 ((h.fits .rbp).free_iff.2 left.1)
  have transfers : ∀ r ∈ rs, r.Transfers := by
    simp only [rs, List.forall_mem_cons]
    exact ⟨.mapGuest .., .materialize .., .acquire, .writeBack _, nofun⟩
  have transfers' : ∀ r ∈ rs ++ [.flush], r.Transfers := by
    simp only [List.forall_mem_append, List.forall_mem_cons]
    exact ⟨transfers, .flush, nofun⟩
  have done : (requestAll (.restore t :: rs) ⟨.fresh, b⟩).result = .ok () := by decide +kernel
  obtain ⟨run, -⟩ := internal_faults_of_checked t passes .fresh b
  obtain ⟨-, -, -, -, still⟩ := run rs transfers
  obtain ⟨-, uncorrupted, -, clean, -⟩ := run (rs ++ [.flush]) transfers'
  have strays : u.inconsistency? = none ∧ ¬ u.SlotsAgree ∧ u.StraysKept := by decide +kernel
  obtain ⟨-, -, unshared, -⟩ := (internal_faults_of_checked u strays.1 .fresh b).1 rs transfers
  have stray : v.inconsistency? = none ∧ v.DirtyKept ∧ ¬ v.StraysKept ∧
      ∀ g, ⟨5⟩ ≠ g → (v.guest g).agrees = true := by decide +kernel
  obtain ⟨-, -, shares, -⟩ := internal_faults_of_checked v stray.1 .fresh b
  exact ⟨passes, agree, kept, incoherent, done, still done, by decide +kernel, uncorrupted agree,
    clean kept, strays.1, strays.2.1, strays.2.2, unshared strays.2.2, stray.1,
    shares stray.2.1 ⟨5⟩ stray.2.2.2 stray.2.2.1⟩

/-- **What the check lets through.** A slot that is away but in memory, one that is at home but in a
host register, and dirty host registers without an owner: the check finds nothing, and mapping one
guest register stops with an internal fault. -/
theorem check_incomplete :
    let b := Assembler.onBuffer ⟨.replicate 64 0, 0, .write⟩
    let away := Tables.fresh.setGuest ⟨4⟩ ⟨GuestReg.home ⟨4⟩, true, false⟩
    let shared := Tables.fresh.setGuest ⟨5⟩ ⟨.reg .rbp, false, false⟩
    let unowned : Tables :=
      HostReg.allocationOrder.foldl (fun t x => t.setHost x ⟨false, true, none, false⟩) .fresh
    away.inconsistency? = none ∧ shared.inconsistency? = none ∧ unowned.inconsistency? = none ∧
    (requestAll [.restore away, .mapGuest ⟨4⟩ true false] ⟨.fresh, b⟩).result =
      .error (.fault (.corruptSlot ⟨4⟩)) ∧
    (requestAll [.restore shared, .mapGuest ⟨4⟩ true false] ⟨.fresh, b⟩).result =
      .error (.fault (.aliasedHost .rbp ⟨4⟩ ⟨5⟩)) ∧
    (requestAll [.restore unowned, .mapGuest ⟨4⟩ true false] ⟨.fresh, b⟩).result =
      .error (.fault (.hostAlreadyDirty .rbp)) ∧
    ¬ ∀ t : Tables, t.inconsistency? = none → ∀ c b rs, (∀ r ∈ rs, Request.Transfers r) →
      ∀ f, (requestAll (.restore t :: rs) ⟨c, b⟩).result = .error (.fault f) →
        f.internal = false := by
  intro b away shared unowned
  have passes : away.inconsistency? = none := by decide +kernel
  have stops : (requestAll [.restore away, .mapGuest ⟨4⟩ true false] ⟨.fresh, b⟩).result =
      .error (.fault (.corruptSlot ⟨4⟩)) := by decide +kernel
  refine ⟨passes, by decide +kernel, by decide +kernel, stops, by decide +kernel,
    by decide +kernel, ?_⟩
  intro complete
  have transfers : ∀ r ∈ [Request.mapGuest ⟨4⟩ true false], r.Transfers :=
    List.forall_mem_singleton.2 (.mapGuest ..)
  exact nomatch complete away passes .fresh b _ transfers _ stops

end RecompilerM

end Dynarec
