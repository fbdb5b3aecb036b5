import Dynarec.Proofs.Transitions

/-!
# What becomes of a register

A request may touch the slots of many guest registers. `Request.Fate` lists what it can make of
one of them: the register stays, its host copy becomes dirty, it is sent home, bound to a constant
or mapped anew. `Request.Wrote` lists where an event can come from. `Request.Done.fate` and
`Request.Done.wrote` say that nothing else happens, so what is to be shown of a register or of an
event takes one case for each of these and not one for each request.
-/

namespace Dynarec

open Journal

/-! ## Pending values -/

namespace Tables

variable {t u v : Tables} {g h : GuestReg} {x : HostReg}

theorem pending_of_home (hb : t.Binds g .home) : t.pending g = false := by
  have ha : (t.guest g).away = false := hb.away
  simp only [pending, ha, Bool.false_and]

theorem pending_of_const {w : Word} (hb : t.Binds g (.const w)) : t.pending g = true := by
  have ha : (t.guest g).away = true := hb.away
  have hp : (t.guest g).place = .imm w := hb.place
  simp only [pending, ha, hp, Bool.and_self]

theorem pending_of_mapped (hx : t.hostOf? g = some x) : t.pending g = (t.host x).dirty := by
  obtain ⟨ha, hp⟩ := hostOf?_eq_some_iff.1 hx
  simp only [pending, ha, hp, Bool.true_and]

theorem binds_fresh (hz : g ≠ .zero) : fresh.Binds g .home :=
  ⟨by rw [guest_fresh_of_ne hz]; rfl, by rw [guest_fresh_of_ne hz]; rfl⟩

theorem binds_fresh_zero : fresh.Binds .zero (.const 0) :=
  ⟨by rw [guest_fresh_zero]; rfl, by rw [guest_fresh_zero]; rfl⟩

/-- The register is bound to the same and its value is as new. -/
structure Keeps (t u : Tables) (g : GuestReg) : Prop where
  binds : ∀ {b}, t.Binds g b → u.Binds g b
  pending : u.pending g = t.pending g

theorem Keeps.refl (t : Tables) (g : GuestReg) : t.Keeps t g := ⟨id, rfl⟩

theorem Keeps.trans (a : t.Keeps u g) (b : u.Keeps v g) : t.Keeps v g :=
  ⟨fun hb => b.binds (a.binds hb), b.pending.trans a.pending⟩

/-- A change at another register. -/
theorem ChangesOnly.keeps (k : t.ChangesOnly u h) (hne : h ≠ g) : t.Keeps u g :=
  ⟨fun hb => hb.of_guest_eq (k.guest g hne), k.pending hne⟩

theorem SameButLocks.keeps (same : t.SameButLocks u) (g : GuestReg) : t.Keeps u g :=
  ⟨fun hb => hb.congr (same.away g) (same.place g),
    by simp only [Tables.pending, same.away, same.place, same.dirty]⟩

theorem Coherent.changesOnly_markDirty (c : t.Coherent) (hx : t.hostOf? g = some x)
    (dirty : Bool) : t.ChangesOnly (t.markDirty x dirty) g := by
  refine ⟨fun _ _ => rfl, ?_⟩
  intro h y hne hy
  apply host_markDirty_of_ne
  rintro rfl
  exact hne (c.mapped_inj hx hy)

theorem keeps_markDirty_false (t : Tables) (x : HostReg) (g : GuestReg) :
    t.Keeps (t.markDirty x false) g := by
  have same : t.SameButLocks (t.markDirty x false) := by
    refine ⟨fun _ => rfl, ?_⟩
    intro y
    by_cases e : x = y
    · subst e
      simp [host_markDirty_self]
    · rw [host_markDirty_of_ne t false e]
  exact same.keeps g

end Tables

/-! ## One register -/

/-- The requests that give a register a value which its home does not have. -/
inductive Request.Renews (g : GuestReg) : Request → Prop where
  | setConst (v : Word) : Renews g (.setConst g v)
  | mapGuest (load : Bool) : Renews g (.mapGuest g load true)
  | materialize (load : Bool) : Renews g (.materialize g load true)

/-- The request maps `g`, which is not mapped, and loads its value or does not. -/
inductive Request.MapsAnew (t : Tables) (g : GuestReg) (load : Bool) : Request → Prop where
  | mapGuest (dirty : Bool) (unmapped : t.hostOf? g = none) :
      MapsAnew t g load (.mapGuest g load dirty)
  | materialize (dirty : Bool) {v : Word} (const : t.Binds g (.const v)) :
      MapsAnew t g load (.materialize g load dirty)

/-- What the request makes of `g` on its way from `c` to `c'`. -/
inductive Request.Fate (c : Cache) (r : Request) (c' : Cache) (j : List Event) (g : GuestReg) :
    Prop where
  | kept (keeps : c.tables.Keeps c'.tables g)
  | dirtied (binds : ∀ {b}, c.tables.Binds g b → c'.tables.Binds g b) (renews : r.Renews g)
  | home (home : c'.tables.Binds g .home)
  | const {v : Word} (const : c'.tables.Binds g (.const v)) (renews : r.Renews g ∨ g = .zero)
      (zero : g = .zero → v = 0)
  /-- Its load, if there is one, is the last event. -/
  | mapped {x : HostReg} {load : Bool} {j₁ : List Event} (anew : r.MapsAnew c.tables g load)
      (mapped : c'.tables.hostOf? g = some x)
      (renews : c'.tables.pending g = true → r.Renews g ∨ c.tables.pending g = true)
      (last : j = j₁ ++ c.tables.loadsOf g x load)

section Fates

variable {t u : Tables} {c c' : Cache} {r r' : Request} {j : List Event} {e : Event}
  {g h : GuestReg} {x : HostReg}

theorem Request.Renews.materialize_of_mapGuest {load dirty : Bool}
    (n : (Request.mapGuest h load dirty).Renews g) :
    (Request.materialize h load dirty).Renews g := by
  cases n
  exact .materialize load

theorem Tables.Coherent.home_or_keeps_release (c : t.Coherent) (h g : GuestReg) :
    (t.release h).Binds g .home ∨ t.Keeps (t.release h) g := by
  by_cases e : h = g
  · subst e
    exact .inl (c.binds_release_self h)
  · exact .inr ((c.changesOnly_release h).keeps e)

theorem Tables.Coherent.home_or_keeps_discard (c : t.Coherent) (h g : GuestReg) :
    (t.discard h).Binds g .home ∨ t.Keeps (t.discard h) g := by
  by_cases e : h = g
  · subst e
    cases hx : t.hostOf? h with
    | none =>
      rw [Tables.discard_of_unmapped hx]
      exact .inr (.refl t h)
    | some x =>
      exact .inl ⟨by rw [guest_discard_self hx]; rfl, by rw [guest_discard_self hx]; rfl⟩
  · exact .inr ((c.changesOnly_discard h).keeps e)

theorem Room.home_or_keeps (room : Room c x c' j) (h : c.tables.Coherent) (g : GuestReg) :
    c'.tables.Binds g .home ∨ c.tables.Keeps c'.tables g := by
  cases room with
  | free _ => exact .inr (.refl c.tables g)
  | spill g' _ _ _ => exact h.home_or_keeps_release g' g

namespace Request

theorem Fate.of_home_or_keeps (f : c'.tables.Binds g .home ∨ c.tables.Keeps c'.tables g) :
    Fate c r c' j g :=
  f.elim .home .kept

theorem fate_of_fresh (e : c'.tables = .fresh) (g : GuestReg) : Fate c r c' j g := by
  by_cases hz : g = .zero
  · subst hz
    exact .const (e ▸ Tables.binds_fresh_zero) (.inr rfl) fun _ => rfl
  · exact .home (e ▸ Tables.binds_fresh hz)

theorem fate_of_markDirty {dirty : Bool} (h : c.tables.Coherent) {g' : GuestReg}
    (hx : c.tables.hostOf? g' = some x) (renews : dirty = true → r.Renews g') (g : GuestReg) :
    Fate c r (c.mapTables (·.markDirty x dirty)) j g := by
  by_cases e : g' = g
  · subst e
    cases dirty with
    | false => exact .kept (c.tables.keeps_markDirty_false x g')
    | true => exact .dirtied (fun hb => hb.of_guest_eq rfl) (renews rfl)
  · exact .kept ((h.changesOnly_markDirty hx dirty).keeps e)

theorem fate_of_map {c₁ : Cache} {j₁ : List Event} {g' : GuestReg} (h : c.tables.Coherent)
    (load dirty : Bool) (unmapped : c.tables.hostOf? g' = none) (room : Room c x c₁ j₁)
    (g : GuestReg) :
    Fate c (.mapGuest g' load dirty)
      (c₁.mapTables (·.bind g' x (dirty || (c.tables.guest g').place.isImm)))
      (j₁ ++ c.tables.loadsOf g' x load) g := by
  by_cases e : g' = g
  · subst e
    refine .mapped (.mapGuest dirty unmapped) (Tables.hostOf?_bind_self ..) ?_ rfl
    intro p
    rw [Cache.tables_mapTables, Tables.pending_of_mapped (Tables.hostOf?_bind_self ..),
      Tables.host_bind_self, Bool.or_eq_true] at p
    rcases p with rfl | isImm
    · exact .inl (.mapGuest load)
    · -- A constant was pending already.
      obtain ⟨b, hb⟩ := h.binds g'
      rw [hb.place] at isImm
      cases b with
      | home => cases isImm
      | const v => exact .inr (Tables.pending_of_const hb)
      | mapped y => cases isImm
  · have free : (c₁.tables.host x).free = true := by
      rw [room.host_eq h]
      rfl
    have bound := ((room.coherent h).changesOnly_bind g' free
      (dirty || (c.tables.guest g').place.isImm)).keeps e
    exact .of_home_or_keeps ((room.home_or_keeps h g).imp bound.binds (·.trans bound))

/-- **One register.** A request that is done makes of it what `Fate` lists. -/
theorem Done.fate (d : Done c r c' j) (h : c.tables.Coherent) (plain : ∀ t, r ≠ .restore t)
    (g : GuestReg) : Fate c r c' j g := by
  induction d with
  | start oracle pc => exact fate_of_fresh rfl g
  | setPc pc => exact .kept (.refl c.tables g)
  | setConst g' v =>
    by_cases e : g' = g
    · subst e
      refine .const (Tables.binds_setConst c.tables g' v) (.inl (.setConst v)) ?_
      rintro rfl
      rfl
    · exact .kept ((h.changesOnly_setConst g' v).keeps e)
  | discard g' => exact .of_home_or_keeps (h.home_or_keeps_discard g' g)
  | lockGuests gs => exact .kept ((Tables.sameButLocks_lockGuests c.tables gs).keeps g)
  | lockHosts xs => exact .kept ((Tables.sameButLocks_lockHosts c.tables xs).keeps g)
  | unlockGuests =>
    have same := Tables.sameButLocks_map_unlocked c.tables
    by_cases hz : g = .zero
    · subst hz
      exact .const (Tables.binds_setConst _ .zero 0) (.inr rfl) fun _ => rfl
    · have only := (same.coherent h).changesOnly_setConst .zero 0
      exact .kept ((same.keeps g).trans (only.keeps (Ne.symm hz)))
  | unlockHosts => exact .kept ((Tables.sameButLocks_unlockHosts c.tables).keeps g)
  | acquire room => exact .of_home_or_keeps (room.home_or_keeps h g)
  | remap load dirty mapped unlocked =>
    exact fate_of_markDirty h mapped (by rintro rfl; exact .mapGuest load) g
  | touch load dirty mapped =>
    exact fate_of_markDirty h mapped (by rintro rfl; exact .materialize load) g
  | map load dirty unmapped room => exact fate_of_map h load dirty unmapped room g
  | keep load dirty home => exact .kept (.refl c.tables g)
  | materialize const map ih =>
    cases ih nofun with
    | kept keeps => exact .kept keeps
    | dirtied binds renews => exact .dirtied binds renews.materialize_of_mapGuest
    | home home => exact .home home
    | const const renews zero =>
      exact .const const (renews.imp_left (·.materialize_of_mapGuest)) zero
    | mapped anew mapped renews last =>
      cases anew
      exact .mapped (.materialize _ const) mapped
        (fun p => (renews p).imp_left (·.materialize_of_mapGuest)) last
  | writeBack g' => exact .of_home_or_keeps (h.home_or_keeps_release g' g)
  | @evict g' x owner => exact .of_home_or_keeps (h.home_or_keeps_release g' g)
  | evictVacant vacant => exact .kept (.refl c.tables g)
  | flush hosts guests => exact fate_of_fresh rfl g
  | flushBeforeCall flush ih =>
    cases flush
    exact fate_of_fresh rfl g
  | restore saved => exact absurd rfl (plain saved)

end Request

end Fates

/-! ## One event -/

/-- Where an event of a request from `c` to `c'` comes from. -/
inductive Request.Wrote (c c' : Cache) (e : Event) : Prop where
  | quiet (he : e.move? = none)
  | store {g : GuestReg} (he : e ∈ c.tables.storesOf g) (home : c'.tables.Binds g .home)
  | load {g : GuestReg} {x : HostReg} {load : Bool} (he : e ∈ c.tables.loadsOf g x load)

section Events

variable {t : Tables} {c c' : Cache} {r : Request} {j : List Event} {e : Event} {g : GuestReg}
  {x : HostReg}

theorem Tables.not_mem_storesOf_of_home (hb : t.Binds g .home) : e ∉ t.storesOf g := by
  rw [storesOf_of_home hb]
  exact List.not_mem_nil

theorem Tables.ne_zero_of_mem_storesOf (he : e ∈ t.storesOf g) : g ≠ .zero := by
  rintro rfl
  rw [storesOf_zero] at he
  cases he

theorem Room.wrote (room : Room c x c' j) (h : c.tables.Coherent) (he : e ∈ j) :
    Request.Wrote c c' e := by
  cases room with
  | free _ => cases he
  | spill g _ _ _ =>
    rcases List.mem_cons.1 he with rfl | he
    · exact .quiet rfl
    · exact .store he (h.binds_release_self g)

/-- **One event** that a request writes. -/
theorem Request.Done.wrote (d : Done c r c' j) (h : c.tables.Coherent) (he : e ∈ j) :
    Wrote c c' e := by
  induction d with
  | start oracle pc =>
    obtain rfl := List.mem_singleton.1 he
    exact .quiet rfl
  | acquire room => exact room.wrote h he
  | @map g' x c₁ j₁ load dirty unmapped room =>
    rcases List.mem_append.1 he with he | he
    · cases room.wrote h he with
      | quiet he => exact .quiet he
      | @store g he home =>
        refine .store he (home.of_guest_eq (Tables.guest_bind_of_ne _ x _ ?_))
        -- Room is made at mapped registers.
        rintro rfl
        exact Tables.not_mem_storesOf_of_home
          (home.of_guest_eq (room.guest_of_unmapped unmapped).symm) he
      | load he => exact .load he
    · exact .load he
  | materialize const map ih => exact ih he
  | writeBack g => exact .store he (h.binds_release_self g)
  | @evict g x owner => exact .store he (h.binds_release_self g)
  | flush hosts guests =>
    rcases List.mem_cons.1 he with rfl | he
    · exact .quiet rfl
    · obtain ⟨g, -, he⟩ := List.mem_flatMap.1 he
      exact .store he (Tables.binds_fresh (Tables.ne_zero_of_mem_storesOf he))
  | flushBeforeCall flush ih => exact ih he
  | setPc | setConst | discard | lockGuests | lockHosts | unlockGuests | unlockHosts | remap | keep
  | touch | evictVacant | restore => cases he

end Events

end Dynarec
