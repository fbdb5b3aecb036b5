import Dynarec.Host.Execution
import Dynarec.Proofs.ContextMemory
import Dynarec.Proofs.Operations

/-!
# Agreement with a reference

A `Reference` says what each guest register should hold, or that nothing is promised
about it. A machine `Agrees` with it under given tables if every promised register but
the hardwired zero has its value at its place, and if a host copy that is not dirty is
also at home. `Request.expect` is what a request does to the reference, and
`Agrees.perform` the step lemma: the moves that a request asks for can be carried out
and lead to a machine that agrees again.
-/

namespace Dynarec

open Journal

/-! ## The machine -/

namespace MoveMachine

variable {m m' : MoveMachine} {g h : GuestReg} {x y : HostReg} {v w : Word}

def setSlot (m : MoveMachine) (g : GuestReg) (v : Word) : MoveMachine :=
  { m with context := m.context.set g v }

@[simp] theorem eval?_home (m : MoveMachine) (g : GuestReg) :
    m.eval? g.home = some (m.context.get g) := by
  simp [eval?, GuestReg.home, GuestReg.address]

@[simp] theorem eval?_imm (m : MoveMachine) (v : Word) : m.eval? (.imm v) = some v := rfl

@[simp] theorem eval?_reg (m : MoveMachine) (x : HostReg) :
    m.eval? (.reg x) = some (m.host x) := rfl

@[simp] theorem host_setHost_self (m : MoveMachine) (x : HostReg) (v : Word) :
    (m.setHost x v).host x = v := by
  simp [setHost]

theorem host_setHost_of_ne (m : MoveMachine) (v : Word) (hne : y ≠ x) :
    (m.setHost x v).host y = m.host y := by
  simp [setHost, hne]

theorem setHost_self (m : MoveMachine) (x : HostReg) : m.setHost x (m.host x) = m := by
  cases m with
  | mk host context =>
    have e : (fun y => if y = x then host x else host y) = host := by
      funext y
      split
      · next e => rw [e]
      · rfl
    rw [setHost, e]

/-- A binding always has a value. -/
theorem exists_eval? (m : MoveMachine) (g : GuestReg) (b : Binding) :
    ∃ v, m.eval? (b.place g) = some v := by
  cases b with
  | home => exact ⟨_, m.eval?_home g⟩
  | const v => exact ⟨v, rfl⟩
  | mapped x => exact ⟨_, rfl⟩

theorem exec?_load (hv : m.eval? src = some v) (x : HostReg) :
    m.exec? ⟨.reg x, src⟩ = some (m.setHost x v) := by
  cases src <;> simp [exec?, Move.instr?, assign?, hv]

theorem exec?_store_imm (m : MoveMachine) (g : GuestReg) (v : Word) :
    m.exec? ⟨g.home, .imm v⟩ = some (m.setSlot g v) := by
  simp [exec?, Move.instr?, assign?, GuestReg.home, GuestReg.address, setSlot]

theorem exec?_store_reg (m : MoveMachine) (g : GuestReg) (x : HostReg) :
    m.exec? ⟨g.home, .reg x⟩ = some (m.setSlot g (m.host x)) := by
  simp [exec?, Move.instr?, assign?, GuestReg.home, GuestReg.address, setSlot]

theorem eval?_home_setSlot (m : MoveMachine) (g : GuestReg) (v : Word) :
    (m.setSlot g v).eval? g.home = some v := by
  rw [eval?_home, setSlot, Context.get_set, if_pos rfl]

theorem execAll?_append (m : MoveMachine) (a b : List Move) :
    m.execAll? (a ++ b) = (m.execAll? a).bind (·.execAll? b) :=
  List.foldlM_append

/-- The hardwired zero is loaded as a constant, any other register from its place. -/
theorem execAll?_loadsOf {t : Tables} (hw : m.eval? (t.guest g).place = some w) (x : HostReg) :
    m.execAll? (movesOf (t.loadsOf g x true)) =
      some (m.setHost x (if g.isZero then 0 else w)) := by
  have src : m.eval? (if g.isZero then .imm 0 else (t.guest g).place) =
      some (if g.isZero then 0 else w) := by
    split
    · rfl
    · exact hw
  exact congrArg (·.bind some) (m.exec?_load src x)

/-- `m'` differs from `m` in the slot of `g` and in host registers that no other guest register is
mapped to. -/
structure ChangesOnly (t : Tables) (m m' : MoveMachine) (g : GuestReg) : Prop where
  slot : ∀ h, g ≠ h → m'.context.get h = m.context.get h
  host : ∀ h x, g ≠ h → t.hostOf? h = some x → m'.host x = m.host x

theorem ChangesOnly.refl (t : Tables) (m : MoveMachine) (g : GuestReg) : ChangesOnly t m m g :=
  ⟨fun _ _ => rfl, fun _ _ _ _ => rfl⟩

theorem changesOnly_setSlot (t : Tables) (m : MoveMachine) (g : GuestReg) (v : Word) :
    ChangesOnly t m (m.setSlot g v) g := by
  refine ⟨?_, fun _ _ _ _ => rfl⟩
  intro h hne
  rw [setSlot, Context.get_set, if_neg hne]

theorem changesOnly_setHost {t : Tables} (hx : ∀ h, g ≠ h → t.hostOf? h ≠ some x)
    (m : MoveMachine) (v : Word) : ChangesOnly t m (m.setHost x v) g := by
  refine ⟨fun _ _ => rfl, ?_⟩
  intro h y hne hy
  apply host_setHost_of_ne
  rintro rfl
  exact hx h hne hy

theorem ChangesOnly.eval?_home {t : Tables} (k : ChangesOnly t m m' g) (hne : g ≠ h) :
    m'.eval? h.home = m.eval? h.home := by
  rw [MoveMachine.eval?_home, MoveMachine.eval?_home, k.slot h hne]

/-- The other registers keep their values. -/
theorem ChangesOnly.eval? {t : Tables} {b : Binding} (k : ChangesOnly t m m' g) (hne : g ≠ h)
    (hb : t.Binds h b) : m'.eval? (t.guest h).place = m.eval? (t.guest h).place := by
  rw [hb.place]
  cases b with
  | home => exact k.eval?_home hne
  | const v => rfl
  | mapped x =>
    simp only [Binding.place, eval?_reg]
    rw [k.host h x hne (Tables.binds_mapped_iff.1 hb)]

end MoveMachine

/-! ## References -/

/-- What each guest register should hold; nothing is promised of one without a word. -/
abbrev Reference := GuestReg → Option Word

namespace Reference

def set (ρ : Reference) (g : GuestReg) (v : Option Word) : Reference :=
  fun h => if g = h then v else ρ h

@[simp] theorem set_self (ρ : Reference) (g : GuestReg) (v : Option Word) : ρ.set g v g = v :=
  if_pos rfl

theorem set_of_ne (ρ : Reference) {g h : GuestReg} (v : Option Word) (hne : g ≠ h) :
    ρ.set g v h = ρ h :=
  if_neg hne

end Reference

/-- What a request makes of the reference. A constant and a discarded copy change it; a register
that is newly mapped without its value is promised nothing. -/
def Request.expect (r : Request) (t : Tables) (m : MoveMachine) (ρ : Reference) : Reference :=
  match r with
  | setConst g v => ρ.set g (some v)
  | discard g => if t.isMapped g then ρ.set g (m.eval? g.home) else ρ
  | mapGuest g load _ => if load || t.isMapped g then ρ else ρ.set g none
  | materialize g load _ => if load || !(t.guest g).place.isImm then ρ else ρ.set g none
  | _ => ρ

/-- Each promised register but the hardwired zero has its value at its place, and at home too if
its host register is clean. -/
structure Agrees (t : Tables) (m : MoveMachine) (ρ : Reference) : Prop where
  value : ∀ {g v}, g ≠ .zero → ρ g = some v → m.eval? (t.guest g).place = some v
  clean : ∀ {g x v}, g ≠ .zero → ρ g = some v → t.hostOf? g = some x → (t.host x).dirty = false →
    m.eval? g.home = some v

namespace Agrees

open Tables

variable {t u : Tables} {m m' : MoveMachine} {ρ ρ' : Reference} {g : GuestReg} {x : HostReg}

/-- A reference that promises no more. -/
theorem weaken (a : Agrees t m ρ) (h : ∀ g v, g ≠ .zero → ρ' g = some v → ρ g = some v) :
    Agrees t m ρ' :=
  ⟨fun hz hv => a.value hz (h _ _ hz hv), fun hz hv => a.clean hz (h _ _ hz hv)⟩

theorem forget (a : Agrees t m ρ) (g : GuestReg) : Agrees t m (ρ.set g none) :=
  a.weaken fun h v _ hv => by
    by_cases e : g = h
    · subst e
      rw [Reference.set_self] at hv
      cases hv
    · rwa [Reference.set_of_ne ρ none e] at hv

theorem of_sameButLocks (a : Agrees t m ρ) (s : SameButLocks t u) : Agrees u m ρ := by
  refine ⟨?_, ?_⟩
  · intro g v hz hv
    rw [s.place]
    exact a.value hz hv
  · intro g x v hz hv hx hd
    rw [s.hostOf?] at hx
    rw [s.dirty] at hd
    exact a.clean hz hv hx hd

theorem markDirty (a : Agrees t m ρ) (x : HostReg) (dirty : Bool) :
    Agrees (t.markDirty x dirty) m ρ := by
  refine ⟨a.value, ?_⟩
  intro g y v hz hv hy hd
  apply a.clean hz hv hy
  by_cases e : x = y
  · subst e
    rw [host_markDirty_self, Bool.or_eq_false_iff] at hd
    exact hd.1
  · rwa [host_markDirty_of_ne t dirty e] at hd

/-- A change at `g` alone. Only what is promised of `g` has to be looked at. -/
theorem change (c : t.Coherent) (a : Agrees t m ρ) (kt : t.ChangesOnly u g)
    (km : m.ChangesOnly t m' g) (promise : ∀ h, g ≠ h → ρ' h = ρ h)
    (value : g ≠ .zero → ∀ v, ρ' g = some v → m'.eval? (u.guest g).place = some v)
    (clean : g ≠ .zero → ∀ v x, ρ' g = some v → u.hostOf? g = some x →
      (u.host x).dirty = false → m'.eval? g.home = some v) :
    Agrees u m' ρ' := by
  refine ⟨?_, ?_⟩
  · intro h v hz hv
    by_cases e : g = h
    · subst e
      exact value hz v hv
    · obtain ⟨b, hb⟩ := c.binds h
      rw [kt.guest h e, km.eval? e hb]
      exact a.value hz (promise h e ▸ hv)
  · intro h y v hz hv hy hd
    by_cases e : g = h
    · subst e
      exact clean hz v y hv hy hd
    · rw [kt.hostOf? e] at hy
      rw [kt.host h y e hy] at hd
      rw [km.eval?_home e]
      exact a.clean hz (promise h e ▸ hv) hy hd

/-! ## Changes of the tables -/

theorem setConst (c : t.Coherent) (a : Agrees t m ρ) (g : GuestReg) (v : Word) :
    Agrees (t.setConst g v) m (ρ.set g (some v)) := by
  apply change c a (c.changesOnly_setConst g v) (.refl t m g)
  · intro h hne
    exact Reference.set_of_ne ρ _ hne
  · intro hz w hw
    rw [Reference.set_self] at hw
    rw [guest_setConst_self, if_neg (mt GuestReg.isZero_iff.1 hz)]
    exact hw
  · intro hz w x hw hx
    rw [hostOf?_setConst_self] at hx
    cases hx

/-- A discarded register has the word at its home again. -/
theorem discard (c : t.Coherent) (a : Agrees t m ρ) (hx : t.hostOf? g = some x) :
    Agrees (t.discard g) m (ρ.set g (m.eval? g.home)) := by
  apply change c a (c.changesOnly_discard g) (.refl t m g)
  · intro h hne
    exact Reference.set_of_ne ρ _ hne
  · intro hz w hw
    rw [Reference.set_self] at hw
    rw [guest_discard_self hx]
    exact hw
  · intro hz w y hw hy
    rw [hostOf?_discard_self] at hy
    cases hy

theorem release (c : t.Coherent) (a : Agrees t m ρ) (k : m.ChangesOnly t m' g)
    (home : g ≠ .zero → ∀ v, ρ g = some v → m'.eval? g.home = some v) :
    Agrees (t.release g) m' ρ := by
  have hb := c.binds_release_self g
  apply change c a (c.changesOnly_release g) k (fun _ _ => rfl)
  · intro hz v hv
    rw [hb.place]
    exact home hz v hv
  · intro hz v y hv hy
    rw [hostOf?_of_home hb] at hy
    cases hy

/-- A free host register that receives `w` becomes the place of `g`. What is promised of `g`
from then on has to be `w` and to have been promised before. -/
theorem bind (c : t.Coherent) (a : Agrees t m ρ) (hg : t.hostOf? g = none)
    (hx : (t.host x).free = true) (dirty : Bool) (w : Word)
    (promise : ∀ h, g ≠ h → ρ' h = ρ h)
    (same : g ≠ .zero → ∀ v, ρ' g = some v → ρ g = some v ∧ w = v) :
    Agrees (t.bind g x (dirty || (t.guest g).place.isImm)) (m.setHost x w) ρ' := by
  apply change c a (c.changesOnly_bind g hx _)
    (MoveMachine.changesOnly_setHost (fun h _ => c.not_mapped_of_free hx h) m w) promise
  · intro hz v hv
    rw [guest_bind_self, MoveMachine.eval?_reg, MoveMachine.host_setHost_self, (same hz v hv).2]
  · intro hz v y hv hy hd
    -- the new copy is clean only if `g` was at home
    rw [hostOf?_bind_self] at hy
    obtain rfl := Option.some.inj hy
    rw [host_bind_self, Bool.or_eq_false_iff] at hd
    obtain ⟨b, hb⟩ := c.binds g
    cases b with
    | home =>
      have old := a.value hz (same hz v hv).1
      rwa [hb.place] at old
    | const v =>
      rw [hb.place] at hd
      cases hd.2
    | mapped y =>
      rw [binds_mapped_iff.1 hb] at hg
      cases hg

/-! ## Writes of the program being translated -/

theorem write (c : t.Coherent) (a : Agrees t m ρ) (hx : t.hostOf? g = some x)
    (hd : (t.host x).dirty = true) (w : Word) :
    Agrees t (m.setHost x w) (ρ.set g (some w)) := by
  apply change c a (.refl t g)
    (MoveMachine.changesOnly_setHost (fun h hne hh => hne (c.mapped_inj hx hh)) m w)
  · intro h hne
    exact Reference.set_of_ne ρ _ hne
  · intro hz v hv
    rw [Reference.set_self] at hv
    rw [(hostOf?_eq_some_iff.1 hx).2, MoveMachine.eval?_reg, MoveMachine.host_setHost_self, hv]
  · intro hz v y hv hy hc
    rw [Option.some.inj (hy.symm.trans hx), hd] at hc
    cases hc

/-- A register without an owner holds no promised value, so this is a change at the hardwired
zero, of which nothing is asked. -/
theorem scratch (c : t.Coherent) (a : Agrees t m ρ) (hx : (t.host x).owner = none) (w : Word) :
    Agrees t (m.setHost x w) ρ := by
  have unmapped (h : GuestReg) : t.hostOf? h ≠ some x := by
    intro e
    rw [c.owner_of_mapped e] at hx
    cases hx
  apply change c a (.refl t .zero) (MoveMachine.changesOnly_setHost (fun h _ => unmapped h) m w)
    (fun _ _ => rfl)
  · intro hz
    exact absurd rfl hz
  · intro hz
    exact absurd rfl hz

/-! ## Writing back -/

/-- Sending a register home: its value is stored unless it is there already. -/
theorem writeBack (c : t.Coherent) (a : Agrees t m ρ) (g : GuestReg) :
    ∃ m', m.execAll? (movesOf (t.storesOf g)) = some m' ∧ Agrees (t.release g) m' ρ ∧
      m'.host = m.host := by
  by_cases hz : g = .zero
  · subst hz
    rw [storesOf_zero]
    exact ⟨m, rfl, a.release c (.refl t m .zero) fun hz => absurd rfl hz, rfl⟩
  obtain ⟨b, hb⟩ := c.binds g
  have value {v} (hv : ρ g = some v) : m.eval? (b.place g) = some v := hb.place ▸ a.value hz hv
  cases b with
  | home =>
    rw [storesOf_of_home hb]
    exact ⟨m, rfl, a.release c (.refl t m g) fun _ _ hv => value hv, rfl⟩
  | const w =>
    rw [storesOf_of_const hb hz]
    refine ⟨m.setSlot g w, ?_, ?_, rfl⟩
    · exact congrArg (·.bind some) (m.exec?_store_imm g w)
    · apply a.release c (m.changesOnly_setSlot t g w)
      intro _ v hv
      rw [MoveMachine.eval?_home_setSlot]
      exact value hv
  | mapped x =>
    have hx := binds_mapped_iff.1 hb
    rw [storesOf_of_mapped hx hz]
    split
    · refine ⟨m.setSlot g (m.host x), ?_, ?_, rfl⟩
      · exact congrArg (·.bind some) (m.exec?_store_reg g x)
      · apply a.release c (m.changesOnly_setSlot t g _)
        intro _ v hv
        rw [MoveMachine.eval?_home_setSlot]
        exact value hv
    · next hd =>
      -- a clean copy needs no store
      refine ⟨m, rfl, ?_, rfl⟩
      apply a.release c (.refl t m g)
      intro _ v hv
      exact a.clean hz hv hx (Bool.eq_false_iff.2 hd)

theorem releaseAll (c : t.Coherent) (a : Agrees t m ρ) (gs : List GuestReg) (nodup : gs.Nodup) :
    ∃ m', m.execAll? (movesOf (gs.flatMap t.storesOf)) = some m' ∧
      Agrees (t.releaseAll gs) m' ρ ∧ m'.host = m.host := by
  induction gs generalizing t m with
  | nil => exact ⟨m, rfl, a, rfl⟩
  | cons g gs ih =>
    obtain ⟨hg, nodup⟩ := List.nodup_cons.1 nodup
    obtain ⟨m₁, run₁, a₁, host₁⟩ := a.writeBack c g
    obtain ⟨m₂, run₂, a₂, host₂⟩ := ih (c.release g) a₁ nodup
    have rest := (c.changesOnly_release g).flatMap_storesOf hg
    refine ⟨m₂, ?_, a₂, host₂.trans host₁⟩
    rw [List.flatMap_cons, movesOf_append, MoveMachine.execAll?_append, run₁, Option.bind_some,
      ← rest, run₂]

end Agrees

/-! ## Requests -/

/-- The moves of an outcome lead from `m` to a machine that agrees with the tables it leaves; the
context register is not touched. -/
def Carried {α : Type} (o : Outcome Fault Cache Event α) (m : MoveMachine) (ρ : Reference) : Prop :=
  ∃ m', m.execAll? (movesOf o.journal) = some m' ∧ Agrees o.state.tables m' ρ ∧
    m'.host .contextBase = m.host .contextBase

namespace Carried

variable {α : Type} {m : MoveMachine} {ρ : Reference}

theorem of_quiet {o : Outcome Fault Cache Event α} (a : Agrees o.state.tables m ρ)
    (quiet : o.journal = []) : Carried o m ρ :=
  ⟨m, by rw [quiet]; rfl, a, rfl⟩

theorem silent {k : CacheM Unit} {c : Cache} (h : Carried (k c) m ρ) :
    Carried (Request.silent k c) m ρ := by
  rwa [Carried, Request.journal_silent, Request.state_silent]

end Carried

namespace Agrees

open Tables

variable {m m' : MoveMachine} {ρ ρ' : Reference} {g : GuestReg} {x : HostReg}
variable {c c' : Cache} {j : List Event}

theorem room (h : c.tables.Coherent) (a : Agrees c.tables m ρ) (r : Room c x c' j) :
    ∃ m', m.execAll? (movesOf j) = some m' ∧ Agrees c'.tables m' ρ ∧ m'.host = m.host := by
  cases r with
  | free _ => exact ⟨m, rfl, a, rfl⟩
  | spill g _ _ _ => exact a.writeBack h g

theorem carried_acquire (h : c.tables.Coherent) (a : Agrees c.tables m ρ) :
    Carried (CacheM.acquire c) m ρ := by
  rcases CacheM.acquire_cases h with ⟨x, c', j, ha, r⟩ | ⟨ha, -⟩
  · obtain ⟨m', run, a', host⟩ := a.room h r
    rw [ha]
    exact ⟨m', run, a', congrFun host _⟩
  · rw [ha]
    exact .of_quiet a rfl

theorem carried_writeBack (h : c.tables.Coherent) (a : Agrees c.tables m ρ) (g : GuestReg) :
    Carried (CacheM.writeBack g c) m ρ := by
  obtain ⟨m', run, a', host⟩ := a.writeBack h g
  rw [CacheM.writeBack_run]
  exact ⟨m', run, a', congrFun host _⟩

theorem carried_evict (h : c.tables.Coherent) (a : Agrees c.tables m ρ) (x : HostReg) :
    Carried (CacheM.evict x c) m ρ := by
  cases ho : (c.tables.host x).owner with
  | none =>
    rw [CacheM.evict_of_vacant ho]
    exact .of_quiet a rfl
  | some g =>
    rw [CacheM.evict_of_owner h ho]
    exact a.carried_writeBack h g

theorem carried_flush (h : c.tables.Coherent) (a : Agrees c.tables m ρ) :
    Carried (CacheM.flush c) m ρ := by
  rcases CacheM.flush_cases h with ⟨run, hx, hg⟩ | ⟨f, run, -⟩
  · have a₀ : Agrees (c.tables.setConst .zero 0) m ρ :=
      (a.setConst h .zero 0).weaken fun g v hz hv => by
        rwa [Reference.set_of_ne ρ _ (Ne.symm hz)]
    obtain ⟨m', moves, a', host⟩ :=
      a₀.releaseAll (h.setConst .zero 0) GuestReg.all.tail (by decide)
    rw [h.flushed hg hx] at a'
    rw [h.storesOf_tail] at moves
    rw [run]
    exact ⟨m', moves, a', congrFun host _⟩
  · rw [run]
    exact .of_quiet a rfl

theorem carried_mapGuest (h : c.tables.Coherent) (a : Agrees c.tables m ρ) (g : GuestReg)
    (load dirty : Bool) :
    Carried (CacheM.mapGuest g load dirty c) m
      ((Request.mapGuest g load dirty).expect c.tables m ρ) := by
  cases hg : c.tables.hostOf? g with
  | some x =>
    rw [CacheM.mapGuest_of_mapped hg, Request.expect, isMapped, hg, Option.isSome_some,
      Bool.or_true, if_pos rfl]
    exact .of_quiet (a.markDirty x dirty) rfl
  | none =>
    rw [Request.expect, isMapped, hg, Option.isSome_none, Bool.or_false]
    rcases CacheM.acquire_cases h with ⟨x, c', j, ha, r⟩ | ⟨ha, -⟩
    · obtain ⟨m₁, run₁, a₁, host₁⟩ := a.room h r
      have free : (c'.tables.host x).free = true := by rw [r.host_eq h]; rfl
      have slot := r.guest_of_unmapped hg
      have off : x ≠ .contextBase := fun e => absurd (e ▸ r.allocatable) (by decide)
      rw [CacheM.mapGuest_of_room h hg ha r, ← slot]
      cases load with
      | false =>
        refine ⟨m₁, by simpa [loadsOf] using run₁, ?_, congrFun host₁ _⟩
        -- the machine has in `x` whatever it had there before
        rw [← m₁.setHost_self x]
        apply a₁.bind (r.coherent h) (r.unmapped hg) free dirty (m₁.host x)
          (fun h hne => Reference.set_of_ne ρ _ hne)
        intro _ v hv
        rw [Reference.set_self] at hv
        cases hv
      | true =>
        obtain ⟨b, hb⟩ := (r.coherent h).binds g
        obtain ⟨w, hw⟩ := m₁.exists_eval? g b
        rw [← hb.place] at hw
        have run₂ := MoveMachine.execAll?_loadsOf (slot ▸ hw) x
        refine ⟨m₁.setHost x (if g.isZero then 0 else w), ?_, ?_, ?_⟩
        · rw [movesOf_append, MoveMachine.execAll?_append, run₁, Option.bind_some, run₂]
        · apply a₁.bind (r.coherent h) (r.unmapped hg) free dirty _ (fun _ _ => rfl)
          intro hz v hv
          rw [if_neg (mt GuestReg.isZero_iff.1 hz)]
          exact ⟨hv, Option.some.inj (hw.symm.trans (a₁.value hz hv))⟩
        · exact (m₁.host_setHost_of_ne _ (Ne.symm off)).trans (congrFun host₁ _)
    · rw [CacheM.mapGuest_of_full h hg ha]
      refine .of_quiet ?_ rfl
      split
      · exact a
      · exact a.forget g

theorem carried_materialize (h : c.tables.Coherent) (a : Agrees c.tables m ρ) (g : GuestReg)
    (load dirty : Bool) :
    Carried (CacheM.materialize g load dirty c) m
      ((Request.materialize g load dirty).expect c.tables m ρ) := by
  obtain ⟨b, hb⟩ := h.binds g
  rw [Request.expect, hb.place]
  cases b with
  | home =>
    rw [CacheM.materialize_of_home hb]
    exact .of_quiet (by simpa [Binding.place, GuestReg.home, Operand.isImm] using a) rfl
  | const v =>
    have run := a.carried_mapGuest h g load dirty
    have hg := hostOf?_of_const hb
    rw [CacheM.materialize_of_const hb]
    simpa [Request.expect, isMapped, hg, Binding.place, Operand.isImm] using run
  | mapped x =>
    rw [CacheM.materialize_of_mapped (binds_mapped_iff.1 hb)]
    exact .of_quiet (by simpa [Binding.place, Operand.isImm] using a.markDirty x dirty) rfl

end Agrees

/-- A request that neither begins a block nor goes back to saved tables. -/
def Request.straight : Request → Bool
  | start .. | restore .. => false
  | _ => true

/-- **One step.** The moves of a request lead to a machine that agrees with what the request makes
of the reference. -/
theorem Agrees.perform {c : Cache} {m : MoveMachine} {ρ : Reference} (h : c.tables.Coherent)
    (a : Agrees c.tables m ρ) (r : Request) (straight : r.straight = true) :
    Carried (r.perform c) m (r.expect c.tables m ρ) := by
  cases r with
  | start => cases straight
  | restore => cases straight
  | setPc => exact .of_quiet a rfl
  | setConst g v => exact .of_quiet (a.setConst h g v) rfl
  | discard g =>
    refine .of_quiet ?_ rfl
    show Agrees (c.tables.discard g) m _
    cases hx : c.tables.hostOf? g with
    | none => simpa [Tables.discard_of_unmapped hx, Request.expect, Tables.isMapped, hx] using a
    | some x => simpa [Request.expect, Tables.isMapped, hx] using a.discard h hx
  | materialize g load dirty => exact (a.carried_materialize h g load dirty).silent
  | lockGuests gs =>
    obtain ⟨r, u, run, same⟩ := CacheM.lockGuests_run gs c
    refine .silent ?_
    rw [run]
    exact .of_quiet (a.of_sameButLocks same) rfl
  | lockHosts xs =>
    obtain ⟨r, u, run, same⟩ := CacheM.lockHosts_run xs c
    refine .silent ?_
    rw [run]
    exact .of_quiet (a.of_sameButLocks same) rfl
  | unlockGuests =>
    have same := Tables.sameButLocks_map_unlocked c.tables
    have bound := (a.of_sameButLocks same).setConst (same.coherent h) .zero 0
    exact .of_quiet (bound.weaken fun g v hz hv => by
      rwa [Reference.set_of_ne ρ _ (Ne.symm hz)]) rfl
  | unlockHosts => exact .of_quiet (a.of_sameButLocks (Tables.sameButLocks_unlockHosts _)) rfl
  | acquire =>
    obtain ⟨m', run, a', base⟩ := a.carried_acquire h
    rw [← Request.journal_perform_acquire] at run
    rw [← Request.state_perform_acquire] at a'
    exact ⟨m', run, a', base⟩
  | mapGuest g load dirty => exact (a.carried_mapGuest h g load dirty).silent
  | writeBack g => exact (a.carried_writeBack h g).silent
  | evict x => exact (a.carried_evict h x).silent
  | flush => exact (a.carried_flush h).silent
  | flushBeforeCall => exact (a.carried_flush h).silent

end Dynarec
