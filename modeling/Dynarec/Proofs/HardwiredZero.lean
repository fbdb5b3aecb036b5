import Dynarec.Proofs.Runs
import Dynarec.Proofs.WriteBacks

/-!
# The hardwired zero

The hardwired zero is mapped, spilled and discarded like any other guest register. What is special
about it: it is bound to no constant but 0 (`Request.Done.zero_const`), nothing is stored to its
home and its load is the constant 0 (`Request.Done.sparesZero`). So if its word in the context is 0
to begin with and a translator leaves its host register alone, it has the value 0 wherever it is
(`ZeroHolds`), which one request keeps (`Request.Done.zeroHolds`) and a run of a translator
(`ZeroSpared.zeroHolds`). `Request.zero_hardwired` has both sides of it.
-/

namespace Dynarec

open Journal

/-! ## What the cache does with it -/

/-- The requests after which the hardwired zero is bound to its constant. -/
inductive Request.BindsZero : Request → Prop where
  | start (oracle : UsageOracle) (pc : Word) : BindsZero (.start oracle pc)
  | unlockGuests : BindsZero .unlockGuests
  | flush : BindsZero .flush
  | flushBeforeCall : BindsZero .flushBeforeCall

/-- The event neither stores to the home of the hardwired zero nor takes its value from there. -/
structure Event.SparesZero (e : Event) : Prop where
  unstored : ¬ e.StoresTo .zero
  unread : ∀ {g x a}, e = .load g x (.mem a) → g ≠ .zero ∧ a = g.address
  loaded : ∀ {x src}, e = .load .zero x src → src = .imm 0

section Steps

variable {c c' : Cache} {r : Request} {j : List Event} {e : Event} {g : GuestReg} {x : HostReg}
  {v : Word} {src : Operand}

/-- A constant of the hardwired zero is 0 or was there before. -/
theorem Request.Done.zero_const (d : Done c r c' j) (h : c.tables.Coherent)
    (plain : ∀ t, r ≠ .restore t) (p : (c'.tables.guest .zero).place = .imm v) :
    (c.tables.guest .zero).place = .imm v ∨ v = 0 := by
  obtain ⟨b, hb⟩ := h.binds .zero
  cases d.fate h plain .zero with
  | kept keeps => exact .inl (hb.place.trans ((keeps.binds hb).place.symm.trans p))
  | dirtied binds renews => exact .inl (hb.place.trans ((binds hb).place.symm.trans p))
  | home home => exact nomatch home.place.symm.trans p
  | const const renews zero =>
    obtain rfl := Operand.imm.inj (const.place.symm.trans p)
    exact .inr (zero rfl)
  | mapped anew mapped renews last =>
    exact nomatch (Tables.hostOf?_eq_some_iff.1 mapped).2.symm.trans p

/-- Where a load takes the value from. -/
theorem Request.Done.load_source (d : Done c r c' j) (h : c.tables.Coherent)
    (he : .load g x src ∈ j) : src = if g.isZero then .imm 0 else (c.tables.guest g).place := by
  cases d.wrote h he with
  | quiet quiet => cases quiet
  | store he home =>
    obtain ⟨_, e⟩ := Event.storesTo_iff.1 (Tables.of_mem_storesOf he).1
    cases e
  | load he =>
    unfold Tables.loadsOf at he
    split at he
    · obtain ⟨rfl, rfl, rfl⟩ := Event.load.inj (List.mem_singleton.1 he)
      rfl
    · cases he

/-- **One step** leaves the home of the hardwired zero alone. -/
theorem Request.Done.sparesZero (d : Done c r c' j) (h : c.tables.Coherent) (he : e ∈ j) :
    e.SparesZero := by
  refine ⟨fun s => (d.of_store h he s).1.ne_zero rfl, ?_, ?_⟩
  · rintro g x a rfl
    have source := d.load_source h he
    by_cases hz : g = .zero
    · rw [if_pos (GuestReg.isZero_iff.2 hz)] at source
      cases source
    · rw [if_neg (mt GuestReg.isZero_iff.1 hz)] at source
      obtain ⟨b, hb⟩ := h.binds g
      rw [hb.place] at source
      cases b with
      | home => exact ⟨hz, Operand.mem.inj source⟩
      | const v => cases source
      | mapped y => cases source
  · rintro x src rfl
    exact d.load_source h he

end Steps

/-! ## On the machine -/

namespace MoveMachine

variable {m m' : MoveMachine} {mv : Move} {j : List Event} {e : Event} {g : GuestReg}

theorem assign?_home (m : MoveMachine) (g : GuestReg) (v : Word) :
    m.assign? g.home v = some (m.setSlot g v) := by
  simp [assign?, GuestReg.home, GuestReg.address, setSlot]

/-- The word of a register changes by a store to it only. -/
theorem get_exec? (hm : e.move? = some mv) (unstored : ¬ e.StoresTo g)
    (run : m.exec? mv = some m') : m'.context.get g = m.context.get g := by
  simp only [exec?, Option.bind_eq_bind, Option.bind_eq_some_iff] at run
  obtain ⟨i, -, w, -, assigned⟩ := run
  cases e with
  | store h src =>
    obtain rfl := Option.some.inj hm
    have hne : h ≠ g := by
      rintro rfl
      exact unstored ⟨src, rfl⟩
    obtain rfl := Option.some.inj ((m.assign?_home h w).symm.trans assigned)
    rw [setSlot, Context.get_set, if_neg hne]
  | load h x src =>
    obtain rfl := Option.some.inj hm
    cases assigned
    rfl
  | start | flush | spill => cases hm

theorem get_execAll? (unstored : ∀ e ∈ j, ¬ e.StoresTo g)
    (run : m.execAll? (movesOf j) = some m') : m'.context.get g = m.context.get g := by
  induction j generalizing m with
  | nil =>
    cases run
    rfl
  | cons e j ih =>
    have rest : ∀ e' ∈ j, ¬ e'.StoresTo g := fun e' he' => unstored e' (List.mem_cons_of_mem e he')
    cases hm : e.move? with
    | none =>
      rw [movesOf, List.filterMap_cons_none hm] at run
      exact ih rest run
    | some mv =>
      rw [movesOf, List.filterMap_cons_some hm] at run
      obtain ⟨m₁, head, tail⟩ := Option.bind_eq_some_iff.1 run
      exact (ih rest tail).trans (get_exec? hm (unstored e List.mem_cons_self) head)

end MoveMachine

/-- The hardwired zero has the value 0, where it is and at home. -/
structure ZeroHolds (t : Tables) (m : MoveMachine) : Prop where
  home : m.context.get .zero = 0
  place : m.eval? (t.guest .zero).place = some 0

/-- The code that a translator leaves behind on its way from one cache to another, if it keeps off
the hardwired zero: it never has it mapped without a load, and of the host registers its own
instructions do not write the one that belongs to the zero, nor the context register. -/
inductive ZeroSpared : Cache → List Item → Cache → Prop where
  | done (c : Cache) : ZeroSpared c [] c
  | request {c c₁ c' : Cache} {r : Request} {a : Option HostReg} {j : List Event} {code : List Item}
      (plain : ∀ t, r ≠ .restore t) (loaded : ¬ r.MapsAnew c.tables .zero false)
      (run : r.perform c = ⟨.ok a, c₁, j⟩) (rest : ZeroSpared c₁ code c') :
      ZeroSpared c ((movesOf j).map .move ++ code) c'
  | compute {c c' : Cache} {x : HostReg} {code : List Item} (f : MoveMachine → Word)
      (owner : (c.tables.host x).owner ≠ some .zero) (base : x ≠ .contextBase)
      (rest : ZeroSpared c code c') : ZeroSpared c (.compute x f :: code) c'

/-- A run that is made of requests only. -/
theorem ZeroSpared.of_performAll {rs : List Request} {c c' : Cache} {j : List Event}
    (plain : ∀ r ∈ rs, ∀ t, r ≠ .restore t) (loaded : ∀ r ∈ rs, ∀ t, ¬ r.MapsAnew t .zero false)
    (run : Request.performAll rs c = ⟨.ok (), c', j⟩) :
    ZeroSpared c ((movesOf j).map .move) c' := by
  induction rs generalizing c j with
  | nil =>
    cases run
    exact .done _
  | cons r rs ih =>
    obtain ⟨a, c₁, j₁, j₂, head, tail, rfl⟩ := Request.performAll_cons_ok run
    rw [movesOf_append, List.map_append]
    exact .request (plain r List.mem_cons_self) (loaded r List.mem_cons_self c.tables) head
      (ih (fun q hq => plain q (List.mem_cons_of_mem r hq))
        (fun q hq => loaded q (List.mem_cons_of_mem r hq)) tail)

section Machine

variable {c c' : Cache} {r : Request} {j : List Event} {m m' : MoveMachine} {x : HostReg}
  {code : List Item}

/-- The moves of a request can always be carried out. -/
theorem Request.exists_execAll? (h : c.tables.Coherent) (plain : ∀ t, r ≠ .restore t)
    (m : MoveMachine) : ∃ m', m.execAll? (movesOf (r.perform c).journal) = some m' := by
  have unpromised : Agrees c.tables m fun _ => none := ⟨nofun, nofun⟩
  cases straight : r.straight with
  | true =>
    obtain ⟨m', run, -⟩ := unpromised.perform h r straight
    exact ⟨m', run⟩
  | false =>
    cases r with
    | start oracle pc => exact ⟨m, rfl⟩
    | restore t => exact absurd rfl (plain t)
    | _ => cases straight

/-- The value of a guest register is the same after a request that keeps its binding and stores
nothing to its home. -/
theorem Request.Done.eval?_of_binds {g : GuestReg} {b : Binding} (d : Done c r c' j)
    (h : c.tables.Coherent) (h' : c'.tables.Coherent) (run : m.execAll? (movesOf j) = some m')
    (unstored : ∀ e ∈ j, ¬ e.StoresTo g) (hb : c.tables.Binds g b) (hb' : c'.tables.Binds g b) :
    m'.eval? (c'.tables.guest g).place = m.eval? (c.tables.guest g).place := by
  rw [hb.place, hb'.place]
  cases b with
  | home => simp only [Binding.place, MoveMachine.eval?_home, MoveMachine.get_execAll? unstored run]
  | const v => rfl
  | mapped x =>
    have kept : m'.host x = m.host x := by
      refine host_runCode? ((runCode?_moves _ m).trans run) ?_ (by simp)
      intro i hi
      exact d.not_mem_writes_of_mapped h h' (Tables.binds_mapped_iff.1 hb)
        (Tables.binds_mapped_iff.1 hb') (emits_moves.1 hi)
    simp only [Binding.place, MoveMachine.eval?_reg, kept]

/-- **One step** on the machine. -/
theorem Request.Done.zeroHolds (d : Done c r c' j) (h : c.tables.Coherent)
    (h' : c'.tables.Coherent) (plain : ∀ t, r ≠ .restore t)
    (loaded : ¬ r.MapsAnew c.tables .zero false) (z : ZeroHolds c.tables m)
    (run : m.execAll? (movesOf j) = some m') : ZeroHolds c'.tables m' := by
  have unstored : ∀ e ∈ j, ¬ e.StoresTo .zero := fun e he => (d.sparesZero h he).unstored
  have at_home : m'.context.get .zero = 0 := (MoveMachine.get_execAll? unstored run).trans z.home
  refine ⟨at_home, ?_⟩
  obtain ⟨b, hb⟩ := h.binds .zero
  cases d.fate h plain .zero with
  | kept keeps => exact (d.eval?_of_binds h h' run unstored hb (keeps.binds hb)).trans z.place
  | dirtied binds renews => exact (d.eval?_of_binds h h' run unstored hb (binds hb)).trans z.place
  | home home => rw [home.place, Binding.place, MoveMachine.eval?_home, at_home]
  | const const renews zero =>
    rw [const.place, zero rfl]
    rfl
  | @mapped x load j₁ anew mapped renews last =>
    cases load with
    | false => exact absurd anew loaded
    | true =>
      rw [last, movesOf_append, MoveMachine.execAll?_append] at run
      obtain ⟨m₁, -, loads⟩ := Option.bind_eq_some_iff.1 run
      cases loads
      rw [(Tables.hostOf?_eq_some_iff.1 mapped).2]
      exact congrArg some (m₁.host_setHost_self x 0)

/-- **Along a run** the hardwired zero keeps its value. -/
theorem ZeroSpared.zeroHolds (s : ZeroSpared c code c') (h : c.tables.Coherent)
    (z : ZeroHolds c.tables m) : ∃ m', runCode? code m = some m' ∧ ZeroHolds c'.tables m' := by
  induction s generalizing m with
  | done c => exact ⟨m, rfl, z⟩
  | @request c c₁ c' r a j code plain loaded run rest ih =>
    obtain ⟨m₁, moves⟩ := Request.exists_execAll? h plain m
    have d := Request.done_of_ok h (by rw [run])
    rw [run] at moves d
    have h₁ := Request.coherent_of_run h plain run
    obtain ⟨m₂, tail, z₂⟩ := ih h₁ (d.zeroHolds h h₁ plain loaded z moves)
    refine ⟨m₂, ?_, z₂⟩
    rw [runCode?_append, runCode?_moves, moves, Option.bind_some, tail]
  | @compute c c' x code f owner base rest ih =>
    have z₁ : ZeroHolds c.tables (m.setHost x (f m)) := by
      refine ⟨z.home, ?_⟩
      obtain ⟨b, hb⟩ := h.binds .zero
      have value := z.place
      rw [hb.place] at value ⊢
      cases b with
      | home => exact value
      | const v => exact value
      | mapped y =>
        have hne : y ≠ x := by
          rintro rfl
          exact owner (h.owner_of_mapped (Tables.binds_mapped_iff.1 hb))
        exact (congrArg some (m.host_setHost_of_ne _ hne)).trans value
    obtain ⟨m₂, tail, z₂⟩ := ih h z₁
    exact ⟨m₂, tail, z₂⟩

end Machine

/-! ## From the start of a block -/

theorem zeroHolds_fresh {m : MoveMachine} (zero : m.context.get .zero = 0) :
    ZeroHolds .fresh m :=
  ⟨zero, by rw [Tables.guest_fresh_zero]; rfl⟩

theorem Event.sparesZero_start (pc : Word) : (Event.start pc).SparesZero := by
  refine ⟨?_, nofun, nofun⟩
  rintro ⟨src, hm⟩
  cases hm

/-- No instruction addresses the home of the hardwired zero. -/
theorem Event.SparesZero.memory?_ne {e : Event} {mv : Move} {i : Instr Address}
    (s : e.SparesZero) (hm : e.move? = some mv) (hi : mv.instr? = some i) :
    i.memory? ≠ some GuestReg.zero.address := by
  cases e with
  | store g src =>
    have hz : g.address ≠ GuestReg.zero.address := by
      intro same
      exact s.unstored ⟨src, by rw [← GuestReg.address_inj same]; rfl⟩
    obtain rfl := Option.some.inj hm
    cases src with
    | imm v =>
      obtain rfl := Option.some.inj hi
      exact fun same => hz (Option.some.inj same)
    | reg x =>
      obtain rfl := Option.some.inj hi
      exact fun same => hz (Option.some.inj same)
    | mem a => cases hi
  | load g x src =>
    obtain rfl := Option.some.inj hm
    cases src with
    | mem a =>
      obtain ⟨hz, rfl⟩ := s.unread rfl
      obtain rfl := Option.some.inj hi
      exact fun same => hz (GuestReg.address_inj (Option.some.inj same))
    | imm v =>
      obtain rfl := Option.some.inj hi
      exact nofun
    | reg y =>
      obtain rfl := Option.some.inj hi
      exact nofun
  | start | flush | spill => cases hm

namespace Request

variable {c c' : Cache} {r : Request} {rs : List Request} {j : List Event}

theorem Done.zero_of_bindsZero (d : Done c r c' j) (b : r.BindsZero) :
    c'.tables.Binds .zero (.const 0) := by
  induction d with
  | start oracle pc => exact Tables.binds_fresh_zero
  | unlockGuests => exact Tables.binds_setConst _ .zero 0
  | flush hosts guests => exact Tables.binds_fresh_zero
  | flushBeforeCall flush ih => exact ih .flush
  | _ => cases b

/-- After the last of some requests the hardwired zero is its constant, if this request makes it
so. -/
theorem zero_of_last {oracle : UsageOracle} {pc : Word} {before : List Request}
    (plain : ∀ r ∈ rs, ∀ t, r ≠ .restore t) (last : .start oracle pc :: rs = before ++ [r])
    (b : r.BindsZero) (run : performAll (.start oracle pc :: rs) c = ⟨.ok (), c', j⟩) :
    c'.tables.Binds .zero (.const 0) := by
  rcases List.cons_eq_append_iff.1 last with ⟨rfl, e⟩ | ⟨middle, rfl, rfl⟩
  · obtain ⟨-, rfl⟩ := List.cons.inj e
    cases run
    exact Tables.binds_fresh_zero
  · cases rest : performAll (middle ++ [r]) (started c oracle pc) with
    | mk result u j' =>
      rw [performAll_start, rest] at run
      cases run
      rw [performAll_append] at rest
      obtain ⟨_, t, j₁, j₂, head, tail, -⟩ := Outcome.andThen_eq_ok rest
      obtain ⟨a, t', j₃, j₄, made, done, -⟩ := performAll_cons_ok tail
      cases done
      have h : t.tables.Coherent := by
        have kept := coherent_of_performAll (coherent_started c oracle pc)
          (fun q hq => plain q (List.mem_append_left _ hq)) (by rw [head])
        rwa [head] at kept
      have d := done_of_ok h (by rw [made])
      rw [made] at d
      exact d.zero_of_bindsZero b

/-- **The hardwired zero reads as zero.** After any requests from the start of a block it is bound
to no constant but 0; no instruction in the code of these requests addresses its home; a load of it
is the constant 0; and where a request makes it a constant it owns no host register. If a
translator keeps off it, and its word in the context is 0 at the start, its operand has the value 0
on the machine that has run the code, wherever it is then. -/
theorem zero_hardwired (plain : ∀ r ∈ rs, ∀ t, r ≠ .restore t) (oracle : UsageOracle) (pc : Word)
    (c : Cache) {result : Except Fault Unit}
    (run : performAll (.start oracle pc :: rs) c = ⟨result, c', j⟩) :
    (result = .ok () → ∀ v, (c'.tables.guest .zero).place = .imm v → v = 0) ∧
    (∀ i ∈ codeOf j, i.memory? ≠ some GuestReg.zero.address) ∧
    (∀ x src, .load .zero x src ∈ j →
      (Event.load .zero x src).move?.bind Move.instr? = some (.movImm x 0)) ∧
    (result = .ok () → ∀ before r, .start oracle pc :: rs = before ++ [r] → r.BindsZero →
      (c'.tables.guest .zero).away = true ∧ (c'.tables.guest .zero).place = .imm 0 ∧
        ∀ x, (c'.tables.host x).owner ≠ some .zero) ∧
    ∀ code c₁ m, ZeroSpared (started c oracle pc) code c₁ → m.context.get .zero = 0 →
      ∃ m', runCode? code m = some m' ∧ m'.eval? (c₁.tables.guest .zero).place = some 0 := by
  obtain ⟨events, kept⟩ := performAll_keeps
    (P := fun c => ∀ v, (c.tables.guest .zero).place = .imm v → v = 0) (Q := Event.SparesZero)
    (fun h p plain d => ⟨fun v hv => (d.zero_const h plain hv).elim (p v) id,
      fun e => d.sparesZero h⟩)
    (fun t no => no t rfl) (coherent_started c oracle pc)
    (fun v hv => (Operand.imm.inj (Tables.binds_fresh_zero.place.symm.trans hv)).symm) plain
  cases rest : performAll rs (started c oracle pc) with
  | mk result' u j' =>
    rw [performAll_start, rest] at run
    cases run
    rw [rest] at events kept
    have spares : ∀ e ∈ [Event.start pc] ++ j', e.SparesZero := by
      intro e he
      rcases List.mem_append.1 he with he | he
      · exact List.mem_singleton.1 he ▸ Event.sparesZero_start pc
      · exact events e he
    refine ⟨fun ok => (kept ok).2, ?_, ?_, ?_, ?_⟩
    · intro i hi
      obtain ⟨e, he, mv, hm, him⟩ := mem_codeOf.1 hi
      exact (spares e he).memory?_ne hm him
    · intro x src he
      rw [(spares _ he).loaded rfl]
      rfl
    · rintro rfl before r last b
      have const := zero_of_last (c := c) plain last b (by rw [performAll_start, rest]; rfl)
      refine ⟨const.away, const.place, ?_⟩
      intro x owner
      have mapped := (((kept rfl).1.fits x).owner_iff .zero).1 owner
      rw [Tables.hostOf?_of_const const] at mapped
      cases mapped
    · intro code c₁ m spared zero
      obtain ⟨m', ran, z⟩ := spared.zeroHolds (coherent_started c oracle pc) (zeroHolds_fresh zero)
      exact ⟨m', ran, z.place⟩

/-- The hardwired zero is mapped, while a translator writes another register, and spilled when seven
others need the room. -/
theorem zero_hardwired_of_spill :
    let others : List Request := [4, 5, 6, 7, 8, 9, 10].map fun n => .mapGuest ⟨n⟩ true false
    ∃ c' j, performAll (.start noUsage 0 :: .mapGuest .zero true true :: others) .fresh =
        ⟨.ok (), c', j⟩ ∧
      .spill .zero .rbp ∈ j ∧ (c'.tables.guest .zero).place = GuestReg.zero.home ∧
      (∀ i ∈ codeOf j, i.memory? ≠ some GuestReg.zero.address) ∧
      ∀ (f : MoveMachine → Word) (m : MoveMachine), m.context.get .zero = 0 →
        ∃ code m', .compute .rcx f ∈ code ∧ runCode? code m = some m' ∧
          m'.eval? GuestReg.zero.home = some 0 := by
  intro others
  have plain : ∀ r ∈ mapGuest .zero true true :: others, ∀ t, r ≠ .restore t := by
    rintro r hr t rfl
    simp [others] at hr
  have loaded : ∀ r ∈ mapGuest .zero true true :: others, ∀ t, ¬ r.MapsAnew t .zero false := by
    intro r hr t anew
    cases anew <;> simp [others] at hr
  have facts : (performAll (mapGuest .zero true true :: others)
        (started .fresh noUsage 0)).result = .ok () ∧
      .spill .zero .rbp ∈ (performAll (mapGuest .zero true true :: others)
        (started .fresh noUsage 0)).journal ∧
      ((performAll (mapGuest .zero true true :: others)
        (started .fresh noUsage 0)).state.tables.guest .zero).place = GuestReg.zero.home := by
    decide +kernel
  have unowned : (((mapGuest .zero true true).perform
      (started .fresh noUsage 0)).state.tables.host .rcx).owner ≠ some .zero := by
    decide +kernel
  cases run : performAll (mapGuest .zero true true :: others) (started .fresh noUsage 0) with
  | mk result c' j =>
    rw [run] at facts
    obtain ⟨rfl, spilled, home⟩ := facts
    have all : performAll (.start noUsage 0 :: mapGuest .zero true true :: others) .fresh =
        ⟨.ok (), c', [.start 0] ++ j⟩ := by
      rw [performAll_start, run, Outcome.after_mk]
    obtain ⟨-, unaddressed, -, -, reads⟩ := zero_hardwired plain noUsage 0 .fresh all
    refine ⟨c', _, all, List.mem_append_right _ spilled, home, unaddressed, ?_⟩
    intro f m zero
    obtain ⟨a, c₁, j₁, j₂, head, tail, -⟩ := performAll_cons_ok run
    rw [head] at unowned
    have rest := ZeroSpared.of_performAll (fun q hq => plain q (List.mem_cons_of_mem _ hq))
      (fun q hq => loaded q (List.mem_cons_of_mem _ hq)) tail
    have spared := ZeroSpared.request (plain _ List.mem_cons_self) (loaded _ List.mem_cons_self _)
      head (.compute f unowned (by decide) rest)
    obtain ⟨m', ran, value⟩ := reads _ c' m spared zero
    rw [home] at value
    exact ⟨_, m', List.mem_append_right _ List.mem_cons_self, ran, value⟩

end Request

end Dynarec
