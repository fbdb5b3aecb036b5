import Dynarec.Proofs.Agreement
import Dynarec.Proofs.Reachable

/-!
# Runs of a translator

A translator goes through a block in `Step`s: requests to the cache, and instructions of
its own that write a host register, either the one that holds a guest register
(`Step.write`) or one without an owner (`Step.scratch`). `Step.emit?` is the code that a
step leaves in the block and `Step.expect` what it does to the reference; `emitAll?` and
`expectAll?` follow a list of steps, the second along the machine that runs the code.

`Agrees.run` is the simulation: code emitted from an agreeing state can be run and ends
in an agreeing one. From the start of a block this means that guest values survive; for
two paths that are emitted one after the other from one snapshot, of which only one is
run, that each of them leaves the right context.
-/

namespace Dynarec

/-! ## Steps -/

/-- What a translator does next. The word that its own instruction computes may depend on the
machine that runs it. -/
inductive Step where
  | request (r : Request)
  | write (g : GuestReg) (f : MoveMachine → Word)
  | scratch (x : HostReg) (f : MoveMachine → Word)

/-- An instruction of the emitted code. -/
inductive Item where
  | move (mv : Move)
  | compute (x : HostReg) (f : MoveMachine → Word)

def Item.exec? (m : MoveMachine) : Item → Option MoveMachine
  | move mv => m.exec? mv
  | compute x f => some (m.setHost x (f m))

def runCode? (code : List Item) (m : MoveMachine) : Option MoveMachine := code.foldlM Item.exec? m

namespace Step

/-- The cache after a step and the code it emits. There is none if a request stops with a fault,
begins a block or goes back to saved tables. A guest register may be written while it is mapped
to a dirty host register, a host register while it has no owner and is not the context register. -/
def emit? (c : Cache) : Step → Option (Cache × List Item)
  | request r =>
    match r.straight, r.perform c with
    | true, ⟨.ok _, c', j⟩ => some (c', (movesOf j).map .move)
    | _, _ => none
  | write g f =>
    match c.tables.hostOf? g with
    | some x => if (c.tables.host x).dirty then some (c, [.compute x f]) else none
    | none => none
  | scratch x f =>
    if (c.tables.host x).owner = none ∧ x ≠ .contextBase then some (c, [.compute x f]) else none

/-- The reference after a step that the machine `m` comes to. -/
def expect (c : Cache) (m : MoveMachine) (ρ : Reference) : Step → Reference
  | request r => r.expect c.tables m ρ
  | write g f => ρ.set g (some (f m))
  | scratch .. => ρ

/-- The step sends every guest register home. -/
def flushes : Step → Bool
  | request .flush | request .flushBeforeCall => true
  | _ => false

end Step

def emitAll? : List Step → Cache → Option (Cache × List Item)
  | [], c => some (c, [])
  | s :: ss, c => do
    let (c', code) ← s.emit? c
    let (c'', rest) ← emitAll? ss c'
    some (c'', code ++ rest)

/-- The reference after the steps, for a machine that runs their code. -/
def expectAll? : List Step → Cache → MoveMachine → Reference → Option Reference
  | [], _, _, ρ => some ρ
  | s :: ss, c, m, ρ => do
    let (c', code) ← s.emit? c
    let m' ← runCode? code m
    expectAll? ss c' m' (s.expect c m ρ)

/-! ## Running the code -/

theorem runCode?_append (a b : List Item) (m : MoveMachine) :
    runCode? (a ++ b) m = (runCode? a m).bind (runCode? b) :=
  List.foldlM_append

theorem runCode?_moves (mvs : List Move) (m : MoveMachine) :
    runCode? (mvs.map .move) m = m.execAll? mvs :=
  List.foldlM_map ..

namespace Step

variable {c c' : Cache} {m : MoveMachine} {ρ : Reference} {s : Step} {code : List Item}

theorem emit?_request {r : Request} (e : (request r).emit? c = some (c', code)) :
    r.straight = true ∧ (∃ a, (r.perform c).result = .ok a) ∧ (r.perform c).state = c' ∧
      code = (movesOf (r.perform c).journal).map .move := by
  simp only [emit?] at e
  split at e
  · next straight run =>
    obtain ⟨rfl, rfl⟩ := Prod.mk.inj (Option.some.inj e)
    rw [run]
    exact ⟨straight, ⟨_, rfl⟩, rfl, rfl⟩
  · cases e

theorem emit?_write {g : GuestReg} {f : MoveMachine → Word}
    (e : (write g f).emit? c = some (c', code)) :
    ∃ x, c.tables.hostOf? g = some x ∧ (c.tables.host x).dirty = true ∧ c' = c ∧
      code = [.compute x f] := by
  simp only [emit?] at e
  split at e
  · next x hx =>
    split at e
    · next hd =>
      obtain ⟨rfl, rfl⟩ := Prod.mk.inj (Option.some.inj e)
      exact ⟨x, hx, hd, rfl, rfl⟩
    · cases e
  · cases e

theorem emit?_scratch {x : HostReg} {f : MoveMachine → Word}
    (e : (scratch x f).emit? c = some (c', code)) :
    (c.tables.host x).owner = none ∧ x ≠ .contextBase ∧ c' = c ∧ code = [.compute x f] := by
  simp only [emit?] at e
  split at e
  · next h =>
    obtain ⟨rfl, rfl⟩ := Prod.mk.inj (Option.some.inj e)
    exact ⟨h.1, h.2, rfl, rfl⟩
  · cases e

theorem coherent (e : s.emit? c = some (c', code)) (h : c.tables.Coherent) :
    c'.tables.Coherent := by
  cases s with
  | request r =>
    obtain ⟨straight, -, rfl, -⟩ := emit?_request e
    apply r.coherent_perform h
    rintro t rfl
    cases straight
  | write g f =>
    obtain ⟨x, -, -, rfl, -⟩ := emit?_write e
    exact h
  | scratch x f =>
    obtain ⟨-, -, rfl, -⟩ := emit?_scratch e
    exact h

/-- The step lemma: the code of a step runs, and agreement goes on. -/
theorem agrees (e : s.emit? c = some (c', code)) (h : c.tables.Coherent)
    (a : Agrees c.tables m ρ) :
    ∃ m', runCode? code m = some m' ∧ Agrees c'.tables m' (s.expect c m ρ) ∧
      m'.host .contextBase = m.host .contextBase := by
  cases s with
  | request r =>
    obtain ⟨straight, -, rfl, rfl⟩ := emit?_request e
    rw [runCode?_moves]
    exact a.perform h r straight
  | write g f =>
    obtain ⟨x, hx, hd, rfl, rfl⟩ := emit?_write e
    have off : x ≠ .contextBase := fun e => absurd (e ▸ h.allocatable hx) (by decide)
    exact ⟨m.setHost x (f m), rfl, a.write h hx hd _, m.host_setHost_of_ne _ (Ne.symm off)⟩
  | scratch x f =>
    obtain ⟨hx, off, rfl, rfl⟩ := emit?_scratch e
    exact ⟨m.setHost x (f m), rfl, a.scratch h hx _, m.host_setHost_of_ne _ (Ne.symm off)⟩

theorem tables_of_flush (h : c.tables.Coherent) {a : Option HostReg}
    (ok : (Request.silent CacheM.flush c).result = .ok a) :
    (Request.silent CacheM.flush c).state.tables = .fresh := by
  rcases CacheM.flush_cases h with ⟨run, -, -⟩ | ⟨f, run, -⟩
  · rw [Request.state_silent, run]
    rfl
  · rw [Request.silent_run, run] at ok
    cases ok

/-- A flush leaves the tables of a fresh block. -/
theorem tables_of_flushes (e : s.emit? c = some (c', code)) (h : c.tables.Coherent)
    (last : s.flushes = true) : c'.tables = .fresh := by
  unfold flushes at last
  split at last
  · obtain ⟨-, ⟨a, ok⟩, rfl, -⟩ := emit?_request e
    exact tables_of_flush h ok
  · obtain ⟨-, ⟨a, ok⟩, rfl, -⟩ := emit?_request e
    exact tables_of_flush h ok
  · cases last

end Step

/-! ## Runs -/

section Runs

variable {c c' : Cache} {m : MoveMachine} {ρ : Reference} {s : Step} {ss : List Step}
  {code : List Item}

theorem emitAll?_cons (e : emitAll? (s :: ss) c = some (c', code)) :
    ∃ c₁ code₁ code₂, s.emit? c = some (c₁, code₁) ∧ emitAll? ss c₁ = some (c', code₂) ∧
      code = code₁ ++ code₂ := by
  simp only [emitAll?, Option.bind_eq_bind, Option.bind_eq_some_iff] at e
  obtain ⟨⟨c₁, code₁⟩, head, ⟨c₂, code₂⟩, tail, e⟩ := e
  obtain ⟨rfl, rfl⟩ := Prod.mk.inj (Option.some.inj e)
  exact ⟨c₁, code₁, code₂, head, tail, rfl⟩

/-- **The simulation.** Code emitted from a state that agrees can be run and leads to one that
agrees with the reference followed along. -/
theorem Agrees.run (a : Agrees c.tables m ρ) (h : c.tables.Coherent)
    (e : emitAll? ss c = some (c', code)) :
    ∃ m' ρ', runCode? code m = some m' ∧ expectAll? ss c m ρ = some ρ' ∧ c'.tables.Coherent ∧
      Agrees c'.tables m' ρ' ∧ m'.host .contextBase = m.host .contextBase := by
  induction ss generalizing c m ρ code with
  | nil =>
    obtain ⟨rfl, rfl⟩ := Prod.mk.inj (Option.some.inj e)
    exact ⟨m, ρ, rfl, rfl, h, a, rfl⟩
  | cons s ss ih =>
    obtain ⟨c₁, code₁, code₂, head, tail, rfl⟩ := emitAll?_cons e
    obtain ⟨m₁, run₁, a₁, base₁⟩ := Step.agrees head h a
    obtain ⟨m₂, ρ₂, run₂, ref₂, h₂, a₂, base₂⟩ := ih a₁ (Step.coherent head h) tail
    refine ⟨m₂, ρ₂, ?_, ?_, h₂, a₂, base₂.trans base₁⟩
    · rw [runCode?_append, run₁, Option.bind_some, run₂]
    · simp only [expectAll?, head, run₁, Option.bind_eq_bind, Option.bind_some, ref₂]

theorem tables_of_last_flushes (h : c.tables.Coherent) (e : emitAll? ss c = some (c', code))
    (last : ss.getLast?.any Step.flushes = true) : c'.tables = .fresh := by
  induction ss generalizing c code with
  | nil => cases last
  | cons s ss ih =>
    obtain ⟨c₁, code₁, code₂, head, tail, rfl⟩ := emitAll?_cons e
    cases ss with
    | nil =>
      obtain ⟨rfl, rfl⟩ := Prod.mk.inj (Option.some.inj tail)
      exact Step.tables_of_flushes head h (by simpa using last)
    | cons s' ss => exact ih (Step.coherent head h) tail (by simpa using last)

/-- After a run that ends in a flush the context words are those of the reference. -/
theorem Agrees.home_of_last_flushes {m' : MoveMachine} {ρ' : Reference}
    (a : Agrees c'.tables m' ρ') (h : c.tables.Coherent) (e : emitAll? ss c = some (c', code))
    (last : ss.getLast?.any Step.flushes = true) {g : GuestReg} {v : Word} (hz : g ≠ .zero)
    (hv : ρ' g = some v) : m'.eval? g.home = some v := by
  have at_home := a.value hz hv
  rwa [tables_of_last_flushes h e last, Tables.guest_fresh_of_ne hz] at at_home

end Runs

/-! ## From the start of a block -/

/-- The reference that promises of each register the word in the context. -/
def MoveMachine.contents (m : MoveMachine) : Reference := fun g => some (m.context.get g)

theorem agrees_contents (m : MoveMachine) : Agrees .fresh m m.contents := by
  refine ⟨?_, ?_⟩
  · intro g v hz hv
    rw [Tables.guest_fresh_of_ne hz]
    exact (m.eval?_home g).trans hv
  · intro g x v hz hv _ _
    exact (m.eval?_home g).trans hv

/-- **Guest values survive every run.** Take any machine at the start of a block and any steps
that can be emitted there. The code runs, and afterwards every register but the hardwired zero
has the value that the reference promises at its place, a clean host copy is also at home, after
a flush every value is at home, and the context register is what it was. -/
theorem guest_values_survive (c₀ : Cache) (oracle : UsageOracle) (pc : Word) (m : MoveMachine)
    (ss : List Step) {c : Cache} {code : List Item}
    (e : emitAll? ss ((Request.start oracle pc).perform c₀).state = some (c, code)) :
    ∃ m' ρ, runCode? code m = some m' ∧
      expectAll? ss ((Request.start oracle pc).perform c₀).state m m.contents = some ρ ∧
      (∀ g v, g ≠ .zero → ρ g = some v → m'.eval? (c.tables.guest g).place = some v) ∧
      (∀ g x v, g ≠ .zero → ρ g = some v → c.tables.hostOf? g = some x →
        (c.tables.host x).dirty = false → m'.eval? g.home = some v) ∧
      (ss.getLast?.any Step.flushes = true → ∀ g v, g ≠ .zero → ρ g = some v →
        m'.eval? g.home = some v) ∧
      m'.host .contextBase = m.host .contextBase := by
  have h₀ : ((Request.start oracle pc).perform c₀).state.tables.Coherent := Tables.coherent_fresh
  have a₀ : Agrees ((Request.start oracle pc).perform c₀).state.tables m m.contents :=
    agrees_contents m
  obtain ⟨m', ρ, run, ref, -, a, base⟩ := a₀.run h₀ e
  exact ⟨m', ρ, run, ref, fun _ _ => a.value, fun _ _ _ => a.clean,
    fun last _ _ => a.home_of_last_flushes h₀ e last, base⟩

/-- A constant, and a written register that is spilled when eight are mapped, mapped again in place
of another one and doubled: after a flush all values are in the context. -/
theorem guest_values_survive_flush :
    let m : MoveMachine := ⟨fun _ => 0, .fresh⟩
    let first : List Step := [.request (.setConst ⟨4⟩ 5), .request (.mapGuest ⟨5⟩ true true),
        .write ⟨5⟩ fun m => m.host .rbp + 7] ++
      [6, 7, 8, 9, 10, 11, 12].map fun n => .request (.mapGuest ⟨n⟩ true true)
    let second : List Step := [.write ⟨12⟩ fun m => m.host .rbp + 3,
      .request (.mapGuest ⟨5⟩ true true), .write ⟨5⟩ fun m => m.host .rbp * 2,
      .request (.mapGuest ⟨4⟩ true false), .scratch .rax fun _ => 9, .request .flush]
    let c₀ := ((Request.start noUsage 0).perform .fresh).state
    (emitAll? first c₀).map (fun p => (p.1.tables.hostOf? ⟨5⟩, p.1.tables.hostOf? ⟨12⟩)) =
      some (none, some .rbp) ∧
    ∃ c code m', emitAll? (first ++ second) c₀ = some (c, code) ∧ runCode? code m = some m' ∧
      m'.eval? (GuestReg.home ⟨4⟩) = some 5 ∧ m'.eval? (GuestReg.home ⟨5⟩) = some 14 ∧
      m'.eval? (GuestReg.home ⟨12⟩) = some 3 := by
  intro m first second c₀
  have spilled : (emitAll? first c₀).map (fun p => (p.1.tables.hostOf? ⟨5⟩,
      p.1.tables.hostOf? ⟨12⟩)) = some (none, some .rbp) := by
    decide +kernel
  have emitted : (emitAll? (first ++ second) c₀).isSome = true := by decide +kernel
  obtain ⟨⟨c, code⟩, e⟩ := Option.isSome_iff_exists.1 emitted
  obtain ⟨m', ρ, run, ref, -, -, home, -⟩ :=
    guest_values_survive .fresh noUsage 0 m (first ++ second) e
  have promised : (expectAll? (first ++ second) c₀ m m.contents).map
      (fun ρ => (ρ ⟨4⟩, ρ ⟨5⟩, ρ ⟨12⟩)) = some (some 5, some 14, some 3) := by
    decide +kernel
  rw [ref, Option.map_some] at promised
  obtain ⟨h₄, rest⟩ := Prod.mk.inj (Option.some.inj promised)
  obtain ⟨h₅, h₁₂⟩ := Prod.mk.inj rest
  exact ⟨spilled, c, code, m', e, run, home rfl ⟨4⟩ 5 (by decide) h₄,
    home rfl ⟨5⟩ 14 (by decide) h₅, home rfl ⟨12⟩ 3 (by decide) h₁₂⟩

/-! ## Where control flow divides -/

/-- **Snapshots are sound where control flow divides.** From a reachable state that agrees with a
machine and a reference, one path is emitted up to a flush, the tables go back to the snapshot
taken before it, and another path is emitted up to a flush. Running the code of either path alone,
from the machine before both, leaves in the context what the reference promises on that path. -/
theorem divergent_paths_sound {c c₁ c₂ : Cache} {saved : List Snapshot} {m : MoveMachine}
    {ρ : Reference} (reach : Reachable c saved) (agree : Agrees c.tables m ρ)
    {first second : List Step} {code₁ code₂ : List Item} {t : Tables}
    (emit₁ : emitAll? first c = some (c₁, code₁))
    (last₁ : first.getLast?.any Step.flushes = true) (valid : c.tables.save.tables? = some t)
    (emit₂ : emitAll? second ((Request.restore t).perform c₁).state = some (c₂, code₂))
    (last₂ : second.getLast?.any Step.flushes = true) :
    (∃ m₁ ρ₁, runCode? code₁ m = some m₁ ∧ expectAll? first c m ρ = some ρ₁ ∧
      ∀ g v, g ≠ .zero → ρ₁ g = some v → m₁.eval? g.home = some v) ∧
    ∃ m₂ ρ₂, runCode? code₂ m = some m₂ ∧
      expectAll? second ((Request.restore t).perform c₁).state m ρ = some ρ₂ ∧
      ∀ g v, g ≠ .zero → ρ₂ g = some v → m₂.eval? g.home = some v := by
  have h := reach.coherent
  rw [Snapshot.tables?_save] at valid
  obtain rfl := Option.some.inj valid
  -- the restored cache has the tables of `c`, so the machine before both paths agrees with it too
  have h' : ((Request.restore c.tables).perform c₁).state.tables.Coherent := h
  have agree' : Agrees ((Request.restore c.tables).perform c₁).state.tables m ρ := agree
  obtain ⟨m₁, ρ₁, run₁, ref₁, -, a₁, -⟩ := agree.run h emit₁
  obtain ⟨m₂, ρ₂, run₂, ref₂, -, a₂, -⟩ := agree'.run h' emit₂
  exact ⟨⟨m₁, ρ₁, run₁, ref₁, fun _ _ => a₁.home_of_last_flushes h emit₁ last₁⟩,
    m₂, ρ₂, run₂, ref₂, fun _ _ => a₂.home_of_last_flushes h' emit₂ last₂⟩

/-- A constant is pending at the fork. One path increments it, the other leaves it alone and
writes another register. -/
theorem divergent_paths_sound_pending_constant :
    let m : MoveMachine := ⟨fun _ => 0, .fresh⟩
    let c := ((Request.setConst ⟨4⟩ 3).perform (.withLookahead 30)).state
    let first : List Step := [.request (.mapGuest ⟨4⟩ true true),
      .write ⟨4⟩ fun m => m.host .rbp + 1, .request .flush]
    let second : List Step := [.request (.mapGuest ⟨5⟩ true true), .write ⟨5⟩ fun _ => 8,
      .request .flush]
    ∃ c₁ c₂ code₁ code₂ m₁ m₂, emitAll? first c = some (c₁, code₁) ∧
      emitAll? second ((Request.restore c.tables).perform c₁).state = some (c₂, code₂) ∧
      runCode? code₁ m = some m₁ ∧ m₁.eval? (GuestReg.home ⟨4⟩) = some 4 ∧
      runCode? code₂ m = some m₂ ∧ m₂.eval? (GuestReg.home ⟨4⟩) = some 3 ∧
      m₂.eval? (GuestReg.home ⟨5⟩) = some 8 := by
  intro m c first second
  have reach : Reachable c [] := .request (a := none) _ (.init 30) nofun rfl
  have agree : Agrees c.tables m (m.contents.set ⟨4⟩ (some 3)) :=
    (agrees_contents m).setConst Tables.coherent_fresh ⟨4⟩ 3
  have emitted₁ : (emitAll? first c).isSome = true := by decide +kernel
  obtain ⟨⟨c₁, code₁⟩, e₁⟩ := Option.isSome_iff_exists.1 emitted₁
  have emitted₂ : ((emitAll? first c).bind fun p =>
      emitAll? second ((Request.restore c.tables).perform p.1).state).isSome = true := by
    decide +kernel
  rw [e₁, Option.bind_some] at emitted₂
  obtain ⟨⟨c₂, code₂⟩, e₂⟩ := Option.isSome_iff_exists.1 emitted₂
  obtain ⟨⟨m₁, ρ₁, run₁, ref₁, home₁⟩, m₂, ρ₂, run₂, ref₂, home₂⟩ :=
    divergent_paths_sound reach agree e₁ rfl (Snapshot.tables?_save c.tables) e₂ rfl
  have promised₁ : (expectAll? first c m (m.contents.set ⟨4⟩ (some 3))).map (· ⟨4⟩) =
      some (some 4) := by
    decide +kernel
  have promised₂ : ((emitAll? first c).bind fun p =>
      (expectAll? second ((Request.restore c.tables).perform p.1).state m
        (m.contents.set ⟨4⟩ (some 3))).map fun ρ => (ρ ⟨4⟩, ρ ⟨5⟩)) = some (some 3, some 8) := by
    decide +kernel
  rw [ref₁, Option.map_some] at promised₁
  rw [e₁, Option.bind_some, ref₂, Option.map_some] at promised₂
  obtain ⟨h₄, h₅⟩ := Prod.mk.inj (Option.some.inj promised₂)
  exact ⟨c₁, c₂, code₁, code₂, m₁, m₂, e₁, e₂, run₁,
    home₁ ⟨4⟩ 4 (by decide) (Option.some.inj promised₁), run₂, home₂ ⟨4⟩ 3 (by decide) h₄,
    home₂ ⟨5⟩ 8 (by decide) h₅⟩

end Dynarec
