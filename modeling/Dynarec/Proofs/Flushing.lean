import Mathlib.Data.List.Forall2
import Dynarec.Proofs.RequestCode
import Dynarec.Proofs.WriteBacks

/-!
# Flushes

A flush is refused as long as anything is locked, and then changes nothing. One that goes through
writes back what is newer than its home, in the order of the guest registers and each register
once (`Tables.Coherent.forall₂_writtenBackBy`), and leaves the tables of a new cache. The lock that
a refused flush reports is the first in the order of the numbers (`find?_eq_some_iff_least`).
-/

namespace Dynarec

open Journal

/-! ## The first lock -/

/-- In a list of everything in the order of some numbers, the first element with a property is the
one with the least number. -/
theorem find?_eq_some_iff_least {α : Type} {l : List α} {number : α → Nat}
    (ascending : l.Pairwise fun a b => number a < number b) (all : ∀ a, a ∈ l) {p : α → Bool}
    {a : α} : l.find? p = some a ↔ p a = true ∧ ∀ b, number b < number a → p b = false := by
  rw [List.find?_eq_some_iff_append]
  refine and_congr_right fun _ => ?_
  constructor
  · rintro ⟨before, after, rfl, none⟩ b less
    obtain ⟨-, rest, -⟩ := List.pairwise_append.1 ascending
    have later := (List.pairwise_cons.1 rest).1
    rcases List.mem_append.1 (all b) with hb | hb
    · simpa using none b hb
    · rcases List.mem_cons.1 hb with rfl | hb
      · omega
      · have := later b hb
        omega
  · intro none
    obtain ⟨before, after, rfl⟩ := List.append_of_mem (all a)
    refine ⟨before, after, rfl, ?_⟩
    intro b hb
    rw [none b ((List.pairwise_append.1 ascending).2.2 b hb a List.mem_cons_self)]
    rfl

theorem HostReg.ascending_all : HostReg.all.Pairwise fun x y => x.number < y.number := by decide

theorem GuestReg.ascending_all : GuestReg.all.Pairwise fun g h => g.number < h.number := by decide

/-- What a refused flush reports is the first locked host register or, if there is none, the first
locked guest register. -/
theorem CacheM.leftLocked_iff {c : Cache} {f : Fault} :
    LeftLocked c f ↔
      (∃ x, f = .hostLeftLocked x ∧ (c.tables.host x).locked = true ∧
        ∀ y, y.number < x.number → (c.tables.host y).locked = false) ∨
      ∃ g, f = .guestLeftLocked g ∧ (∀ x, (c.tables.host x).locked = false) ∧
        (c.tables.guest g).locked = true ∧
        ∀ h, h.number < g.number → (c.tables.guest h).locked = false := by
  have hosts {x} := find?_eq_some_iff_least HostReg.ascending_all HostReg.mem_all
    (p := fun x => (c.tables.host x).locked) (a := x)
  have guests {g} := find?_eq_some_iff_least GuestReg.ascending_all GuestReg.mem_all
    (p := fun g => (c.tables.guest g).locked) (a := g)
  constructor
  · rintro (first | ⟨none, first⟩)
    · exact .inl ⟨_, rfl, hosts.1 first⟩
    · refine .inr ⟨_, rfl, ?_, guests.1 first⟩
      intro x
      simpa using List.find?_eq_none.1 none x (HostReg.mem_all x)
  · rintro (⟨x, rfl, first⟩ | ⟨g, rfl, none, first⟩)
    · exact .host (hosts.2 first)
    · exact .guest (List.find?_eq_none.2 fun x _ => by simp [none x]) (guests.2 first)

/-! ## The stores -/

/-- The stores for a list of registers write back those of them that need it, in their order. -/
theorem Tables.Coherent.forall₂_writtenBackBy {t : Tables} (h : t.Coherent) (gs : List GuestReg) :
    ∃ written, written.Sublist gs ∧
      List.Forall₂ t.WrittenBackBy written (codeOf (gs.flatMap t.storesOf)) ∧
      ∀ g, g ∈ written ↔ g ∈ gs ∧ ∃ i, t.WrittenBackBy g i := by
  induction gs with
  | nil => exact ⟨[], .slnil, .nil, by simp⟩
  | cons g gs ih =>
    obtain ⟨written, sub, rest, mem_iff⟩ := ih
    rw [List.flatMap_cons, codeOf_append]
    rcases h.codeOf_storesOf g with ⟨i, by_i, code⟩ | ⟨none, code⟩
    · refine ⟨g :: written, sub.cons_cons g, ?_, ?_⟩
      · rw [code]
        exact .cons by_i rest
      · intro h
        rw [List.mem_cons, List.mem_cons, mem_iff]
        constructor
        · rintro (rfl | ⟨hh, needed⟩)
          · exact ⟨.inl rfl, i, by_i⟩
          · exact ⟨.inr hh, needed⟩
        · rintro ⟨rfl | hh, needed⟩
          · exact .inl rfl
          · exact .inr ⟨hh, needed⟩
    · refine ⟨written, sub.cons g, ?_, ?_⟩
      · rw [code]
        exact rest
      · intro h
        rw [List.mem_cons, mem_iff]
        constructor
        · exact fun ⟨hh, needed⟩ => ⟨.inr hh, needed⟩
        · rintro ⟨rfl | hh, i, needed⟩
          · exact absurd needed (none i)
          · exact ⟨hh, i, needed⟩

/-- The hardwired zero is not among the registers that a flush writes back. -/
theorem Tables.WrittenBackBy.mem_tail {t : Tables} {g : GuestReg} {i : Instr Address}
    (w : t.WrittenBackBy g i) : g ∈ GuestReg.all.tail := by
  have others : ∀ g : GuestReg, g ≠ .zero → g ∈ GuestReg.all.tail := by decide
  cases w with
  | const ne_zero const => exact others g ne_zero
  | dirty ne_zero mapped dirty => exact others g ne_zero

/-- Both kinds of flush do the same. -/
theorem Request.Flushes.perform_eq {r : Request} (all : r.Flushes) (c : Cache) :
    r.perform c = Request.silent CacheM.flush c := by
  cases all <;> rfl

/-! ## In the recompiler -/

namespace RecompilerM

variable {c : Cache} {b : Assembler} {r : Request}

/-- **Granted.** What needs it is stored, once and in ascending order, and the tables are those of a
new cache. -/
theorem flush_granted (h : c.tables.Coherent) (all : r.Flushes)
    (fits : (Instr.encodeAll (codeOf (r.perform c).journal)).length ≤ b.buffer.remaining)
    (cleared : CacheM.flush c = ⟨.ok (), c.mapTables fun _ => .fresh,
      .flush c.pc :: GuestReg.all.tail.flatMap c.tables.storesOf⟩) :
    (request r ⟨c, b⟩).result = .ok none ∧
      (request r ⟨c, b⟩).state.cache = { c with tables := Cache.fresh.tables } ∧
      ∃ (written : List GuestReg) (is : List (Instr Address)),
        (request r ⟨c, b⟩).state.assembler.buffer.contents =
          b.buffer.contents ++ Instr.encodeAll is ∧
        written.Pairwise (fun g h => g.number < h.number) ∧
        List.Forall₂ c.tables.WrittenBackBy written is ∧
        ∀ g, g ∈ written ↔ ∃ i, c.tables.WrittenBackBy g i := by
  have done : r.perform c = ⟨.ok none, c.mapTables fun _ => .fresh,
      .flush c.pc :: GuestReg.all.tail.flatMap c.tables.storesOf⟩ := by
    rw [all.perform_eq, Request.silent_run, cleared]
    simp
  obtain ⟨result, state, appended⟩ := request_of_done h done fits
  rw [codeOf_cons, codeOf_of_quiet rfl, List.nil_append] at appended
  obtain ⟨written, sub, stores, mem_iff⟩ := h.forall₂_writtenBackBy GuestReg.all.tail
  have ascending : written.Pairwise fun g h => g.number < h.number :=
    GuestReg.ascending_all.tail.sublist sub
  have needed (g : GuestReg) : g ∈ written ↔ ∃ i, c.tables.WrittenBackBy g i := by
    rw [mem_iff]
    exact ⟨And.right, fun ⟨i, w⟩ => ⟨w.mem_tail, i, w⟩⟩
  exact ⟨result, state, written, _, appended, ascending, stores, needed⟩

/-- **Refused.** Nothing has changed. -/
theorem flush_refused (all : r.Flushes) {f : Fault}
    (refused : CacheM.flush c = ⟨.error f, c, []⟩) :
    (request r ⟨c, b⟩).result = .error (.fault f) ∧ (request r ⟨c, b⟩).state = ⟨c, b⟩ := by
  have stopped : r.perform c = ⟨.error f, c, []⟩ := by
    rw [all.perform_eq, Request.silent_run, refused]
    rfl
  exact request_of_quiet stopped

end RecompilerM

/-- **A flush is exact.** In a reachable state and with room for its code, a flush is refused
exactly if something is locked, for the first locked host register or, if there is none, for the
first locked guest register, and it is refused before anything changes or is emitted. Otherwise it
stores every guest register that is a constant or is mapped to a dirty host register, from there,
once and in ascending order, and nothing else; it leaves the tables of a new cache and the rest of
the cache as it was. -/
theorem Reachable.flush_exact {c : Cache} {saved : List Snapshot} (run : Reachable c saved)
    {r : Request} (all : r.Flushes) (b : Assembler)
    (fits : (Instr.encodeAll (codeOf (r.perform c).journal)).length ≤ b.buffer.remaining) :
    let flushed := RecompilerM.request r ⟨c, b⟩
    ((∃ f, flushed.result = .error f) ↔
      (∃ x, (c.tables.host x).locked = true) ∨ ∃ g, (c.tables.guest g).locked = true) ∧
    (∀ f, flushed.result = .error f → flushed.state = ⟨c, b⟩ ∧
      ((∃ x, f = .fault (.hostLeftLocked x) ∧ (c.tables.host x).locked = true ∧
        ∀ y, y.number < x.number → (c.tables.host y).locked = false) ∨
      ∃ g, f = .fault (.guestLeftLocked g) ∧ (∀ x, (c.tables.host x).locked = false) ∧
        (c.tables.guest g).locked = true ∧
        ∀ h, h.number < g.number → (c.tables.guest h).locked = false)) ∧
    ∀ a, flushed.result = .ok a →
      flushed.state.cache = { c with tables := Cache.fresh.tables } ∧
      ∃ (written : List GuestReg) (is : List (Instr Address)),
        flushed.state.assembler.buffer.contents = b.buffer.contents ++ Instr.encodeAll is ∧
        written.Pairwise (fun g h => g.number < h.number) ∧
        List.Forall₂ c.tables.WrittenBackBy written is ∧
        ∀ g, g ∈ written ↔ ∃ i, c.tables.WrittenBackBy g i := by
  have h := run.coherent
  intro flushed
  rcases CacheM.flush_cases h with ⟨cleared, hosts, guests⟩ | ⟨f, refused, left⟩
  · obtain ⟨result, state, stores⟩ := RecompilerM.flush_granted h all fits cleared
    have completed (f : Failure) : flushed.result ≠ .error f := by
      rw [result]
      nofun
    have unlocked : ¬ ((∃ x, (c.tables.host x).locked = true) ∨
        ∃ g, (c.tables.guest g).locked = true) := by
      simp [hosts, guests]
    exact ⟨iff_of_false (fun ⟨f, stopped⟩ => completed f stopped) unlocked,
      fun f stopped => absurd stopped (completed f), fun _ _ => ⟨state, stores⟩⟩
  · obtain ⟨result, state⟩ := RecompilerM.flush_refused (b := b) all refused
    have first := CacheM.leftLocked_iff.1 left
    have locked : (∃ x, (c.tables.host x).locked = true) ∨
        ∃ g, (c.tables.guest g).locked = true :=
      first.imp (fun ⟨x, _, locked, _⟩ => ⟨x, locked⟩) (fun ⟨g, _, _, locked, _⟩ => ⟨g, locked⟩)
    refine ⟨iff_of_true ⟨_, result⟩ locked, fun f' stopped => ⟨state, ?_⟩, fun a done => ?_⟩
    · -- the failure is the fault of the first lock
      cases result.symm.trans stopped
      exact first.imp (fun ⟨x, eq, rest⟩ => ⟨x, congrArg _ eq, rest⟩)
        (fun ⟨g, eq, rest⟩ => ⟨g, congrArg _ eq, rest⟩)
    · exact nomatch result.symm.trans done

/-- A constant and two dirty registers are stored, a clean one and the hardwired zero are not. With
two of them locked the flush is refused for the first. -/
theorem Reachable.flush_exact_of_mixed :
    let rs : List Request := [.mapGuest ⟨9⟩ true true, .mapGuest ⟨4⟩ false true,
      .mapGuest ⟨6⟩ true false, .mapGuest .zero true true, .setConst ⟨5⟩ 7]
    let c := (Request.performAll rs (.withLookahead 30)).state
    let locked := (Request.performAll [.lockGuests [⟨9⟩, ⟨6⟩]] c).state
    let b := Assembler.onBuffer ⟨.replicate 32 0, 0, .write⟩
    Reachable c [] ∧ Reachable locked [] ∧
      (∃ (written : List GuestReg) (is : List (Instr Address)),
        (RecompilerM.request .flush ⟨c, b⟩).state.assembler.buffer.contents =
          b.buffer.contents ++ Instr.encodeAll is ∧
        List.Forall₂ c.tables.WrittenBackBy written is ∧
        [⟨4⟩, ⟨5⟩, ⟨9⟩] ⊆ written ∧ .zero ∉ written ∧ ⟨6⟩ ∉ written) ∧
      (RecompilerM.request .flushBeforeCall ⟨locked, b⟩).result =
        .error (.fault (.guestLeftLocked ⟨6⟩)) ∧
      (RecompilerM.request .flushBeforeCall ⟨locked, b⟩).state = ⟨locked, b⟩ := by
  intro rs c locked b
  have ok₁ : (Request.performAll rs (.withLookahead 30)).result = .ok () := by decide +kernel
  have ok₂ : (Request.performAll [.lockGuests [⟨9⟩, ⟨6⟩]] c).result = .ok () := by decide +kernel
  have run : Reachable c [] := (Reachable.init 30).performAll (by simp [rs]) ok₁
  have run' : Reachable locked [] := run.performAll (by simp) ok₂
  have fits : (Instr.encodeAll (codeOf (Request.flush.perform c).journal)).length ≤
      b.buffer.remaining := by
    decide +kernel
  have fits' : (Instr.encodeAll (codeOf (Request.flushBeforeCall.perform locked).journal)).length ≤
      b.buffer.remaining := by
    decide +kernel
  have done : (RecompilerM.request .flush ⟨c, b⟩).result = .ok none := by decide +kernel
  have refused : (RecompilerM.request .flushBeforeCall ⟨locked, b⟩).result =
      .error (.fault (.guestLeftLocked ⟨6⟩)) := by
    decide +kernel
  obtain ⟨-, -, effect⟩ := run.flush_exact .flush b fits
  obtain ⟨-, unchanged, -⟩ := run'.flush_exact .flushBeforeCall b fits'
  obtain ⟨-, written, is, appended, -, stores, mem_iff⟩ := effect none done
  have four : c.tables.Binds ⟨4⟩ (.mapped .r13) ∧ (c.tables.host .r13).dirty = true := by
    decide +kernel
  have five : c.tables.Binds ⟨5⟩ (.const 7) := by decide +kernel
  have nine : c.tables.Binds ⟨9⟩ (.mapped .rbp) ∧ (c.tables.host .rbp).dirty = true := by
    decide +kernel
  have six : c.tables.Binds ⟨6⟩ (.mapped .r8) ∧ (c.tables.host .r8).dirty = false := by
    decide +kernel
  refine ⟨run, run', ⟨written, is, appended, stores, ?_, ?_, ?_⟩, refused, (unchanged _ refused).1⟩
  · intro g hg
    simp only [List.mem_cons, List.not_mem_nil, or_false] at hg
    rcases hg with rfl | rfl | rfl
    · exact (mem_iff _).2 ⟨_, .dirty (by decide) four.1 four.2⟩
    · exact (mem_iff _).2 ⟨_, .const (by decide) five⟩
    · exact (mem_iff _).2 ⟨_, .dirty (by decide) nine.1 nine.2⟩
  · intro hz
    obtain ⟨i, w⟩ := (mem_iff _).1 hz
    cases w with
    | const ne_zero _ => exact ne_zero rfl
    | dirty ne_zero _ _ => exact ne_zero rfl
  · intro h6
    obtain ⟨i, w⟩ := (mem_iff _).1 h6
    cases w with
    | const _ const => cases six.1.unique const
    | dirty _ mapped dirty =>
      cases six.1.unique mapped
      rw [six.2] at dirty
      cases dirty

end Dynarec
