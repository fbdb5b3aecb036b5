import Dynarec.Proofs.Faults

/-!
# The code of one request

What a recompiler is after a request, given what the cache makes of it: the cache ends up the same
and the code of the events is appended to the buffer (`RecompilerM.request_of_done`,
`RecompilerM.done_of_request`), and nothing happens to the buffer if there are no events
(`RecompilerM.request_of_quiet`). The events for one guest register have at most one instruction:
`Tables.WrittenBackBy` says which one writes it back and `Tables.loadCode` is the one that loads it.
-/

namespace Dynarec

open Journal

namespace Tables

/-- The instruction that writes `g` back, if its value is newer than its home. -/
inductive WrittenBackBy (t : Tables) (g : GuestReg) : Instr Address → Prop where
  | const {v : Word} (ne_zero : g ≠ .zero) (const : t.Binds g (.const v)) :
      WrittenBackBy t g (.storeImm g.address v)
  | dirty {x : HostReg} (ne_zero : g ≠ .zero) (mapped : t.Binds g (.mapped x))
      (dirty : (t.host x).dirty = true) : WrittenBackBy t g (.store false g.address x)

/-- The instruction that gives the host register `x` the value of `g`, which is mapped to none. -/
def loadCode (t : Tables) (g : GuestReg) (x : HostReg) : Instr Address :=
  if g = .zero then .movImm x 0
  else match (t.guest g).place with
    | .imm v => .movImm x v
    | _ => .load false x g.address

/-- The code that makes room in `x`: its owner is stored if its value is newer than its home. -/
def spillCode (t : Tables) (x : HostReg) : List (Instr Address) :=
  match (t.host x).owner with
  | some g => if (t.host x).dirty = true ∧ g ≠ .zero then [.store false g.address x] else []
  | none => []

variable {t : Tables} {g : GuestReg} {x : HostReg} {load : Bool}

/-- A register is written back by one instruction or by none. -/
theorem Coherent.codeOf_storesOf (h : t.Coherent) (g : GuestReg) :
    (∃ i, t.WrittenBackBy g i ∧ codeOf (t.storesOf g) = [i]) ∨
      (∀ i, ¬ t.WrittenBackBy g i) ∧ codeOf (t.storesOf g) = [] := by
  by_cases hz : g = .zero
  · refine .inr ⟨?_, by rw [hz, storesOf_zero]; rfl⟩
    rintro i (⟨ne_zero, -⟩ | ⟨ne_zero, -, -⟩) <;> exact ne_zero hz
  obtain ⟨b, hb⟩ := h.binds g
  cases b with
  | home =>
    refine .inr ⟨?_, by rw [storesOf_of_home hb]; rfl⟩
    rintro i (⟨-, const⟩ | ⟨-, mapped, -⟩)
    · cases hb.unique const
    · cases hb.unique mapped
  | const v => exact .inl ⟨_, .const hz hb, by rw [storesOf_of_const hb hz]; rfl⟩
  | mapped x =>
    rw [storesOf_of_mapped (binds_mapped_iff.1 hb) hz]
    cases dirty : (t.host x).dirty with
    | true => exact .inl ⟨_, .dirty hz hb dirty, rfl⟩
    | false =>
      refine .inr ⟨?_, rfl⟩
      rintro i (⟨-, const⟩ | ⟨-, mapped, dirty'⟩)
      · cases hb.unique const
      · cases hb.unique mapped
        rw [dirty] at dirty'
        cases dirty'

/-- Sending home the owner of `x` has the code that makes room there. -/
theorem Coherent.codeOf_storesOf_owner (h : t.Coherent) (owner : (t.host x).owner = some g) :
    codeOf (t.storesOf g) = t.spillCode x := by
  have mapped := ((h.fits x).owner_iff g).1 owner
  simp only [spillCode, owner]
  by_cases hz : g = .zero
  · rw [hz, storesOf_zero]
    simp [codeOf, movesOf]
  · rw [storesOf_of_mapped mapped hz]
    cases (t.host x).dirty with
    | true => simp [hz, codeOf, movesOf, Event.move?, GuestReg.home, Move.instr?]
    | false => simp [codeOf, movesOf]

theorem Coherent.codeOf_loadsOf (h : t.Coherent) (unmapped : t.hostOf? g = none) (x : HostReg)
    (load : Bool) : codeOf (t.loadsOf g x load) = if load then [t.loadCode g x] else [] := by
  cases load with
  | false => rfl
  | true =>
    simp only [loadsOf, loadCode, GuestReg.isZero_iff, if_true]
    by_cases hz : g = .zero
    · rw [if_pos hz, if_pos hz]
      rfl
    rw [if_neg hz, if_neg hz]
    obtain ⟨b, hb⟩ := h.binds g
    rw [hb.place]
    cases b with
    | home => rfl
    | const v => rfl
    | mapped y =>
      rw [binds_mapped_iff.1 hb] at unmapped
      cases unmapped

end Tables

namespace Room

variable {c c' : Cache} {x : HostReg} {j : List Event}

/-- Making room has the code for it. -/
theorem codeOf_eq (room : Room c x c' j) (h : c.tables.Coherent) :
    codeOf j = c.tables.spillCode x := by
  cases room with
  | free hf =>
    have owner := ((h.fits x).free_iff).1 (Cache.freeHost?_some hf).2.2
    simp only [Tables.spillCode, owner]
    rfl
  | spill g hf hv hx =>
    rw [codeOf_cons, codeOf_of_quiet rfl, List.nil_append,
      h.codeOf_storesOf_owner (h.owner_of_mapped hx)]

end Room

namespace RecompilerM

variable {c c' : Cache} {b : Assembler} {r : Request} {a : Option HostReg} {j : List Event}

/-- Without events the buffer stays as it is. -/
theorem request_of_quiet {o : Except Fault (Option HostReg)} (run : r.perform c = ⟨o, c', []⟩) :
    (request r ⟨c, b⟩).result = o.mapError .fault ∧ (request r ⟨c, b⟩).state = ⟨c', b⟩ := by
  have played : (b.play (r.perform c).journal).2 = .ok b := by
    rw [run]
    rfl
  have outcome := request_of_played (t := ⟨c, b⟩) played
  rwa [run] at outcome

/-- A request of a recompiler that goes through has gone through in the cache, and the code of its
events is appended. -/
theorem done_of_request (done : (request r ⟨c, b⟩).result = .ok a) :
    ∃ c' j, r.perform c = ⟨.ok a, c', j⟩ ∧ (request r ⟨c, b⟩).state.cache = c' ∧
      (request r ⟨c, b⟩).state.assembler.buffer.contents =
        b.buffer.contents ++ Instr.encodeAll (codeOf j) := by
  cases played : (b.play (r.perform c).journal).2 with
  | error f =>
    rw [request_of_unplayed (t := ⟨c, b⟩) played] at done
    cases done
  | ok b' =>
    obtain ⟨result, state⟩ := request_of_played (t := ⟨c, b⟩) played
    have appended := Assembler.contents_play played
    rw [state]
    cases run : r.perform c with
    | mk o c' j =>
      rw [result, run] at done
      rw [run] at appended
      cases o with
      | error f => cases done
      | ok a' =>
        cases done
        exact ⟨c', j, rfl, rfl, appended⟩

/-- A request that goes through in the cache does so in a recompiler, if its code fits. -/
theorem request_of_done (h : c.tables.Coherent) (run : r.perform c = ⟨.ok a, c', j⟩)
    (fits : (Instr.encodeAll (codeOf (r.perform c).journal)).length ≤ b.buffer.remaining) :
    (request r ⟨c, b⟩).result = .ok a ∧ (request r ⟨c, b⟩).state.cache = c' ∧
      (request r ⟨c, b⟩).state.assembler.buffer.contents =
        b.buffer.contents ++ Instr.encodeAll (codeOf j) := by
  have done : (request r ⟨c, b⟩).result = .ok a := by
    rw [request_of_fits h fits, run]
    rfl
  obtain ⟨c₁, j₁, run₁, state, appended⟩ := done_of_request done
  rw [run] at run₁
  cases run₁
  exact ⟨done, state, appended⟩

end RecompilerM

end Dynarec
