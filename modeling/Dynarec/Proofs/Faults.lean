import Dynarec.Proofs.EmittedCode

/-!
# The faults that can happen

A fault is `Fault.internal` if it reports that the tables contradict themselves. The faults of
`Request.Misuse` are not, and every fault of a request to a reachable cache is one of those; with
room in the code buffer it is also all that can go wrong (`Reachable.only_misuse_stops`).
-/

namespace Dynarec

open Journal

/-- The fault reports tables that contradict themselves, not a request that was out of place. -/
def Fault.internal : Fault → Bool
  | hostAlreadyDirty _ | aliasedHost .. | badImmediate _ | corruptSlot _ => true
  | _ => false

namespace Request

variable {c : Cache} {r : Request} {f : Fault} {g : GuestReg} {x : HostReg}

theorem Misuse.not_internal (m : Misuse c r f) : f.internal = false := by
  cases m with
  | leftLocked left | leftLockedBeforeCall left => cases left <;> rfl
  | _ => rfl

theorem Misuse.ne_notMapped (m : Misuse c r f) (g : GuestReg) : f ≠ .notMapped g := by
  cases m with
  | leftLocked left | leftLockedBeforeCall left => cases left <;> nofun
  | _ => nofun

theorem mapGuest_stops_of_locked (hx : c.tables.hostOf? g = some x)
    (locked : (c.tables.host x).locked = true) (load dirty : Bool) :
    ((mapGuest g load dirty).perform c).result = .error (.boundToLockedHost x) := by
  rw [perform, silent_run, CacheM.mapGuest_of_mapped hx, if_pos locked]
  rfl

/-- Mapping a guest register is refused for exactly one of its own: the locked host register that
it is mapped to. -/
theorem mapGuest_boundToLockedHost_iff (h : c.tables.Coherent) (load dirty : Bool) :
    ((mapGuest g load dirty).perform c).result = .error (.boundToLockedHost x) ↔
      c.tables.hostOf? g = some x ∧ (c.tables.host x).locked = true := by
  constructor
  · intro stopped
    cases misuse_of_error h stopped with
    | boundToLocked _ _ mapped locked => exact ⟨mapped, locked⟩
  · rintro ⟨mapped, locked⟩
    exact mapGuest_stops_of_locked mapped locked load dirty

/-- Otherwise it only fails for want of a host register. -/
theorem outOfRegisters_of_mapGuest (h : c.tables.Coherent) {load dirty : Bool}
    (stopped : ((mapGuest g load dirty).perform c).result = .error f)
    (other : ∀ x, f ≠ .boundToLockedHost x) :
    f = .outOfRegisters ∧ c.tables.hostOf? g = none := by
  cases misuse_of_error h stopped with
  | boundToLocked _ _ mapped locked => exact absurd rfl (other _)
  | mapFull _ _ unmapped full => exact ⟨rfl, unmapped⟩

/-- The events of a request all have code, also if it stops with a fault. -/
theorem encodable_journal (h : c.tables.Coherent) (r : Request) :
    ∀ e ∈ (r.perform c).journal, e.Encodable := by
  rcases perform_cases h r with ⟨a, c', j, run, done⟩ | ⟨f, c', run, -⟩
  · rw [run]
    exact done.encodable h
  · rw [run]
    exact fun e he => absurd he List.not_mem_nil

end Request

theorem CacheM.hostOf_of_unmapped {c : Cache} {g : GuestReg} (hg : c.tables.hostOf? g = none) :
    hostOf g c = ⟨.error (.notMapped g), c, []⟩ := by
  simp [hostOf, hg]

namespace RecompilerM

variable {c : Cache} {b : Assembler}

/-- With room for its code a request has the outcome of the cache. -/
theorem request_of_fits (h : c.tables.Coherent) {r : Request}
    (fits : (Instr.encodeAll (codeOf (r.perform c).journal)).length ≤ b.buffer.remaining) :
    (request r ⟨c, b⟩).result = (r.perform c).result.mapError .fault := by
  obtain ⟨b', played, -⟩ := Assembler.play_of_fits (r.encodable_journal h) fits
  exact (request_of_played (t := ⟨c, b⟩) played).1

/-- No move is without an instruction: a full buffer is all that can stop the code. -/
theorem request_ne_unencodable (h : c.tables.Coherent) (r : Request) (m : Move) :
    (request r ⟨c, b⟩).result ≠ .error (.unencodable m) := by
  intro stopped
  cases played : (b.play (r.perform c).journal).2 with
  | ok b' =>
    rw [(request_of_played (t := ⟨c, b⟩) played).1] at stopped
    cases outcome : (r.perform c).result with
    | ok a => rw [outcome] at stopped; cases stopped
    | error f => rw [outcome] at stopped; cases stopped
  | error f =>
    rw [request_of_unplayed (t := ⟨c, b⟩) played,
      Assembler.full_of_play (r.encodable_journal h) played] at stopped
    cases stopped

/-- Going back to tables that were saved does not fail. -/
theorem restore_save (c : Cache) (b : Assembler) (t : Tables) :
    (restore t.save ⟨c, b⟩).result = .ok () := by
  have ok : (request (.restore t) ⟨c, b⟩).result = .ok none := by
    obtain ⟨result, -⟩ := request_of_played (r := .restore t) (t := ⟨c, b⟩) (a := b) rfl
    rw [result]
    rfl
  simp only [restore, Snapshot.tables?_save, bind_run]
  cases h : request (.restore t) ⟨c, b⟩ with
  | mk result state journal =>
    rw [h] at ok
    cases ok
    rfl

end RecompilerM

namespace Reachable

/-- **Only misuse stops a request.** In every reachable state the tables are in order: whatever
fault a request stops with, it is explained by the request or by a lock, never by tables that
contradict themselves or by a register that turns out not to be mapped; only a lookup reports
that. No move lacks an instruction, where the code fits the outcome is that of the cache, and
going back to a snapshot succeeds. Mapping a guest register is refused exactly if it is mapped to
a locked host register, and fails otherwise only if it is unmapped and there is no host register
for it. -/
theorem only_misuse_stops {c : Cache} {saved : List Snapshot} (run : Reachable c saved)
    (b : Assembler) (r : Request) :
    (∀ f, (r.perform c).result = .error f →
      r.Misuse c f ∧ f.internal = false ∧ ∀ g, f ≠ .notMapped g) ∧
    (∀ m, (RecompilerM.request r ⟨c, b⟩).result ≠ .error (.unencodable m)) ∧
    ((Instr.encodeAll (codeOf (r.perform c).journal)).length ≤ b.buffer.remaining →
      (RecompilerM.request r ⟨c, b⟩).result = (r.perform c).result.mapError .fault) ∧
    (∀ g f, (CacheM.hostOf g c).result = .error f → f = .notMapped g) ∧
    (∀ s ∈ saved, (RecompilerM.restore s ⟨c, b⟩).result = .ok ()) ∧
    ∀ g load dirty,
      (∀ x, ((Request.mapGuest g load dirty).perform c).result = .error (.boundToLockedHost x) ↔
        c.tables.hostOf? g = some x ∧ (c.tables.host x).locked = true) ∧
      ∀ f, ((Request.mapGuest g load dirty).perform c).result = .error f →
        (∀ x, f ≠ .boundToLockedHost x) → f = .outOfRegisters ∧ c.tables.hostOf? g = none := by
  have h := run.coherent
  refine ⟨?_, RecompilerM.request_ne_unencodable h r, RecompilerM.request_of_fits h, ?_, ?_, ?_⟩
  · intro f stopped
    have m := Request.misuse_of_error h stopped
    exact ⟨m, m.not_internal, m.ne_notMapped⟩
  · intro g f stopped
    cases hx : c.tables.hostOf? g with
    | some x =>
      rw [CacheM.hostOf_of_mapped hx] at stopped
      cases stopped
    | none =>
      rw [CacheM.hostOf_of_unmapped hx] at stopped
      cases stopped
      rfl
  · intro s kept
    obtain ⟨t, rfl, -⟩ := run.coherent_and_saved.2 s kept
    exact RecompilerM.restore_save c b t
  · intro g load dirty
    exact ⟨fun x => Request.mapGuest_boundToLockedHost_iff h load dirty,
      fun f => Request.outOfRegisters_of_mapGuest h⟩

/-- The host register that a guest register is mapped to gets locked, and the guest register
cannot be mapped again. -/
theorem only_misuse_stops_of_locked_host :
    let mapped := ((Request.mapGuest ⟨4⟩ true false).perform (.withLookahead 30)).state
    let c := ((Request.lockHosts [.rbp]).perform mapped).state
    let b := Assembler.onBuffer ⟨.replicate 16 0, 0, .write⟩
    Reachable c [] ∧ c.tables.hostOf? ⟨4⟩ = some .rbp ∧
      (RecompilerM.request (.mapGuest ⟨4⟩ true true) ⟨c, b⟩).result =
        .error (.fault (.boundToLockedHost .rbp)) := by
  intro mapped c b
  have ok₁ : ((Request.mapGuest ⟨4⟩ true false).perform (.withLookahead 30)).result = .ok none :=
    rfl
  have ok₂ : ((Request.lockHosts [.rbp]).perform mapped).result = .ok none := by decide +kernel
  have run₁ : Reachable mapped [] := .request _ (.init 30) nofun ok₁
  have run : Reachable c [] := .request _ run₁ nofun ok₂
  have bound : c.tables.hostOf? ⟨4⟩ = some .rbp ∧ (c.tables.host .rbp).locked = true := by
    decide +kernel
  have fits : (Instr.encodeAll (codeOf ((Request.mapGuest ⟨4⟩ true true).perform c).journal)).length
      ≤ b.buffer.remaining := by
    decide +kernel
  obtain ⟨-, -, outcome, -, -, refused⟩ := only_misuse_stops run b (.mapGuest ⟨4⟩ true true)
  obtain ⟨locked, -⟩ := refused ⟨4⟩ true true
  refine ⟨run, bound.1, ?_⟩
  rw [outcome fits, (locked .rbp).2 bound]
  rfl

end Reachable

end Dynarec
