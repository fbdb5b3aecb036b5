import Mathlib.Algebra.GroupWithZero.Nat
import Dynarec.Proofs.RequestCode
import Dynarec.Proofs.Sequences

/-!
# How much code a request has

Every word of the guest context is within a signed byte of the context register, so a move between
a host register and a guest register's home takes four bytes at most and a store of a constant
eight (`Instr.length_storeImm_home`). `Request.codeBound` adds this up for the moves that a request
can ask for. No request has more code (`Request.codeSize_journal_le`), and where its bound is left
in the buffer a request does not overflow it (`Reachable.code_bounded`).
-/

namespace Dynarec

open Journal

/-! ## The length of an instruction -/

namespace GuestReg

/-- Bytes of a store of a constant to the register's home. The context register points at the home
of `hi`, so that one needs no displacement. -/
def storeSize (g : GuestReg) : Nat := if g = .hi then 7 else 8

theorem four_le_storeSize (g : GuestReg) : 4 ≤ g.storeSize := by
  unfold storeSize
  split <;> decide

theorem storeSize_le_eight (g : GuestReg) : g.storeSize ≤ 8 := by
  unfold storeSize
  split <;> decide

end GuestReg

namespace Opcode

theorem length_extension_le (wide : Bool) (r rm : Byte) : (extension wide r rm).length ≤ 1 := by
  have (flags : Byte) : (if flags = 0 then [] else [0x40 ||| flags] : List Byte).length ≤ 1 := by
    split <;> simp
  exact this _

theorem length_head_le (o : Opcode) (r rm : Byte) : (o.head r rm).length ≤ 2 := by
  have := length_extension_le o.wide r rm
  simp only [head, List.length_append, List.length_singleton]
  omega

theorem length_memory (field : Byte) (a : Address) :
    (memory field a).length =
      (if a.base.low3 = 4 then 2 else 1) + (displacement a).2.length := by
  simp only [memory]
  split <;> simp only [List.length_append, List.length_cons, List.length_nil]

/-- The home of `hi` is where the context register points, the others need a displacement. -/
theorem length_memory_home (field : Byte) (g : GuestReg) :
    (memory field g.address).length = if g = .hi then 1 else 2 := by
  rw [length_memory]
  revert g
  decide

end Opcode

namespace Instr

theorem length_movImm_le (x : HostReg) (v : Word) : (movImm x v).encode.length ≤ 6 := by
  have := (Opcode.movImm x).length_head_le 0 x.code
  simp only [encode, List.length_append, Word.length_bytes]
  omega

theorem length_load_home_le (x : HostReg) (g : GuestReg) :
    (load false x g.address).encode.length ≤ 4 := by
  have := (Opcode.movFromRm false).length_head_le x.code g.address.base.code
  have := Opcode.length_memory_home x.low3 g
  simp only [encode, Opcode.onMem, List.length_append]
  split at this <;> omega

theorem length_store_home_le (g : GuestReg) (x : HostReg) :
    (store false g.address x).encode.length ≤ 4 := by
  have := (Opcode.movToRm false).length_head_le x.code g.address.base.code
  have := Opcode.length_memory_home x.low3 g
  simp only [encode, Opcode.onMem, List.length_append]
  split at this <;> omega

theorem length_storeImm_home (g : GuestReg) (v : Word) :
    (storeImm g.address v).encode.length = g.storeSize := by
  have head : (Opcode.movImmToRm.head 0 g.address.base.code).length = 2 := by
    show (Opcode.movImmToRm.head 0 HostReg.contextBase.code).length = 2
    decide
  rw [encode, Opcode.groupOnMem, List.length_append, List.length_append, head,
    Opcode.length_memory_home, Word.length_bytes, GuestReg.storeSize]
  split <;> rfl

end Instr

/-! ## The length of a request's code -/

/-- The size of the code for some events. -/
def codeSize (j : List Event) : Nat := (Instr.encodeAll (codeOf j)).length

theorem codeSize_append (a b : List Event) : codeSize (a ++ b) = codeSize a + codeSize b := by
  rw [codeSize, codeOf_append, Instr.encodeAll_append, List.length_append]
  rfl

theorem codeSize_of_code {j : List Event} {i : Instr Address} (code : codeOf j = [i]) :
    codeSize j = i.encode.length := by
  rw [codeSize, code, Instr.encodeAll, List.flatMap_singleton]

theorem codeSize_of_no_code {j : List Event} (code : codeOf j = []) : codeSize j = 0 := by
  rw [codeSize, code]
  rfl

namespace Tables

variable {t : Tables} {g : GuestReg} {x : HostReg}

theorem WrittenBackBy.length_encode_le {i : Instr Address} (w : t.WrittenBackBy g i) :
    i.encode.length ≤ g.storeSize := by
  cases w with
  | const => exact Nat.le_of_eq (Instr.length_storeImm_home g _)
  | dirty => exact Nat.le_trans (Instr.length_store_home_le g _) g.four_le_storeSize

/-- A register is written back by at most one store. -/
theorem Coherent.codeSize_storesOf_le (h : t.Coherent) (g : GuestReg) :
    codeSize (t.storesOf g) ≤ g.storeSize := by
  rcases h.codeOf_storesOf g with ⟨i, w, code⟩ | ⟨-, code⟩
  · rw [codeSize_of_code code]
    exact w.length_encode_le
  · rw [codeSize_of_no_code code]
    exact Nat.zero_le _

/-- What owns a host register is stored from there. -/
theorem Coherent.codeSize_storesOf_owner_le (h : t.Coherent) (owner : (t.host x).owner = some g) :
    codeSize (t.storesOf g) ≤ 4 := by
  have code := h.codeOf_storesOf_owner owner
  simp only [spillCode, owner] at code
  split at code
  · rw [codeSize_of_code code]
    exact Instr.length_store_home_le g x
  · rw [codeSize_of_no_code code]
    exact Nat.zero_le 4

theorem length_encode_loadCode_le (t : Tables) (g : GuestReg) (x : HostReg) :
    (t.loadCode g x).encode.length ≤ 6 := by
  have load := Instr.length_load_home_le x g
  unfold loadCode
  split
  · exact Instr.length_movImm_le x 0
  · split
    · exact Instr.length_movImm_le x _
    · omega

theorem Coherent.codeSize_loadsOf_le (h : t.Coherent) (unmapped : t.hostOf? g = none) (x : HostReg)
    (load : Bool) : codeSize (t.loadsOf g x load) ≤ 6 := by
  have code := h.codeOf_loadsOf unmapped x load
  split at code
  · rw [codeSize_of_code code]
    exact length_encode_loadCode_le t g x
  · rw [codeSize_of_no_code code]
    exact Nat.zero_le 6

theorem Coherent.codeSize_flatMap_storesOf_le (h : t.Coherent) (gs : List GuestReg) :
    codeSize (gs.flatMap t.storesOf) ≤ (gs.map GuestReg.storeSize).sum := by
  induction gs with
  | nil => exact Nat.le_refl 0
  | cons g gs ih =>
    have := h.codeSize_storesOf_le g
    rw [List.flatMap_cons, codeSize_append, List.map_cons, List.sum_cons]
    omega

end Tables

theorem Room.codeSize_le {c c' : Cache} {x : HostReg} {j : List Event} (room : Room c x c' j)
    (h : c.tables.Coherent) : codeSize j ≤ 4 := by
  cases room with
  | free _ => exact Nat.zero_le 4
  | spill g _ _ hx => exact h.codeSize_storesOf_owner_le (h.owner_of_mapped hx)

namespace Request

/-- The most bytes of code that a request can have: one store, which of a mapped register has four
bytes and of a constant eight, one store and the load of a constant, or one store for each register
but the hardwired zero. -/
def codeBound : Request → Nat
  | writeBack _ => 8
  | acquire | evict _ => 4
  | mapGuest .. | materialize .. => 10
  | flush | flushBeforeCall => 279
  | _ => 0

theorem sum_storeSize : (GuestReg.all.tail.map GuestReg.storeSize).sum = 34 * 8 + 7 := by decide

variable {c c' : Cache} {r : Request} {j : List Event}

theorem Done.codeSize_le (d : Done c r c' j) (h : c.tables.Coherent) :
    codeSize j ≤ r.codeBound := by
  induction d with
  | acquire room => exact room.codeSize_le h
  | @map g x c' j load dirty unmapped room =>
    have spill := room.codeSize_le h
    have load := h.codeSize_loadsOf_le unmapped x load
    rw [codeSize_append]
    show _ ≤ 10
    omega
  | materialize const map ih => exact ih
  | writeBack g => exact Nat.le_trans (h.codeSize_storesOf_le g) g.storeSize_le_eight
  | evict owner => exact h.codeSize_storesOf_owner_le owner
  | flush hosts guests =>
    have stores := h.codeSize_flatMap_storesOf_le GuestReg.all.tail
    rw [sum_storeSize] at stores
    exact stores
  | flushBeforeCall flush ih => exact ih
  | start | setPc | setConst | discard | lockGuests | lockHosts | unlockGuests | unlockHosts | remap
  | keep | touch | evictVacant | restore => exact Nat.zero_le _

/-- The code of a request is within its bound, also if it stops with a fault. -/
theorem codeSize_journal_le (h : c.tables.Coherent) (r : Request) :
    codeSize (r.perform c).journal ≤ r.codeBound := by
  rcases perform_cases h r with ⟨a, c', j, run, done⟩ | ⟨f, c', run, -⟩
  · rw [run]
    exact done.codeSize_le h
  · rw [run]
    exact Nat.zero_le _

end Request

/-! ## In the code buffer -/

namespace RecompilerM

variable {c : Cache} {b : Assembler} {r : Request} {rs : List Request}

/-- A request whose code does not fit leaves everything as it was, which is the convention of
`RecompilerM.cache`. -/
theorem state_of_unplayed {t : Recompiler} {f : Failure}
    (unplayed : (t.assembler.play (r.perform t.cache).journal).2 = .error f) :
    (request r t).state = t := by
  simp [request, cache, play, ofExcept, unplayed]

theorem request_appends_le (h : c.tables.Coherent) (r : Request) (b : Assembler) :
    ∃ bytes, (request r ⟨c, b⟩).state.assembler.buffer.contents = b.buffer.contents ++ bytes ∧
      bytes.length ≤ r.codeBound := by
  cases played : (b.play (r.perform c).journal).2 with
  | error f =>
    refine ⟨[], ?_, Nat.zero_le _⟩
    rw [state_of_unplayed (t := ⟨c, b⟩) played, List.append_nil]
  | ok b' =>
    refine ⟨_, ?_, Request.codeSize_journal_le h r⟩
    rw [(request_of_played (t := ⟨c, b⟩) played).2]
    exact Assembler.contents_play played

/-- A request that has its bound left in the buffer does not overflow it. -/
theorem request_ne_code (h : c.tables.Coherent) (room : r.codeBound ≤ b.buffer.remaining)
    (e : CodeError) : (request r ⟨c, b⟩).result ≠ .error (.code e) := by
  rw [request_of_fits h (Nat.le_trans (Request.codeSize_journal_le h r) room)]
  cases (r.perform c).result <;> nofun

/-- Requests in a row that have their bounds left in the buffer do not overflow it. -/
theorem requestAll_ne_code (h : c.tables.Coherent) (plain : ∀ r ∈ rs, ∀ t, r ≠ .restore t)
    (room : (rs.map Request.codeBound).sum ≤ b.buffer.remaining) (e : CodeError) :
    (requestAll rs ⟨c, b⟩).result ≠ .error (.code e) := by
  induction rs generalizing c b with
  | nil => nofun
  | cons r rs ih =>
    rw [List.map_cons, List.sum_cons] at room
    have bound := Request.codeSize_journal_le h r
    rw [requestAll_cons]
    rcases Request.perform_cases h r with ⟨a, c', j, run, -⟩ | ⟨f, c', run, -⟩
    · rw [run] at bound
      obtain ⟨b', log, made, remaining⟩ :=
        request_of_ok (b := b) h run (Nat.le_trans bound (by omega))
      rw [made, Outcome.andThen_ok, Outcome.result_after]
      apply ih (Request.coherent_of_run h (plain r List.mem_cons_self) run)
      · exact fun s hs => plain s (List.mem_cons_of_mem r hs)
      · simp only [codeSize] at bound
        simp only [remaining]
        omega
    · have made := request_of_fits (b := b) h (Nat.le_trans bound (by omega))
      rw [run] at made
      intro overflow
      cases outcome : request r ⟨c, b⟩ with
      | mk result state log =>
        rw [outcome] at made overflow
        cases made
        cases overflow

end RecompilerM

/-- **Bounds rule out overflow.** Whatever the tables, the oracle and the constants of a reachable
state, a request has no more code than its bound, and it appends no more. So a request that has its
bound left in the buffer does not fail for the buffer, nor do requests in a row that have the sum
of theirs. -/
theorem Reachable.code_bounded {c : Cache} {saved : List Snapshot} (run : Reachable c saved)
    (b : Assembler) :
    (∀ r : Request,
      (Instr.encodeAll (codeOf (r.perform c).journal)).length ≤ r.codeBound ∧
      (∃ bytes, (RecompilerM.request r ⟨c, b⟩).state.assembler.buffer.contents =
        b.buffer.contents ++ bytes ∧ bytes.length ≤ r.codeBound) ∧
      (r.codeBound ≤ b.buffer.remaining →
        ∀ e, (RecompilerM.request r ⟨c, b⟩).result ≠ .error (.code e))) ∧
    ∀ rs : List Request, (∀ r ∈ rs, ∀ t, r ≠ .restore t) →
      (rs.map Request.codeBound).sum ≤ b.buffer.remaining →
        ∀ e, (RecompilerM.requestAll rs ⟨c, b⟩).result ≠ .error (.code e) := by
  have h := run.coherent
  refine ⟨?_, ?_⟩
  · intro r
    exact ⟨Request.codeSize_journal_le h r, RecompilerM.request_appends_le h r b,
      RecompilerM.request_ne_code h⟩
  · intro rs plain room
    exact RecompilerM.requestAll_ne_code h plain room

/-- With every register a constant a flush fills the buffer that its bound asks for, and so do the
requests that lead there, which have no code, and the flush after them. -/
theorem Reachable.code_bounded_of_constants :
    let rs : List Request := GuestReg.all.tail.map (.setConst · 7)
    let c := (Request.performAll rs (.withLookahead 30)).state
    let b := Assembler.onBuffer ⟨.replicate 279 0, 0, .write⟩
    Reachable c [] ∧ (∀ e, (RecompilerM.request .flush ⟨c, b⟩).result ≠ .error (.code e)) ∧
      (Instr.encodeAll (codeOf (Request.flush.perform c).journal)).length = 279 ∧
      ∀ e, (RecompilerM.requestAll (rs ++ [.flush]) ⟨.withLookahead 30, b⟩).result ≠
        .error (.code e) := by
  intro rs c b
  have ok : (Request.performAll rs (.withLookahead 30)).result = .ok () := by decide +kernel
  have plain : ∀ r ∈ rs, ∀ t, r ≠ .restore t := by
    rintro r hr t rfl
    obtain ⟨g, -, e⟩ := List.mem_map.1 hr
    cases e
  have plain' : ∀ r ∈ rs ++ [.flush], ∀ t, r ≠ .restore t := by
    intro r hr
    rcases List.mem_append.1 hr with hr | hr
    · exact plain r hr
    · rw [List.mem_singleton.1 hr]
      nofun
  have run : Reachable c [] := (Reachable.init 30).performAll plain ok
  obtain ⟨bounds, -⟩ := run.code_bounded b
  obtain ⟨-, -, fits⟩ := bounds .flush
  obtain ⟨-, rows⟩ := (Reachable.init 30).code_bounded b
  have room : Request.flush.codeBound ≤ b.buffer.remaining := by decide +kernel
  have sum : ((rs ++ [Request.flush]).map Request.codeBound).sum = 279 := by decide +kernel
  exact ⟨run, fits room, by decide +kernel, rows _ plain' (Nat.le_trans (Nat.le_of_eq sum) room)⟩

end Dynarec
