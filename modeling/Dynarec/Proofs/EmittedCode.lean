import Dynarec.Proofs.Playing
import Dynarec.Proofs.Reachable
import Dynarec.Proofs.Transitions

/-!
# What a request may emit

`Request.Permitted` lists the instructions that a request may ask for: loads of the register that
it maps, from its constant or its home, and stores of a register that it sends home, from the host
register that it owned or of its constant. `Request.Done.permitted` says that a request asks for
no others. The bytes that it appends decode to just these instructions
(`Reachable.emitted_moves`).
-/

namespace Dynarec

open Journal

namespace Request

/-- The request may load the value of the register. -/
inductive Loads (g : GuestReg) : Request → Prop where
  | mapGuest (dirty : Bool) : Loads g (.mapGuest g true dirty)
  | materialize (dirty : Bool) : Loads g (.materialize g true dirty)

/-- The register is sent home: it is asked for, it owns the host register that is emptied, all are
sent home, or room is made. -/
inductive SendsHome (c : Cache) (j : List Event) (g : GuestReg) : Request → Prop where
  | writeBack : SendsHome c j g (.writeBack g)
  | evict {x : HostReg} (owner : (c.tables.host x).owner = some g) : SendsHome c j g (.evict x)
  | flush : SendsHome c j g .flush
  | flushBeforeCall : SendsHome c j g .flushBeforeCall
  | spill {r : Request} {x : HostReg} (spilled : .spill g x ∈ j) : SendsHome c j g r

/-- The request maps `g`, which was not mapped, to `x` and may load its value there. -/
structure LoadsInto (c : Cache) (r : Request) (c' : Cache) (g : GuestReg) (x : HostReg) : Prop where
  loads : r.Loads g
  unmapped : c.tables.hostOf? g = none
  mapped : c'.tables.hostOf? g = some x
  allocatable : x ∈ HostReg.allocationOrder

/-- The instructions for `g` that a request may ask for on its way from `c` to `c'`. -/
inductive Permitted (c : Cache) (r : Request) (c' : Cache) (j : List Event) (g : GuestReg) :
    Instr Address → Prop where
  | loadConst {x : HostReg} {v : Word} (into : LoadsInto c r c' g x)
      (value : c.tables.Binds g (.const v) ∨ g = .zero ∧ v = 0) : Permitted c r c' j g (.movImm x v)
  | load {x : HostReg} (into : LoadsInto c r c' g x) (home : c.tables.Binds g .home) :
      Permitted c r c' j g (.load false x g.address)
  | store {x : HostReg} (sent : SendsHome c j g r) (owner : (c.tables.host x).owner = some g) :
      Permitted c r c' j g (.store false g.address x)
  | storeConst {v : Word} (sent : SendsHome c j g r) (const : c.tables.Binds g (.const v)) :
      Permitted c r c' j g (.storeImm g.address v)

/-- Every move of the event is the one of a permitted instruction. -/
def Asks (c : Cache) (r : Request) (c' : Cache) (j : List Event) (e : Event) : Prop :=
  ∀ m, e.move? = some m → ∃ g i, m.instr? = some i ∧ Permitted c r c' j g i

variable {c c' : Cache} {r r' : Request} {j : List Event} {e : Event} {g : GuestReg} {x : HostReg}

theorem Permitted.mono {i : Instr Address} (p : Permitted c r c' j g i)
    (loads : r.Loads g → r'.Loads g) (sends : SendsHome c j g r → SendsHome c j g r') :
    Permitted c r' c' j g i := by
  cases p with
  | loadConst into value => exact .loadConst { into with loads := loads into.loads } value
  | load into home => exact .load { into with loads := loads into.loads } home
  | store sent owner => exact .store (sends sent) owner
  | storeConst sent const => exact .storeConst (sends sent) const

theorem Asks.mono (a : Asks c r c' j e) (loads : ∀ g, r.Loads g → r'.Loads g)
    (sends : ∀ g, SendsHome c j g r → SendsHome c j g r') : Asks c r' c' j e := by
  intro m hm
  obtain ⟨g, i, hi, p⟩ := a m hm
  exact ⟨g, i, hi, p.mono (loads g) (sends g)⟩

theorem asks_of_quiet (he : e.move? = none) : Asks c r c' j e := by
  intro m hm
  rw [he] at hm
  cases hm

theorem asks_of_storesOf (h : c.tables.Coherent) (sent : SendsHome c j g r)
    (he : e ∈ c.tables.storesOf g) : Asks c r c' j e := by
  by_cases hz : g = .zero
  · rw [hz, Tables.storesOf_zero] at he
    cases he
  obtain ⟨b, hb⟩ := h.binds g
  cases b with
  | home =>
    rw [Tables.storesOf_of_home hb] at he
    cases he
  | const v =>
    rw [Tables.storesOf_of_const hb hz, List.mem_singleton] at he
    subst he
    rintro m ⟨⟩
    exact ⟨g, _, rfl, .storeConst sent hb⟩
  | mapped x =>
    have hx := Tables.binds_mapped_iff.1 hb
    rw [Tables.storesOf_of_mapped hx hz] at he
    split at he
    · rw [List.mem_singleton] at he
      subst he
      rintro m ⟨⟩
      exact ⟨g, _, rfl, .store sent (h.owner_of_mapped hx)⟩
    · cases he

theorem asks_of_loadsOf (h : c.tables.Coherent) {load : Bool}
    (into : load = true → LoadsInto c r c' g x) (unmapped : c.tables.hostOf? g = none)
    (he : e ∈ c.tables.loadsOf g x load) : Asks c r c' j e := by
  cases load with
  | false => cases he
  | true =>
    have into := into rfl
    rw [Tables.loadsOf, if_pos rfl, List.mem_singleton] at he
    subst he
    rintro m ⟨⟩
    by_cases hz : g = .zero
    · rw [if_pos (GuestReg.isZero_iff.2 hz)]
      exact ⟨g, _, rfl, .loadConst into (.inr ⟨hz, rfl⟩)⟩
    rw [if_neg (mt GuestReg.isZero_iff.1 hz)]
    obtain ⟨b, hb⟩ := h.binds g
    rw [hb.place]
    cases b with
    | home => exact ⟨g, _, rfl, .load into hb⟩
    | const v => exact ⟨g, _, rfl, .loadConst into (.inl hb)⟩
    | mapped y =>
      rw [Tables.binds_mapped_iff.1 hb] at unmapped
      cases unmapped

/-- Making room asks for the store of the register that is spilled. -/
theorem asks_of_room {c₁ : Cache} {j₁ : List Event} (h : c.tables.Coherent)
    (room : Room c x c₁ j₁) (sub : j₁ ⊆ j) (he : e ∈ j₁) : Asks c r c' j e := by
  cases room with
  | free _ => cases he
  | spill g _ _ hx =>
    rcases List.mem_cons.1 he with rfl | he
    · exact asks_of_quiet rfl
    · exact asks_of_storesOf h (.spill (sub List.mem_cons_self)) he

/-- **One step.** A request that is done asks for permitted instructions only. -/
theorem Done.asks (d : Done c r c' j) (h : c.tables.Coherent) : ∀ e ∈ j, Asks c r c' j e := by
  induction d with
  | start oracle pc =>
    intro e he
    rw [List.mem_singleton] at he
    exact asks_of_quiet (he ▸ rfl)
  | acquire room => exact fun e => asks_of_room h room fun _ => id
  | map load dirty unmapped room =>
    intro e he
    rcases List.mem_append.1 he with he | he
    · exact asks_of_room h room (List.subset_append_left ..) he
    · refine asks_of_loadsOf h ?_ unmapped he
      rintro rfl
      exact ⟨.mapGuest dirty, unmapped, Tables.hostOf?_bind_self .., room.allocatable⟩
  | materialize const map ih =>
    intro e he
    refine (ih e he).mono ?_ ?_
    · rintro g ⟨⟩
      exact .materialize _
    · rintro g ⟨⟩
      exact .spill ‹_›
  | writeBack g => exact fun e => asks_of_storesOf h .writeBack
  | evict owner => exact fun e => asks_of_storesOf h (.evict owner)
  | flush hosts guests =>
    intro e he
    rcases List.mem_cons.1 he with rfl | he
    · exact asks_of_quiet rfl
    · obtain ⟨g, -, he⟩ := List.mem_flatMap.1 he
      exact asks_of_storesOf h .flush he
  | flushBeforeCall flush ih =>
    intro e he
    refine (ih e he).mono nofun ?_
    rintro g (_ | _)
    · exact .flushBeforeCall
    · exact .spill ‹_›
  | setPc | setConst | discard | lockGuests | lockHosts | unlockGuests | unlockHosts | remap | keep
  | touch | evictVacant | restore => exact fun e he => nomatch he

theorem Done.encodable (d : Done c r c' j) (h : c.tables.Coherent) : ∀ e ∈ j, e.Encodable := by
  intro e he m hm
  obtain ⟨-, i, hi, -⟩ := d.asks h e he m hm
  exact ⟨i, hi⟩

theorem Done.permitted (d : Done c r c' j) (h : c.tables.Coherent) {i : Instr Address}
    (hi : i ∈ codeOf j) : ∃ g, Permitted c r c' j g i := by
  obtain ⟨e, he, m, hm, him⟩ := mem_codeOf.1 hi
  obtain ⟨g, i', hi', p⟩ := d.asks h e he m hm
  rw [him] at hi'
  obtain rfl := Option.some.inj hi'
  exact ⟨g, p⟩

namespace Permitted

variable {i : Instr Address}

theorem setsFlags (p : Permitted c r c' j g i) : i.setsFlags = false := by
  cases p <;> rfl

/-- Only the register that `g` is newly mapped to is written. -/
theorem into_of_writes (p : Permitted c r c' j g i) (hx : x ∈ i.writes) :
    LoadsInto c r c' g x := by
  cases p with
  | loadConst into value =>
    obtain rfl := List.mem_singleton.1 hx
    exact into
  | load into home =>
    obtain rfl := List.mem_singleton.1 hx
    exact into
  | store sent owner => cases hx
  | storeConst sent const => cases hx

/-- Only the register that `g` owned is read. -/
theorem owner_of_reads (p : Permitted c r c' j g i) (hx : x ∈ i.reads) :
    (c.tables.host x).owner = some g := by
  cases p with
  | loadConst into value => cases hx
  | load into home => cases hx
  | store sent owner =>
    obtain rfl := List.mem_singleton.1 hx
    exact owner
  | storeConst sent const => cases hx

theorem address_of_memory? {a : Address} (p : Permitted c r c' j g i)
    (ha : i.memory? = some a) : a = g.address := by
  cases p with
  | loadConst into value => cases ha
  | load into home => exact (Option.some.inj ha).symm
  | store sent owner => exact (Option.some.inj ha).symm
  | storeConst sent const => exact (Option.some.inj ha).symm

end Permitted

/-- A request that leaves a guest register mapped where it is does not write there. -/
theorem Done.not_mem_writes_of_mapped (d : Done c r c' j) (h : c.tables.Coherent)
    (h' : c'.tables.Coherent) (mapped : c.tables.hostOf? g = some x)
    (mapped' : c'.tables.hostOf? g = some x) {i : Instr Address} (hi : i ∈ codeOf j) :
    x ∉ i.writes := by
  intro hx
  obtain ⟨g', permitted⟩ := d.permitted h hi
  have into := permitted.into_of_writes hx
  -- what is written was not mapped before and is mapped to `x` after
  obtain rfl := h'.mapped_inj into.mapped mapped'
  exact nomatch into.unmapped.symm.trans mapped

end Request

namespace Reachable

/-- **What a request may emit.** From a reachable state, the bytes that a completed request appends
decode to 32-bit moves, one for each move that it asks for and in that order. Each is permitted:
it loads the register that is being mapped or stores one that is sent home. So flags are left
alone, the only host registers written are those of the allocation order, and every memory operand
is the word of a guest register. -/
theorem emitted_moves {c : Cache} {saved : List Snapshot} (run : Reachable c saved)
    {b : Assembler} {r : Request} {a : Option HostReg}
    (done : (RecompilerM.request r ⟨c, b⟩).result = .ok a) :
    ∃ (bytes : List Byte) (is : List (Instr Address)),
      (RecompilerM.request r ⟨c, b⟩).state.assembler.buffer.contents =
        b.buffer.contents ++ bytes ∧
      Instr.decodeAll bytes = some (is.map (Instr.map .based)) ∧
      is.map Instr.move? = (movesOf (r.perform c).journal).map some ∧
      ∀ i ∈ is,
        (∃ g, Request.Permitted c r (RecompilerM.request r ⟨c, b⟩).state.cache
          (r.perform c).journal g i) ∧
        i.setsFlags = false ∧
        (∀ x ∈ i.writes, x ∈ HostReg.allocationOrder ∧ x ∉ [.rsp, .contextBase, .memoryBase]) ∧
        ∀ m, i.memory? = some m → ∃ g : GuestReg, m = g.address := by
  have h := run.coherent
  cases played : (b.play (r.perform c).journal).2 with
  | error f =>
    rw [RecompilerM.request_of_unplayed (t := ⟨c, b⟩) played] at done
    cases done
  | ok b' =>
    obtain ⟨result, state⟩ := RecompilerM.request_of_played (t := ⟨c, b⟩) played
    rw [state]
    have d : r.Done c (r.perform c).state (r.perform c).journal := by
      cases ok : (r.perform c).result with
      | ok v => exact Request.done_of_ok h ok
      | error f =>
        rw [result, ok] at done
        cases done
    refine ⟨_, codeOf (r.perform c).journal, Assembler.contents_play played,
      Instr.decodeAll_encodeAll _, map_move?_codeOf (d.encodable h), ?_⟩
    intro i hi
    obtain ⟨g, p⟩ := d.permitted h hi
    refine ⟨⟨g, p⟩, p.setsFlags, ?_, fun m hm => ⟨g, p.address_of_memory? hm⟩⟩
    intro x hx
    have off : ∀ x ∈ HostReg.allocationOrder, x ∉ [.rsp, .contextBase, .memoryBase] := by decide
    exact ⟨(p.into_of_writes hx).allocatable, off x (p.into_of_writes hx).allocatable⟩

/-- With one host register to be had, mapping a second guest register stores the first and loads
the second. -/
theorem emitted_moves_of_spill :
    let c₁ := ((Request.lockHosts [.r8, .r9, .r10, .r11]).perform (.withLookahead 30)).state
    let c₂ := ((Request.lockHosts [.r12, .r13]).perform c₁).state
    let c := ((Request.mapGuest ⟨4⟩ true true).perform c₂).state
    let r := Request.mapGuest ⟨5⟩ true false
    let b := Assembler.onBuffer ⟨.replicate 16 0, 0, .write⟩
    Reachable c [] ∧ (RecompilerM.request r ⟨c, b⟩).result = .ok none ∧
      Instr.decodeAll (RecompilerM.request r ⟨c, b⟩).state.assembler.buffer.contents =
        some [.store false (.based (GuestReg.address ⟨4⟩)) .rbp,
          .load false .rbp (.based (GuestReg.address ⟨5⟩))] := by
  intro c₁ c₂ c r b
  have ok₁ : ((Request.lockHosts [.r8, .r9, .r10, .r11]).perform (.withLookahead 30)).result =
      .ok none := by
    decide +kernel
  have ok₂ : ((Request.lockHosts [.r12, .r13]).perform c₁).result = .ok none := by decide +kernel
  have ok : ((Request.mapGuest ⟨4⟩ true true).perform c₂).result = .ok none := by decide +kernel
  have run₁ : Reachable c₁ [] := .request _ (.init 30) nofun ok₁
  have run₂ : Reachable c₂ [] := .request _ run₁ nofun ok₂
  have run : Reachable c [] := .request _ run₂ nofun ok
  have done : (RecompilerM.request r ⟨c, b⟩).result = .ok none := by decide +kernel
  have moves : movesOf (r.perform c).journal =
      [⟨GuestReg.home ⟨4⟩, .reg .rbp⟩, ⟨.reg .rbp, GuestReg.home ⟨5⟩⟩] := by decide +kernel
  obtain ⟨bytes, is, appended, decoded, same, -⟩ := emitted_moves run done
  rw [moves] at same
  obtain ⟨i, is', rfl, hi, same⟩ := List.map_eq_cons_iff.1 same
  obtain ⟨j, is'', rfl, hj, same⟩ := List.map_eq_cons_iff.1 same
  obtain rfl := List.map_eq_nil_iff.1 same
  obtain rfl := Option.some.inj (Move.instr?_eq_some_iff.2 hi)
  obtain rfl := Option.some.inj (Move.instr?_eq_some_iff.2 hj)
  refine ⟨run, done, ?_⟩
  rw [appended]
  exact decoded

end Reachable

end Dynarec
