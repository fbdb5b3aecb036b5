import Dynarec.Host.Execution
import Dynarec.Proofs.CodeStream
import Dynarec.Recompiler

/-!
# From events to code

`codeOf` is the list of instructions that the moves of some events ask for. An assembler that
plays the events appends exactly their encodings (`Assembler.contents_play`); if every move has an
instruction, it does so whenever they fit (`Assembler.play_of_fits`), and a full buffer is all
that can stop it (`Assembler.full_of_play`). `RecompilerM.request` plays the events of the cache
and then has the answer or the fault of the cache.
-/

namespace Dynarec

/-- The instructions that the moves of the events ask for, in order. -/
def codeOf (events : List Event) : List (Instr Address) :=
  (movesOf events).filterMap Move.instr?

theorem codeOf_append (a b : List Event) : codeOf (a ++ b) = codeOf a ++ codeOf b := by
  rw [codeOf, movesOf_append, List.filterMap_append]
  rfl

theorem codeOf_cons (e : Event) (es : List Event) : codeOf (e :: es) = codeOf [e] ++ codeOf es :=
  codeOf_append [e] es

theorem Instr.encodeAll_append (is js : List (Instr Address)) :
    encodeAll (is ++ js) = encodeAll is ++ encodeAll js :=
  List.flatMap_append

theorem mem_codeOf {es : List Event} {i : Instr Address} :
    i ∈ codeOf es ↔ ∃ e ∈ es, ∃ m, e.move? = some m ∧ m.instr? = some i := by
  simp only [codeOf, movesOf, List.mem_filterMap]
  constructor
  · rintro ⟨m, ⟨e, he, hm⟩, hi⟩
    exact ⟨e, he, m, hm, hi⟩
  · rintro ⟨e, he, m, hm, hi⟩
    exact ⟨m, ⟨e, he, hm⟩, hi⟩

/-- Each move of the event has an instruction. -/
def Event.Encodable (e : Event) : Prop := ∀ m, e.move? = some m → ∃ i, m.instr? = some i

theorem codeOf_of_quiet {e : Event} (he : e.move? = none) : codeOf [e] = [] := by
  simp [codeOf, movesOf, he]

theorem codeOf_of_move {e : Event} {m : Move} {i : Instr Address} (he : e.move? = some m)
    (hi : m.instr? = some i) : codeOf [e] = [i] := by
  simp [codeOf, movesOf, he, hi]

/-- The instructions of encodable events are their moves, one by one. -/
theorem map_move?_codeOf {es : List Event} (enc : ∀ e ∈ es, e.Encodable) :
    (codeOf es).map Instr.move? = (movesOf es).map some := by
  induction es with
  | nil => rfl
  | cons e es ih =>
    have rest := ih fun e' he' => enc e' (List.mem_cons_of_mem e he')
    rw [codeOf_cons e es, show movesOf (e :: es) = movesOf [e] ++ movesOf es from
      movesOf_append [e] es, List.map_append, List.map_append, rest]
    congr 1
    cases he : e.move? with
    | none => simp [codeOf_of_quiet he, movesOf, he]
    | some m =>
      obtain ⟨i, hi⟩ := enc e List.mem_cons_self m he
      simp [codeOf_of_move he hi, movesOf, he, Move.instr?_eq_some_iff.1 hi]

/-! ## The assembler -/

namespace Assembler

variable {a b : Assembler} {e : Event} {es : List Event} {f : Failure}

theorem contents_emitEvent (h : a.emitEvent e = .ok b) :
    b.buffer.contents = a.buffer.contents ++ Instr.encodeAll (codeOf [e]) := by
  unfold emitEvent at h
  split at h
  · next m he =>
    unfold emitMove at h
    split at h
    · next i hi =>
      rw [contents_emitInstr h, codeOf_of_move he hi, Instr.encodeAll, List.flatMap_singleton]
    · cases h
  · next he =>
    cases h
    rw [codeOf_of_quiet he]
    simp [Instr.encodeAll]

theorem contents_play (h : (a.play es).2 = .ok b) :
    b.buffer.contents = a.buffer.contents ++ Instr.encodeAll (codeOf es) := by
  induction es generalizing a with
  | nil =>
    cases h
    simp [codeOf, movesOf, Instr.encodeAll]
  | cons e es ih =>
    unfold play at h
    split at h
    · next a' he =>
      rw [ih h, contents_emitEvent he, codeOf_cons e es, Instr.encodeAll_append,
        List.append_assoc]
    · cases h

theorem emitEvent_of_fits (enc : e.Encodable)
    (fits : (Instr.encodeAll (codeOf [e])).length ≤ a.buffer.remaining) :
    ∃ b, a.emitEvent e = .ok b ∧
      b.buffer.remaining = a.buffer.remaining - (Instr.encodeAll (codeOf [e])).length := by
  cases he : e.move? with
  | none =>
    refine ⟨a, by simp [emitEvent, he], ?_⟩
    simp [codeOf_of_quiet he, Instr.encodeAll]
  | some m =>
    obtain ⟨i, hi⟩ := enc m he
    rw [codeOf_of_move he hi, Instr.encodeAll, List.flatMap_singleton] at fits ⊢
    obtain ⟨b, run, remaining⟩ := emitInstr_of_fits fits
    exact ⟨b, by simp only [emitEvent, he, emitMove, hi, run], remaining⟩

theorem play_of_fits (enc : ∀ e ∈ es, e.Encodable)
    (fits : (Instr.encodeAll (codeOf es)).length ≤ a.buffer.remaining) :
    ∃ b, (a.play es).2 = .ok b ∧
      b.buffer.remaining = a.buffer.remaining - (Instr.encodeAll (codeOf es)).length := by
  induction es generalizing a with
  | nil => exact ⟨a, rfl, rfl⟩
  | cons e es ih =>
    rw [codeOf_cons e es, Instr.encodeAll_append, List.length_append] at fits ⊢
    obtain ⟨a', he, left⟩ :=
      emitEvent_of_fits (a := a) (enc e List.mem_cons_self) (by omega)
    obtain ⟨b, run, left'⟩ :=
      ih (a := a') (fun e' he' => enc e' (List.mem_cons_of_mem e he')) (by omega)
    exact ⟨b, by simp only [play, he, run], by omega⟩

theorem full_of_emitEvent (enc : e.Encodable) (h : a.emitEvent e = .error f) :
    f = .code .full := by
  cases he : e.move? with
  | none => simp [emitEvent, he] at h
  | some m =>
    obtain ⟨i, hi⟩ := enc m he
    simp only [emitEvent, he, emitMove, hi, emitInstr, emit, onCode, CodeBuffer.emit] at h
    split at h
    · cases h
    · next bytes =>
      split at bytes
      · cases bytes
      · cases bytes
        cases h
        rfl

theorem full_of_play (enc : ∀ e ∈ es, e.Encodable) (h : (a.play es).2 = .error f) :
    f = .code .full := by
  induction es generalizing a with
  | nil => cases h
  | cons e es ih =>
    unfold play at h
    split at h
    · exact ih (fun e' he' => enc e' (List.mem_cons_of_mem e he')) h
    · next f' he =>
      cases h
      exact full_of_emitEvent (enc e List.mem_cons_self) he

end Assembler

/-! ## The recompiler -/

namespace RecompilerM

variable {r : Request} {t : Recompiler} {a : Assembler} {f : Failure}

/-- A request whose events were played has the outcome of the cache. -/
theorem request_of_played
    (played : (t.assembler.play (r.perform t.cache).journal).2 = .ok a) :
    (request r t).result = (r.perform t.cache).result.mapError .fault ∧
      (request r t).state = ⟨(r.perform t.cache).state, a⟩ := by
  cases ho : r.perform t.cache with
  | mk result c j =>
    rw [ho] at played
    cases result <;> simp [request, cache, ho, play, ofExcept, played, raise] <;> rfl

theorem request_of_unplayed
    (unplayed : (t.assembler.play (r.perform t.cache).journal).2 = .error f) :
    (request r t).result = .error f := by
  simp [request, cache, play, ofExcept, unplayed]

end RecompilerM

end Dynarec
