import Dynarec.Code.Assembler
import Dynarec.Proofs.Decoding

/-!
# Instruction streams in the code buffer

`overwrite` seen as a list: the bytes before the write offset stay, the new ones
follow. `CodeBuffer.contents_emit` says that an emission appends to `contents`, and
`CodeBuffer.emit_of_fits` that it succeeds when there is room.

So an assembler that emits instructions one after another appends exactly their
encodings (`Assembler.contents_emitInstrs`), and does so whenever they fit
(`Assembler.emitInstrs_of_fits`). The decoder reads the appended bytes back.
-/

namespace Dynarec

/-! ## Contents of a buffer -/

namespace CodeBuffer

theorem toList_overwrite (bytes : List Byte) :
    ∀ (memory : Array Byte) (i : Nat), i + bytes.length ≤ memory.size →
      (overwrite memory i bytes).toList =
        memory.toList.take i ++ bytes ++ memory.toList.drop (i + bytes.length) := by
  induction bytes with
  | nil => intro memory i _; simp [overwrite]
  | cons x xs ih =>
    intro memory i h
    simp only [List.length_cons] at h ⊢
    rw [overwrite, ih _ _ (by simp; omega), Array.toList_setIfInBounds]
    have hi : i < memory.toList.length := by simp; omega
    have htake : (memory.toList.set i x).take (i + 1) = memory.toList.take i ++ [x] := by
      rw [List.take_succ_eq_append_getElem (by simpa using hi), List.take_set_of_le (Nat.le_refl i)]
      simp
    rw [htake, List.drop_set_of_lt (by omega),
      show i + 1 + xs.length = i + (xs.length + 1) by omega]
    simp

theorem contents_eq_take (b : CodeBuffer) : b.contents = b.memory.toList.take b.offset := by
  simp [contents, contentsFrom]

theorem emit_of_fits {b : CodeBuffer} {bytes : List Byte} (h : bytes.length ≤ b.remaining) :
    b.emit bytes = .ok
      { b with memory := overwrite b.memory b.offset bytes, offset := b.offset + bytes.length } :=
  if_pos h

theorem contents_emit {b c : CodeBuffer} {bytes : List Byte} (h : b.emit bytes = .ok c) :
    c.contents = b.contents ++ bytes := by
  unfold emit at h
  split at h
  · next hfit =>
    cases h
    cases bytes with
    | nil => simp [contents_eq_take, overwrite]
    | cons x xs =>
      have hroom : b.offset + (x :: xs).length ≤ b.memory.size := by
        simp only [remaining, capacity, List.length_cons] at hfit ⊢
        omega
      have written : (b.memory.toList.take b.offset ++ x :: xs).length =
          b.offset + (x :: xs).length := by
        rw [List.length_append, List.length_take, Array.length_toList]
        omega
      rw [contents_eq_take, contents_eq_take, toList_overwrite _ _ _ hroom,
        List.take_append_of_le_length (Nat.le_of_eq written.symm),
        List.take_of_length_le (Nat.le_of_eq written)]
  · cases h

theorem remaining_emit {b c : CodeBuffer} {bytes : List Byte} (h : b.emit bytes = .ok c) :
    c.remaining = b.remaining - bytes.length := by
  unfold emit at h
  split at h
  · cases h
    simp only [remaining, capacity, size_overwrite]
    omega
  · cases h

end CodeBuffer

/-! ## Instructions one after another -/

namespace Assembler

theorem emitInstr_of_fits {a : Assembler} {i : Instr Address}
    (h : i.encode.length ≤ a.buffer.remaining) :
    ∃ b, a.emitInstr i = .ok b ∧
      b.buffer.remaining = a.buffer.remaining - i.encode.length := by
  have he := CodeBuffer.emit_of_fits h
  exact ⟨{ a with buffer := _ }, by simp only [emitInstr, emit, onCode, he],
    CodeBuffer.remaining_emit he⟩

theorem contents_emitInstr {a b : Assembler} {i : Instr Address} (h : a.emitInstr i = .ok b) :
    b.buffer.contents = a.buffer.contents ++ i.encode := by
  simp only [emitInstr, emit, onCode] at h
  split at h
  · next c he =>
    cases h
    exact CodeBuffer.contents_emit he
  · cases h

theorem emitInstrs_of_fits {is : List (Instr Address)} :
    ∀ {a : Assembler}, (Instr.encodeAll is).length ≤ a.buffer.remaining →
      ∃ b, is.foldlM emitInstr a = .ok b := by
  induction is with
  | nil => exact fun {a} _ => ⟨a, rfl⟩
  | cons i is ih =>
    intro a h
    simp only [Instr.encodeAll, List.flatMap_cons, List.length_append] at h
    obtain ⟨b, hb, hr⟩ := emitInstr_of_fits (a := a) (i := i) (by omega)
    obtain ⟨c, hc⟩ := ih (a := b) (by simp only [Instr.encodeAll]; omega)
    exact ⟨c, by rw [List.foldlM_cons, hb]; exact hc⟩

theorem contents_emitInstrs {is : List (Instr Address)} :
    ∀ {a b : Assembler}, is.foldlM emitInstr a = .ok b →
      b.buffer.contents = a.buffer.contents ++ Instr.encodeAll is := by
  induction is with
  | nil =>
    intro a b h
    cases h
    simp [Instr.encodeAll]
  | cons i is ih =>
    intro a b h
    rw [List.foldlM_cons] at h
    cases hi : a.emitInstr i with
    | error e => rw [hi] at h; cases h
    | ok c =>
      rw [hi] at h
      rw [ih h, contents_emitInstr hi, List.append_assoc]
      rfl

end Assembler

namespace Instr

/-- The memory operand of an instruction that has one. -/
def memory? {M : Type} : Instr M → Option M
  | load _ _ m | store _ m _ | storeImm m _ => some m
  | _ => none

theorem memory?_map {M N : Type} (f : M → N) (i : Instr M) :
    (i.map f).memory? = i.memory?.map f := by
  cases i <;> rfl

/-- **Encoded streams read back.** The decoder turns the bytes of any instruction sequence into
that sequence, and no operand of it is relative to the instruction pointer or indexed. These are
the bytes that an assembler appends for the sequence, and it appends them whenever they fit. -/
theorem decodeAll_appended (is : List (Instr Address)) :
    decodeAll (encodeAll is) = some (is.map (Instr.map .based)) ∧
    (∀ i ∈ is.map (Instr.map MemRef.based), ∀ m, i.memory? = some m → ∃ a, m = .based a) ∧
    ∀ a : Assembler,
      ((encodeAll is).length ≤ a.buffer.remaining → ∃ b, is.foldlM Assembler.emitInstr a = .ok b) ∧
      ∀ b, is.foldlM Assembler.emitInstr a = .ok b →
        b.buffer.contents = a.buffer.contents ++ encodeAll is := by
  refine ⟨decodeAll_encodeAll is, ?_, fun a => ⟨Assembler.emitInstrs_of_fits, fun b h =>
    Assembler.contents_emitInstrs h⟩⟩
  intro j hj m hm
  obtain ⟨i, -, rfl⟩ := List.mem_map.1 hj
  rw [memory?_map] at hm
  obtain ⟨a, -, rfl⟩ := Option.map_eq_some_iff.1 hm
  exact ⟨a, rfl⟩

end Instr

end Dynarec
