import Mathlib.Data.Nat.Digits.Defs
import Dynarec.Proofs.CodeStream
import Dynarec.Recompiler

/-!
# The code buffer as a byte list

A `BufferOp` is a change of the code buffer. `BufferOp.onList` is what it does to a list of at most
`capacity` bytes: an emission appends, `truncate` keeps the front, and what does not fit is
refused. The buffer, whose memory keeps stale bytes behind the write offset, does just that to its
contents (`CodeBuffer.Holds.apply`), and so does any run of changes in which those that fail are
passed over (`BufferOp.refines_byteList`). What is cut off does not come back
(`BufferOp.listAfter_eq_take_append`).
-/

namespace Dynarec

open Journal

inductive BufferOp where
  | byte (x : Byte)
  | word (w : Word)
  | long (w : BitVec 64)
  | bytes (xs : List Byte)
  | truncate (n : Nat)

namespace BufferOp

def apply : BufferOp → CodeBuffer → Except CodeError CodeBuffer
  | byte x, b => b.emitByte x
  | word w, b => b.emitWord w
  | long w, b => b.emitLong w
  | bytes xs, b => b.emit xs
  | truncate n, b => b.truncate n

/-- The change made of the buffer of a recompiler. -/
def perform (op : BufferOp) : RecompilerM Unit := RecompilerM.assemble (·.onCode op.apply)

/-- The changes one after the other. One that fails does not end the run. -/
def run (ops : List BufferOp) (t : Recompiler) : Recompiler :=
  ops.foldl (fun t op => (op.perform t).state) t

/-! ## On a list -/

/-- The bytes that an emission appends. -/
def appended? : BufferOp → Option (List Byte)
  | byte x => some [x]
  | word w => some w.bytes
  | long w => some (Word.longBytes w)
  | bytes xs => some xs
  | truncate _ => none

def appended (op : BufferOp) : List Byte := op.appended?.getD []

/-- The integer that is emitted. -/
def integer? : BufferOp → Option Nat
  | byte x => some x.toNat
  | word w => some w.toNat
  | long w => some w.toNat
  | bytes _ | truncate _ => none

def onList (capacity : Nat) (op : BufferOp) (l : List Byte) : Except CodeError (List Byte) :=
  match op with
  | truncate n => if n ≤ l.length then .ok (l.take n) else .error .truncatedAhead
  | byte _ | word _ | long _ | bytes _ =>
    if l.length + op.appended.length ≤ capacity then .ok (l ++ op.appended) else .error .full

/-- The list after some changes, of which those that are refused do nothing. -/
def listAfter (capacity : Nat) (ops : List BufferOp) (l : List Byte) : List Byte :=
  ops.foldl (fun l op => (op.onList capacity l).toOption.getD l) l

/-- More bytes are emitted than remain. -/
def Overflows (op : BufferOp) (b : CodeBuffer) : Prop :=
  ∃ xs, op.appended? = some xs ∧ b.remaining < xs.length

/-- The write offset would be moved forward. -/
def TruncatesAhead (op : BufferOp) (b : CodeBuffer) : Prop := ∃ n, op = truncate n ∧ b.offset < n

theorem Overflows.not_truncatesAhead {op : BufferOp} {b : CodeBuffer} (h : op.Overflows b) :
    ¬ op.TruncatesAhead b := by
  rintro ⟨n, rfl, -⟩
  obtain ⟨xs, ⟨⟩, -⟩ := h

/-- A change other than `truncate` emits what it appends. -/
theorem emission_or_truncate (op : BufferOp) :
    (op.appended? = some op.appended ∧ (∀ b, op.apply b = b.emit op.appended) ∧
      ∀ capacity l, op.onList capacity l =
        if l.length + op.appended.length ≤ capacity then .ok (l ++ op.appended) else .error .full) ∨
    ∃ n, op = truncate n := by
  cases op with
  | truncate n => exact .inr ⟨n, rfl⟩
  | byte _ | word _ | long _ | bytes _ => exact .inl ⟨rfl, fun _ => rfl, fun _ _ => rfl⟩

end BufferOp

/-! ## One change -/

namespace CodeBuffer

variable {b c : CodeBuffer} {l l' : List Byte} {op : BufferOp}

theorem contentsFrom_eq_drop (b : CodeBuffer) (i : Nat) :
    b.contentsFrom i = b.contents.drop i := by
  simp [contents, contentsFrom, List.drop_take]

/-- The generated code is `l`, it lies inside the buffer, and more can be written. -/
structure Holds (b : CodeBuffer) (l : List Byte) : Prop where
  contents : b.contents = l
  offset : b.offset = l.length
  fits : b.offset ≤ b.capacity
  writable : b.access = .write

theorem holds_nil (memory : Array Byte) : Holds ⟨memory, 0, .write⟩ [] :=
  ⟨by simp [contents_eq_take], rfl, Nat.zero_le _, rfl⟩

theorem Holds.offset_add_remaining (h : b.Holds l) : b.offset + b.remaining = b.capacity :=
  Nat.add_sub_cancel' h.fits

theorem Holds.room_iff (h : b.Holds l) (n : Nat) :
    n ≤ b.remaining ↔ l.length + n ≤ b.capacity := by
  have total := h.offset_add_remaining
  rw [h.offset] at total
  omega

theorem Holds.emit (h : b.Holds l) {xs : List Byte} (run : b.emit xs = .ok c) :
    c.Holds (l ++ xs) ∧ c.capacity = b.capacity := by
  have contents := contents_emit run
  unfold CodeBuffer.emit at run
  split at run
  · next room =>
    cases run
    have room := (h.room_iff _).1 room
    have capacity : (overwrite b.memory b.offset xs).size = b.capacity := size_overwrite ..
    refine ⟨⟨?_, ?_, ?_, h.writable⟩, capacity⟩
    · rw [contents, h.contents]
    · rw [List.length_append, ← h.offset]
    · rw [← h.offset] at room
      exact Nat.le_trans room (Nat.le_of_eq capacity.symm)
  · cases run

theorem Holds.truncate (h : b.Holds l) {n : Nat} (run : b.truncate n = .ok c) :
    c.Holds (l.take n) ∧ c.capacity = b.capacity := by
  unfold CodeBuffer.truncate at run
  split at run
  · next le =>
    cases run
    refine ⟨⟨?_, ?_, Nat.le_trans le h.fits, h.writable⟩, rfl⟩
    · rw [← h.contents, contents_eq_take, contents_eq_take, List.take_take, Nat.min_eq_left le]
    · rw [h.offset] at le
      rw [List.length_take, Nat.min_eq_left le]
  · cases run

/-- The buffer carries out a change when the list does. -/
theorem Holds.apply (h : b.Holds l) (done : op.onList b.capacity l = .ok l') :
    ∃ c, op.apply b = .ok c ∧ c.Holds l' ∧ c.capacity = b.capacity := by
  rcases op.emission_or_truncate with ⟨-, onBuffer, onList⟩ | ⟨n, rfl⟩
  · rw [onList] at done
    split at done
    · next room =>
      cases done
      have run := emit_of_fits ((h.room_iff _).2 room)
      exact ⟨_, (onBuffer b).trans run, h.emit run⟩
    · cases done
  · rw [BufferOp.onList] at done
    split at done
    · next le =>
      cases done
      rw [← h.offset] at le
      have run : b.truncate n = .ok { b with offset := n } := if_pos le
      exact ⟨_, run, h.truncate run⟩
    · cases done

/-- The buffer refuses a change when the list does, and for the same reason. -/
theorem Holds.apply_error (h : b.Holds l) {e : CodeError}
    (refused : op.onList b.capacity l = .error e) : op.apply b = .error e := by
  rcases op.emission_or_truncate with ⟨-, onBuffer, onList⟩ | ⟨n, rfl⟩
  · rw [onList] at refused
    split at refused
    · cases refused
    · next room =>
      cases refused
      rw [onBuffer]
      exact if_neg (mt (h.room_iff _).1 room)
  · rw [BufferOp.onList] at refused
    split at refused
    · cases refused
    · next le =>
      cases refused
      rw [← h.offset] at le
      exact if_neg le

theorem Holds.onList_error_iff (h : b.Holds l) {e : CodeError} :
    op.onList b.capacity l = .error e ↔
      op.Overflows b ∧ e = .full ∨ op.TruncatesAhead b ∧ e = .truncatedAhead := by
  rcases op.emission_or_truncate with ⟨appended, -, onList⟩ | ⟨n, rfl⟩
  · have overflows : op.Overflows b ↔ ¬ l.length + op.appended.length ≤ b.capacity := by
      rw [← h.room_iff, Nat.not_le, BufferOp.Overflows, appended]
      simp
    have behind : ¬ op.TruncatesAhead b := by
      rintro ⟨n, rfl, -⟩
      cases appended
    rw [onList, overflows]
    split
    · next room => simp [room, behind]
    · next room => simp [room, behind, eq_comm]
  · have fits : ¬ (BufferOp.truncate n).Overflows b := nofun
    have ahead : (BufferOp.truncate n).TruncatesAhead b ↔ ¬ n ≤ l.length := by
      rw [← h.offset, Nat.not_le]
      simp [BufferOp.TruncatesAhead]
    rw [BufferOp.onList, ahead]
    split
    · next le => simp [le, fits]
    · next le => simp [le, fits, eq_comm]

end CodeBuffer

namespace BufferOp

variable {t : Recompiler} {op : BufferOp} {l l' : List Byte}

open CodeBuffer

theorem perform_of_ok {b : CodeBuffer} (done : op.apply t.assembler.buffer = .ok b) :
    op.perform t = ⟨.ok (), { t with assembler := { t.assembler with buffer := b } }, []⟩ := by
  simp only [perform, RecompilerM.assemble, bind_run, read_run, Outcome.andThen_ok,
    Assembler.onCode, done, RecompilerM.ofExcept, pure_run, modify_run, Outcome.after_nil]

theorem perform_of_error {e : CodeError} (refused : op.apply t.assembler.buffer = .error e) :
    op.perform t = ⟨.error (.code e), t, []⟩ := by
  simp only [perform, RecompilerM.assemble, bind_run, read_run, Outcome.andThen_ok,
    Assembler.onCode, refused, RecompilerM.ofExcept, stop_run, Outcome.andThen_error,
    Outcome.after_nil]

/-- **One step.** Of the list that the buffer holds, a change makes the list that it then holds. -/
theorem holds_perform (op : BufferOp) (h : t.assembler.buffer.Holds l) :
    let b := (op.perform t).state.assembler.buffer
    b.Holds ((op.onList t.assembler.buffer.capacity l).toOption.getD l) ∧
      b.capacity = t.assembler.buffer.capacity := by
  cases onList : op.onList t.assembler.buffer.capacity l with
  | ok l' =>
    obtain ⟨c, done, holds, capacity⟩ := h.apply onList
    rw [perform_of_ok done]
    exact ⟨holds, capacity⟩
  | error e =>
    rw [perform_of_error (h.apply_error onList)]
    exact ⟨h, rfl⟩

/-- A change fails when the list refuses it, and for the same reason. -/
theorem perform_error_iff_onList (h : t.assembler.buffer.Holds l) {f : Failure} :
    (op.perform t).result = .error f ↔
      ∃ e, op.onList t.assembler.buffer.capacity l = .error e ∧ .code e = f := by
  cases onList : op.onList t.assembler.buffer.capacity l with
  | ok l' =>
    obtain ⟨c, done, -⟩ := h.apply onList
    rw [perform_of_ok done]
    exact ⟨nofun, nofun⟩
  | error e =>
    rw [perform_of_error (h.apply_error onList)]
    simp

theorem perform_error_iff (h : t.assembler.buffer.Holds l) {f : Failure} :
    (op.perform t).result = .error f ↔
      op.Overflows t.assembler.buffer ∧ f = .code .full ∨
      op.TruncatesAhead t.assembler.buffer ∧ f = .code .truncatedAhead := by
  simp only [perform_error_iff_onList h, h.onList_error_iff]
  refine ⟨?_, ?_⟩
  · rintro ⟨e, ⟨overflows, rfl⟩ | ⟨ahead, rfl⟩, rfl⟩
    · exact .inl ⟨overflows, rfl⟩
    · exact .inr ⟨ahead, rfl⟩
  · rintro (⟨overflows, rfl⟩ | ⟨ahead, rfl⟩)
    · exact ⟨_, .inl ⟨overflows, rfl⟩, rfl⟩
    · exact ⟨_, .inr ⟨ahead, rfl⟩, rfl⟩

theorem message_of_error {f : Failure} (h : t.assembler.buffer.Holds l)
    (failed : (op.perform t).result = .error f) :
    (f.message = "code buffer overflow" ↔ op.Overflows t.assembler.buffer) ∧
      (f.message = "truncate past write offset" ↔ op.TruncatesAhead t.assembler.buffer) := by
  rcases (perform_error_iff h).1 failed with ⟨overflows, rfl⟩ | ⟨ahead, rfl⟩
  · have behind := overflows.not_truncatesAhead
    exact ⟨iff_of_true rfl overflows, iff_of_false (by decide) behind⟩
  · have fits := mt Overflows.not_truncatesAhead (not_not_intro ahead)
    exact ⟨iff_of_false (by decide) fits, iff_of_true rfl ahead⟩

theorem state_of_error {f : Failure} (failed : (op.perform t).result = .error f) :
    (op.perform t).state = t := by
  cases done : op.apply t.assembler.buffer with
  | ok b =>
    rw [perform_of_ok done] at failed
    cases failed
  | error e => rw [perform_of_error done]

/-- An emission that is carried out leaves its bytes behind the old write offset. -/
theorem contentsFrom_of_ok {xs : List Byte} (h : t.assembler.buffer.Holds l)
    (appended : op.appended? = some xs) (done : (op.perform t).result = .ok ()) :
    (op.perform t).state.assembler.buffer.contentsFrom t.assembler.buffer.offset = xs := by
  rcases op.emission_or_truncate with ⟨eq, onBuffer, -⟩ | ⟨n, rfl⟩
  · obtain rfl := Option.some.inj (eq.symm.trans appended)
    cases run : op.apply t.assembler.buffer with
    | ok c =>
      have holds := (h.emit ((onBuffer _).symm.trans run)).1
      rw [perform_of_ok run]
      rw [contentsFrom_eq_drop, holds.contents, h.offset, List.drop_left]
    | error e =>
      rw [perform_of_error run] at done
      cases done
  · cases appended

/-! ## Runs -/

/-- **A run.** The buffer holds the list that the changes make. -/
theorem holds_run (ops : List BufferOp) :
    ∀ {t : Recompiler} {l : List Byte}, t.assembler.buffer.Holds l →
      (run ops t).assembler.buffer.Holds (listAfter t.assembler.buffer.capacity ops l) ∧
        (run ops t).assembler.buffer.capacity = t.assembler.buffer.capacity := by
  induction ops with
  | nil => exact fun h => ⟨h, rfl⟩
  | cons op ops ih =>
    intro t l h
    obtain ⟨holds, capacity⟩ := holds_perform op h
    have rest := ih holds
    rw [capacity] at rest
    exact rest

theorem onList_eq_take_append (capacity : Nat) (op : BufferOp) (l : List Byte) :
    ∃ m ≤ l.length, ∃ s, s.Sublist op.appended ∧
      (op.onList capacity l).toOption.getD l = l.take m ++ s := by
  have whole : l = l.take l.length ++ [] := by simp
  rcases op.emission_or_truncate with ⟨-, -, onList⟩ | ⟨n, rfl⟩
  · rw [onList]
    split
    · exact ⟨l.length, Nat.le_refl _, op.appended, .refl _, by rw [List.take_length]; rfl⟩
    · exact ⟨l.length, Nat.le_refl _, [], List.nil_sublist _, whole⟩
  · rw [onList]
    split
    · next le => exact ⟨n, le, [], List.nil_sublist _, (List.append_nil _).symm⟩
    · exact ⟨l.length, Nat.le_refl _, [], List.nil_sublist _, whole⟩

/-- **What is cut off does not come back.** Of the list before the changes only a front is left,
and all behind it was emitted by them. -/
theorem listAfter_eq_take_append (capacity : Nat) (ops : List BufferOp) (l : List Byte) :
    ∃ m ≤ l.length, ∃ s, s.Sublist (ops.flatMap appended) ∧
      listAfter capacity ops l = l.take m ++ s := by
  induction ops generalizing l with
  | nil => exact ⟨l.length, Nat.le_refl _, [], .slnil, by simp [listAfter]⟩
  | cons op ops ih =>
    obtain ⟨m, hm, s, hs, next⟩ := op.onList_eq_take_append capacity l
    obtain ⟨k, hk, s', hs', rest⟩ := ih ((op.onList capacity l).toOption.getD l)
    -- the later changes may cut into what the first one emitted
    refine ⟨min k m, Nat.le_trans (Nat.min_le_right ..) hm,
      s.take (k - (l.take m).length) ++ s', ?_, ?_⟩
    · rw [List.flatMap_cons]
      exact ((List.take_sublist ..).trans hs).append hs'
    · rw [listAfter, List.foldl_cons, ← listAfter, rest, next, List.take_append, List.take_take,
        List.append_assoc]

/-! ## Integers -/

theorem ofDigits_bytes (w : Word) : Nat.ofDigits 256 (w.bytes.map BitVec.toNat) = w.toNat := by
  have bound := w.isLt
  simp only [Word.bytes, List.map_cons, List.map_nil, Nat.ofDigits_cons, Nat.ofDigits_nil,
    BitVec.extractLsb'_toNat, Nat.shiftRight_eq_div_pow]
  omega

theorem ofDigits_longBytes (w : BitVec 64) :
    Nat.ofDigits 256 ((Word.longBytes w).map BitVec.toNat) = w.toNat := by
  have bound := w.isLt
  rw [Word.longBytes, List.map_append, Nat.ofDigits_append, List.length_map, Word.length_bytes,
    ofDigits_bytes, ofDigits_bytes]
  simp only [BitVec.extractLsb'_toNat, Nat.shiftRight_eq_div_pow]
  omega

/-- The bytes of an integer are its digits, the lowest first. -/
theorem ofDigits_appended {v : Nat} (integer : op.integer? = some v) :
    ∃ xs, op.appended? = some xs ∧ Nat.ofDigits 256 (xs.map BitVec.toNat) = v := by
  cases op with
  | byte x =>
    cases integer
    exact ⟨[x], rfl, by simp⟩
  | word w =>
    cases integer
    exact ⟨w.bytes, rfl, ofDigits_bytes w⟩
  | long w =>
    cases integer
    exact ⟨Word.longBytes w, rfl, ofDigits_longBytes w⟩
  | bytes _ | truncate _ => cases integer

/-! ## Refinement -/

/-- **The code buffer refines a bounded byte list.** From an empty buffer of writable pages of any
capacity, after any changes, its contents are the list that the changes make, its offset is the
length of it, and its pages can still be written. The next change fails just when it emits more
than remains or truncates past the offset, and then nothing is changed. An integer can be read
back, and of what `truncate` cuts off nothing comes back: all behind the part that is kept was
emitted later. -/
theorem refines_byteList (c : Cache) (memory : Array Byte) (ops : List BufferOp) :
    let t := run ops ⟨c, .onBuffer ⟨memory, 0, .write⟩⟩
    let b := t.assembler.buffer
    let l := listAfter memory.size ops []
    (b.contents = l ∧ b.offset = l.length ∧ b.capacity = memory.size ∧ b.offset ≤ b.capacity ∧
      b.offset + b.remaining = b.capacity ∧ b.access = .write) ∧
    (∀ op : BufferOp,
      ((∃ f, (op.perform t).result = .error f) ↔ op.Overflows b ∨ op.TruncatesAhead b) ∧
      ∀ f, (op.perform t).result = .error f → (op.perform t).state = t ∧
        (f.message = "code buffer overflow" ↔ op.Overflows b) ∧
        (f.message = "truncate past write offset" ↔ op.TruncatesAhead b)) ∧
    (∀ (op : BufferOp) (v : Nat), op.integer? = some v → (op.perform t).result = .ok () →
      Nat.ofDigits 256 (((op.perform t).state.assembler.buffer.contentsFrom b.offset).map
        BitVec.toNat) = v) ∧
    ∀ n later, n ≤ b.offset → ∃ m ≤ n, ∃ s, s.Sublist (later.flatMap appended) ∧
      (run (truncate n :: later) t).assembler.buffer.contents = b.contents.take m ++ s := by
  intro t b l
  obtain ⟨holds, capacity⟩ := holds_run ops
    (t := ⟨c, .onBuffer ⟨memory, 0, .write⟩⟩) (holds_nil memory)
  change b.Holds l at holds
  refine ⟨⟨holds.contents, holds.offset, capacity, holds.fits, holds.offset_add_remaining,
    holds.writable⟩, fun op => ⟨?_, fun f failed => ⟨state_of_error failed, ?_⟩⟩, ?_, ?_⟩
  · refine ⟨fun ⟨f, failed⟩ => ?_, ?_⟩
    · exact ((perform_error_iff holds).1 failed).imp And.left And.left
    · rintro (overflows | ahead)
      · exact ⟨_, (perform_error_iff holds).2 (.inl ⟨overflows, rfl⟩)⟩
      · exact ⟨_, (perform_error_iff holds).2 (.inr ⟨ahead, rfl⟩)⟩
  · exact message_of_error holds failed
  · intro op v integer done
    obtain ⟨xs, appended, digits⟩ := ofDigits_appended integer
    rw [contentsFrom_of_ok holds appended done, digits]
  · intro n later le
    have cut := (holds_run (truncate n :: later) holds).1.contents
    have front : ((truncate n).onList b.capacity l).toOption.getD l = l.take n := by
      rw [onList, if_pos (holds.offset ▸ le)]
      rfl
    obtain ⟨m, hm, s, sublist, rest⟩ := listAfter_eq_take_append b.capacity later (l.take n)
    have hm : m ≤ n := Nat.le_trans hm (List.length_take_le ..)
    refine ⟨m, hm, s, sublist, ?_⟩
    rw [cut, listAfter, List.foldl_cons, ← listAfter, front, rest, List.take_take,
      Nat.min_eq_left hm, holds.contents]

/-- A buffer of 12 bytes, filled to the last one over bytes that were cut off, refuses one more,
takes none, and gives back the word that was emitted last. -/
theorem refines_byteList_of_full :
    let t := run [.long 1, .bytes [7, 7], .truncate 8]
      ⟨.fresh, .onBuffer ⟨.replicate 12 9, 0, .write⟩⟩
    let full := ((word 0xDEADBEEF).perform t).state
    full.assembler.buffer.contents = [1, 0, 0, 0, 0, 0, 0, 0, 0xEF, 0xBE, 0xAD, 0xDE] ∧
    Nat.ofDigits 256 ((full.assembler.buffer.contentsFrom 8).map BitVec.toNat) = 0xDEADBEEF ∧
    (∃ f, ((byte 0).perform full).result = .error f ∧ f.message = "code buffer overflow" ∧
      ((byte 0).perform full).state = full) ∧
    ((bytes []).perform full).result = .ok () ∧
    ∃ m ≤ 8, ∃ s, s.Sublist (Word.bytes 5) ∧
      (run [truncate 8, word 5] full).assembler.buffer.contents =
        full.assembler.buffer.contents.take m ++ s := by
  intro t full
  obtain ⟨-, -, integers, -⟩ := refines_byteList .fresh (.replicate 12 9)
    [.long 1, .bytes [7, 7], .truncate 8]
  obtain ⟨-, refused, -, cut⟩ := refines_byteList .fresh (.replicate 12 9)
    [.long 1, .bytes [7, 7], .truncate 8, .word 0xDEADBEEF]
  have overflows : (byte 0).Overflows full.assembler.buffer := ⟨[0], rfl, by decide +kernel⟩
  obtain ⟨f, failed⟩ := (refused (byte 0)).1.2 (.inl overflows)
  obtain ⟨kept, message, -⟩ := (refused (byte 0)).2 f failed
  exact ⟨by decide +kernel, integers (word 0xDEADBEEF) _ rfl (by rfl),
    ⟨f, failed, message.2 overflows, kept⟩, by rfl, cut 8 [word 5] (by decide +kernel)⟩

end BufferOp

end Dynarec
