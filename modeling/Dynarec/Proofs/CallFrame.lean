import Dynarec.Host.Execution
import Dynarec.Proofs.CodeStream

/-!
# Calling a block

Entry code pushes the registers that the caller keeps and exit code pops them in
the opposite order, so what a pushed word is depends only on the stack, not on
the body. `Cpu.stack` lists the top words of the stack; `stack_pushAll` and
`regs_popAll` say what a row of pushes adds to it and what a row of pops takes
from it. `Assembler.caller_kept` is the promise to the caller of a block.
-/

namespace Dynarec

namespace Cpu

variable {s t : Cpu} {a b v : Long} {x y : HostReg} {xs : List HostReg} {n : Nat}

/-! ## Words of memory -/

theorem append_extract (v : Long) :
    v.extractLsb' 56 8 ++ v.extractLsb' 48 8 ++ v.extractLsb' 40 8 ++ v.extractLsb' 32 8 ++
      v.extractLsb' 24 8 ++ v.extractLsb' 16 8 ++ v.extractLsb' 8 8 ++ v.extractLsb' 0 8 = v := by
  apply BitVec.eq_of_getLsbD_eq
  intro i hi
  simp only [BitVec.getLsbD_append, BitVec.getLsbD_extractLsb']
  grind

theorem memory_writeLong_of_near (s : Cpu) (a v : Long) {d : Long} (hd : d < 8) :
    (s.writeLong a v).memory (a + d) = v.extractLsb' (8 * d.toNat) 8 := by
  have e : a + d - a = d := by bv_omega
  simp only [writeLong, e, if_pos hd]

theorem memory_writeLong_of_far (s : Cpu) (v : Long) (hb : ¬ b - a < 8) :
    (s.writeLong a v).memory b = s.memory b := by
  simp only [writeLong, if_neg hb]

theorem readLong_congr (same : ∀ d : Long, d < 8 → s.memory (a + d) = t.memory (a + d)) :
    s.readLong a = t.readLong a := by
  have first : s.memory a = t.memory a := by simpa using same 0 (by decide)
  simp only [readLong, first, same 1 (by decide), same 2 (by decide), same 3 (by decide),
    same 4 (by decide), same 5 (by decide), same 6 (by decide), same 7 (by decide)]

theorem readLong_writeLong_self (s : Cpu) (a v : Long) : (s.writeLong a v).readLong a = v := by
  have byte (d : Long) (hd : d < 8) := s.memory_writeLong_of_near a v hd
  have first : (s.writeLong a v).memory a = v.extractLsb' 0 8 := by simpa using byte 0 (by decide)
  simp only [readLong, first, byte 1 (by decide), byte 2 (by decide), byte 3 (by decide),
    byte 4 (by decide), byte 5 (by decide), byte 6 (by decide), byte 7 (by decide)]
  exact append_extract v

/-- Two words are apart if neither reaches into the other, also around the end of memory. -/
theorem readLong_writeLong_of_apart (s : Cpu) (v : Long) (above : 8 ≤ (b - a).toNat)
    (below : 8 ≤ (a - b).toNat) : (s.writeLong a v).readLong b = s.readLong b := by
  apply readLong_congr
  intro d hd
  apply memory_writeLong_of_far
  bv_omega

/-! ## The stack -/

/-- The `n` words from `a` on. -/
def words (s : Cpu) (a : Long) : Nat → List Long
  | 0 => []
  | n + 1 => s.readLong a :: s.words (a + 8) n

/-- How many words there are in memory. -/
def longCount : Nat := 0x2000000000000000

/-- The top `n` words of the stack. -/
def stack (s : Cpu) (n : Nat) : List Long := s.words (s.regs .rsp) n

theorem words_congr (h : s.memory = t.memory) : s.words a n = t.words a n := by
  induction n generalizing a with
  | zero => rfl
  | succ n ih => simp only [words, readLong, h, ih]

theorem words_writeLong_of_apart (above : 8 ≤ (b - a).toNat) (below : 8 * n ≤ (a - b).toNat) :
    (s.writeLong a v).words b n = s.words b n := by
  induction n generalizing b with
  | zero => rfl
  | succ n ih =>
    rw [words, words, readLong_writeLong_of_apart s v above (by omega)]
    cases n with
    | zero => rfl
    | succ n =>
      have next : (a - (b + 8)).toNat = (a - b).toNat - 8 := by bv_omega
      have above' : 8 ≤ (b + 8 - a).toNat := by bv_omega
      rw [ih above' (by omega)]

theorem stack_setReg (s : Cpu) (v : Long) (hx : x ≠ .rsp) : (s.setReg x v).stack n = s.stack n := by
  rw [stack, stack, regs_setReg_of_ne s v hx.symm]
  exact words_congr rfl

theorem stack_succ (s : Cpu) (n : Nat) : s.stack (n + 1) = s.top :: s.drop.stack n := by
  rw [stack, words, top, stack, drop, regs_setReg_self]
  exact congrArg _ (words_congr rfl)

theorem rsp_push (s : Cpu) (v : Long) : (s.push v).regs .rsp = s.regs .rsp - 8 := by
  simp [push]

theorem regs_push (s : Cpu) (v : Long) (hx : x ≠ .rsp) : (s.push v).regs x = s.regs x := by
  simp [push, regs_setReg_of_ne _ _ hx]

theorem stack_push (s : Cpu) (v : Long) (room : n < longCount) :
    (s.push v).stack (n + 1) = v :: s.stack n := by
  unfold longCount at room
  rw [stack, rsp_push, words, push, readLong_writeLong_self]
  congr 1
  rw [BitVec.sub_add_cancel, words_writeLong_of_apart (by bv_omega) (by bv_omega)]
  exact words_congr rfl

/-! ## Rows of pushes and pops -/

def pushAll : List HostReg → Cpu → Cpu
  | [], s => s
  | x :: xs, s => pushAll xs (s.push (s.regs x))

def popAll : List HostReg → Cpu → Cpu
  | [], s => s
  | x :: xs, s => popAll xs (s.drop.setReg x s.top)

theorem regs_pushAll (hy : y ≠ .rsp) : (pushAll xs s).regs y = s.regs y := by
  induction xs generalizing s with
  | nil => rfl
  | cons x xs ih => rw [pushAll, ih, regs_push s _ hy]

theorem rsp_pushAll : (pushAll xs s).regs .rsp = s.regs .rsp - 8 * BitVec.ofNat 64 xs.length := by
  induction xs generalizing s with
  | nil => simp [pushAll]
  | cons x xs ih =>
    rw [pushAll, ih, rsp_push, List.length_cons]
    bv_omega

theorem stack_pushAll (noRsp : .rsp ∉ xs) (room : xs.length + n ≤ longCount) :
    (pushAll xs s).stack (xs.length + n) = xs.reverse.map s.regs ++ s.stack n := by
  induction xs generalizing s n with
  | nil => simp [pushAll]
  | cons x xs ih =>
    simp only [List.length_cons, List.mem_cons, not_or] at noRsp room ⊢
    have kept : xs.reverse.map (s.push (s.regs x)).regs = xs.reverse.map s.regs :=
      List.map_congr_left fun y hy =>
        regs_push s _ fun e => noRsp.2 (e ▸ List.mem_reverse.1 hy)
    rw [pushAll, show xs.length + 1 + n = xs.length + (n + 1) by omega,
      ih noRsp.2 (by omega), stack_push s _ (by omega), kept, List.reverse_cons, List.map_append,
      List.append_assoc]
    rfl

theorem rsp_popAll (noRsp : .rsp ∉ xs) :
    (popAll xs s).regs .rsp = s.regs .rsp + 8 * BitVec.ofNat 64 xs.length := by
  induction xs generalizing s with
  | nil => simp [popAll]
  | cons x xs ih =>
    simp only [List.mem_cons, not_or] at noRsp
    rw [popAll, ih noRsp.2, regs_setReg_of_ne _ _ noRsp.1, drop, regs_setReg_self, List.length_cons]
    bv_omega

theorem regs_popAll_of_not_mem (hx : x ∉ xs) (hx' : x ≠ .rsp) :
    (popAll xs s).regs x = s.regs x := by
  induction xs generalizing s with
  | nil => rfl
  | cons y xs ih =>
    simp only [List.mem_cons, not_or] at hx
    rw [popAll, ih hx.2, regs_setReg_of_ne _ _ hx.1, drop, regs_setReg_of_ne _ _ hx']

/-- Registers popped off a stack that starts with their values have these values. -/
theorem regs_popAll {f : HostReg → Long} {rest : List Long} (nodup : xs.Nodup)
    (noRsp : .rsp ∉ xs) (onStack : s.stack (xs.length + n) = xs.map f ++ rest) :
    (∀ x ∈ xs, (popAll xs s).regs x = f x) ∧ (popAll xs s).stack n = rest := by
  induction xs generalizing s with
  | nil => exact ⟨nofun, by simpa [popAll] using onStack⟩
  | cons x xs ih =>
    simp only [List.mem_cons, not_or] at noRsp
    rw [List.length_cons, Nat.add_right_comm, stack_succ, List.map_cons, List.cons_append,
      List.cons_eq_cons] at onStack
    obtain ⟨hx, below⟩ := onStack
    rw [← stack_setReg s.drop s.top (Ne.symm noRsp.1)] at below
    obtain ⟨popped, left⟩ := ih (List.nodup_cons.1 nodup).2 noRsp.2 below
    refine ⟨?_, left⟩
    intro y hy
    rcases List.mem_cons.1 hy with rfl | hy
    · rw [popAll, regs_popAll_of_not_mem (List.nodup_cons.1 nodup).1 (Ne.symm noRsp.1),
        regs_setReg_self, hx]
    · exact popped y hy

end Cpu

/-! ## Frame code -/

namespace Instr

variable {xs : List HostReg} {i : Instr Address} {rest : List (Instr Address)} {s t : Cpu}

theorem exec?_add (s : Cpu) (x : HostReg) (v : Word) :
    (arithImm .add true x v).exec? s =
      some (.next (s.setReg x (s.regs x + v.signExtend 64))) := rfl

theorem exec?_sub (s : Cpu) (x : HostReg) (v : Word) :
    (arithImm .sub true x v).exec? s =
      some (.next (s.setReg x (s.regs x - v.signExtend 64))) := rfl

theorem exec?_movReg (s : Cpu) (x y : HostReg) :
    (movReg true x y).exec? s = some (.next (s.setReg x (s.regs y))) := rfl

theorem run?_cons (h : i.exec? s = some (.next t)) : run? (i :: rest) s = run? rest t := by
  rw [run?, h]

theorem run?_return {v : Long} (h : i.exec? s = some (.returned v t)) :
    run? (i :: rest) s = some (.returned v t) := by
  rw [run?, h]

theorem run?_pushes (s : Cpu) : run? (xs.map .push ++ rest) s = run? rest (s.pushAll xs) := by
  induction xs generalizing s with
  | nil => rfl
  | cons x xs ih => exact (run?_cons rfl).trans (ih (s.push (s.regs x)))

theorem run?_pops (s : Cpu) : run? (xs.map .pop ++ rest) s = run? rest (s.popAll xs) := by
  induction xs generalizing s with
  | nil => rfl
  | cons x xs ih => exact (run?_cons rfl).trans (ih (s.drop.setReg x s.top))

end Instr

namespace Frame

/-- The words of a frame and the return address. -/
def words : Nat := (pushed + padding) / 8

/-- The state that a body starts in. -/
def entered (s : Cpu) : Cpu :=
  let saved := s.pushAll HostReg.calleeSaved
  ((saved.setReg .rsp (saved.regs .rsp - 8)).setReg .contextBase (s.regs .rdi)).setReg
    .memoryBase (s.regs .rsi)

theorem signExtend_padding : (BitVec.ofNat 32 padding).signExtend 64 = 8 := by decide

theorem run?_entry (s : Cpu) : Instr.run? entry s = some (.next (entered s)) := by
  rw [entry, Instr.run?_pushes, Instr.run?_cons (Instr.exec?_sub _ _ _),
    Instr.run?_cons (Instr.exec?_movReg _ _ _), Instr.run?_cons (Instr.exec?_movReg _ _ _),
    Instr.run?, signExtend_padding, show HostReg.callArgs[0] = .rdi from rfl,
    show HostReg.callArgs[1] = .rsi from rfl]
  -- Lowering the stack and setting the first base register leave the arguments where they are.
  rw [Cpu.regs_setReg_of_ne (x := .rsp) (y := .rdi) _ _ (by decide),
    Cpu.regs_setReg_of_ne (x := .contextBase) (y := .rsi) _ _ (by decide),
    Cpu.regs_setReg_of_ne (x := .rsp) (y := .rsi) _ _ (by decide),
    Cpu.regs_pushAll (y := .rdi) (by decide), Cpu.regs_pushAll (y := .rsi) (by decide), entered]

theorem rsp_entered (s : Cpu) : (entered s).regs .rsp = s.regs .rsp - 56 := by
  rw [entered, Cpu.regs_setReg_of_ne _ _ (by decide), Cpu.regs_setReg_of_ne _ _ (by decide),
    Cpu.regs_setReg_self, Cpu.rsp_pushAll, show HostReg.calleeSaved.length = 6 from rfl]
  bv_omega

theorem contextBase_entered (s : Cpu) : (entered s).regs .contextBase = s.regs .rdi := by
  rw [entered, Cpu.regs_setReg_of_ne _ _ (by decide), Cpu.regs_setReg_self]

theorem memoryBase_entered (s : Cpu) : (entered s).regs .memoryBase = s.regs .rsi :=
  Cpu.regs_setReg_self _ _ _

/-- Under the padding, the saved registers and the return address. -/
theorem stack_entered (s : Cpu) :
    (entered s).drop.stack 7 = HostReg.calleeSaved.reverse.map s.regs ++ [s.top] := by
  rw [← show (s.pushAll HostReg.calleeSaved).stack (6 + 1) =
      HostReg.calleeSaved.reverse.map s.regs ++ [s.top] from
    Cpu.stack_pushAll (by decide) (by decide)]
  have top : (entered s).drop.regs .rsp = (s.pushAll HostReg.calleeSaved).regs .rsp := by
    rw [Cpu.drop, Cpu.regs_setReg_self, rsp_entered, Cpu.rsp_pushAll,
      show HostReg.calleeSaved.length = 6 from rfl]
    bv_omega
  rw [Cpu.stack, Cpu.stack, top]
  exact Cpu.words_congr rfl

theorem run?_exit {u : Cpu} {f : HostReg → Long} {target : Long}
    (onStack : u.drop.stack 7 = HostReg.calleeSaved.reverse.map f ++ [target]) :
    ∃ v, Instr.run? exit u = some (.returned target v) ∧ v.regs .rsp = u.regs .rsp + 64 ∧
      ∀ x ∈ HostReg.calleeSaved, v.regs x = f x := by
  have nodup : HostReg.calleeSaved.reverse.Nodup := by decide
  have noRsp : .rsp ∉ HostReg.calleeSaved.reverse := by decide
  obtain ⟨restored, left⟩ := Cpu.regs_popAll (n := 1) nodup noRsp onStack
  have returns : (u.drop.popAll HostReg.calleeSaved.reverse).top = target := by
    rw [Cpu.stack_succ] at left
    exact (List.cons.inj left).1
  have rsp (r : Long) : r + 8 + 8 * BitVec.ofNat 64 6 + 8 = r + 64 := by bv_omega
  refine ⟨(u.drop.popAll HostReg.calleeSaved.reverse).drop, ?_, ?_, ?_⟩
  · rw [exit, Instr.run?_cons (Instr.exec?_add _ _ _), signExtend_padding, ← Cpu.drop,
      Instr.run?_pops, Instr.run?_return rfl, returns]
  · rw [Cpu.drop, Cpu.regs_setReg_self, Cpu.rsp_popAll noRsp, Cpu.drop, Cpu.regs_setReg_self,
      show HostReg.calleeSaved.reverse.length = 6 from rfl, rsp]
  · intro x hx
    have ne : x ≠ .rsp := by rintro rfl; exact absurd hx (by decide)
    rw [Cpu.drop, Cpu.regs_setReg_of_ne _ _ ne, restored x (List.mem_reverse.2 hx)]

end Frame

/-! ## Emitted code -/

namespace Assembler

variable {a a' b b' : Assembler}

/-- The bytes that `b` holds more than `a` are code for the instructions. -/
def Appended (a b : Assembler) (is : List (Instr Address)) : Prop :=
  ∃ bytes, b.buffer.contents = a.buffer.contents ++ bytes ∧
    Instr.decodeAll bytes = some (is.map (Instr.map .based))

theorem appended_emitEntry (h : a.emitEntry = .ok a') : a.Appended a' Frame.entry :=
  ⟨_, contents_emitInstrs (a := { a with entryOffset := a.buffer.offset }) h,
    Instr.decodeAll_encodeAll Frame.entry⟩

theorem appended_emitExit (h : a.emitExit = .ok a') : a.Appended a' Frame.exit :=
  ⟨_, contents_emitInstrs (a := { a with exitOffset := a.buffer.offset }) h,
    Instr.decodeAll_encodeAll Frame.exit⟩

theorem emitEntry_of_fits (h : 20 ≤ a.buffer.remaining) : ∃ a', a.emitEntry = .ok a' :=
  emitInstrs_of_fits (by rw [show (Instr.encodeAll Frame.entry).length = 20 by decide]; exact h)

theorem emitExit_of_fits (h : 15 ≤ a.buffer.remaining) : ∃ a', a.emitExit = .ok a' :=
  emitInstrs_of_fits (by rw [show (Instr.encodeAll Frame.exit).length = 15 by decide]; exact h)

/-- **The caller of a block is kept.** Entry code hands the two arguments to the body in the base
registers, on a stack aligned as calls from the body need it. A body may do anything but move the
stack pointer or change the frame: exit code then returns to the caller, with the stack pointer
past the return address and the registers that a callee saves as they were. -/
theorem caller_kept (entry : a.emitEntry = .ok a') (exit : b.emitExit = .ok b') (s : Cpu) :
    a.Appended a' Frame.entry ∧ b.Appended b' Frame.exit ∧
    ∃ t, Instr.run? Frame.entry s = some (.next t) ∧
      t.regs .r14 = s.regs .rdi ∧ t.regs .r15 = s.regs .rsi ∧
      ((s.regs .rsp).toNat % 16 = 8 → (t.regs .rsp).toNat % 16 = 0) ∧
      ∀ u : Cpu, u.regs .rsp = t.regs .rsp → u.stack Frame.words = t.stack Frame.words →
        ∃ v, Instr.run? Frame.exit u = some (.returned (s.readLong (s.regs .rsp)) v) ∧
          v.regs .rsp = s.regs .rsp + 8 ∧
          ∀ x ∈ [HostReg.rbx, .rbp, .r12, .r13, .r14, .r15], v.regs x = s.regs x := by
  refine ⟨appended_emitEntry entry, appended_emitExit exit, Frame.entered s, Frame.run?_entry s,
    Frame.contextBase_entered s, Frame.memoryBase_entered s, ?_, ?_⟩
  · intro aligned
    rw [Frame.rsp_entered]
    bv_omega
  · intro u rsp frame
    have back (r : Long) : r - 56 + 64 = r + 8 := by clear rsp frame; bv_omega
    -- The word on top is padding, which the caller has no interest in.
    have under : u.drop.stack 7 = (Frame.entered s).drop.stack 7 := by
      rw [show Frame.words = 7 + 1 from rfl, Cpu.stack_succ u,
        Cpu.stack_succ (Frame.entered s)] at frame
      exact (List.cons.inj frame).2
    obtain ⟨v, run, rsp', kept⟩ := Frame.run?_exit (under.trans (Frame.stack_entered s))
    refine ⟨v, run, ?_, kept⟩
    rw [rsp', rsp, Frame.rsp_entered, back]

end Assembler

namespace Cpu

/-- Registers hold their numbers and memory the low bytes of its addresses; there is no room for
a frame between the stack pointer and address zero. -/
def nearZero : Cpu :=
  ⟨fun x => if x = .rsp then 24 else BitVec.ofNat 64 x.number, fun b => b.setWidth 8⟩

/-- What a body may leave behind at worst: of the registers only the stack pointer, and another
word below the stack. -/
def clobbered (t : Cpu) : Cpu :=
  writeLong ⟨fun x => if x = .rsp then t.regs .rsp else 0xBAD, t.memory⟩ (t.regs .rsp - 8) 0xBAD

theorem stack_clobbered (t : Cpu) : t.clobbered.stack Frame.words = t.stack Frame.words := by
  have above (r : Long) : 8 ≤ (r - (r - 8)).toNat := by bv_omega
  have below (r : Long) : 8 * Frame.words ≤ (r - 8 - r).toNat := by
    rw [show Frame.words = 8 by decide]
    bv_omega
  rw [stack, stack, show t.clobbered.regs .rsp = t.regs .rsp from rfl, clobbered,
    words_writeLong_of_apart (above _) (below _)]
  exact words_congr rfl

end Cpu

theorem Assembler.caller_kept_near_zero :
    ∃ a a' b' : Assembler, a.emitEntry = .ok a' ∧ a.emitExit = .ok b' ∧
      ∃ t v, Instr.run? Frame.entry .nearZero = some (.next t) ∧
        Instr.run? Frame.exit t.clobbered = some (.returned 0x1F1E1D1C1B1A1918 v) ∧
        (t.regs .rsp).toNat % 16 = 0 ∧ v.regs .rsp = 32 ∧ v.regs .rbx = 3 := by
  have room : 20 ≤ (onBuffer ⟨.replicate 20 0, 0, .write⟩).buffer.remaining := by decide
  obtain ⟨a', entry⟩ := emitEntry_of_fits room
  obtain ⟨b', exit⟩ := emitExit_of_fits (Nat.le_trans (by decide) room)
  obtain ⟨-, -, t, entered, -, -, aligned, around⟩ := caller_kept entry exit .nearZero
  obtain ⟨v, returned, rsp, kept⟩ := around t.clobbered rfl t.stack_clobbered
  exact ⟨_, a', b', entry, exit, t, v, entered, returned, aligned (by decide), rsp,
    kept .rbx (by decide)⟩

end Dynarec
