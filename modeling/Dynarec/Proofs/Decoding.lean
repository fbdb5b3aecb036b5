import Dynarec.Host.Decoding

/-!
# Decoding undoes encoding

`Instr.decode_encode`: the decoder reads an encoded instruction back, whatever
bytes follow, and leaves those. `Instr.decodeAll_encodeAll` extends it to lists.
The proof follows the parts of an encoding. `Decoding.extension_head` reads the
extension byte and the opcode, `Decoding.operands_regs` and
`Decoding.operands_memory` the operand bytes; a lemma `body_…` says which reader
an opcode selects.
-/

namespace Dynarec

namespace HostReg

/-- The low three bits of the number, as a register field holds them. -/
def field (x : HostReg) : BitVec 3 := x.code.extractLsb' 0 3

/-- The bit of the number that a register field has no room for. -/
def high (x : HostReg) : Bool := 8 ≤ x.code

theorem register_high_field (x : HostReg) : Decoding.register x.high x.field = x := by
  revert x; decide

theorem setWidth_field (x : HostReg) : x.field.setWidth 8 = x.low3 := by
  revert x; decide

theorem field_eq_four_iff (x : HostReg) : x.field = 4 ↔ x.low3 = 4 := by
  revert x; decide

theorem field_eq_five_iff (x : HostReg) : x.field = 5 ↔ x.low3 = 5 := by
  revert x; decide

end HostReg

namespace Decoding

/-- An operand byte from its mode, its register field and its other field. -/
def operandByte (mode : BitVec 2) (field low : BitVec 3) : Byte := mode ++ field ++ low

theorem mode_operandByte (mode : BitVec 2) (field low : BitVec 3) :
    (operandByte mode field low).extractLsb' 6 2 = mode := by
  revert mode field low; decide +kernel

theorem field_operandByte (mode : BitVec 2) (field low : BitVec 3) :
    (operandByte mode field low).extractLsb' 3 3 = field := by
  revert mode field low; decide +kernel

theorem low_operandByte (mode : BitVec 2) (field low : BitVec 3) :
    (operandByte mode field low).extractLsb' 0 3 = low := by
  revert mode field low; decide +kernel

theorem or_eq_operandByte (mode : BitVec 2) (field low : BitVec 3) :
    mode.setWidth 8 <<< 6 ||| field.setWidth 8 <<< 3 ||| low.setWidth 8 =
      operandByte mode field low := by
  revert mode field low; decide +kernel

/-- No opcode byte looks like an extension byte, so the extension is read iff it was written. -/
theorem extension_head {o : Opcode} (ho : o.byte.extractLsb' 4 4 ≠ 4) (r rm : Byte)
    (rest : List Byte) :
    extension (o.head r rm ++ rest) = (⟨o.wide, 8 ≤ r, false, 8 ≤ rm⟩, o.byte :: rest) := by
  obtain ⟨b, wide⟩ := o
  by_cases hr : 8 ≤ r <;> by_cases hm : 8 ≤ rm <;> cases wide <;>
    simp only [Opcode.head, Opcode.extension, hr, hm, decide_true, decide_false, ↓reduceIte,
      Bool.false_eq_true]
  all_goals first | exact if_neg ho | rfl

/-! ## Operands -/

theorem operands_regs (e : Extension) (field low : BitVec 3) (rest : List Byte) :
    operands e (operandByte 3 field low :: rest) =
      some ((field, .reg (register e.rm low)), rest) := by
  simp only [operands, byte, field_operandByte, low_operandByte, mode_operandByte,
    Option.bind_eq_bind, Option.bind_some, ↓reduceIte]
  rfl

/-- The mode of the form that a displacement is written in. -/
def modeOf (a : Address) : BitVec 2 :=
  if a.disp = 0 ∧ a.base.low3 ≠ 5 then 0 else if a.disp.fitsByte then 1 else 2

theorem modeOf_ne_three (a : Address) : modeOf a ≠ 3 := by
  unfold modeOf
  split
  · decide
  · split <;> decide

theorem low3_ne_five_of_modeOf {a : Address} (h : modeOf a = 0) : a.base.low3 ≠ 5 := by
  unfold modeOf at h
  split at h
  · next hd => exact hd.2
  · split at h <;> simp at h

theorem fst_displacement (a : Address) :
    (Opcode.displacement a).1 = (modeOf a).setWidth 8 <<< 6 := by
  unfold Opcode.displacement modeOf
  split
  · rfl
  · split <;> rfl

theorem word_bytes (w : Word) (rest : List Byte) : word (w.bytes ++ rest) = some (w, rest) := by
  simp only [word, Word.bytes, List.cons_append, List.nil_append, Word.ofBytes_extract]

theorem displacement_bytes (a : Address) (rest : List Byte) :
    displacement (modeOf a) ((Opcode.displacement a).2 ++ rest) = some (a.disp, rest) := by
  unfold Opcode.displacement modeOf
  split
  · next hd => simp [displacement, hd.1]
  · split
    · next hb => simp [displacement, byte, Word.ofByte_lowByte hb]
    · simp [displacement, word_bytes]

/-- A scale byte without an index leaves the base and the displacement. -/
theorem scaled_noIndex {e : Extension} (hx : e.index = false) (mode : BitVec 2)
    (bs : List Byte) :
    scaled e mode (0x24 :: bs) =
      (displacement mode bs).map fun (d, rest) => (.based ⟨register e.rm 4, d⟩, rest) := by
  have base : (0x24 : Byte).extractLsb' 0 3 = 4 := by decide
  have index : register false ((0x24 : Byte).extractLsb' 3 3) = .rsp := by decide
  have hasBase : ¬((4 : BitVec 3) = 5 ∧ mode = 0) := by simp
  simp only [scaled, byte, Option.bind_eq_bind, Option.bind_some, hx, base, index, hasBase,
    ↓reduceIte, not_false_eq_true, and_self]
  cases displacement mode bs <;> rfl

theorem memory_bytes {e : Extension} {a : Address} (hx : e.index = false)
    (hb : e.rm = a.base.high) (rest : List Byte) :
    memory e (modeOf a) a.base.field
        ((if a.base.low3 = 4 then [0x24] else []) ++ (Opcode.displacement a).2 ++ rest) =
      some (.based a, rest) := by
  have base : register e.rm a.base.field = a.base := by rw [hb, HostReg.register_high_field]
  unfold memory
  by_cases h4 : a.base.field = 4
  · rw [if_pos h4, if_pos (a.base.field_eq_four_iff.1 h4), List.append_assoc, List.singleton_append,
      scaled_noIndex hx, displacement_bytes, ← h4, base]
    rfl
  · have ripFree : ¬(a.base.field = 5 ∧ modeOf a = 0) := fun h =>
      low3_ne_five_of_modeOf h.2 (a.base.field_eq_five_iff.1 h.1)
    rw [if_neg h4, if_neg ripFree, if_neg (mt a.base.field_eq_four_iff.2 h4), List.nil_append,
      displacement_bytes, base]
    rfl

theorem operands_memory {e : Extension} {a : Address} (hx : e.index = false)
    (hb : e.rm = a.base.high) (field : BitVec 3) (rest : List Byte) :
    operands e (Opcode.memory (field.setWidth 8) a ++ rest) =
      some ((field, .mem (.based a)), rest) := by
  have bytes : Opcode.memory (field.setWidth 8) a =
      operandByte (modeOf a) field a.base.field ::
        ((if a.base.low3 = 4 then [0x24] else []) ++ (Opcode.displacement a).2) := by
    rw [← or_eq_operandByte, ← fst_displacement, HostReg.setWidth_field]
    simp only [Opcode.memory]
    by_cases h4 : a.base.low3 = 4
    · rw [if_pos h4, if_pos h4, h4]; rfl
    · rw [if_neg h4, if_neg h4]; rfl
  rw [bytes, List.cons_append]
  simp only [operands, byte, field_operandByte, low_operandByte, mode_operandByte,
    Option.bind_eq_bind, Option.bind_some, modeOf_ne_three, ↓reduceIte, memory_bytes hx hb]
  rfl

end Decoding

/-! ## Instructions -/

namespace Opcode

theorem onReg_eq (o : Opcode) (field : BitVec 3) (x : HostReg) :
    o.onReg (field.setWidth 8) x =
      o.head (field.setWidth 8) x.code ++ [Decoding.operandByte 3 field x.field] := by
  rw [onReg, ← Decoding.or_eq_operandByte, HostReg.setWidth_field]
  rfl

theorem onRegs_eq (o : Opcode) (x y : HostReg) :
    o.onRegs x y = o.head x.code y.code ++ [Decoding.operandByte 3 x.field y.field] := by
  rw [onRegs, ← Decoding.or_eq_operandByte, HostReg.setWidth_field, HostReg.setWidth_field]
  rfl

end Opcode

namespace ArithOp

/-- The code as a register field holds it. -/
def field (op : ArithOp) : BitVec 3 := op.code.extractLsb' 0 3

theorem setWidth_field (op : ArithOp) : op.field.setWidth 8 = op.code := by
  cases op <;> rfl

theorem ofNumber?_field (op : ArithOp) : ofNumber? op.field.toNat = some op := by
  cases op <;> rfl

end ArithOp

namespace Instr

open Decoding

theorem decode_head {o : Opcode} (ho : o.byte.extractLsb' 4 4 ≠ 4) (r rm : Byte)
    (rest : List Byte) :
    decode (o.head r rm ++ rest) = body ⟨o.wide, 8 ≤ r, false, 8 ≤ rm⟩ (o.byte :: rest) := by
  simp only [decode, extension_head ho]

theorem decode_onReg {o : Opcode} (ho : o.byte.extractLsb' 4 4 ≠ 4) (field : BitVec 3)
    (x : HostReg) (rest : List Byte) :
    decode (o.onReg (field.setWidth 8) x ++ rest) =
      body ⟨o.wide, false, false, x.high⟩ (o.byte :: operandByte 3 field x.field :: rest) := by
  have low : decide (8 ≤ (field.setWidth 8 : Byte)) = false := by
    revert field; decide
  rw [Opcode.onReg_eq, List.append_assoc, decode_head ho, low]
  rfl

theorem body_arithByte (e : Extension) (bs : List Byte) :
    body e (0x83 :: bs) = arith e signedByte bs := rfl

theorem body_arithWord (e : Extension) (bs : List Byte) :
    body e (0x81 :: bs) = arith e word bs := rfl

theorem body_movToRm (e : Extension) (bs : List Byte) : body e (0x89 :: bs) = moveToRm e bs := rfl

theorem body_movFromRm (e : Extension) (bs : List Byte) :
    body e (0x8B :: bs) = moveFromRm e bs := rfl

theorem body_movImmToRm (e : Extension) (bs : List Byte) : body e (0xC7 :: bs) = moveImm e bs := rfl

theorem body_movImm {e : Extension} (x : HostReg) (hw : e.wide = false) (bs : List Byte) :
    body e ((Opcode.movImm x).byte :: bs) =
      (word bs).map fun (v, rest) => (.movImm (register e.rm x.field) v, rest) := by
  obtain ⟨wide, _, _, _⟩ := e
  subst hw
  cases x <;> rfl

theorem body_push (e : Extension) (x : HostReg) (bs : List Byte) :
    body e ((Opcode.push x).byte :: bs) = some (.push (register e.rm x.field), bs) := by
  cases x <;> rfl

theorem body_pop (e : Extension) (x : HostReg) (bs : List Byte) :
    body e ((Opcode.pop x).byte :: bs) = some (.pop (register e.rm x.field), bs) := by
  cases x <;> rfl

theorem arith_of_operands {e : Extension} {imm : Reader Word} {op : ArithOp} {x : HostReg}
    {v : Word} {bs bs' rest : List Byte} (ho : operands e bs = some ((op.field, .reg x), bs'))
    (hv : imm bs' = some (v, rest)) :
    arith e imm bs = some (.arithImm op e.wide x v, rest) := by
  simp only [arith, ho, op.ofNumber?_field, hv, Option.bind_eq_bind, Option.bind_some]
  rfl

theorem moveToRm_of_operands {e : Extension} {field : BitVec 3} {rm : Rm} {bs rest : List Byte}
    (ho : operands e bs = some ((field, rm), rest)) :
    moveToRm e bs = some (match rm with
      | .reg x => .movReg e.wide x (register e.field field)
      | .mem m => .store e.wide m (register e.field field), rest) := by
  simp only [moveToRm, ho, Option.bind_eq_bind, Option.bind_some]
  cases rm <;> rfl

theorem moveFromRm_of_operands {e : Extension} {field : BitVec 3} {m : MemRef}
    {bs rest : List Byte} (ho : operands e bs = some ((field, .mem m), rest)) :
    moveFromRm e bs = some (.load e.wide (register e.field field) m, rest) := by
  simp only [moveFromRm, ho, Option.bind_eq_bind, Option.bind_some]
  rfl

theorem moveImm_of_operands {e : Extension} {m : MemRef} {v : Word} {bs bs' rest : List Byte}
    (hw : e.wide = false) (ho : operands e bs = some ((0, .mem m), bs'))
    (hv : word bs' = some (v, rest)) :
    moveImm e bs = some (.storeImm m v, rest) := by
  simp only [moveImm, ho, hv, hw, Option.bind_eq_bind, Option.bind_some]
  rfl

theorem decode_arith (op : ArithOp) (wide : Bool) (dst : HostReg) (imm : Word)
    (rest : List Byte) :
    decode ((arithImm op wide dst imm).encode ++ rest) = some (arithImm op wide dst imm, rest) := by
  have reg : register dst.high dst.field = dst := dst.register_high_field
  simp only [encode, ← op.setWidth_field]
  split
  · next hb =>
    have hv : signedByte ([imm.lowByte] ++ rest) = some (imm, rest) := by
      simp only [signedByte, List.singleton_append, byte, Option.map_some, Word.ofByte_lowByte hb]
    rw [List.append_assoc, decode_onReg (by cases wide <;> decide)]
    refine (body_arithByte _ _).trans ?_
    rw [arith_of_operands (operands_regs _ _ _ _) hv, reg]
    rfl
  · rw [List.append_assoc, decode_onReg (by cases wide <;> decide)]
    refine (body_arithWord _ _).trans ?_
    rw [arith_of_operands (operands_regs _ _ _ _) (word_bytes imm rest), reg]
    rfl

theorem decode_onMem {o : Opcode} (ho : o.byte.extractLsb' 4 4 ≠ 4) (x : HostReg) (a : Address)
    (rest : List Byte) :
    ∃ bs, decode (o.onMem x a ++ rest) = body ⟨o.wide, x.high, false, a.base.high⟩ (o.byte :: bs) ∧
      operands ⟨o.wide, x.high, false, a.base.high⟩ bs =
        some ((x.field, .mem (.based a)), rest) := by
  refine ⟨Opcode.memory x.low3 a ++ rest, ?_, ?_⟩
  · rw [Opcode.onMem, List.append_assoc, decode_head ho]
    rfl
  · rw [← x.setWidth_field]
    exact operands_memory rfl rfl x.field rest

theorem decode_load (wide : Bool) (dst : HostReg) (a : Address) (rest : List Byte) :
    decode ((load wide dst a).encode ++ rest) = some (load wide dst (.based a), rest) := by
  obtain ⟨bs, hd, ho⟩ := decode_onMem (o := .movFromRm wide) (by cases wide <;> decide) dst a rest
  rw [encode, hd]
  refine (body_movFromRm _ _).trans ?_
  rw [moveFromRm_of_operands ho, dst.register_high_field]
  rfl

theorem decode_store (wide : Bool) (a : Address) (src : HostReg) (rest : List Byte) :
    decode ((store wide a src).encode ++ rest) = some (store wide (.based a) src, rest) := by
  obtain ⟨bs, hd, ho⟩ := decode_onMem (o := .movToRm wide) (by cases wide <;> decide) src a rest
  rw [encode, hd]
  refine (body_movToRm _ _).trans ?_
  rw [moveToRm_of_operands ho]
  simp only [src.register_high_field]
  rfl

theorem decode_movReg (wide : Bool) (dst src : HostReg) (rest : List Byte) :
    decode ((movReg wide dst src : Instr Address).encode ++ rest) =
      some (movReg wide dst src, rest) := by
  have ho := operands_regs ⟨wide, src.high, false, dst.high⟩ src.field dst.field rest
  rw [encode, Opcode.onRegs_eq, List.append_assoc, decode_head (by cases wide <;> decide)]
  refine (body_movToRm _ _).trans ?_
  refine (moveToRm_of_operands ho).trans ?_
  simp only [src.register_high_field, dst.register_high_field]

theorem decode_storeImm (a : Address) (imm : Word) (rest : List Byte) :
    decode ((storeImm a imm).encode ++ rest) = some (storeImm (.based a) imm, rest) := by
  have ho := operands_memory (e := ⟨false, false, false, a.base.high⟩) (a := a) rfl rfl 0
    (imm.bytes ++ rest)
  rw [encode, Opcode.groupOnMem, List.append_assoc, List.append_assoc, decode_head (by decide)]
  refine (body_movImmToRm _ _).trans ?_
  exact moveImm_of_operands rfl ho (word_bytes imm rest)

theorem decode_movImm (dst : HostReg) (imm : Word) (rest : List Byte) :
    decode ((movImm dst imm : Instr Address).encode ++ rest) = some (movImm dst imm, rest) := by
  rw [encode, List.append_assoc, decode_head (by cases dst <;> decide), body_movImm _ rfl,
    word_bytes, Option.map_some]
  simp only [show register (8 ≤ dst.code) dst.field = dst from dst.register_high_field]

theorem decode_push (src : HostReg) (rest : List Byte) :
    decode ((push src : Instr Address).encode ++ rest) = some (push src, rest) := by
  rw [encode, decode_head (by cases src <;> decide), body_push,
    show register (8 ≤ src.code) src.field = src from src.register_high_field]

theorem decode_pop (dst : HostReg) (rest : List Byte) :
    decode ((pop dst : Instr Address).encode ++ rest) = some (pop dst, rest) := by
  rw [encode, decode_head (by cases dst <;> decide), body_pop,
    show register (8 ≤ dst.code) dst.field = dst from dst.register_high_field]

theorem decode_ret (rest : List Byte) :
    decode ((ret : Instr Address).encode ++ rest) = some (ret, rest) := by
  rw [encode, decode_head (by decide)]
  rfl

/-- **One instruction.** Decoding reads back the encoded instruction and leaves what follows. -/
theorem decode_encode (i : Instr Address) (rest : List Byte) :
    decode (i.encode ++ rest) = some (i.map .based, rest) := by
  cases i with
  | arithImm op wide dst imm => exact decode_arith op wide dst imm rest
  | movReg wide dst src => exact decode_movReg wide dst src rest
  | movImm dst imm => exact decode_movImm dst imm rest
  | load wide dst src => exact decode_load wide dst src rest
  | store wide dst src => exact decode_store wide dst src rest
  | storeImm dst imm => exact decode_storeImm dst imm rest
  | push src => exact decode_push src rest
  | pop dst => exact decode_pop dst rest
  | ret => exact decode_ret rest

theorem encode_ne_nil (i : Instr Address) : i.encode ≠ [] := by
  intro h
  have hd := decode_encode i []
  rw [h] at hd
  cases hd

theorem decodeAll_encodeAll (is : List (Instr Address)) :
    decodeAll (encodeAll is) = some (is.map (Instr.map .based)) := by
  induction is with
  | nil => rw [decodeAll]; rfl
  | cons i is ih =>
    have hne := encode_ne_nil i
    have hpos := List.length_pos_iff.2 hne
    rw [encodeAll, List.flatMap_cons, ← encodeAll, decodeAll, if_neg (by simp [hne]), decode_encode]
    simp only [List.length_append]
    rw [if_pos (by omega), ih]
    rfl

end Instr

end Dynarec
