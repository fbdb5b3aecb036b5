import Dynarec.Guest.Reg

/-!
# The guest context

`Context` is the processor state that the interpreter reads by field, with
`get` and `set` for the 36 guest registers. Generated code sees the same state
as memory: `Context.image` lays the fields out as consecutive little-endian
words, and `load?` and `store?` access the word at a displacement from the
context register. That register points `Context.bias` bytes past the first
byte, which puts every guest register within a signed byte of it;
`GuestReg.displacement` says where.
-/

namespace Dynarec

structure Context where
  gprs : Vector Word 32
  hi : Word
  lo : Word
  fpcond : Word
  vfpucc : Word
  pc : Word
  downcount : Word
  deriving DecidableEq

namespace Context

/-- Every field zero. -/
def fresh : Context := ⟨.replicate 32 0, 0, 0, 0, 0, 0, 0⟩

instance : Inhabited Context := ⟨fresh⟩

/-! ## By field -/

def get (c : Context) (g : GuestReg) : Word :=
  if h : g.number < 32 then c.gprs[g.number]
  else if g = .hi then c.hi
  else if g = .lo then c.lo
  else if g = .fpcond then c.fpcond
  else c.vfpucc

def set (c : Context) (g : GuestReg) (v : Word) : Context :=
  if h : g.number < 32 then { c with gprs := c.gprs.set g.number v }
  else if g = .hi then { c with hi := v }
  else if g = .lo then { c with lo := v }
  else if g = .fpcond then { c with fpcond := v }
  else { c with vfpucc := v }

/-- The general-purpose registers that are not zero, with their values, in ascending order. -/
def nonzeroGprs (c : Context) : List (Nat × Word) :=
  c.gprs.toList.zipIdx.filterMap fun (v, i) => if v = 0 then none else some (i, v)

/-! ## As memory -/

/-- The fields in the order of their addresses. -/
def words (c : Context) : List Word :=
  c.gprs.toList ++ [c.hi, c.lo, c.fpcond, c.vfpucc, c.pc, c.downcount]

def image (c : Context) : List Byte := c.words.flatMap Word.bytes

/-- Size of the image in bytes. -/
def size : Nat := 152

/-- The word whose first byte is at `a`. -/
def wordAt (image : List Byte) (a : Nat) : Word :=
  match image.drop a with
  | b₀ :: b₁ :: b₂ :: b₃ :: _ => Word.ofBytes b₀ b₁ b₂ b₃
  | _ => 0

def ofImage (image : List Byte) : Context where
  gprs := .ofFn fun i => wordAt image (4 * i)
  hi := wordAt image 128
  lo := wordAt image 132
  fpcond := wordAt image 136
  vfpucc := wordAt image 140
  pc := wordAt image 144
  downcount := wordAt image 148

/-- Distance of the context register from the first byte of the image. -/
def bias : Nat := 128

/-- The image address that a displacement reaches, if an aligned word of the image is there. -/
def address? (disp : Word) : Option Nat :=
  let a := (bias : Int) + disp.toInt
  if 0 ≤ a ∧ a + 4 ≤ size ∧ a % 4 = 0 then some a.toNat else none

def overwrite (image : List Byte) (a : Nat) (new : List Byte) : List Byte :=
  image.take a ++ new ++ image.drop (a + new.length)

def load? (c : Context) (disp : Word) : Option Word :=
  (address? disp).map (wordAt c.image)

def store? (c : Context) (disp v : Word) : Option Context :=
  (address? disp).map fun a => ofImage (overwrite c.image a v.bytes)

end Context

namespace GuestReg

/-- Image address of the register's word. -/
def offset (g : GuestReg) : Nat :=
  if g = .hi then 128
  else if g = .lo then 132
  else if g = .fpcond then 136
  else if g = .vfpucc then 140
  else 4 * g.number

/-- The special registers follow the general-purpose ones in the order of their numbers. -/
theorem offset_eq (g : GuestReg) : g.offset = 4 * g.number := by
  revert g; decide

/-- Distance of the register's word from the context register. -/
def displacement (g : GuestReg) : Word :=
  BitVec.ofNat 32 g.offset - BitVec.ofNat 32 Context.bias

theorem displacement_inj : ∀ {g h : GuestReg}, g.displacement = h.displacement → g = h := by
  suffices H : ∀ i j : Fin 36, (⟨i⟩ : GuestReg).displacement = (⟨j⟩ : GuestReg).displacement →
      i = j from fun {g h} e => congrArg GuestReg.mk (H g.index h.index e)
  decide

theorem address?_displacement (g : GuestReg) :
    Context.address? g.displacement = some g.offset := by
  revert g; decide

end GuestReg

end Dynarec
