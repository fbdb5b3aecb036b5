import Dynarec.Word

/-!
# Guest registers

The guest has 32 general-purpose registers, numbered by their instruction
fields, followed by the multiply results `hi` and `lo`, the floating-point
condition and the vector condition code. `GuestReg` is one of these 36;
`ofNumber?` refuses every other number. `zero` is hardwired to 0.
-/

namespace Dynarec

/-- How many guest registers the register block holds. -/
def guestRegCount : Nat := 36

structure GuestReg where
  index : Fin 36
  deriving DecidableEq

namespace GuestReg

def zero : GuestReg := ⟨0⟩

def hi : GuestReg := ⟨32⟩

def lo : GuestReg := ⟨33⟩

def fpcond : GuestReg := ⟨34⟩

def vfpucc : GuestReg := ⟨35⟩

def number (g : GuestReg) : Nat := g.index

def ofNumber? (n : Nat) : Option GuestReg := if h : n < 36 then some ⟨⟨n, h⟩⟩ else none

/-- The general-purpose register that the low five bits of an instruction field name. -/
def ofField (field : Word) : GuestReg :=
  ⟨⟨(field.setWidth 5).toNat, Nat.lt_trans (field.setWidth 5).isLt (by decide)⟩⟩

def isGpr (g : GuestReg) : Bool := g.number < 32

def isZero (g : GuestReg) : Bool := g.number == 0

/-- Every guest register in table order. -/
def all : List GuestReg := (List.finRange 36).map mk

instance : Inhabited GuestReg := ⟨zero⟩

@[ext] theorem ext_number {g h : GuestReg} (e : g.number = h.number) : g = h := by
  cases g; cases h; exact congrArg mk (Fin.ext e)

theorem number_lt (g : GuestReg) : g.number < 36 := g.index.isLt

theorem mem_all (g : GuestReg) : g ∈ all := List.mem_map.2 ⟨g.index, List.mem_finRange _, rfl⟩

theorem length_all : all.length = guestRegCount := by simp [all, guestRegCount]

theorem isZero_iff {g : GuestReg} : g.isZero = true ↔ g = zero := by
  rw [isZero, beq_iff_eq]
  exact ⟨fun h => ext_number h, fun h => h ▸ rfl⟩

theorem ofNumber?_number (g : GuestReg) : ofNumber? g.number = some g := by
  simp [ofNumber?, number]

instance {p : GuestReg → Prop} [DecidablePred p] : Decidable (∀ g, p g) :=
  decidable_of_iff (∀ i : Fin 36, p ⟨i⟩) ⟨fun h g => h g.index, fun h i => h ⟨i⟩⟩

/-! ## Names -/

def names : Vector String 36 :=
  #v["zero", "at", "v0", "v1", "a0", "a1", "a2", "a3", "t0", "t1", "t2", "t3", "t4", "t5", "t6",
    "t7", "s0", "s1", "s2", "s3", "s4", "s5", "s6", "s7", "t8", "t9", "k0", "k1", "gp", "sp", "fp",
    "ra", "hi", "lo", "fpcond", "vfpucc"]

def name (g : GuestReg) : String := getElem names g.number g.number_lt

instance : ToString GuestReg := ⟨name⟩

/-- The name marked as a guest register's, for places where a bare name would be ambiguous. -/
def text (g : GuestReg) : String := s!"GuestReg({g.name})"

end GuestReg

end Dynarec
