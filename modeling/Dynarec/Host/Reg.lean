import Dynarec.RegMask

/-!
# Host registers

The sixteen general-purpose registers of x86-64 with their instruction-field
numbers, and the parts they play in generated code: `contextBase` points into
the guest context, `memoryBase` at guest memory, `allocationOrder` lists the
registers that hold guest values, `calleeSaved` those that a block restores for
its caller, `callArgs` those that carry its arguments. The last three are those of
the System V convention; another one would need lists of its own.
-/

namespace Dynarec

inductive HostReg where
  | rax | rcx | rdx | rbx | rsp | rbp | rsi | rdi
  | r8 | r9 | r10 | r11 | r12 | r13 | r14 | r15
  deriving DecidableEq

namespace HostReg

def index : HostReg → Fin 16
  | rax => 0 | rcx => 1 | rdx => 2 | rbx => 3 | rsp => 4 | rbp => 5 | rsi => 6 | rdi => 7
  | r8 => 8 | r9 => 9 | r10 => 10 | r11 => 11 | r12 => 12 | r13 => 13 | r14 => 14 | r15 => 15

/-- Every host register, in the order of the numbers. -/
def all : List HostReg :=
  [rax, rcx, rdx, rbx, rsp, rbp, rsi, rdi, r8, r9, r10, r11, r12, r13, r14, r15]

def ofIndex (i : Fin 16) : HostReg := all[i]

def number (x : HostReg) : Nat := x.index

def ofNumber? (n : Nat) : Option HostReg := if h : n < 16 then some (ofIndex ⟨n, h⟩) else none

/-- The number as an instruction byte, of which only the low four bits are set. -/
def code (x : HostReg) : Byte := BitVec.ofNat 8 x.index

/-- The part of the number that fits an instruction's register field. -/
def low3 (x : HostReg) : Byte := x.code &&& 7

instance : Inhabited HostReg := ⟨rax⟩

@[simp] theorem ofIndex_index (x : HostReg) : ofIndex x.index = x := by cases x <;> rfl

theorem number_lt (x : HostReg) : x.number < 16 := x.index.isLt

theorem number_inj {x y : HostReg} (h : x.number = y.number) : x = y := by
  rw [← ofIndex_index x, Fin.ext h, ofIndex_index]

theorem mem_all (x : HostReg) : x ∈ all := by cases x <;> decide

instance {p : HostReg → Prop} [DecidablePred p] : Decidable (∀ x, p x) :=
  decidable_of_iff (∀ x ∈ all, p x) ⟨fun h x => h x (mem_all x), fun h x _ => h x⟩

/-! ## Names -/

def name : HostReg → String
  | rax => "rax" | rcx => "rcx" | rdx => "rdx" | rbx => "rbx"
  | rsp => "rsp" | rbp => "rbp" | rsi => "rsi" | rdi => "rdi"
  | r8 => "r8" | r9 => "r9" | r10 => "r10" | r11 => "r11"
  | r12 => "r12" | r13 => "r13" | r14 => "r14" | r15 => "r15"

instance : ToString HostReg := ⟨name⟩

/-- The name as operands and moves are shown. -/
def title (x : HostReg) : String := x.name.capitalize

/-! ## Parts played in generated code -/

/-- Points `Context.bias` bytes into the guest context. -/
def contextBase : HostReg := r14

/-- Points at the first byte of guest memory. -/
def memoryBase : HostReg := r15

/-- The registers that hold guest values, first choice first. The registers that carry helper-call
arguments are not among them; `r12` needs a longer encoding as a base and goes last. -/
def allocationOrder : List HostReg := [rbp, r13, r8, r9, r10, r11, r12]

def calleeSaved : List HostReg := [rbx, rbp, r12, r13, r14, r15]

def callArgs : List HostReg := [rdi, rsi, rdx, rcx, r8, r9]

/-- The registers that never hold a guest value. -/
def reserved : RegMask :=
  ⟨1#64 <<< rsp.number ||| 1#64 <<< contextBase.number ||| 1#64 <<< memoryBase.number⟩

/-- Position in the allocation order. -/
def allocationRank? (x : HostReg) : Option Nat := allocationOrder.idxOf? x

theorem nodup_allocationOrder : allocationOrder.Nodup := by decide

end HostReg

end Dynarec
