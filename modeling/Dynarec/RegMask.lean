import Dynarec.Word

/-!
# Register masks

`RegMask` is a set of register numbers below 64, one bit each. It records which
registers an instruction reads and writes and which host registers are reserved.
A number of 64 or more names no bit: `insert?`, `erase?`, `contains?` and
`ofList?` refuse it. `first?`, `count` and `toList` work on the bits (trailing
zeros, population count, clearing the lowest bit); membership is `has`.
-/

namespace Dynarec

structure RegMask where
  bits : BitVec 64
  deriving DecidableEq

namespace RegMask

def empty : RegMask := ⟨0⟩

instance : EmptyCollection RegMask := ⟨empty⟩

instance : Inhabited RegMask := ⟨empty⟩

/-- Membership; a number of 64 or more is in no mask. -/
def has (m : RegMask) (r : Nat) : Bool := m.bits.getLsbD r

instance : Membership Nat RegMask := ⟨fun m r => m.has r = true⟩

def isEmpty (m : RegMask) : Bool := m.bits == 0

/-! ## One register -/

def bit? (r : Nat) : Option (BitVec 64) := if r < 64 then some (1#64 <<< r) else none

def insert? (m : RegMask) (r : Nat) : Option RegMask := (bit? r).map fun b => ⟨m.bits ||| b⟩

def erase? (m : RegMask) (r : Nat) : Option RegMask := (bit? r).map fun b => ⟨m.bits &&& ~~~b⟩

def contains? (m : RegMask) (r : Nat) : Option Bool := (bit? r).map fun b => (m.bits &&& b) != 0

/-- The set of the listed registers, in whatever order and however often they are listed. -/
def ofList? (rs : List Nat) : Option RegMask := rs.foldlM insert? empty

/-! ## Two masks -/

def union (m n : RegMask) : RegMask := ⟨m.bits ||| n.bits⟩

def inter (m n : RegMask) : RegMask := ⟨m.bits &&& n.bits⟩

def diff (m n : RegMask) : RegMask := ⟨m.bits &&& ~~~n.bits⟩

instance : Union RegMask := ⟨union⟩

instance : Inter RegMask := ⟨inter⟩

instance : SDiff RegMask := ⟨diff⟩

/-! ## The members -/

def count (m : RegMask) : Nat := m.bits.cpop.toNat

/-- The lowest member. -/
def first? (m : RegMask) : Option Nat := if m.isEmpty then none else some m.bits.ctz.toNat

/-- The mask without its lowest member. -/
def dropFirst (m : RegMask) : RegMask := ⟨m.bits &&& (m.bits - 1)⟩

theorem dropFirst_lt {m : RegMask} (h : m.isEmpty = false) :
    m.dropFirst.bits.toNat < m.bits.toNat := by
  have hne : m.bits ≠ 0#64 := by simpa [isEmpty] using h
  have hpos : 0 < m.bits.toNat :=
    Nat.pos_of_ne_zero fun h0 => hne (BitVec.eq_of_toNat_eq (by simpa using h0))
  have hle : (m.bits &&& (m.bits - 1#64)).toNat ≤ (m.bits - 1#64).toNat := by
    rw [BitVec.toNat_and]; exact Nat.and_le_right
  have hsub : (m.bits - 1#64).toNat = m.bits.toNat - 1 := by
    have := m.bits.isLt
    rw [BitVec.toNat_sub]
    simp only [BitVec.toNat_ofNat]
    omega
  show (m.bits &&& (m.bits - 1#64)).toNat < m.bits.toNat
  omega

/-- The members in ascending order. -/
def toList (m : RegMask) : List Nat :=
  if _h : m.isEmpty = true then []
  else m.bits.ctz.toNat :: m.dropFirst.toList
termination_by m.bits.toNat
decreasing_by exact dropFirst_lt (by simpa using _h)

/-! ## Text -/

def hex (m : RegMask) : String := "0x" ++ hexDigits 16 m.bits.toNat

def text (m : RegMask) : String := s!"RegSet({m.hex})"

/-! ## Membership -/

theorem bit_ne_zero {r : Nat} (h : r < 64) : 1#64 <<< r ≠ 0#64 := by
  intro zero
  have := congrArg (fun b => b.getLsbD r) zero
  simp [h] at this

/-- Testing a bit is membership, for a number that has a bit. -/
theorem contains?_of_lt (m : RegMask) {r : Nat} (h : r < 64) :
    m.contains? r = some (m.has r) := by
  have bit : (m.bits &&& 1#64 <<< r) = if m.bits.getLsbD r then 1#64 <<< r else 0#64 :=
    BitVec.and_twoPow m.bits r
  rw [contains?, bit?, if_pos h, Option.map_some, bit, has]
  cases m.bits.getLsbD r with
  | true => simp [bit_ne_zero h]
  | false => rfl

theorem contains?_of_ge (m : RegMask) {r : Nat} (h : 64 ≤ r) : m.contains? r = none := by
  rw [contains?, bit?, if_neg (Nat.not_lt.2 h), Option.map_none]

theorem lt_of_has {m : RegMask} {r : Nat} (h : m.has r = true) : r < 64 := by
  rcases Nat.lt_or_ge r 64 with hr | hr
  · exact hr
  · rw [has, BitVec.getLsbD_of_ge _ _ hr] at h
    exact absurd h (by decide)

theorem contains?_iff {m : RegMask} {r : Nat} : m.contains? r = some true ↔ m.has r = true := by
  rcases Nat.lt_or_ge r 64 with lt | ge
  · rw [contains?_of_lt m lt, Option.some.injEq]
  · rw [contains?_of_ge m ge]
    exact iff_of_false nofun fun h => Nat.not_lt.2 ge (lt_of_has h)

/-! ## Membership after an operation -/

theorem has_empty (r : Nat) : (empty : RegMask).has r = false := by simp [empty, has]

theorem has_union (m n : RegMask) (r : Nat) : (m ∪ n).has r = (m.has r || n.has r) :=
  BitVec.getLsbD_or ..

theorem has_inter (m n : RegMask) (r : Nat) : (m ∩ n).has r = (m.has r && n.has r) :=
  BitVec.getLsbD_and ..

theorem has_diff (m n : RegMask) (r : Nat) : (m \ n).has r = (m.has r && !n.has r) := by
  have bit : (m \ n).has r = (m.has r && (decide (r < 64) && !n.has r)) := by
    show (m.bits &&& ~~~n.bits).getLsbD r = _
    rw [BitVec.getLsbD_and, BitVec.getLsbD_not]
    rfl
  rw [bit]
  cases h : m.has r with
  | true => simp [lt_of_has h]
  | false => rfl

end RegMask

end Dynarec
