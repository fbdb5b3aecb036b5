/-!
# Machine words

`Word` is the 32-bit word that guest registers hold and `Byte` the unit of
generated code and of the guest context. Both machines are little-endian:
`Word.bytes` lists a word's bytes least significant first and `Word.ofBytes`
reads them back. `Word.fitsByte` tells a displacement or immediate that a
sign-extended byte can carry.
-/

namespace Dynarec

abbrev Byte := BitVec 8

abbrev Word := BitVec 32

/-! ## Bytes of a word -/

namespace Word

def bytes (w : Word) : List Byte :=
  [w.extractLsb' 0 8, w.extractLsb' 8 8, w.extractLsb' 16 8, w.extractLsb' 24 8]

def ofBytes (b₀ b₁ b₂ b₃ : Byte) : Word := b₃ ++ b₂ ++ b₁ ++ b₀

@[simp] theorem length_bytes (w : Word) : w.bytes.length = 4 := rfl

theorem ofBytes_extract (w : Word) :
    ofBytes (w.extractLsb' 0 8) (w.extractLsb' 8 8) (w.extractLsb' 16 8) (w.extractLsb' 24 8)
      = w := by
  apply BitVec.eq_of_getLsbD_eq
  intro i hi
  simp only [ofBytes, BitVec.getLsbD_append, BitVec.getLsbD_extractLsb']
  by_cases h₀ : i < 8
  · simp [h₀]
  by_cases h₁ : i - 8 < 8
  · simp [h₀, h₁, show 8 + (i - 8) = i by omega]
  by_cases h₂ : i - 8 - 8 < 8
  · simp [h₀, h₁, h₂, show 16 + (i - 8 - 8) = i by omega]
  · simp [h₀, h₁, h₂, show i - 8 - 8 - 8 < 8 by omega, show 24 + (i - 8 - 8 - 8) = i by omega]

/-- The bytes of a 64-bit word, low half first. -/
def longBytes (w : BitVec 64) : List Byte :=
  bytes (w.extractLsb' 0 32) ++ bytes (w.extractLsb' 32 32)

/-! ## Sign-extended bytes -/

/-- The signed value of the word lies in `[-128, 127]`. -/
def fitsByte (w : Word) : Bool := -128 ≤ w.toInt && w.toInt ≤ 127

def ofByte (b : Byte) : Word := b.signExtend 32

def lowByte (w : Word) : Byte := w.setWidth 8

theorem ofByte_lowByte {w : Word} (h : w.fitsByte = true) : ofByte w.lowByte = w := by
  simp only [fitsByte, Bool.and_eq_true, decide_eq_true_eq] at h
  apply BitVec.eq_of_toInt_eq
  rw [ofByte, lowByte, BitVec.toInt_signExtend_of_le (by decide), BitVec.toInt_setWidth]
  have hw : w.toInt = (w.toNat : Int).bmod (2 ^ 32) := BitVec.toInt_eq_toNat_bmod w
  rw [hw] at h ⊢
  have := w.isLt
  simp only [Int.bmod] at h ⊢
  omega

end Word

/-! ## Hexadecimal text -/

/-- Lower-case hexadecimal digits of `n`, padded with zeros to at least `width` of them. -/
def hexDigits (width n : Nat) : String :=
  let digits := Nat.toDigits 16 n
  String.ofList (List.replicate (width - digits.length) '0' ++ digits)

def Word.hex (w : Word) : String := "0x" ++ hexDigits 8 w.toNat

/-- Two digits for each byte, with nothing between them. -/
def hexOfBytes (bs : List Byte) : String := String.join (bs.map fun b => hexDigits 2 b.toNat)

end Dynarec
