import Dynarec.Word

/-!
# The code buffer

A `CodeBuffer` is a block of pages that generated code is appended to. Its
memory keeps what was written there; `contents` is the part before the write
offset. `allocate` rounds the size up to whole pages in 64-bit arithmetic and
leaves the decision to grant them to its caller, `emit` appends all of its bytes or
none, `truncate` moves the write offset back.
-/

namespace Dynarec

inductive CodeError where
  /-- The bytes do not fit behind the write offset. -/
  | full
  /-- The write offset was to be moved forward. -/
  | truncatedAhead
  /-- The offset lies outside the buffer. -/
  | outside
  /-- The rounded size does not fit 64 bits. -/
  | sizeOverflow
  /-- The pages were refused. -/
  | outOfMemory
  deriving DecidableEq

def CodeError.message : CodeError → String
  | full => "code buffer overflow"
  | truncatedAhead => "truncate past write offset"
  | outside => "assertion failed: offset <= self.size"
  | sizeOverflow => "size out of range"
  | outOfMemory => "out of memory"

/-- What the pages of a buffer permit: never writing and running at once. -/
inductive PageAccess where
  | write
  | execute
  deriving DecidableEq

structure CodeBuffer where
  memory : Array Byte
  offset : Nat
  access : PageAccess

namespace CodeBuffer

/-! ## Size -/

def pageSize : Nat := 4096

/-- Sizes and offsets are below this. -/
def sizeRange : Nat := 0x10000000000000000

/-- The least number of whole pages, in bytes, that holds `max size 1` bytes. -/
def roundedSize? (size : Nat) : Option Nat :=
  let padded := max size 1 + pageSize
  if padded < sizeRange then
    some ((BitVec.ofNat 64 padded - 1) &&& ~~~(BitVec.ofNat 64 pageSize - 1)).toNat
  else none

def defaultSize : Nat := 1024 * 1024

/-- An empty writable buffer of at least `size` bytes, if so many bytes are granted. -/
def allocateFrom (grants : Nat → Bool) (size : Nat) : Except CodeError CodeBuffer :=
  match roundedSize? size with
  | none => .error .sizeOverflow
  | some n => if grants n then .ok ⟨.replicate n 0, 0, .write⟩ else .error .outOfMemory

/-- The bytes that a process can address. -/
def addressSpace : Nat := 0x800000000000

/-- A buffer from memory that grants whatever can be addressed. -/
def allocate (size : Nat) : Except CodeError CodeBuffer := allocateFrom (· < addressSpace) size

/-! ## Reading -/

def capacity (b : CodeBuffer) : Nat := b.memory.size

def remaining (b : CodeBuffer) : Nat := b.capacity - b.offset

/-- The bytes from offset `i` to the write offset. -/
def contentsFrom (b : CodeBuffer) (i : Nat) : List Byte := (b.memory.extract i b.offset).toList

/-- The generated code so far. -/
def contents (b : CodeBuffer) : List Byte := b.contentsFrom 0

/-- The byte of generated code at offset `i`. An offset up to the capacity is allowed, but there is
nothing to read from the write offset on. -/
def byteAt (b : CodeBuffer) (i : Nat) : Except CodeError (Option Byte) :=
  if i ≤ b.capacity then .ok (if i < b.offset then b.memory[i]? else none) else .error .outside

/-! ## Writing -/

/-- Overwrites memory from `i` on. -/
def overwrite (memory : Array Byte) (i : Nat) : List Byte → Array Byte
  | [] => memory
  | x :: xs => overwrite (memory.setIfInBounds i x) (i + 1) xs

/-- Appends the bytes, or none of them if they do not fit. The pages are meant to be writable: it is
for the owner of the buffer not to emit while they are not, `emit` does not look. -/
def emit (b : CodeBuffer) (bytes : List Byte) : Except CodeError CodeBuffer :=
  if bytes.length ≤ b.remaining then
    .ok { b with memory := overwrite b.memory b.offset bytes, offset := b.offset + bytes.length }
  else .error .full

/-- Drops the code from offset `i` on. -/
def truncate (b : CodeBuffer) (i : Nat) : Except CodeError CodeBuffer :=
  if i ≤ b.offset then .ok { b with offset := i } else .error .truncatedAhead

def emitByte (b : CodeBuffer) (x : Byte) : Except CodeError CodeBuffer := b.emit [x]

def emitWord (b : CodeBuffer) (w : Word) : Except CodeError CodeBuffer := b.emit w.bytes

def emitLong (b : CodeBuffer) (w : BitVec 64) : Except CodeError CodeBuffer :=
  b.emit (Word.longBytes w)

/-- Changes what the pages permit; the code stays as it is. -/
def protect (b : CodeBuffer) (access : PageAccess) : CodeBuffer := { b with access }

theorem size_overwrite (memory : Array Byte) (i : Nat) (bytes : List Byte) :
    (overwrite memory i bytes).size = memory.size := by
  induction bytes generalizing memory i with
  | nil => rfl
  | cons x xs ih => rw [overwrite, ih, Array.size_setIfInBounds]

end CodeBuffer

end Dynarec
