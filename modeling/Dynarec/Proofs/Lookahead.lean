import Dynarec.Guest.Usage

/-!
# Bounded liveness

`BlockUsage.ReadAt` says that one instruction of a block reads what a register holds at another:
nothing before it writes the register, and it comes no later than the delay slot of the first
branch. `BlockUsage.scan_iff` says what the scan finds, whose bound a branch brings down as it goes
on, so the oracle of a block says yes exactly if such an instruction is in the window
(`BlockUsage.oracle_iff_readAt`).
-/

namespace Dynarec

namespace InsnUsage

def Reads (u : InsnUsage) (g : GuestReg) : Prop := u.reads.contains? g.number = some true

def Writes (u : InsnUsage) (g : GuestReg) : Prop := u.writes.contains? g.number = some true

variable {u : InsnUsage} {g : GuestReg}

theorem reads_iff : u.Reads g ↔ u.reads.has g.number = true := RegMask.contains?_iff

theorem writes_iff : u.Writes g ↔ u.writes.has g.number = true := RegMask.contains?_iff

end InsnUsage

namespace BlockUsage

variable {us : List InsnUsage} {w : InsnUsage} {r i k stop : Nat}

/-! ## The scan -/

theorem scan_self (r : Nat) (us : List InsnUsage) (i : Nat) : scan r us i i = false := by
  cases us <;> simp [scan]

/-- The bound that an instruction leaves is that of its block, and of its delay slot if it is a
branch. -/
theorem lt_bound_iff :
    i + 1 + k < (if w.branch then min stop (i + 2) else stop) ↔
      i + (k + 1) < stop ∧ (w.branch = true → k = 0) := by
  cases w.branch with
  | true =>
    simp only [if_true, forall_const]
    omega
  | false =>
    simp only [Bool.false_eq_true, if_false, false_imp_iff, and_true]
    omega

theorem unbranched_cons_iff :
    (∀ v ∈ (w :: us).take k, v.branch = false) ↔
      (w.branch = true → k = 0) ∧ ∀ v ∈ us.take (k - 1), v.branch = false := by
  cases k with
  | zero => simp
  | succ k => simp

/-- What the scan finds: a read before which nothing is written and no delay slot is passed. -/
theorem scan_iff :
    scan r us i stop = true ↔ ∃ (j : Nat) (u : InsnUsage), us[j]? = some u ∧ i + j < stop ∧
      u.reads.has r = true ∧ (∀ v ∈ us.take j, v.writes.has r = false) ∧
      ∀ v ∈ us.take (j - 1), v.branch = false := by
  induction us generalizing i stop with
  | nil => simp [scan]
  | cons w us ih =>
    unfold scan
    split
    · next inside =>
      cases reads : w.reads.has r with
      | true => exact iff_of_true rfl ⟨0, w, rfl, inside, reads, by simp⟩
      | false =>
        -- it is not the head that is read first
        have later : ∀ {j u}, (w :: us)[j]? = some u → u.reads.has r = true → ∃ k, j = k + 1 := by
          rintro j u hu read
          refine Nat.exists_eq_succ_of_ne_zero ?_
          rintro rfl
          rw [Option.some.inj hu, read] at reads
          cases reads
        cases writes : w.writes.has r with
        | true =>
          refine iff_of_false nofun ?_
          rintro ⟨j, u, hu, -, read, unwritten, -⟩
          obtain ⟨k, rfl⟩ := later hu read
          exact nomatch writes.symm.trans (unwritten w List.mem_cons_self)
        | false =>
          simp only [Bool.false_eq_true, if_false, ih]
          constructor
          · rintro ⟨k, u, hu, before, read, unwritten, unbranched⟩
            obtain ⟨before, slot⟩ := lt_bound_iff.1 before
            exact ⟨k + 1, u, hu, before, read, List.forall_mem_cons.2 ⟨writes, unwritten⟩,
              unbranched_cons_iff.2 ⟨slot, unbranched⟩⟩
          · rintro ⟨j, u, hu, before, read, unwritten, unbranched⟩
            obtain ⟨k, rfl⟩ := later hu read
            obtain ⟨slot, unbranched⟩ := unbranched_cons_iff.1 unbranched
            exact ⟨k, u, hu, lt_bound_iff.2 ⟨before, slot⟩, read,
              fun v hv => unwritten v (List.mem_cons_of_mem w hv), unbranched⟩
    · next outside =>
      refine iff_of_false nofun ?_
      rintro ⟨j, u, -, before, -⟩
      omega

/-! ## In a block -/

/-- Instruction `j` of the block reads what the register holds at instruction `s`. -/
structure ReadAt (b : BlockUsage) (g : GuestReg) (s j : Nat) : Prop where
  reads : ∃ u, b.insns[j]? = some u ∧ u.Reads g
  unwritten : ∀ k u, s ≤ k → k < j → b.insns[k]? = some u → ¬ u.Writes g
  unbranched : ∀ k u, s ≤ k → k + 1 < j → b.insns[k]? = some u → u.branch = false

/-- A stretch of a list by index. -/
theorem forall_mem_take_drop {α : Type} {l : List α} {s n : Nat} {P : α → Prop} :
    (∀ a ∈ (l.drop s).take n, P a) ↔ ∀ k a, s ≤ k → k < s + n → l[k]? = some a → P a := by
  simp only [List.mem_iff_getElem?, List.getElem?_take, List.getElem?_drop]
  constructor
  · intro all k a hs hk ha
    refine all a ⟨k - s, ?_⟩
    rw [if_pos (by omega), show s + (k - s) = k by omega, ha]
  · rintro all a ⟨i, hi⟩
    split at hi
    · exact all (s + i) a (by omega) (by omega) hi
    · cases hi

variable {b : BlockUsage} {g : GuestReg} {s : Nat}

theorem readAt_add_iff {i : Nat} :
    b.ReadAt g s (s + i) ↔ ∃ u, b.insns[s + i]? = some u ∧ u.reads.has g.number = true ∧
      (∀ v ∈ (b.insns.drop s).take i, v.writes.has g.number = false) ∧
      ∀ v ∈ (b.insns.drop s).take (i - 1), v.branch = false := by
  simp only [forall_mem_take_drop, ← Bool.not_eq_true, ← InsnUsage.reads_iff,
    ← InsnUsage.writes_iff]
  constructor
  · rintro ⟨⟨u, hu, read⟩, unwritten, unbranched⟩
    exact ⟨u, hu, read, unwritten, fun k v hs hk hv => by simp [unbranched k v hs (by omega) hv]⟩
  · rintro ⟨u, hu, read, unwritten, unbranched⟩
    refine ⟨⟨u, hu, read⟩, unwritten, fun k v hs hk hv => ?_⟩
    simpa using unbranched k v hs (by omega) hv

theorem scan_drop_iff :
    scan g.number (b.insns.drop s) s stop = true ↔ ∃ j, s ≤ j ∧ j < stop ∧ b.ReadAt g s j := by
  rw [scan_iff]
  constructor
  · rintro ⟨i, u, hu, before, read, unwritten, unbranched⟩
    rw [List.getElem?_drop] at hu
    exact ⟨s + i, Nat.le_add_right s i, before,
      readAt_add_iff.2 ⟨u, hu, read, unwritten, unbranched⟩⟩
  · rintro ⟨j, hs, before, at_j⟩
    obtain ⟨i, rfl⟩ := Nat.exists_eq_add_of_le hs
    obtain ⟨u, hu, read, unwritten, unbranched⟩ := readAt_add_iff.1 at_j
    rw [← List.getElem?_drop] at hu
    exact ⟨i, u, hu, before, read, unwritten, unbranched⟩

/-- **Bounded liveness.** For every guest register, position and lookahead a query is answered, and
with yes exactly if the position is that of an instruction `s`, counted from the start of the block
in steps of four bytes, and among the `lookahead` instructions from there one reads what the
register holds at `s`: none before it writes the register, and none before the one that precedes it
is a branch. -/
theorem oracle_iff_readAt (b : BlockUsage) (g : GuestReg) (pc : Word) (lookahead : Nat) :
    b.isUsed? g.number pc lookahead = some (b.oracle g pc lookahead) ∧
    (b.oracle g pc lookahead = true ↔
      b.startPc.toNat ≤ pc.toNat ∧ 4 ∣ pc.toNat - b.startPc.toNat ∧
        ∃ j, (pc.toNat - b.startPc.toNat) / 4 ≤ j ∧
          j < min ((pc.toNat - b.startPc.toNat) / 4 + lookahead) b.insns.length ∧
          b.ReadAt g ((pc.toNat - b.startPc.toNat) / 4) j) := by
  refine ⟨if_pos (.inl (Nat.lt_trans g.number_lt (by decide))), ?_⟩
  unfold oracle isUsed window index?
  by_cases ahead : b.startPc.toNat ≤ pc.toNat
  · have distance : (pc - b.startPc).toNat = pc.toNat - b.startPc.toNat :=
      BitVec.toNat_sub_of_le ahead
    rw [distance]
    by_cases aligned : (pc.toNat - b.startPc.toNat) % 4 = 0
    · rw [if_pos ⟨ahead, aligned⟩]
      simp only [scan_drop_iff]
      exact ⟨fun h => ⟨ahead, Nat.dvd_of_mod_eq_zero aligned, h⟩, fun h => h.2.2⟩
    · rw [if_neg (fun h => aligned h.2)]
      refine iff_of_false (Bool.eq_false_iff.1 (scan_self ..)) ?_
      rintro ⟨-, divides, -⟩
      exact aligned (Nat.mod_eq_zero_of_dvd divides)
  · rw [if_neg (fun h => ahead h.1)]
    exact iff_of_false (Bool.eq_false_iff.1 (scan_self ..)) fun h => ahead h.1

end BlockUsage

end Dynarec
