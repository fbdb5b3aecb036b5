import Dynarec.Host.Execution

/-!
# The effects of moves

`Instr.writes` and `Instr.reads` against the execution of moves. A move leaves a host register alone
that its instruction does not write (`MoveMachine.host_exec?`), and if it does not read it either,
does the same whatever the register holds (`MoveMachine.exec?_setHost`).
-/

namespace Dynarec

namespace Move

variable {mv : Move} {i : Instr Address} {x : HostReg}

theorem mem_writes_iff (hi : mv.instr? = some i) : x ∈ i.writes ↔ mv.dst = .reg x := by
  obtain ⟨dst, src⟩ := mv
  cases dst <;> cases src <;> cases hi <;> simp [Instr.writes, eq_comm]

theorem mem_reads_iff (hi : mv.instr? = some i) : x ∈ i.reads ↔ mv.src = .reg x := by
  obtain ⟨dst, src⟩ := mv
  cases dst <;> cases src <;> cases hi <;> simp [Instr.reads, eq_comm]

end Move

namespace MoveMachine

variable {m m' : MoveMachine} {mv : Move} {i : Instr Address} {x y : HostReg} {src dst : Operand}

theorem setHost_comm (m : MoveMachine) (v w : Word) (hne : x ≠ y) :
    (m.setHost x v).setHost y w = (m.setHost y w).setHost x v := by
  unfold setHost
  congr 1
  funext z
  by_cases hx : z = x
  · subst hx
    simp [hne]
  · simp [hx]

theorem eval?_setHost (m : MoveMachine) (v : Word) (hne : src ≠ .reg x) :
    (m.setHost x v).eval? src = m.eval? src := by
  cases src with
  | imm w => rfl
  | mem a => rfl
  | reg y =>
    have hyx : y ≠ x := fun e => hne (e ▸ rfl)
    simp [eval?, setHost, hyx]

theorem assign?_setHost (m : MoveMachine) (v w : Word) (hne : dst ≠ .reg x) :
    (m.setHost x v).assign? dst w = (m.assign? dst w).map (·.setHost x v) := by
  cases dst with
  | imm u => rfl
  | reg y =>
    have hxy : x ≠ y := fun e => hne (e ▸ rfl)
    simp only [assign?, Option.map_some, m.setHost_comm v w hxy]
  | mem a =>
    simp only [assign?]
    split
    · simp only [Option.map_map]
      rfl
    · rfl

/-- A move that neither writes nor reads a register does the same whatever the register holds. -/
theorem exec?_setHost (m : MoveMachine) (v : Word)
    (untouched : ∀ i, mv.instr? = some i → x ∉ i.writes ∧ x ∉ i.reads) :
    (m.setHost x v).exec? mv = (m.exec? mv).map (·.setHost x v) := by
  cases hi : mv.instr? with
  | none => simp [exec?, hi]
  | some i =>
    obtain ⟨hw, hr⟩ := untouched i hi
    have dst := mt (Move.mem_writes_iff hi).2 hw
    have src := mt (Move.mem_reads_iff hi).2 hr
    simp only [exec?, hi, Option.bind_eq_bind, Option.bind_some, m.eval?_setHost v src]
    cases m.eval? mv.src with
    | none => rfl
    | some w => exact m.assign?_setHost v w dst

theorem host_assign? {w : Word} (run : m.assign? dst w = some m') (hne : dst ≠ .reg x) :
    m'.host x = m.host x := by
  cases dst with
  | imm u => cases run
  | reg y =>
    have hxy : x ≠ y := fun e => hne (e ▸ rfl)
    cases run
    simp [setHost, hxy]
  | mem a =>
    simp only [assign?] at run
    split at run
    · obtain ⟨c, -, rfl⟩ := Option.map_eq_some_iff.1 run
      rfl
    · cases run

/-- A move keeps the registers that it does not write. -/
theorem host_exec? (run : m.exec? mv = some m') (hw : ∀ i, mv.instr? = some i → x ∉ i.writes) :
    m'.host x = m.host x := by
  simp only [exec?, Option.bind_eq_bind, Option.bind_eq_some_iff] at run
  obtain ⟨i, hi, w, -, assigned⟩ := run
  exact host_assign? assigned (mt (Move.mem_writes_iff hi).2 (hw i hi))

end MoveMachine

end Dynarec
