import Dynarec.Proofs.Effects
import Dynarec.Proofs.EmittedCode
import Dynarec.Proofs.Translation

/-!
# What every run keeps

A step of a translator either is a request that is done, and its code the moves of the request, or
it leaves the cache alone and emits no move (`Step.emit?_cases`). So what one request keeps of the
tables, a run keeps, and what holds of the instructions that one request asks for holds of all
that the run emits (`emitAll?_keeps`). A host register that no instruction of the code writes has
the same value after the code has run (`host_runCode?`), and if none reads it either, then the code
does the same whatever it holds (`runCode?_setHost`).
-/

namespace Dynarec

variable {c c' : Cache} {s : Step} {ss : List Step} {code : List Item}

/-- An instruction that the cache has in the code. -/
def Emits (code : List Item) (i : Instr Address) : Prop :=
  ∃ mv, .move mv ∈ code ∧ mv.instr? = some i

theorem emits_append {a b : List Item} {i : Instr Address} :
    Emits (a ++ b) i ↔ Emits a i ∨ Emits b i := by
  simp only [Emits, List.mem_append, or_and_right, exists_or]

theorem emits_moves {j : List Event} {i : Instr Address} :
    Emits ((movesOf j).map .move) i ↔ i ∈ codeOf j := by
  simp [Emits, codeOf]

namespace Step

theorem done_of_emit?_request {r : Request} (h : c.tables.Coherent)
    (e : (request r).emit? c = some (c', code)) :
    ∃ j, r.straight = true ∧ r.Done c c' j ∧ code = (movesOf j).map .move := by
  obtain ⟨straight, ⟨a, ok⟩, rfl, rfl⟩ := emit?_request e
  exact ⟨_, straight, Request.done_of_ok h ok, rfl⟩

theorem emit?_cases (h : c.tables.Coherent) (e : s.emit? c = some (c', code)) :
    (∃ r j, s = request r ∧ r.straight = true ∧ r.Done c c' j ∧ code = (movesOf j).map .move) ∨
    c' = c ∧ ∀ i, ¬ Emits code i := by
  cases s with
  | request r =>
    obtain ⟨j, straight, done, rfl⟩ := done_of_emit?_request h e
    exact .inl ⟨r, j, rfl, straight, done, rfl⟩
  | write g f =>
    obtain ⟨x, -, -, rfl, rfl⟩ := emit?_write e
    exact .inr ⟨rfl, by simp [Emits]⟩
  | scratch x f =>
    obtain ⟨-, -, rfl, rfl⟩ := emit?_scratch e
    exact .inr ⟨rfl, by simp [Emits]⟩

end Step

/-- **From one request to every run.** If requests that are `allowed` keep `P` of the tables and
ask only for instructions with `Q`, then so does every run in which all requests are allowed. -/
theorem emitAll?_keeps {P : Tables → Prop} {Q : Instr Address → Prop} {allowed : Request → Prop}
    (step : ∀ {c c' r j}, c.tables.Coherent → P c.tables → r.straight = true → allowed r →
      r.Done c c' j → c'.tables.Coherent → P c'.tables ∧ ∀ i ∈ codeOf j, Q i)
    (h : c.tables.Coherent) (p : P c.tables) (e : emitAll? ss c = some (c', code))
    (quiet : ∀ r, .request r ∈ ss → allowed r) :
    c'.tables.Coherent ∧ P c'.tables ∧ ∀ i, Emits code i → Q i := by
  induction ss generalizing c code with
  | nil =>
    obtain ⟨rfl, rfl⟩ := Prod.mk.inj (Option.some.inj e)
    exact ⟨h, p, by simp [Emits]⟩
  | cons s ss ih =>
    obtain ⟨c₁, code₁, code₂, head, tail, rfl⟩ := emitAll?_cons e
    have h₁ := Step.coherent head h
    obtain ⟨p₁, q₁⟩ : P c₁.tables ∧ ∀ i, Emits code₁ i → Q i := by
      rcases Step.emit?_cases h head with ⟨r, j, rfl, straight, done, rfl⟩ | ⟨rfl, silent⟩
      · obtain ⟨p₁, q₁⟩ := step h p straight (quiet r List.mem_cons_self) done h₁
        exact ⟨p₁, fun i hi => q₁ i (emits_moves.1 hi)⟩
      · exact ⟨p, fun i hi => absurd hi (silent i)⟩
    obtain ⟨h₂, p₂, q₂⟩ := ih h₁ p₁ tail fun r hr => quiet r (List.mem_cons_of_mem s hr)
    exact ⟨h₂, p₂, fun i hi => (emits_append.1 hi).elim (q₁ i) (q₂ i)⟩

/-- Code leaves a host register alone that neither the cache nor the translator writes in it. -/
theorem host_runCode? {m m' : MoveMachine} {x : HostReg} (run : runCode? code m = some m')
    (unwritten : ∀ i, Emits code i → x ∉ i.writes) (own : ∀ f, .compute x f ∉ code) :
    m'.host x = m.host x := by
  induction code generalizing m with
  | nil =>
    cases run
    rfl
  | cons item code ih =>
    obtain ⟨m₁, head, tail⟩ := Option.bind_eq_some_iff.1 run
    have rest := ih tail (fun i ⟨mv, hm, hi⟩ => unwritten i ⟨mv, List.mem_cons_of_mem item hm, hi⟩)
      fun f hf => own f (List.mem_cons_of_mem item hf)
    refine rest.trans ?_
    cases item with
    | move mv =>
      exact MoveMachine.host_exec? head fun i hi => unwritten i ⟨mv, List.mem_cons_self, hi⟩
    | compute y f =>
      have hne : x ≠ y := by
        rintro rfl
        exact own f List.mem_cons_self
      cases head
      exact m.host_setHost_of_ne _ hne

/-- Code that neither writes nor reads a host register does the same whatever it holds. -/
theorem runCode?_setHost {x : HostReg}
    (untouched : ∀ i, Emits code i → x ∉ i.writes ∧ x ∉ i.reads)
    (own : ∀ y f, .compute y f ∈ code → x ≠ y ∧ ∀ m v, f (m.setHost x v) = f m)
    (m : MoveMachine) (v : Word) :
    runCode? code (m.setHost x v) = (runCode? code m).map (·.setHost x v) := by
  induction code generalizing m with
  | nil => rfl
  | cons item code ih =>
    have head : item.exec? (m.setHost x v) = (item.exec? m).map (·.setHost x v) := by
      cases item with
      | move mv =>
        exact m.exec?_setHost v fun i hi => untouched i ⟨mv, List.mem_cons_self, hi⟩
      | compute y f =>
        obtain ⟨hne, blind⟩ := own y f List.mem_cons_self
        simp only [Item.exec?, blind, Option.map_some, m.setHost_comm v _ hne]
    show (item.exec? (m.setHost x v)).bind (runCode? code) =
      ((item.exec? m).bind (runCode? code)).map (·.setHost x v)
    rw [head]
    cases item.exec? m with
    | none => rfl
    | some m₁ =>
      exact ih (fun i ⟨mv, hm, hi⟩ => untouched i ⟨mv, List.mem_cons_of_mem item hm, hi⟩)
        (fun y f hf => own y f (List.mem_cons_of_mem item hf)) m₁

end Dynarec
