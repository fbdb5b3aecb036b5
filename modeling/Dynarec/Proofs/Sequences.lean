import Dynarec.Proofs.Faults

/-!
# Requests one after the other

`Request.performAll` makes requests in a row, up to the first that stops with a fault, and
`RecompilerM.requestAll` makes them of a recompiler. What one request keeps, all of them keep
(`Request.performAll_keeps`), and where their code fits into the buffer the recompiler gets
through just as the cache does (`RecompilerM.requestAll_of_fits`).
-/

namespace Dynarec

open Journal

/-- A composed computation that succeeds is made of two that do. -/
theorem Outcome.andThen_eq_ok {ε σ ω α β : Type} {o : Outcome ε σ ω α} {f : α → Journal ε σ ω β}
    {b : β} {s : σ} {j : List ω} (run : o.andThen f = ⟨.ok b, s, j⟩) :
    ∃ a t j₁ j₂, o = ⟨.ok a, t, j₁⟩ ∧ f a t = ⟨.ok b, s, j₂⟩ ∧ j = j₁ ++ j₂ := by
  obtain ⟨result, t, j₁⟩ := o
  cases result with
  | error e => cases run
  | ok a =>
    rw [andThen_ok] at run
    cases rest : f a t with
    | mk result s' j₂ =>
      rw [rest, after_mk] at run
      cases run
      exact ⟨a, t, j₁, j₂, rfl, rest, rfl⟩

namespace Request

/-- The requests one after the other, up to the first that stops with a fault. -/
def performAll : List Request → CacheM Unit
  | [] => pure ()
  | r :: rs => do
    let _ ← r.perform
    performAll rs

variable {c c' : Cache} {r : Request} {rs : List Request} {j : List Event}

theorem performAll_cons (r : Request) (rs : List Request) (c : Cache) :
    performAll (r :: rs) c = (r.perform c).andThen fun _ => performAll rs := rfl

theorem performAll_cons_ok (run : performAll (r :: rs) c = ⟨.ok (), c', j⟩) :
    ∃ a c₁ j₁ j₂, r.perform c = ⟨.ok a, c₁, j₁⟩ ∧ performAll rs c₁ = ⟨.ok (), c', j₂⟩ ∧
      j = j₁ ++ j₂ :=
  Outcome.andThen_eq_ok run

theorem performAll_append (rs qs : List Request) (c : Cache) :
    performAll (rs ++ qs) c = (performAll rs c).andThen fun _ => performAll qs := by
  induction rs generalizing c with
  | nil => rfl
  | cons r rs ih =>
    rw [List.cons_append, performAll_cons, performAll_cons]
    cases run : r.perform c with
    | mk result c' j =>
      cases result with
      | ok a => rw [Outcome.andThen_ok, Outcome.andThen_ok, ih, Outcome.andThen_after]
      | error f => rfl

theorem coherent_of_run {o : Except Fault (Option HostReg)} (h : c.tables.Coherent)
    (plain : ∀ t, r ≠ .restore t) (run : r.perform c = ⟨o, c', j⟩) : c'.tables.Coherent := by
  have kept := r.coherent_perform h fun t e => absurd e (plain t)
  rwa [run] at kept

/-- **From one request to a row of them.** What the requests keep of a coherent cache holds of the
cache that they leave, if they go through, and what holds of the events of each holds of all that
are written, also if a request stops with a fault. -/
theorem performAll_keeps {P : Cache → Prop} {Q : Event → Prop} {allowed : Request → Prop}
    (step : ∀ {c c' r j}, c.tables.Coherent → P c → allowed r → r.Done c c' j →
      P c' ∧ ∀ e ∈ j, Q e)
    (plain : ∀ t, ¬ allowed (.restore t)) (h : c.tables.Coherent) (p : P c)
    (all : ∀ r ∈ rs, allowed r) :
    (∀ e ∈ (performAll rs c).journal, Q e) ∧
      ((performAll rs c).result = .ok () →
        (performAll rs c).state.tables.Coherent ∧ P (performAll rs c).state) := by
  induction rs generalizing c with
  | nil => exact ⟨fun _ he => absurd he List.not_mem_nil, fun _ => ⟨h, p⟩⟩
  | cons r rs ih =>
    have ok := all r List.mem_cons_self
    rcases perform_cases h r with ⟨a, c', j, run, done⟩ | ⟨f, c', run, -⟩
    · obtain ⟨p', q⟩ := step h p ok done
      have h' := coherent_of_run h (fun t e => plain t (e ▸ ok)) run
      obtain ⟨events, last⟩ := ih h' p' fun s hs => all s (List.mem_cons_of_mem r hs)
      rw [performAll_cons, run, Outcome.andThen_ok]
      refine ⟨?_, last⟩
      intro e he
      exact (List.mem_append.1 he).elim (q e) (events e)
    · rw [performAll_cons, run, Outcome.andThen_error]
      exact ⟨fun _ he => absurd he List.not_mem_nil, fun ok => nomatch ok⟩

theorem coherent_of_performAll (h : c.tables.Coherent) (plain : ∀ r ∈ rs, ∀ t, r ≠ .restore t)
    (ok : (performAll rs c).result = .ok ()) : (performAll rs c).state.tables.Coherent := by
  have run := performAll_keeps (P := fun _ => True) (Q := fun _ => True)
    (fun _ _ _ _ => ⟨trivial, fun _ _ => trivial⟩) (fun t no => no t rfl) h trivial plain
  exact (run.2 ok).1

/-! ## From the start of a block -/

/-- The cache at the start of a block. -/
def started (c : Cache) (oracle : UsageOracle) (pc : Word) : Cache :=
  { c with tables := .fresh, oracle, pc }

theorem perform_start (oracle : UsageOracle) (pc : Word) (c : Cache) :
    (start oracle pc).perform c = ⟨.ok none, started c oracle pc, [.start pc]⟩ := rfl

theorem performAll_start (oracle : UsageOracle) (pc : Word) (rs : List Request) (c : Cache) :
    performAll (.start oracle pc :: rs) c =
      (performAll rs (started c oracle pc)).after [.start pc] := rfl

theorem coherent_started (c : Cache) (oracle : UsageOracle) (pc : Word) :
    (started c oracle pc).tables.Coherent := Tables.coherent_fresh

end Request

/-- Requests in a row lead from a reachable cache to a reachable one. -/
theorem Reachable.performAll {c : Cache} {saved : List Snapshot} {rs : List Request}
    (run : Reachable c saved) (plain : ∀ r ∈ rs, ∀ t, r ≠ .restore t)
    (ok : (Request.performAll rs c).result = .ok ()) :
    Reachable (Request.performAll rs c).state saved := by
  induction rs generalizing c with
  | nil => exact run
  | cons r rs ih =>
    rw [Request.performAll_cons] at ok ⊢
    cases head : r.perform c with
    | mk result c₁ j =>
      rw [head] at ok
      cases result with
      | error f => cases ok
      | ok a =>
        have step := Reachable.request r run (plain r List.mem_cons_self) (by rw [head])
        rw [head] at step
        exact ih step (fun s hs => plain s (List.mem_cons_of_mem r hs)) ok

namespace RecompilerM

variable {c c' : Cache} {b : Assembler} {r : Request} {rs : List Request} {j : List Event}

/-- The requests one after the other, made of a recompiler. -/
def requestAll : List Request → RecompilerM Unit
  | [] => pure ()
  | r :: rs => do
    let _ ← request r
    requestAll rs

theorem requestAll_cons (r : Request) (rs : List Request) (t : Recompiler) :
    requestAll (r :: rs) t = (request r t).andThen fun _ => requestAll rs := rfl

/-- A request that goes through takes as much of the buffer as its code. -/
theorem request_of_ok {a : Option HostReg} (h : c.tables.Coherent)
    (run : r.perform c = ⟨.ok a, c', j⟩)
    (fits : (Instr.encodeAll (codeOf j)).length ≤ b.buffer.remaining) :
    ∃ b' log, request r ⟨c, b⟩ = ⟨.ok a, ⟨c', b'⟩, log⟩ ∧
      b'.buffer.remaining = b.buffer.remaining - (Instr.encodeAll (codeOf j)).length := by
  have enc : ∀ e ∈ j, e.Encodable := by
    have all := r.encodable_journal h
    rwa [run] at all
  obtain ⟨b', played, remaining⟩ := Assembler.play_of_fits enc fits
  obtain ⟨result, state⟩ := request_of_played (r := r) (t := ⟨c, b⟩) (by rw [run]; exact played)
  rw [run] at result state
  cases made : request r ⟨c, b⟩ with
  | mk result' state' log =>
    rw [made] at result state
    cases result
    cases state
    exact ⟨b', log, rfl, remaining⟩

/-- Requests that go through in the cache go through in the recompiler if their code fits, and the
cache ends up the same. -/
theorem requestAll_of_fits (h : c.tables.Coherent) (plain : ∀ r ∈ rs, ∀ t, r ≠ .restore t)
    (run : Request.performAll rs c = ⟨.ok (), c', j⟩)
    (fits : (Instr.encodeAll (codeOf j)).length ≤ b.buffer.remaining) :
    ∃ b' log, requestAll rs ⟨c, b⟩ = ⟨.ok (), ⟨c', b'⟩, log⟩ := by
  induction rs generalizing c b j with
  | nil =>
    cases run
    exact ⟨b, [], rfl⟩
  | cons r rs ih =>
    obtain ⟨a, c₁, j₁, j₂, head, tail, rfl⟩ := Request.performAll_cons_ok run
    have h₁ := Request.coherent_of_run h (plain r List.mem_cons_self) head
    rw [codeOf_append, Instr.encodeAll_append, List.length_append] at fits
    obtain ⟨b₁, log₁, made, remaining⟩ := request_of_ok (b := b) h head (by omega)
    obtain ⟨b₂, log₂, rest⟩ :=
      ih h₁ (fun s hs => plain s (List.mem_cons_of_mem r hs)) tail (b := b₁) (by omega)
    exact ⟨b₂, log₁ ++ log₂, by rw [requestAll_cons, made, Outcome.andThen_ok, rest]; rfl⟩

end RecompilerM

end Dynarec
