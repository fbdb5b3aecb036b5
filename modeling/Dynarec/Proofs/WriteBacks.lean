import Dynarec.Proofs.Fates
import Dynarec.Proofs.Sequences

/-!
# What write-backs go back to

A register is written back only if its value was renewed since its home last held it. The history
of a run is a list of `Mark`s, the requests with the events that each of them writes. For one
request, what is pending after it was renewed by it or was pending before
(`Request.Done.renews_of_pending`), and what it stores was pending and is at home then
(`Request.Done.of_store`). So along a run every pending register has a renewal behind it with
neither a store nor the start of a block since then, and `Request.store_renewed` reads this off at
each store.
-/

namespace Dynarec

open Journal

/-- The requests that send every register home. -/
inductive Request.Flushes : Request → Prop where
  | flush : Flushes .flush
  | flushBeforeCall : Flushes .flushBeforeCall

/-- The event is a store to the home of the register. -/
def Event.StoresTo (e : Event) (g : GuestReg) : Prop := ∃ src, e.move? = some ⟨g.home, src⟩

/-- An entry in the history of a run. -/
inductive Mark where
  | call (r : Request)
  | event (e : Event)

/-- After it, the register has no value that its home does not have: a store or the start of a
block. -/
def Mark.Settles (g : GuestReg) : Mark → Prop
  | call (.start _ _) => True
  | call _ => False
  | event e => e.StoresTo g

/-- The history of requests that are made one after the other, up to the first that stops with a
fault. -/
def Request.trace : List Request → Cache → List Mark
  | [], _ => []
  | r :: rs, c =>
    .call r :: ((r.perform c).journal.map .event ++
      match (r.perform c).result with
      | .ok _ => trace rs (r.perform c).state
      | .error _ => [])

/-! ## Stores -/

section Stores

variable {t u : Tables} {c c' : Cache} {r : Request} {j : List Event} {e : Event}
  {g h : GuestReg} {x : HostReg}

theorem Event.storesTo_iff : e.StoresTo g ↔ ∃ src, e = .store g src := by
  constructor
  · rintro ⟨src, hm⟩
    cases e with
    | store h src' =>
      obtain ⟨dst, -⟩ := Move.mk.inj (Option.some.inj hm)
      exact ⟨src', by rw [GuestReg.home_inj dst]⟩
    | load h x src' => exact nomatch (Move.mk.inj (Option.some.inj hm)).1
    | start | flush | spill => cases hm
  · rintro ⟨src, rfl⟩
    exact ⟨src, rfl⟩

theorem Event.StoresTo.unique (s : e.StoresTo g) (s' : e.StoresTo h) : g = h := by
  obtain ⟨src, rfl⟩ := storesTo_iff.1 s
  obtain ⟨src', e'⟩ := storesTo_iff.1 s'
  exact (Event.store.inj e').1

/-- Sending the register home stores it. -/
structure Tables.Due (t : Tables) (g : GuestReg) : Prop where
  ne_zero : g ≠ .zero
  pending : t.pending g = true

theorem Tables.not_due_of_home (hb : t.Binds g .home) : ¬ t.Due g := fun due =>
  nomatch due.pending.symm.trans (pending_of_home hb)

theorem Tables.not_due_fresh : ¬ fresh.Due g := fun due =>
  not_due_of_home (binds_fresh due.ne_zero) due

theorem Tables.of_mem_storesOf (he : e ∈ t.storesOf h) : e.StoresTo h ∧ t.Due h := by
  unfold storesOf at he
  split at he
  · next hp =>
    rw [Bool.and_eq_true, Bool.not_eq_true'] at hp
    obtain rfl := List.mem_singleton.1 he
    refine ⟨⟨_, rfl⟩, ?_, hp.1⟩
    rintro rfl
    cases hp.2
  · cases he

theorem Tables.not_storesTo_of_mem_loadsOf {load : Bool} (he : e ∈ t.loadsOf h x load) :
    ¬ e.StoresTo g := by
  unfold loadsOf at he
  split at he
  · obtain rfl := List.mem_singleton.1 he
    intro s
    obtain ⟨src, e⟩ := Event.storesTo_iff.1 s
    cases e
  · cases he

/-- No two events of the list store to the home of the same register. -/
def StoresOnce (j : List Event) : Prop := j.Pairwise fun a b => ∀ g, a.StoresTo g → ¬ b.StoresTo g

theorem storesOnce_storesOf (t : Tables) (g : GuestReg) : StoresOnce (t.storesOf g) := by
  unfold Tables.storesOf
  split
  · exact List.pairwise_singleton ..
  · exact .nil

theorem StoresOnce.cons_quiet (once : StoresOnce j) (he : e.move? = none) :
    StoresOnce (e :: j) := by
  refine List.pairwise_cons.2 ⟨?_, once⟩
  rintro a - g ⟨src, hm⟩
  rw [he] at hm
  cases hm

theorem storesOnce_tail (t : Tables) : StoresOnce (GuestReg.all.tail.flatMap t.storesOf) := by
  refine List.pairwise_flatMap.2 ⟨fun g _ => storesOnce_storesOf t g, ?_⟩
  have nodup : GuestReg.all.tail.Nodup := by decide
  refine nodup.imp ?_
  intro g₁ g₂ hne a ha b hb g s s'
  exact hne ((Tables.of_mem_storesOf ha).1.unique s |>.trans
    ((Tables.of_mem_storesOf hb).1.unique s').symm)

theorem Room.storesOnce (room : Room c x c' j) : StoresOnce j := by
  cases room with
  | free _ => exact .nil
  | spill g _ _ _ => exact (storesOnce_storesOf c.tables g).cons_quiet rfl

/-- **What is stored** was pending, and is at home once the request is done. -/
theorem Request.Done.of_store (d : Done c r c' j) (h : c.tables.Coherent) (he : e ∈ j)
    (s : e.StoresTo g) : c.tables.Due g ∧ c'.tables.Binds g .home := by
  cases d.wrote h he with
  | quiet quiet =>
    obtain ⟨src, hm⟩ := s
    rw [quiet] at hm
    cases hm
  | store he home =>
    obtain ⟨s', due⟩ := Tables.of_mem_storesOf he
    obtain rfl := s'.unique s
    exact ⟨due, home⟩
  | load he => exact absurd s (Tables.not_storesTo_of_mem_loadsOf he)

theorem Request.Done.storesOnce (d : Done c r c' j) : StoresOnce j := by
  induction d with
  | start oracle pc => exact List.pairwise_singleton ..
  | acquire room => exact room.storesOnce
  | @map g x c₁ j₁ load dirty unmapped room =>
    refine List.pairwise_append.2 ⟨room.storesOnce, ?_, ?_⟩
    · unfold Tables.loadsOf
      split
      · exact List.pairwise_singleton ..
      · exact .nil
    · exact fun a _ b hb g' _ => Tables.not_storesTo_of_mem_loadsOf hb
  | materialize const map ih => exact ih
  | writeBack g => exact storesOnce_storesOf c.tables g
  | @evict g x owner => exact storesOnce_storesOf c.tables g
  | flush hosts guests => exact (storesOnce_tail c.tables).cons_quiet rfl
  | flushBeforeCall flush ih => exact ih
  | setPc | setConst | discard | lockGuests | lockHosts | unlockGuests | unlockHosts | remap | keep
  | touch | evictVacant | restore => exact .nil

/-- **What is pending** after a request was renewed by it, or was pending before it. -/
theorem Request.Done.renews_of_pending (d : Done c r c' j) (h : c.tables.Coherent)
    (plain : ∀ t, r ≠ .restore t) (hz : g ≠ .zero) (p : c'.tables.pending g = true) :
    r.Renews g ∨ c.tables.pending g = true ∧ ¬ (Mark.call r).Settles g := by
  have quiet : ¬ (Mark.call r).Settles g := by
    intro starts
    cases r with
    | start oracle pc =>
      cases d
      exact nomatch p.symm.trans (Tables.pending_of_home (Tables.binds_fresh hz))
    | _ => exact starts
  cases d.fate h plain g with
  | kept keeps => exact .inr ⟨keeps.pending.symm.trans p, quiet⟩
  | dirtied binds renews => exact .inl renews
  | home home => exact nomatch p.symm.trans (Tables.pending_of_home home)
  | const const renews zero => exact .inl (renews.resolve_right hz)
  | mapped anew mapped renews last => exact (renews p).imp_right fun p => ⟨p, quiet⟩

end Stores

/-! ## Histories -/

section Histories

variable {c c' : Cache} {r : Request} {rs : List Request} {j : List Event} {e : Event}
  {g : GuestReg} {before after tr : List Mark}

/-- There is a renewal of the register that nothing has settled since. -/
def Renewed (g : GuestReg) (tr : List Mark) : Prop :=
  ∃ earlier r since, tr = earlier ++ .call r :: since ∧ r.Renews g ∧ ∀ m ∈ since, ¬ m.Settles g

theorem Renewed.append (n : Renewed g tr) (quiet : ∀ m ∈ after, ¬ m.Settles g) :
    Renewed g (tr ++ after) := by
  obtain ⟨earlier, r, since, rfl, renews, unsettled⟩ := n
  refine ⟨earlier, r, since ++ after, by simp, renews, ?_⟩
  intro m hm
  exact (List.mem_append.1 hm).elim (unsettled m) (quiet m)

theorem Renewed.of_call (tr : List Mark) (renews : r.Renews g)
    (quiet : ∀ m ∈ after, ¬ m.Settles g) : Renewed g (tr ++ .call r :: after) :=
  ⟨tr, r, after, rfl, renews, quiet⟩

theorem quiet_events (none : ∀ e ∈ j, ¬ e.StoresTo g) :
    ∀ m ∈ j.map Mark.event, ¬ m.Settles g := by
  intro m hm
  obtain ⟨e, he, rfl⟩ := List.mem_map.1 hm
  exact none e he

/-- An event in a history is one of the first events or comes after all of them. -/
theorem split_events {rest : List Mark}
    (h : j.map .event ++ rest = before ++ .event e :: after) :
    (∃ j₁ j₂, j = j₁ ++ e :: j₂ ∧ before = j₁.map .event) ∨
      ∃ before', before = j.map .event ++ before' ∧ rest = before' ++ .event e :: after := by
  induction j generalizing before with
  | nil => exact .inr ⟨before, rfl, h⟩
  | cons e' j ih =>
    rw [List.map_cons, List.cons_append] at h
    cases before with
    | nil =>
      obtain ⟨head, -⟩ := List.cons.inj h
      obtain rfl := Mark.event.inj head
      exact .inl ⟨[], j, rfl, rfl⟩
    | cons m before =>
      obtain ⟨rfl, tail⟩ := List.cons.inj h
      rcases ih tail with ⟨j₁, j₂, rfl, rfl⟩ | ⟨before', rfl, rest⟩
      · exact .inl ⟨e' :: j₁, j₂, rfl, rfl⟩
      · exact .inr ⟨before', rfl, rest⟩

namespace Request

theorem trace_of_ok {a : Option HostReg} (run : r.perform c = ⟨.ok a, c', j⟩) :
    trace (r :: rs) c = .call r :: (j.map .event ++ trace rs c') := by
  simp only [trace, run]

theorem trace_of_error {f : Fault} (run : r.perform c = ⟨.error f, c', j⟩) :
    trace (r :: rs) c = .call r :: j.map .event := by
  simp only [trace, run, List.append_nil]

theorem call_mem_trace (hr : .call r ∈ trace rs c) : r ∈ rs := by
  induction rs generalizing c with
  | nil => cases hr
  | cons r' rs ih =>
    unfold trace at hr
    rcases List.mem_cons.1 hr with e | hr
    · exact List.mem_cons.2 (.inl (Mark.call.inj e))
    · rcases List.mem_append.1 hr with hr | hr
      · obtain ⟨e, -, he⟩ := List.mem_map.1 hr
        cases he
      · split at hr
        · exact List.mem_cons_of_mem r' (ih hr)
        · cases hr

/-- The events of a history are those that the requests write. -/
theorem event_mem_trace (he : e ∈ (performAll rs c).journal) : .event e ∈ trace rs c := by
  induction rs generalizing c with
  | nil => cases he
  | cons r rs ih =>
    rw [performAll_cons] at he
    cases run : r.perform c with
    | mk result c' j =>
      rw [run] at he
      cases result with
      | ok a =>
        rw [trace_of_ok run]
        refine List.mem_cons_of_mem _ (List.mem_append.2 ?_)
        exact (List.mem_append.1 he).imp List.mem_map_of_mem ih
      | error f =>
        rw [trace_of_error run]
        exact List.mem_cons_of_mem _ (List.mem_map_of_mem he)

/-- One request more: what is due after it is renewed. -/
theorem Done.renewed (d : r.Done c c' j) (h : c.tables.Coherent) (plain : ∀ t, r ≠ .restore t)
    (n : c.tables.Due g → Renewed g tr) (due : c'.tables.Due g) :
    Renewed g (tr ++ .call r :: j.map .event) := by
  have unstored : ∀ e ∈ j, ¬ e.StoresTo g := fun e he s =>
    Tables.not_due_of_home (d.of_store h he s).2 due
  rcases d.renews_of_pending h plain due.ne_zero due.pending with renews | ⟨p, quiet⟩
  · exact .of_call tr renews (quiet_events unstored)
  · refine (n ⟨due.ne_zero, p⟩).append ?_
    intro m hm
    rcases List.mem_cons.1 hm with rfl | hm
    · exact quiet
    · exact quiet_events unstored m hm

/-- The start of a block stores nothing. -/
theorem Done.not_settles_of_store (d : r.Done c c' j) (he : e ∈ j) (s : e.StoresTo g) :
    ¬ (Mark.call r).Settles g := by
  cases r with
  | start oracle pc =>
    cases d
    obtain rfl := List.mem_singleton.1 he
    exact nomatch s.choose_spec
  | _ => exact id

/-- What a request stores was renewed before it. -/
theorem Done.renewed_of_store {j₁ j₂ : List Event} (d : r.Done c c' (j₁ ++ e :: j₂))
    (h : c.tables.Coherent) (n : c.tables.Due g → Renewed g tr) (s : e.StoresTo g) :
    Renewed g (tr ++ .call r :: j₁.map .event) := by
  have he : e ∈ j₁ ++ e :: j₂ := List.mem_append_right j₁ List.mem_cons_self
  refine (n (d.of_store h he s).1).append ?_
  intro m hm
  rcases List.mem_cons.1 hm with rfl | hm
  · exact d.not_settles_of_store he s
  · refine quiet_events ?_ m hm
    intro e' he' s'
    exact (List.pairwise_append.1 d.storesOnce).2.2 e' he' e List.mem_cons_self g s' s

/-- **Along a run** from a cache in which whatever is due is renewed, so is what is stored. -/
theorem renewed_of_trace (h : c.tables.Coherent) (plain : ∀ r ∈ rs, ∀ t, r ≠ .restore t)
    (n : c.tables.Due g → Renewed g tr) (at_e : trace rs c = before ++ .event e :: after)
    (s : e.StoresTo g) : Renewed g (tr ++ before) := by
  induction rs generalizing c tr before with
  | nil => simp [trace] at at_e
  | cons r rs ih =>
    have plain_r := plain r List.mem_cons_self
    rcases perform_cases h r with ⟨a, c', j, run, d⟩ | ⟨f, c', run, -⟩
    · rw [trace_of_ok run] at at_e
      cases before with
      | nil => cases at_e
      | cons m before =>
        obtain ⟨rfl, tail⟩ := List.cons.inj at_e
        rcases split_events tail with ⟨j₁, j₂, rfl, rfl⟩ | ⟨before, rfl, later⟩
        · exact d.renewed_of_store h n s
        · have rest := ih (coherent_of_run h plain_r run)
            (fun q hq => plain q (List.mem_cons_of_mem r hq)) (d.renewed h plain_r n) later
          simpa using rest
    · rw [trace_of_error run] at at_e
      cases before with
      | nil => cases at_e
      | cons m before => simp at at_e

/-! ## Flushing twice -/

/-- After a flush nothing is away from home, and a flush of such a cache moves nothing. -/
theorem Done.of_flush (d : r.Done c c' j) (last : r.Flushes) :
    c'.tables = .fresh ∧ (c.tables = .fresh → movesOf j = []) := by
  have still : GuestReg.all.tail.flatMap Tables.fresh.storesOf = [] := by
    rw [List.flatMap_eq_nil_iff]
    intro g hg
    have ne_zero : ∀ g ∈ GuestReg.all.tail, g ≠ .zero := by decide
    exact Tables.storesOf_of_home (Tables.binds_fresh (ne_zero g hg))
  have of_flush {c' : Cache} {j : List Event} (d : Done c .flush c' j) :
      c'.tables = .fresh ∧ (c.tables = .fresh → movesOf j = []) := by
    cases d
    refine ⟨rfl, ?_⟩
    intro fresh
    rw [fresh, still]
    rfl
  cases last with
  | flush => exact of_flush d
  | flushBeforeCall =>
    cases d with
    | flushBeforeCall d => exact of_flush d

theorem movesOf_second_flush {f₁ f₂ : Request} (h : c.tables.Coherent)
    (flush₁ : f₁.Flushes) (flush₂ : f₂.Flushes) :
    movesOf (performAll [f₁, f₂] c).journal = movesOf (performAll [f₁] c).journal := by
  rw [performAll_cons, performAll_cons]
  rcases perform_cases h f₁ with ⟨a, c₁, j₁, run₁, d₁⟩ | ⟨f, c₁, run₁, -⟩
  · have fresh := (d₁.of_flush flush₁).1
    have h₁ : c₁.tables.Coherent := fresh ▸ Tables.coherent_fresh
    rw [run₁, Outcome.andThen_ok, Outcome.andThen_ok, performAll_cons]
    rcases perform_cases h₁ f₂ with ⟨a, c₂, j₂, run₂, d₂⟩ | ⟨f, c₂, run₂, -⟩
    · rw [run₂, Outcome.andThen_ok, Outcome.journal_after, Outcome.journal_after,
        movesOf_append, movesOf_append, Outcome.journal_after, movesOf_append,
        (d₂.of_flush flush₂).2 fresh]
      rfl
    · rw [run₂]
      rfl
  · rw [run₁]
    rfl

end Request

end Histories

namespace Request

/-- **No spurious write-back.** Along any run from the start of a block, each store to the home of
a guest register comes after a request that renewed the register, with no store to that home and no
start of a block between the two. So a register that no request renews is never stored, and of two
flushes in a row the second moves nothing. -/
theorem store_renewed {rs : List Request} (plain : ∀ r ∈ rs, ∀ t, r ≠ .restore t)
    (oracle : UsageOracle) (pc : Word) (c : Cache) (g : GuestReg) :
    (∀ before e after, trace (.start oracle pc :: rs) c = before ++ .event e :: after →
      e.StoresTo g → ∃ earlier r since, before = earlier ++ .call r :: since ∧ r.Renews g ∧
        ∀ m ∈ since, ¬ m.Settles g) ∧
    ((∀ r ∈ rs, ¬ r.Renews g) →
      ∀ e ∈ (performAll (.start oracle pc :: rs) c).journal, ¬ e.StoresTo g) ∧
    ∀ f₁ f₂ : Request, f₁.Flushes → f₂.Flushes →
      movesOf (performAll (.start oracle pc :: rs ++ [f₁, f₂]) c).journal =
        movesOf (performAll (.start oracle pc :: rs ++ [f₁]) c).journal := by
  have start := perform_start oracle pc c
  have justified : ∀ before e after,
      trace (.start oracle pc :: rs) c = before ++ .event e :: after →
        e.StoresTo g → Renewed g before := by
    intro before e after at_e s
    rw [trace_of_ok start] at at_e
    cases before with
    | nil => cases at_e
    | cons m before =>
      obtain ⟨rfl, tail⟩ := List.cons.inj at_e
      rcases split_events tail with ⟨j₁, j₂, first, -⟩ | ⟨before, rfl, later⟩
      · have he : e ∈ [Event.start pc] := first ▸ List.mem_append_right j₁ List.mem_cons_self
        obtain rfl := List.mem_singleton.1 he
        exact nomatch s.choose_spec
      · have nothing : (started c oracle pc).tables.Due g →
            Renewed g [.call (.start oracle pc), .event (.start pc)] :=
          fun due => absurd due Tables.not_due_fresh
        exact renewed_of_trace (coherent_started c oracle pc) plain nothing later s
  refine ⟨justified, ?_, ?_⟩
  · intro never e he s
    obtain ⟨before, after, at_e⟩ := List.append_of_mem (event_mem_trace he)
    obtain ⟨earlier, r, since, rfl, renews, -⟩ := justified before e after at_e s
    have called : .call r ∈ trace (.start oracle pc :: rs) c := by
      rw [at_e]
      simp
    rcases List.mem_cons.1 (call_mem_trace called) with rfl | hr
    · cases renews
    · exact never r hr renews
  · intro f₁ f₂ flush₁ flush₂
    rw [performAll_append, performAll_append, performAll_start]
    cases run : performAll rs (started c oracle pc) with
    | mk result c' j =>
      cases result with
      | error f => rfl
      | ok a =>
        have h' : c'.tables.Coherent := by
          have kept := coherent_of_performAll (coherent_started c oracle pc) plain (by rw [run])
          rwa [run] at kept
        simp only [Outcome.after_mk, Outcome.andThen_ok, Outcome.journal_after, movesOf_append,
          movesOf_second_flush h' flush₁ flush₂]

/-- A constant is stored out of the register that it was mapped to, while a register that is only
mapped clean is sent home and mapped again without a store. -/
theorem store_renewed_of_constant :
    let rs : List Request := [.setConst ⟨4⟩ 7, .mapGuest ⟨4⟩ true false, .mapGuest ⟨5⟩ true false,
      .writeBack ⟨5⟩, .mapGuest ⟨5⟩ true false, .evict .rbp]
    (∃ before after, trace (.start noUsage 0 :: rs) .fresh =
        before ++ .event (.store ⟨4⟩ (.reg .rbp)) :: after ∧
      ∃ earlier r since, before = earlier ++ .call r :: since ∧ r.Renews ⟨4⟩ ∧
        ∀ m ∈ since, ¬ m.Settles ⟨4⟩) ∧
    (∀ e ∈ (performAll (.start noUsage 0 :: rs) .fresh).journal, ¬ e.StoresTo ⟨5⟩) ∧
    movesOf (performAll (.start noUsage 0 :: rs ++ [.flush, .flush]) .fresh).journal =
      movesOf (performAll (.start noUsage 0 :: rs ++ [.flush]) .fresh).journal := by
  intro rs
  have plain : ∀ r ∈ rs, ∀ t, r ≠ .restore t := by
    rintro r hr t rfl
    simp [rs] at hr
  have clean : ∀ r ∈ rs, ¬ r.Renews ⟨5⟩ := by
    intro r hr renews
    cases renews <;> simp [rs] at hr
  have stored : .store ⟨4⟩ (.reg .rbp) ∈ (performAll (.start noUsage 0 :: rs) .fresh).journal := by
    decide +kernel
  obtain ⟨before, after, at_store⟩ := List.append_of_mem (event_mem_trace stored)
  refine ⟨⟨before, after, at_store, ?_⟩, ?_, ?_⟩
  · exact (store_renewed plain noUsage 0 .fresh ⟨4⟩).1 before _ after at_store ⟨_, rfl⟩
  · exact (store_renewed plain noUsage 0 .fresh ⟨5⟩).2.1 clean
  · exact (store_renewed plain noUsage 0 .fresh ⟨5⟩).2.2 .flush .flush .flush .flush

end Request

end Dynarec
