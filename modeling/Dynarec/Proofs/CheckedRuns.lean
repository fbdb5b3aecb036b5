import Dynarec.Proofs.CheckedTables
import Dynarec.Proofs.Sequences

/-!
# Requests on tables that pass the check

From checked tables a request of `Request.Transfers` moves the tables by changes, is refused for a
reason of its own, or stops with an internal fault that tables on the way bring about
(`CacheM.Reached`, `Request.reached_perform`). So do such requests in a row
(`Request.reached_performAll`), and a recompiler follows the cache in this as long as the code can
be emitted (`RecompilerM.requestAll_follows`).
-/

namespace Dynarec

open Journal

namespace Tables

variable {t : Tables} {g : GuestReg} {x : HostReg}

theorem intruder?_some {h : GuestReg} (found : t.intruder? x g = some h) :
    g ≠ h ∧ (t.guest h).place = .reg x := by
  have here := List.find?_some found
  simp only [Bool.and_eq_true, bne_iff_ne, beq_iff_eq] at here
  exact ⟨Ne.symm here.1, here.2⟩

theorem intruder?_none (alone : t.intruder? x g = none) (h : GuestReg) (hne : g ≠ h) :
    (t.guest h).place ≠ .reg x := by
  intro place
  have here := List.find?_eq_none.1 alone h h.mem_all
  simp [place, Ne.symm hne] at here

@[simp] theorem intruder?_setHost (t : Tables) (s : HostSlot) (y : HostReg) :
    (t.setHost y s).intruder? x g = t.intruder? x g := rfl

end Tables

namespace CacheM

variable {α β : Type} {c c' : Cache} {t u : Tables} {g : GuestReg} {x : HostReg}

/-! ## Outcomes -/

/-- The outcome of a computation that set out from `t`. -/
inductive Reached (t : Tables) : Outcome Fault Cache Event α → Prop where
  | done {a : α} {c : Cache} {j : List Event} (changes : t.Changes c.tables) :
      Reached t ⟨.ok a, c, j⟩
  | refused {f : Fault} {c : Cache} {j : List Event} (external : f.internal = false) :
      Reached t ⟨.error f, c, j⟩
  | contradicted {f : Fault} {c : Cache} {j : List Event} {u : Tables} (changes : t.Changes u)
      (contradicts : u.Contradicts f) : Reached t ⟨.error f, c, j⟩

namespace Reached

variable {o : Outcome Fault Cache Event α} {j : List Event} {f : Fault}

theorem of_changes (s : t.Changes u) (r : Reached u o) : Reached t o := by
  cases r with
  | done changes => exact .done (s.trans changes)
  | refused external => exact .refused external
  | contradicted changes contradicts => exact .contradicted (s.trans changes) contradicts

theorem after (r : Reached t o) (j : List Event) : Reached t (o.after j) := by
  cases r with
  | done changes => exact .done changes
  | refused external => exact .refused external
  | contradicted changes contradicts => exact .contradicted changes contradicts

theorem andThen {k : α → CacheM β} (r : Reached t o)
    (rest : ∀ a c, t.Changes c.tables → Reached c.tables (k a c)) : Reached t (o.andThen k) := by
  cases r with
  | done changes => exact ((rest _ _ changes).of_changes changes).after _
  | refused external => exact .refused external
  | contradicted changes contradicts => exact .contradicted changes contradicts

theorem of_ok {a : α} (r : Reached t o) (done : o.result = .ok a) : t.Changes o.state.tables := by
  cases r with
  | done changes => exact changes
  | refused _ | contradicted _ _ => cases done

theorem of_error (r : Reached t o) (stopped : o.result = .error f) (internal : f.internal = true) :
    ∃ u, t.Changes u ∧ u.Contradicts f := by
  cases r with
  | done _ => cases stopped
  | refused external =>
    cases stopped
    exact nomatch internal.symm.trans external
  | contradicted changes contradicts =>
    cases stopped
    exact ⟨_, changes, contradicts⟩

end Reached

theorem reached_pure (a : α) (c : Cache) : Reached c.tables ((pure a : CacheM α) c) :=
  .done .refl

theorem reached_writeBack (g : GuestReg) (c : Cache) : Reached c.tables (writeBack g c) := by
  rw [writeBack_run]
  exact .done (.single (.unbind (Tables.unbinds_release c.tables g)))

/-! ## Making room -/

/-- A host register without an owner may be handed out. -/
theorem offered_of_no_owner (k : c.tables.Checked) (allocatable : x ∈ HostReg.allocationOrder)
    (unlocked : (c.tables.host x).locked = false) (none : (c.tables.host x).owner = none) :
    c.tables.Offered x := by
  refine ⟨allocatable, unlocked, ?_, ?_⟩
  · intro g mapped
    obtain ⟨-, owner, -⟩ := k.mapped mapped
    exact nomatch none.symm.trans owner
  · intro g owner
    exact nomatch none.symm.trans owner

theorem offered_of_free (k : c.tables.Checked) (hf : c.freeHost? = some x) :
    c.tables.Offered x := by
  obtain ⟨allocatable, unlocked, free⟩ := Cache.freeHost?_some hf
  exact offered_of_no_owner k allocatable unlocked (k.vacant free).1

theorem offered_of_unowned (k : c.tables.Checked) {unusedOnly : Bool}
    (hv : c.victim? unusedOnly = some x) (unowned : (c.tables.host x).owner = none) :
    c.tables.Offered x := by
  obtain ⟨allocatable, unlocked, -⟩ := Cache.victim?_some hv
  exact offered_of_no_owner k allocatable unlocked unowned

/-- A victim may be handed out once its owner is sent home, mapped to it or not. -/
theorem offered_of_spilled (k : c.tables.Checked) {unusedOnly : Bool}
    (hv : c.victim? unusedOnly = some x) (owner : (c.tables.host x).owner = some g) :
    (c.tables.release g).Offered x := by
  obtain ⟨allocatable, unlocked, kept⟩ := Cache.victim?_some hv
  have n := Tables.unbinds_release c.tables g
  have k' := k.unbind n
  -- if `g` was mapped elsewhere or at home, `x` is left with it as its owner
  have left (h : GuestReg) (owner' : ((c.tables.release g).host x).owner = some h) : g = h := by
    by_cases mapped : c.tables.hostOf? g = some x
    · rw [n.freed x mapped] at owner'
      cases owner'
    · rw [n.host x mapped, owner] at owner'
      exact Option.some.inj owner'
  refine ⟨allocatable, ?_, ?_, ?_⟩
  · rw [Tables.host_release]
    split <;> exact unlocked
  · intro h mapped
    obtain ⟨-, owner', -⟩ := k'.mapped mapped
    obtain rfl := left h owner'
    exact nomatch n.unmapped.symm.trans mapped
  · intro h owner'
    obtain rfl := left h owner'
    rw [n.locked]
    simp only [Cache.keepsOwner, owner, Bool.or_eq_false_iff] at kept
    exact kept.1

theorem acquire_offers (k : c.tables.Checked) :
    (∃ x c' j, acquire c = ⟨.ok x, c', j⟩ ∧ c.tables.Changes c'.tables ∧ c'.tables.Offered x ∧
      ∀ g, c.tables.hostOf? g = none → c'.tables.hostOf? g = none) ∨
    acquire c = ⟨.error .outOfRegisters, c, []⟩ := by
  cases hf : c.freeHost? with
  | some x =>
    exact .inl ⟨x, c, [], acquire_of_free hf, .refl, offered_of_free k hf, fun _ => id⟩
  | none =>
    cases hv : (c.victim? true).or (c.victim? false) with
    | none => exact .inr (acquire_of_none hf hv)
    | some x =>
      obtain ⟨b, hb⟩ := Cache.victim_some hv
      have run := acquire_of_victim hf hv
      rw [spill_run] at run
      cases owner : (c.tables.host x).owner with
      | none =>
        rw [owner] at run
        exact .inl ⟨x, c, [], run, .refl, offered_of_unowned k hb owner, fun _ => id⟩
      | some g =>
        rw [owner] at run
        have n := Tables.unbinds_release c.tables g
        exact .inl ⟨x, _, _, run, .single (.unbind n), offered_of_spilled k hb owner,
          fun h => n.hostOf?_eq_none⟩

theorem reached_acquire (k : c.tables.Checked) : Reached c.tables (acquire c) := by
  rcases acquire_offers k with ⟨x, c', j, run, changes, -⟩ | run
  · rw [run]
    exact .done changes
  · rw [run]
    exact .refused rfl

/-! ## Mapping -/

theorem claim_of_dirty (dirty : (c.tables.host x).dirty = true) (g : GuestReg) (d : Bool) :
    claim x g d c = ⟨.error (.hostAlreadyDirty x), c, []⟩ := by
  simp [claim, dirty]

theorem claim_of_clean (clean : (c.tables.host x).dirty = false)
    (unlocked : (c.tables.host x).locked = false) (g : GuestReg) (d : Bool) :
    claim x g d c = ⟨.ok (), c.mapTables (·.setHost x ⟨false, d, some g, false⟩), []⟩ := by
  simp [claim, clean, unlocked]

theorem occupy_of_dirty {j : List Event} (run : acquire c = ⟨.ok x, c', j⟩)
    (dirty : (c'.tables.host x).dirty = true) (g : GuestReg) (src : Operand) (load d : Bool) :
    occupy g src load d c = ⟨.error (.hostAlreadyDirty x), c', j⟩ := by
  simp [occupy, run, claim_of_dirty dirty]

theorem occupy_of_intruder {j : List Event} {h : GuestReg} (run : acquire c = ⟨.ok x, c', j⟩)
    (clean : (c'.tables.host x).dirty = false) (unlocked : (c'.tables.host x).locked = false)
    (found : c'.tables.intruder? x g = some h) (src : Operand) (load d : Bool) :
    ∃ s j', occupy g src load d c = ⟨.error (.aliasedHost x g h), s, j'⟩ := by
  cases load <;> simp [occupy, run, claim_of_clean clean unlocked, found]

theorem occupy_of_alone {j : List Event} (run : acquire c = ⟨.ok x, c', j⟩)
    (clean : (c'.tables.host x).dirty = false) (unlocked : (c'.tables.host x).locked = false)
    (alone : c'.tables.intruder? x g = none) (src : Operand) (load d : Bool) :
    ∃ j', occupy g src load d c =
      ⟨.ok (), c'.mapTables (·.bind g x (d || src.isImm)), j'⟩ := by
  cases load <;>
    simp [occupy, run, claim_of_clean clean unlocked, alone, Tables.bind, Cache.mapTables]

/-- What comes of mapping to the host register that is handed out. -/
theorem occupy_cases {j : List Event} (run : acquire c = ⟨.ok x, c', j⟩)
    (unlocked : (c'.tables.host x).locked = false) (g : GuestReg) (src : Operand)
    (load d : Bool) :
    ((c'.tables.host x).dirty = true ∧
      occupy g src load d c = ⟨.error (.hostAlreadyDirty x), c', j⟩) ∨
    (∃ h s j', (c'.tables.guest h).place = .reg x ∧
      occupy g src load d c = ⟨.error (.aliasedHost x g h), s, j'⟩) ∨
    ∃ j', (c'.tables.host x).dirty = false ∧
      (∀ h, g ≠ h → (c'.tables.guest h).place ≠ .reg x) ∧
      occupy g src load d c = ⟨.ok (), c'.mapTables (·.bind g x (d || src.isImm)), j'⟩ := by
  cases dirty : (c'.tables.host x).dirty with
  | true => exact .inl ⟨rfl, occupy_of_dirty run dirty g src load d⟩
  | false =>
    cases found : c'.tables.intruder? x g with
    | some h =>
      obtain ⟨s, j', stopped⟩ := occupy_of_intruder run dirty unlocked found src load d
      exact .inr (.inl ⟨h, s, j', (Tables.intruder?_some found).2, stopped⟩)
    | none =>
      obtain ⟨j', bound⟩ := occupy_of_alone run dirty unlocked found src load d
      exact .inr (.inr ⟨j', rfl, Tables.intruder?_none found, bound⟩)

theorem reached_occupy (k : c.tables.Checked) (unmapped : c.tables.hostOf? g = none)
    (src : Operand) (load dirty : Bool) : Reached c.tables (occupy g src load dirty c) := by
  rcases acquire_offers k with ⟨x, c', j, run, changes, offered, still⟩ | run
  · rcases occupy_cases run offered.unlocked g src load dirty with
      ⟨hd, stopped⟩ | ⟨h, s, j', place, stopped⟩ | ⟨j', -, alone, bound⟩
    · rw [stopped]
      exact .contradicted changes (.hostAlreadyDirty offered hd)
    · rw [stopped]
      exact .contradicted changes (.aliasedHost offered place)
    · rw [bound]
      exact .done (changes.tail (.bind (dirty || src.isImm) (still g unmapped) alone))
  · rw [occupy_of_full run]
    exact .refused rfl

theorem reached_checkBound (g : GuestReg) (c : Cache) : Reached c.tables (checkBound g c) := by
  cases mapped : c.tables.hostOf? g with
  | some x =>
    rw [checkBound_run mapped]
    split
    · exact .refused rfl
    · exact .done .refl
  | none =>
    simp only [checkBound, bind_run, hostOf_of_unmapped mapped, Outcome.andThen_error]
    exact .refused rfl

/-- A slot that disagrees cannot be mapped. -/
theorem mapGuest_of_disagreeing (k : c.tables.Checked)
    (disagrees : (c.tables.guest g).agrees = false) (load dirty : Bool) :
    mapGuest g load dirty c = ⟨.error (.corruptSlot g), c, []⟩ := by
  unfold GuestSlot.agrees at disagrees
  cases place : (c.tables.guest g).place with
  | imm v =>
    have away := k.bound place
    simp [place, away] at disagrees
  | reg x =>
    simp only [place] at disagrees
    simp [mapGuest, place, disagrees]
  | mem a =>
    simp only [place, Bool.not_eq_false'] at disagrees
    simp [mapGuest, place, disagrees]

theorem reached_mapGuest (k : c.tables.Checked) (g : GuestReg) (load dirty : Bool) :
    Reached c.tables (mapGuest g load dirty c) := by
  cases agrees : (c.tables.guest g).agrees with
  | false =>
    rw [mapGuest_of_disagreeing k agrees]
    exact .contradicted .refl (.corruptSlot agrees)
  | true =>
    cases mapped : c.tables.hostOf? g with
    | some x =>
      rw [mapGuest_of_mapped mapped]
      split
      · exact .refused rfl
      · exact .done (.single (.markDirty dirty mapped))
    | none =>
      rw [mapGuest_of_agreeing agrees mapped]
      exact (reached_occupy k mapped _ load dirty).andThen fun _ c' _ => reached_checkBound g c'

theorem reached_materialize (k : c.tables.Checked) (g : GuestReg) (load dirty : Bool) :
    Reached c.tables (materialize g load dirty c) := by
  cases away : (c.tables.guest g).away with
  | false =>
    simp only [materialize, bind_run, read_run, Outcome.andThen_ok, Outcome.after_nil, away]
    exact reached_pure () c
  | true =>
    cases place : (c.tables.guest g).place with
    | imm v =>
      rw [materialize_of_const ⟨away, place⟩]
      exact reached_mapGuest k g load dirty
    | reg x =>
      have mapped := Tables.hostOf?_eq_some_iff.2 ⟨away, place⟩
      rw [materialize_of_mapped mapped]
      exact .done (.single (.markDirty dirty mapped))
    | mem a =>
      simp only [materialize, bind_run, read_run, Outcome.andThen_ok, Outcome.after_nil, away,
        place]
      exact reached_pure () c

/-! ## Flushing -/

theorem reached_flushGuest (g : GuestReg) (c : Cache) : Reached c.tables (flushGuest g c) := by
  cases away : (c.tables.guest g).away with
  | false =>
    simp only [flushGuest, bind_run, read_run, Outcome.andThen_ok, Outcome.after_nil, away]
    exact reached_pure () c
  | true =>
    cases place : (c.tables.guest g).place with
    | imm _ | reg _ =>
      simp only [flushGuest, bind_run, read_run, Outcome.andThen_ok, Outcome.after_nil, away, place]
      exact reached_writeBack g c
    | mem a =>
      simp only [flushGuest, bind_run, read_run, Outcome.andThen_ok, Outcome.after_nil, away, place]
      exact .contradicted .refl (.corruptSlot (by rw [GuestSlot.agrees, place, away]; rfl))

theorem reached_forM_flushGuest (gs : List GuestReg) (c : Cache) :
    Reached c.tables (gs.forM flushGuest c) := by
  induction gs generalizing c with
  | nil => exact reached_pure () c
  | cons g gs ih =>
    show Reached c.tables ((flushGuest g c).andThen fun _ => gs.forM flushGuest)
    exact (reached_flushGuest g c).andThen fun _ c' _ => ih c'

theorem reached_flush (c : Cache) : Reached c.tables (flush c) := by
  rcases checkUnlocked_cases c with ⟨check, -, -⟩ | ⟨f, check, left⟩
  · simp only [flush, bind_run, check, read_run, write_run, changeTables_run, Outcome.andThen_ok,
      Outcome.after_nil]
    have zero := Tables.Change.unbind (Tables.unbinds_setConst c.tables .zero 0)
    have rest := reached_forM_flushGuest GuestReg.all.tail (c.mapTables (·.setConst .zero 0))
    exact (rest.of_changes (.single zero)).after _
  · simp only [flush, bind_run, check, Outcome.andThen_error]
    exact .refused (by cases left <;> rfl)

theorem reached_evict (x : HostReg) (c : Cache) : Reached c.tables (evict x c) := by
  cases owner : (c.tables.host x).owner with
  | none =>
    rw [evict_of_vacant owner]
    exact reached_pure () c
  | some g =>
    simp only [evict, bind_run, read_run, Outcome.andThen_ok, Outcome.after_nil, owner]
    cases (c.tables.host x).free with
    | false => exact reached_writeBack g c
    | true => exact reached_pure () c

end CacheM

namespace Request

/-- The requests that bring values into host registers and send them home. -/
inductive Transfers : Request → Prop where
  | mapGuest (g : GuestReg) (load dirty : Bool) : Transfers (mapGuest g load dirty)
  | materialize (g : GuestReg) (load dirty : Bool) : Transfers (materialize g load dirty)
  | acquire : Transfers acquire
  | writeBack (g : GuestReg) : Transfers (writeBack g)
  | evict (x : HostReg) : Transfers (evict x)
  | flush : Transfers flush
  | flushBeforeCall : Transfers flushBeforeCall

variable {c : Cache} {r : Request} {rs : List Request}

open CacheM (Reached reached_pure)

theorem reached_silent {t : Tables} {m : CacheM Unit} (reached : Reached t (m c)) :
    Reached t (silent m c) :=
  reached.andThen fun _ c' _ => reached_pure none c'

/-- **One request.** -/
theorem reached_perform (k : c.tables.Checked) (transfers : r.Transfers) :
    Reached c.tables (r.perform c) := by
  cases transfers with
  | mapGuest g load dirty => exact reached_silent (CacheM.reached_mapGuest k g load dirty)
  | materialize g load dirty => exact reached_silent (CacheM.reached_materialize k g load dirty)
  | acquire => exact (CacheM.reached_acquire k).andThen fun x c' _ => reached_pure (some x) c'
  | writeBack g => exact reached_silent (CacheM.reached_writeBack g c)
  | evict x => exact reached_silent (CacheM.reached_evict x c)
  | flush | flushBeforeCall => exact reached_silent (CacheM.reached_flush c)

/-- **A run.** -/
theorem reached_performAll (k : c.tables.Checked) (transfers : ∀ r ∈ rs, r.Transfers) :
    Reached c.tables (performAll rs c) := by
  induction rs generalizing c with
  | nil => exact reached_pure () c
  | cons r rs ih =>
    rw [performAll_cons]
    refine (reached_perform k (transfers r List.mem_cons_self)).andThen fun _ c' changes => ?_
    exact ih (k.changes changes) fun s hs => transfers s (List.mem_cons_of_mem r hs)

end Request

/-! ## In the recompiler -/

theorem Assembler.emitEvent_ne_fault (a : Assembler) (e : Event) (f : Fault) :
    a.emitEvent e ≠ .error (.fault f) := by
  unfold emitEvent emitMove emitInstr emit onCode
  intro stopped
  repeat' split at stopped
  all_goals cases stopped

/-- Playing events is not what raises a fault. -/
theorem Assembler.play_ne_fault (a : Assembler) (es : List Event) (f : Fault) :
    (a.play es).2 ≠ .error (.fault f) := by
  induction es generalizing a with
  | nil => nofun
  | cons e es ih =>
    unfold play
    split
    · exact ih _
    · next f' stopped =>
      rintro ⟨⟩
      exact a.emitEvent_ne_fault e f stopped

namespace RecompilerM

/-- The outcome `o` of the recompiler follows the outcome `q` of the cache, or the code could not be
emitted. -/
inductive Follows {α : Type} (o : Outcome Failure Recompiler LogRecord α)
    (q : Outcome Fault Cache Event α) : Prop where
  | follows (result : o.result = q.result.mapError .fault) (state : o.state.cache = q.state)
  | unplayed (e : Failure) (stopped : o.result = .error e) (other : ∀ f, e ≠ .fault f)

theorem request_follows (r : Request) (t : Recompiler) :
    Follows (request r t) (r.perform t.cache) := by
  cases played : (t.assembler.play (r.perform t.cache).journal).2 with
  | ok a =>
    obtain ⟨result, state⟩ := request_of_played played
    exact .follows result (by rw [state])
  | error e =>
    refine .unplayed e (request_of_unplayed played) ?_
    rintro f rfl
    exact t.assembler.play_ne_fault _ f played

theorem requestAll_follows (rs : List Request) (t : Recompiler) :
    Follows (requestAll rs t) (Request.performAll rs t.cache) := by
  induction rs generalizing t with
  | nil => exact .follows rfl rfl
  | cons r rs ih =>
    rw [requestAll_cons, Request.performAll_cons]
    have head := request_follows r t
    cases made : request r t with
    | mk result t' log =>
      cases run : r.perform t.cache with
      | mk result' c j =>
        rw [made, run] at head
        cases head with
        | unplayed e stopped other =>
          cases stopped
          exact .unplayed e rfl other
        | follows same state =>
          cases state
          cases result' with
          | error f =>
            cases same
            exact .follows rfl rfl
          | ok a =>
            cases same
            cases ih t' with
            | follows result state => exact .follows result state
            | unplayed e stopped other => exact .unplayed e stopped other

namespace Follows

variable {α : Type} {o : Outcome Failure Recompiler LogRecord α} {q : Outcome Fault Cache Event α}

theorem of_fault (k : Follows o q) {f : Fault} (stopped : o.result = .error (.fault f)) :
    q.result = .error f := by
  cases k with
  | follows result state =>
    rw [result] at stopped
    cases e : q.result with
    | ok a =>
      rw [e] at stopped
      cases stopped
    | error f' =>
      rw [e] at stopped
      cases stopped
      rfl
  | unplayed e stopped' other =>
    rw [stopped'] at stopped
    cases stopped
    exact absurd rfl (other f)

theorem of_ok (k : Follows o q) {a : α} (done : o.result = .ok a) :
    q.result = .ok a ∧ o.state.cache = q.state := by
  cases k with
  | follows result state =>
    rw [result] at done
    cases e : q.result with
    | ok a' =>
      rw [e] at done
      cases done
      exact ⟨rfl, state⟩
    | error f =>
      rw [e] at done
      cases done
  | unplayed e stopped other =>
    rw [stopped] at done
    cases done

end Follows

end RecompilerM

end Dynarec
