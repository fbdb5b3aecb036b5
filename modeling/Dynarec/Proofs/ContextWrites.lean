import Dynarec.Proofs.ContextMemory

/-!
# Writes on both paths

The interpreter writes a guest register by field, generated code stores to its word. A
`ContextWrite` is one or the other, and `ContextWrite.perform?_eq` says that both have the effect
of `Context.set`, which in the image overwrites the bytes of one word (`Context.image_set`). So
after any writes in any order each register has the value last written to it, whichever path it
took and on whichever path it is read (`ContextWrite.both_paths_read_last`).
-/

namespace Dynarec

/-- A value that is written to a guest register. -/
inductive ContextWrite where
  /-- By field. -/
  | set (g : GuestReg) (v : Word)
  /-- By address. -/
  | store (g : GuestReg) (v : Word)

namespace ContextWrite

def guest : ContextWrite → GuestReg
  | set g _ | store g _ => g

def value : ContextWrite → Word
  | set _ v | store _ v => v

def perform? : ContextWrite → Context → Option Context
  | set g v, c => some (c.set g v)
  | store g v, c => c.store? g.displacement v

def performAll? (ws : List ContextWrite) (c : Context) : Option Context :=
  ws.foldlM (fun c w => w.perform? c) c

/-- The value last written to the register, if there is one. -/
def last? (ws : List ContextWrite) (g : GuestReg) : Option Word :=
  (ws.filter fun w => w.guest = g).getLast?.map value

end ContextWrite

/-! ## One write -/

namespace Context

theorem length_image (c : Context) : c.image.length = size := by
  have bytes : ∀ w ∈ c.words, w.bytes.length = 4 := fun w _ => w.length_bytes
  rw [image, List.length_flatMap, List.map_congr_left bytes, List.map_const', length_words]
  rfl

theorem image_set (c : Context) (g : GuestReg) (v : Word) :
    (c.set g v).image = overwrite c.image g.offset v.bytes := by
  rw [image, words_set, GuestReg.offset_eq, image, overwrite_flatMap (c.number_lt_length_words g)]

/-- Writing a guest register leaves the rest of the context alone. -/
theorem pc_downcount_set (c : Context) (g : GuestReg) (v : Word) :
    (c.set g v).pc = c.pc ∧ (c.set g v).downcount = c.downcount := by
  unfold set
  split
  · exact ⟨rfl, rfl⟩
  · rcases g.special_of_not_gpr ‹_› with rfl | rfl | rfl | rfl <;> exact ⟨rfl, rfl⟩

theorem get_fresh (g : GuestReg) : fresh.get g = 0 := by
  revert g
  decide

end Context

namespace ContextWrite

/-- **One write.** Both paths have the same effect. -/
theorem perform?_eq (w : ContextWrite) (c : Context) :
    w.perform? c = some (c.set w.guest w.value) := by
  cases w with
  | set g v => rfl
  | store g v => exact c.store?_displacement g v

/-! ## A run of writes -/

theorem performAll?_cons (w : ContextWrite) (ws : List ContextWrite) (c : Context) :
    performAll? (w :: ws) c = performAll? ws (c.set w.guest w.value) := by
  unfold performAll?
  rw [List.foldlM_cons, perform?_eq]
  rfl

/-- A later write of the same register counts for more. -/
theorem last?_cons (w : ContextWrite) (ws : List ContextWrite) (g : GuestReg) :
    last? (w :: ws) g = (last? ws g).or (if w.guest = g then some w.value else none) := by
  unfold last?
  by_cases e : w.guest = g
  · rw [List.filter_cons_of_pos (by simpa using e), List.getLast?_cons, if_pos e]
    cases (ws.filter fun w => w.guest = g).getLast? <;> rfl
  · rw [List.filter_cons_of_neg (by simpa using e), if_neg e, Option.or_none]

/-- **A run of writes** goes through. It leaves in each register the value last written there, or
the one from before, and changes no bytes but those of the words that are written. -/
theorem performAll?_eq (ws : List ContextWrite) (c : Context) :
    ∃ c', performAll? ws c = some c' ∧ (∀ g, c'.get g = (last? ws g).getD (c.get g)) ∧
      c'.image = ws.foldl (fun image w => Context.overwrite image w.guest.offset w.value.bytes)
        c.image ∧
      c'.pc = c.pc ∧ c'.downcount = c.downcount := by
  induction ws generalizing c with
  | nil => exact ⟨c, rfl, fun _ => rfl, rfl, rfl, rfl⟩
  | cons w ws ih =>
    obtain ⟨c', run, values, image, pc, downcount⟩ := ih (c.set w.guest w.value)
    obtain ⟨pc₁, downcount₁⟩ := c.pc_downcount_set w.guest w.value
    refine ⟨c', (performAll?_cons w ws c).trans run, ?_, ?_, pc.trans pc₁,
      downcount.trans downcount₁⟩
    · intro g
      rw [values, last?_cons, c.get_set]
      cases last? ws g with
      | some v => rfl
      | none => by_cases e : w.guest = g <;> simp [e]
    · rw [image, c.image_set, List.foldl_cons]

/-- **Both paths see one context.** After any writes to a new context, each by field or by address,
every guest register reads as the value last written to it, or 0 if there is none, by field and by
address. Every word that is accessed by address is aligned and lies inside the context, a write on
either path puts the bytes of its value there and changes no others, and the position and the
countdown stay as they were. -/
theorem both_paths_read_last (ws : List ContextWrite) :
    ∃ c, performAll? ws .fresh = some c ∧
      (∀ g : GuestReg, c.get g = (last? ws g).getD 0 ∧
        c.load? g.displacement = some ((last? ws g).getD 0)) ∧
      (∀ g : GuestReg, (Context.bias : Int) + g.displacement.toInt = g.offset ∧ g.offset % 4 = 0 ∧
        g.offset + 4 ≤ c.image.length) ∧
      c.image = ws.foldl (fun image w => Context.overwrite image w.guest.offset w.value.bytes)
        Context.fresh.image ∧
      c.pc = Context.fresh.pc ∧ c.downcount = Context.fresh.downcount := by
  obtain ⟨c, run, values, image, pc, downcount⟩ := performAll?_eq ws .fresh
  refine ⟨c, run, ?_, ?_, image, pc, downcount⟩
  · intro g
    have value : c.get g = (last? ws g).getD 0 := by
      rw [values, Context.get_fresh]
    exact ⟨value, by rw [c.load?_displacement, value]⟩
  · intro g
    rw [c.length_image]
    revert g
    decide

end ContextWrite

end Dynarec
