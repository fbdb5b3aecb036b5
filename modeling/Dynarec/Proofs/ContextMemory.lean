import Dynarec.Guest.Context

/-!
# The guest context as memory

A guest register's word of the context is where `GuestReg.displacement` says:
`Context.load?_displacement` and `Context.store?_displacement` show that the
memory path is `get` and `set`. `get_set` is the register file law.
-/

namespace Dynarec

namespace Context

/-! ## Words and bytes -/

theorem wordAt_flatMap {ws : List Word} {i : Nat} (h : i < ws.length) :
    wordAt (ws.flatMap Word.bytes) (4 * i) = ws[i] := by
  induction ws generalizing i with
  | nil => simp at h
  | cons w ws ih =>
    cases i with
    | zero => simp [wordAt, Word.bytes, Word.ofBytes_extract]
    | succ i =>
      have hd : ((w :: ws).flatMap Word.bytes).drop (4 * (i + 1)) =
          (ws.flatMap Word.bytes).drop (4 * i) := by
        rw [List.flatMap_cons, Nat.mul_add, Nat.add_comm]
        simp [← List.drop_drop, Word.bytes]
      simp only [wordAt, hd, List.getElem_cons_succ]
      exact ih (by simpa using h)

theorem overwrite_flatMap {ws : List Word} {i : Nat} (h : i < ws.length) (v : Word) :
    overwrite (ws.flatMap Word.bytes) (4 * i) v.bytes = (ws.set i v).flatMap Word.bytes := by
  induction ws generalizing i with
  | nil => simp at h
  | cons w ws ih =>
    cases i with
    | zero => simp [overwrite, Word.bytes]
    | succ i =>
      have hi := ih (by simpa using h) (i := i)
      simp only [overwrite, Word.length_bytes] at hi ⊢
      rw [List.set_cons_succ, List.flatMap_cons, List.flatMap_cons, ← hi,
        show 4 * (i + 1) = w.bytes.length + 4 * i by simp; omega,
        show w.bytes.length + 4 * i + 4 = w.bytes.length + (4 * i + 4) by omega,
        List.take_length_add_append, List.drop_length_add_append]
      simp

theorem length_words (c : Context) : c.words.length = 38 := by simp [words]

theorem wordAt_image {c : Context} {i : Nat} {v : Word} (h : c.words[i]? = some v) :
    wordAt c.image (4 * i) = v := by
  obtain ⟨hi, hv⟩ := List.getElem?_eq_some_iff.1 h
  rw [image, wordAt_flatMap hi, hv]

theorem ofImage_image (c : Context) : ofImage c.image = c := by
  obtain ⟨gprs, hi, lo, fpcond, vfpucc, pc, downcount⟩ := c
  have special (i : Nat) (v : Word)
      (h : [hi, lo, fpcond, vfpucc, pc, downcount][i]? = some v) :
      wordAt (image ⟨gprs, hi, lo, fpcond, vfpucc, pc, downcount⟩) (4 * (32 + i)) = v := by
    apply wordAt_image
    rw [words, List.getElem?_append_right (by simp)]
    simpa using h
  simp only [ofImage, Context.mk.injEq]
  refine ⟨?_, special 0 hi rfl, special 1 lo rfl, special 2 fpcond rfl, special 3 vfpucc rfl,
    special 4 pc rfl, special 5 downcount rfl⟩
  refine Vector.ext fun i h => ?_
  rw [Vector.getElem_ofFn]
  apply wordAt_image
  rw [words, List.getElem?_append_left (by simpa using h)]
  simp [h]

end Context

theorem GuestReg.special_of_not_gpr (g : GuestReg) (h : ¬g.number < 32) :
    g = hi ∨ g = lo ∨ g = fpcond ∨ g = vfpucc := by
  revert g; decide

namespace Context

/-! ## By field and by address -/

theorem getElem?_words (c : Context) (g : GuestReg) : c.words[g.number]? = some (c.get g) := by
  unfold words get
  split
  · next h =>
    rw [List.getElem?_append_left (by simpa using h)]
    simp [h]
  · next h =>
    rw [List.getElem?_append_right (by simpa using h), Vector.length_toList]
    rcases g.special_of_not_gpr h with rfl | rfl | rfl | rfl <;> rfl

theorem words_set (c : Context) (g : GuestReg) (v : Word) :
    (c.set g v).words = c.words.set g.number v := by
  unfold set
  split
  · next h =>
    simp only [words]
    rw [List.set_append_left _ _ (by simpa using h), Vector.toList_set]
  · next h =>
    have tail : c.words.set g.number v = c.gprs.toList ++
        [c.hi, c.lo, c.fpcond, c.vfpucc, c.pc, c.downcount].set (g.number - 32) v := by
      rw [words, List.set_append_right _ _ (by simpa using h), Vector.length_toList]
    rw [tail]
    rcases g.special_of_not_gpr h with rfl | rfl | rfl | rfl <;> rfl

theorem number_lt_length_words (c : Context) (g : GuestReg) : g.number < c.words.length := by
  have := g.number_lt
  rw [length_words]
  omega

@[simp] theorem load?_displacement (c : Context) (g : GuestReg) :
    c.load? g.displacement = some (c.get g) := by
  rw [load?, GuestReg.address?_displacement, Option.map_some, GuestReg.offset_eq,
    wordAt_image (c.getElem?_words g)]

@[simp] theorem store?_displacement (c : Context) (g : GuestReg) (v : Word) :
    c.store? g.displacement v = some (c.set g v) := by
  rw [store?, GuestReg.address?_displacement, Option.map_some, GuestReg.offset_eq, image,
    overwrite_flatMap (c.number_lt_length_words g), ← words_set, ← image, ofImage_image]

theorem get_set (c : Context) (g h : GuestReg) (v : Word) :
    (c.set g v).get h = if g = h then v else c.get h := by
  have hs := (c.set g v).getElem?_words h
  rw [words_set] at hs
  split
  · next e =>
    subst e
    rw [List.getElem?_set_self (c.number_lt_length_words g)] at hs
    exact (Option.some.inj hs).symm
  · next e =>
    rw [List.getElem?_set_ne fun hn => e (GuestReg.ext_number hn), getElem?_words] at hs
    exact (Option.some.inj hs).symm

end Context

end Dynarec
