import Mathlib.Data.Nat.Count
import Dynarec.RegMask

/-!
# Masks as finite sets

`RegMask.members` is the set of numbers that a mask contains. The operations on bits are those on
sets: `union` and its like bit by bit, `dropFirst` because taking away one changes the lowest bit
and those below it (`RegMask.bits_sub_one`), `count` because the population count adds up the bits
one by one (`RegMask.cpopNatRec_eq_count`). A mask has no more than its members
(`RegMask.members_inj`), so listing them and collecting the list gives the mask back
(`RegMask.finite_set`).
-/

namespace Dynarec

namespace RegMask

/-- The numbers that are found in the mask. -/
def members (m : RegMask) : Finset Nat :=
  (Finset.range 64).filter fun r => m.contains? r = some true

variable {m n : RegMask} {r : Nat} {rs : List Nat}

theorem mem_members : r ∈ m.members ↔ m.has r = true := by
  rw [members, Finset.mem_filter, Finset.mem_range, contains?_iff]
  exact and_iff_right_of_imp lt_of_has

theorem lt_of_mem_members (h : r ∈ m.members) : r < 64 := lt_of_has (mem_members.1 h)

theorem members_inj : m.members = n.members ↔ m = n := by
  refine ⟨fun h => ?_, congrArg members⟩
  have bits : m.bits = n.bits := by
    apply BitVec.eq_of_getLsbD_eq
    intro i _
    rw [Bool.eq_iff_iff]
    exact mem_members.symm.trans ((Finset.ext_iff.1 h i).trans mem_members)
  cases m
  cases n
  exact congrArg mk bits

/-! ## Operations on sets -/

theorem members_empty : (empty : RegMask).members = ∅ := by
  ext r
  simp [mem_members, has_empty]

theorem members_union (m n : RegMask) : (m ∪ n).members = m.members ∪ n.members := by
  ext r
  simp [mem_members, has_union]

theorem members_inter (m n : RegMask) : (m ∩ n).members = m.members ∩ n.members := by
  ext r
  simp [mem_members, has_inter]

theorem members_diff (m n : RegMask) : (m \ n).members = m.members \ n.members := by
  ext r
  simp [mem_members, has_diff]

/-- The mask of one register. -/
def single (r : Nat) : RegMask := ⟨BitVec.twoPow 64 r⟩

theorem has_single (r s : Nat) : (single r).has s = (decide (r < 64) && decide (r = s)) :=
  BitVec.getLsbD_twoPow ..

theorem members_single (h : r < 64) : (single r).members = {r} := by
  ext s
  simp [mem_members, has_single, h, eq_comm]

theorem insert?_of_lt (m : RegMask) (h : r < 64) : m.insert? r = some (m ∪ single r) := by
  rw [insert?, bit?, if_pos h]
  rfl

theorem insert?_of_ge (m : RegMask) (h : 64 ≤ r) : m.insert? r = none := by
  rw [insert?, bit?, if_neg (Nat.not_lt.2 h), Option.map_none]

theorem erase?_of_lt (m : RegMask) (h : r < 64) : m.erase? r = some (m \ single r) := by
  rw [erase?, bit?, if_pos h]
  rfl

theorem members_union_single (m : RegMask) (h : r < 64) :
    (m ∪ single r).members = insert r m.members := by
  rw [members_union, members_single h, Finset.union_comm, Finset.singleton_union]

theorem members_diff_single (m : RegMask) (h : r < 64) :
    (m \ single r).members = m.members.erase r := by
  rw [members_diff, members_single h, Finset.sdiff_singleton_eq_erase]

/-- Every set of numbers below 64 has its mask. -/
theorem exists_members (s : Finset Nat) (h : ∀ r ∈ s, r < 64) : ∃ m : RegMask, m.members = s := by
  induction s using Finset.induction_on with
  | empty => exact ⟨empty, members_empty⟩
  | insert r s _ ih =>
    rw [Finset.forall_mem_insert] at h
    obtain ⟨m, hm⟩ := ih h.2
    exact ⟨m ∪ single r, by rw [members_union_single m h.1, hm]⟩

/-! ## Collecting a list -/

/-- Collecting a list into a mask adds those listed to what the mask has already. -/
theorem foldlM_insert?_eq_some_iff :
    rs.foldlM insert? m = some n ↔
      (∀ r ∈ rs, r < 64) ∧ n.members = m.members ∪ rs.toFinset := by
  induction rs generalizing m with
  | nil =>
    rw [List.foldlM_nil, List.toFinset_nil, Finset.union_empty, members_inj]
    simp [eq_comm]
  | cons r rs ih =>
    rw [List.foldlM_cons]
    rcases Nat.lt_or_ge r 64 with lt | ge
    · rw [insert?_of_lt m lt, Option.bind_eq_bind, Option.bind_some, ih,
        members_union_single m lt, List.forall_mem_cons, List.toFinset_cons, Finset.insert_union,
        Finset.union_insert, and_iff_right lt]
    · rw [insert?_of_ge m ge]
      refine iff_of_false nofun fun h => ?_
      exact Nat.not_lt.2 ge (h.1 r List.mem_cons_self)

theorem ofList?_eq_some_iff :
    ofList? rs = some m ↔ (∀ r ∈ rs, r < 64) ∧ m.members = rs.toFinset := by
  rw [ofList?, foldlM_insert?_eq_some_iff, members_empty, Finset.empty_union]

theorem ofList?_eq_none_iff : ofList? rs = none ↔ ∃ r ∈ rs, 64 ≤ r := by
  constructor
  · intro refused
    by_contra none
    have below : ∀ r ∈ rs, r < 64 := fun r hr => Nat.not_le.1 fun ge => none ⟨r, hr, ge⟩
    -- then there is a mask that the list gives
    obtain ⟨m, hm⟩ := exists_members rs.toFinset fun r hr => below r (List.mem_toFinset.1 hr)
    rw [ofList?_eq_some_iff.2 ⟨below, hm⟩] at refused
    cases refused
  · rintro ⟨r, hr, ge⟩
    rw [Option.eq_none_iff_forall_ne_some]
    intro m collected
    exact Nat.not_lt.2 ge ((ofList?_eq_some_iff.1 collected).1 r hr)

/-! ## The lowest member -/

theorem isEmpty_iff : m.isEmpty = true ↔ m.members = ∅ := by
  rw [← members_empty, members_inj, isEmpty, beq_iff_eq]
  cases m
  rw [empty, mk.injEq]

theorem bits_ne_zero (h : m.isEmpty = false) : m.bits ≠ 0#64 := by
  simpa [isEmpty] using h

/-- The number of the lowest bit. -/
theorem ctz_mem (h : m.isEmpty = false) : m.bits.ctz.toNat ∈ m.members :=
  mem_members.2 (BitVec.getLsbD_true_ctz_of_ne_zero (bits_ne_zero h))

theorem ctz_le (h : r ∈ m.members) : m.bits.ctz.toNat ≤ r := by
  by_contra below
  have clear := BitVec.getLsbD_false_of_lt_ctz (Nat.not_le.1 below)
  rw [mem_members, has, clear] at h
  cases h

/-- Below a power of two are the lower bits. -/
theorem getLsbD_twoPow_sub_one {k : Nat} (h : k < 64) (i : Nat) :
    (BitVec.twoPow 64 k - 1#64).getLsbD i = decide (i < k) := by
  have one : 1#64 ≤ BitVec.twoPow 64 k := by
    rw [BitVec.le_def, BitVec.toNat_twoPow_of_lt h]
    exact Nat.two_pow_pos k
  have value : (BitVec.twoPow 64 k - 1#64).toNat = 2 ^ k - 1 := by
    rw [BitVec.toNat_sub_of_le one, BitVec.toNat_twoPow_of_lt h, BitVec.toNat_ofNat]
  rw [BitVec.getLsbD, value, Nat.testBit_two_pow_sub_one]

/-- A mask is the rest of it and one of its members. -/
theorem bits_eq_rest_add (h : r ∈ m.members) :
    m.bits = (m \ single r).bits + BitVec.twoPow 64 r := by
  have apart : (m \ single r).bits &&& BitVec.twoPow 64 r = 0#64 := by
    show m.bits &&& ~~~BitVec.twoPow 64 r &&& BitVec.twoPow 64 r = 0#64
    rw [BitVec.and_assoc, BitVec.not_and_self]
    exact BitVec.and_zero
  have filled : m = (m \ single r) ∪ single r := by
    rw [← members_inj, members_union_single _ (lt_of_mem_members h),
      members_diff_single m (lt_of_mem_members h), Finset.insert_erase h]
  rw [BitVec.add_eq_or_of_and_eq_zero _ _ apart]
  exact congrArg bits filled

/-- Taking away one turns the lowest bit off and all below it on. -/
theorem bits_sub_one (h : m.isEmpty = false) :
    m.bits - 1#64 =
      (m \ single m.bits.ctz.toNat).bits ||| (BitVec.twoPow 64 m.bits.ctz.toNat - 1#64) := by
  let k := m.bits.ctz.toNat
  have lowest : k ∈ m.members := ctz_mem h
  -- no borrow goes past the lowest bit: the members of the rest lie above it
  have apart : (m \ single k).bits &&& (BitVec.twoPow 64 k - 1#64) = 0#64 := by
    apply BitVec.eq_of_getLsbD_eq
    intro i _
    rw [BitVec.getLsbD_and, getLsbD_twoPow_sub_one (lt_of_mem_members lowest), BitVec.getLsbD_zero,
      Bool.and_eq_false_iff, decide_eq_false_iff_not, ← Bool.not_eq_true, ← has, ← mem_members,
      members_diff_single m (lt_of_mem_members lowest), Finset.mem_erase]
    rcases Nat.lt_or_ge i k with lt | ge
    · exact .inl fun member => Nat.not_lt.2 (ctz_le member.2) lt
    · exact .inr (Nat.not_lt.2 ge)
  calc m.bits - 1#64
      = (m \ single k).bits + BitVec.twoPow 64 k - 1#64 := by rw [← bits_eq_rest_add lowest]
    _ = (m \ single k).bits + (BitVec.twoPow 64 k - 1#64) := by
      rw [BitVec.sub_eq_add_neg, BitVec.sub_eq_add_neg, BitVec.add_assoc]
    _ = (m \ single k).bits ||| (BitVec.twoPow 64 k - 1#64) :=
      BitVec.add_eq_or_of_and_eq_zero _ _ apart

/-- What a mask and its predecessor have in common are all members but the lowest. -/
theorem members_dropFirst (h : m.isEmpty = false) :
    m.dropFirst.members = m.members.erase m.bits.ctz.toNat := by
  have lt := lt_of_mem_members (ctz_mem h)
  rw [← members_diff_single m lt]
  ext r
  have bit : m.dropFirst.has r = (m.has r &&
      ((m \ single m.bits.ctz.toNat).has r || decide (r < m.bits.ctz.toNat))) := by
    show (m.bits &&& (m.bits - 1#64)).getLsbD r = _
    rw [BitVec.getLsbD_and, bits_sub_one h, BitVec.getLsbD_or, getLsbD_twoPow_sub_one lt]
    rfl
  rw [mem_members, bit, Bool.and_eq_true, Bool.or_eq_true, decide_eq_true_eq, ← mem_members,
    ← mem_members, members_diff_single m lt, Finset.mem_erase]
  constructor
  · rintro ⟨member, rest | lower⟩
    · exact rest
    · exact absurd (ctz_le member) (Nat.not_le.2 lower)
  · exact fun rest => ⟨rest.2, .inl rest⟩

/-! ## Listing the members -/

theorem toList_of_isEmpty (h : m.isEmpty = true) : m.toList = [] := by
  rw [toList, dif_pos h]

theorem toList_of_not_isEmpty (h : m.isEmpty = false) :
    m.toList = m.bits.ctz.toNat :: m.dropFirst.toList := by
  rw [toList, dif_neg (by rw [h]; exact Bool.false_ne_true)]

theorem toFinset_toList (m : RegMask) : m.toList.toFinset = m.members := by
  induction m using toList.induct with
  | case1 m vacant => rw [toList_of_isEmpty vacant, isEmpty_iff.1 vacant, List.toFinset_nil]
  | case2 m inhabited ih =>
    have inhabited := Bool.eq_false_iff.2 inhabited
    rw [toList_of_not_isEmpty inhabited, List.toFinset_cons, ih, members_dropFirst inhabited,
      Finset.insert_erase (ctz_mem inhabited)]

theorem mem_toList : r ∈ m.toList ↔ r ∈ m.members := by
  rw [← toFinset_toList, List.mem_toFinset]

theorem ascending_toList (m : RegMask) : m.toList.Pairwise (· < ·) := by
  induction m using toList.induct with
  | case1 m vacant =>
    rw [toList_of_isEmpty vacant]
    exact .nil
  | case2 m inhabited ih =>
    have inhabited := Bool.eq_false_iff.2 inhabited
    rw [toList_of_not_isEmpty inhabited]
    refine .cons (fun r hr => ?_) ih
    rw [mem_toList, members_dropFirst inhabited, Finset.mem_erase] at hr
    exact Nat.lt_of_le_of_ne (ctz_le hr.2) (Ne.symm hr.1)

theorem head?_toList (m : RegMask) : m.toList.head? = m.first? := by
  cases h : m.isEmpty with
  | true =>
    rw [toList_of_isEmpty h, first?, if_pos h]
    rfl
  | false =>
    rw [toList_of_not_isEmpty h, first?, h]
    rfl

theorem toList_eq_nil_iff : m.toList = [] ↔ m.isEmpty = true := by
  rw [isEmpty_iff, ← toFinset_toList, List.toFinset_eq_empty_iff]

/-! ## Counting the members -/

/-- The population count of the lowest `k` bits. -/
theorem cpopNatRec_eq_count {w : Nat} (x : BitVec w) (k : Nat) :
    x.cpopNatRec k 0 = Nat.count (fun i => x.getLsbD i = true) k := by
  induction k with
  | zero => rfl
  | succ k ih =>
    rw [BitVec.cpopNatRec_succ, BitVec.cpopNatRec_eq, ih, Nat.count_succ, Nat.zero_add]
    cases x.getLsbD k <;> rfl

theorem count_eq_card (m : RegMask) : m.count = m.members.card := by
  rw [count, BitVec.toNat_cpop, cpopNatRec_eq_count, Nat.count_eq_card_filter_range, members]
  simp only [contains?_iff, has]

theorem length_toList (m : RegMask) : m.toList.length = m.count := by
  have once : m.toList.Nodup := (ascending_toList m).imp Nat.ne_of_lt
  rw [count_eq_card, ← toFinset_toList, List.toFinset_card_of_nodup once]

/-! ## The set of a mask -/

/-- **A mask is a finite set of the numbers 0 to 63.** Every set of such numbers is the set of
exactly one mask. Listing a mask gives its members, each once and in ascending order: `count` is
their number, `first?` the lowest, and collecting them gives the mask back. Collecting any list
fails just when one of it is 64 or more; else it gives the mask of those listed. The operations on
a mask are those on its set. -/
theorem finite_set :
    (∀ s : Finset Nat, (∀ r ∈ s, r < 64) → ∃! m : RegMask, m.members = s) ∧
    (∀ m : RegMask,
      m.toList.Pairwise (· < ·) ∧ (∀ r, r ∈ m.toList ↔ m.contains? r = some true) ∧
      m.toList.length = m.count ∧ m.toList.head? = m.first? ∧
      (m.toList = [] ↔ m.isEmpty = true) ∧ ofList? m.toList = some m) ∧
    (∀ rs : List Nat,
      (ofList? rs = none ↔ ∃ r ∈ rs, 64 ≤ r) ∧
      ∀ m, ofList? rs = some m → ∀ r, m.contains? r = some true ↔ r ∈ rs) ∧
    (∀ (m : RegMask) (r : Nat), r < 64 →
      m.contains? r = some (decide (r ∈ m.members)) ∧
      (∃ n, m.insert? r = some n ∧ n.members = insert r m.members) ∧
      ∃ n, m.erase? r = some n ∧ n.members = m.members.erase r) ∧
    ∀ m n : RegMask,
      (m ∪ n).members = m.members ∪ n.members ∧ (m ∩ n).members = m.members ∩ n.members ∧
      (m \ n).members = m.members \ n.members := by
  refine ⟨fun s below => ?_,
    fun m => ⟨ascending_toList m, fun r => ?_, length_toList m, head?_toList m,
      toList_eq_nil_iff, ?_⟩,
    fun rs => ⟨ofList?_eq_none_iff, fun m collected r => ?_⟩,
    fun m r lt => ⟨?_, ?_, ?_⟩,
    fun m n => ⟨members_union m n, members_inter m n, members_diff m n⟩⟩
  · obtain ⟨m, hm⟩ := exists_members s below
    exact ⟨m, hm, fun n hn => members_inj.1 (hn.trans hm.symm)⟩
  · rw [mem_toList, mem_members, contains?_iff]
  · exact ofList?_eq_some_iff.2
      ⟨fun r hr => lt_of_mem_members (mem_toList.1 hr), (toFinset_toList m).symm⟩
  · rw [contains?_iff, ← mem_members, (ofList?_eq_some_iff.1 collected).2, List.mem_toFinset]
  · rw [contains?_of_lt m lt, Option.some.injEq, Bool.eq_iff_iff, decide_eq_true_iff, mem_members]
  · exact ⟨_, insert?_of_lt m lt, members_union_single m lt⟩
  · exact ⟨_, erase?_of_lt m lt, members_diff_single m lt⟩

/-- The lowest and the highest number, one of them listed twice. -/
theorem finite_set_of_ends :
    (∃! m : RegMask, m.members = {0, 63}) ∧
    (∀ r, (⟨0x8000000000000001⟩ : RegMask).contains? r = some true ↔ r ∈ [63, 0, 63]) ∧
    ∃ n, (⟨0x8000000000000001⟩ : RegMask).erase? 63 = some n ∧
      n.members = (⟨0x8000000000000001⟩ : RegMask).members.erase 63 := by
  obtain ⟨unique, -, collected, one, -⟩ := finite_set
  exact ⟨unique {0, 63} (by decide), (collected [63, 0, 63]).2 _ (by decide),
    (one _ 63 (by decide)).2.2⟩

end RegMask

end Dynarec
