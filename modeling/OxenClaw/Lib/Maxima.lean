import Mathlib.Data.List.Forall2
import Mathlib.Order.Lattice

/-!
# The values that stand above all before them

Of a list of numbered values, those are kept whose number is above the last that was kept
(`climb`). What is kept last has the largest number so far, so that a value is kept exactly
where its number is above all before it (`IsRecord`). A list can be read off what is kept, from
first to last, when its values stand at such places (`sublist_climb_iff`).

The values may be read from the items of another list, of which not every one has a value.
-/

namespace Maxima

variable {ι α β : Type*} [LinearOrder ι] (read : α → Option (ι × β))

/-- The values above `last` and above all before them. -/
def climb (last : ι) : List (ι × β) → List β
  | [] => []
  | (n, b) :: l => if n ≤ last then climb last l else b :: climb n l

/-- The item at `p` reads as `b`, with a number above `last` and above all before it. -/
def IsRecord (last : ι) (items : List α) (p : ℕ) (b : β) : Prop :=
  ∃ a n, items[p]? = some a ∧ read a = some (n, b) ∧ last < n ∧
    ∀ j < p, ∀ a', items[j]? = some a' → ∀ m b', read a' = some (m, b') → m < n

variable {read} {last n : ι} {items : List α} {a : α} {b : β} {bs : List β} {p : ℕ}

theorem isRecord_zero_iff : IsRecord read last (a :: items) 0 b ↔
    ∃ n, read a = some (n, b) ∧ last < n := by
  simp [IsRecord]

/-- An item without a value is no matter. -/
theorem isRecord_succ_of_none (h : read a = none) :
    IsRecord read last (a :: items) (p + 1) b ↔ IsRecord read last items p b := by
  constructor
  · rintro ⟨a', n, ha', hread, hlast, hall⟩
    exact ⟨a', n, ha', hread, hlast, fun j hj => hall (j + 1) (by omega)⟩
  · rintro ⟨a', n, ha', hread, hlast, hall⟩
    refine ⟨a', n, ha', hread, hlast, fun j hj a'' ha'' m b' hm => ?_⟩
    rcases j with _ | j
    · cases ha''
      cases h.symm.trans hm
    · exact hall j (by omega) a'' ha'' m b' hm

/-- What follows a value has to be above it too. -/
theorem isRecord_succ_of_some (h : read a = some (n, b)) {b' : β} :
    IsRecord read last (a :: items) (p + 1) b' ↔ IsRecord read (max last n) items p b' := by
  constructor
  · rintro ⟨a', n', ha', hread, hlast, hall⟩
    exact ⟨a', n', ha', hread, max_lt hlast (hall 0 (by omega) a rfl n b h),
      fun j hj => hall (j + 1) (by omega)⟩
  · rintro ⟨a', n', ha', hread, hmax, hall⟩
    refine ⟨a', n', ha', hread, (le_max_left _ _).trans_lt hmax, fun j hj a'' ha'' m c hm => ?_⟩
    rcases j with _ | j
    · cases ha''
      cases h.symm.trans hm
      exact (le_max_right _ _).trans_lt hmax
    · exact hall j (by omega) a'' ha'' m c hm

/-- At `places`, from first to last, stand the records `bs`. -/
def RecordsAt (read : α → Option (ι × β)) (last : ι) (items : List α) (places : List ℕ)
    (bs : List β) : Prop :=
  places.Pairwise (· < ·) ∧ List.Forall₂ (IsRecord read last items) places bs

/-- Records that all stand behind the first item. -/
theorem exists_recordsAt_succ_iff {read' : α → Option (ι × β)} {last' : ι}
    (h : ∀ p b, IsRecord read last (a :: items) (p + 1) b ↔ IsRecord read' last' items p b) :
    (∃ places, (∀ p ∈ places, p ≠ 0) ∧ RecordsAt read last (a :: items) places bs) ↔
      ∃ places, RecordsAt read' last' items places bs := by
  constructor
  · rintro ⟨places, hpos, hsorted, hrecords⟩
    obtain ⟨places, rfl⟩ : ∃ l : List ℕ, places = l.map Nat.succ := by
      refine ⟨places.map Nat.pred, ?_⟩
      rw [List.map_map]
      exact (List.map_id' _).symm.trans
        (List.map_congr_left fun p hp => (Nat.succ_pred_eq_of_ne_zero (hpos p hp)).symm)
    refine ⟨places, ?_, ?_⟩
    · exact (List.pairwise_map.1 hsorted).imp Nat.lt_of_succ_lt_succ
    · exact (List.forall₂_map_left_iff.1 hrecords).imp fun p b hb => (h p b).1 hb
  · rintro ⟨places, hsorted, hrecords⟩
    refine ⟨places.map Nat.succ, by simp, ?_, ?_⟩
    · exact List.pairwise_map.2 (hsorted.imp Nat.succ_lt_succ)
    · exact List.forall₂_map_left_iff.2 (hrecords.imp fun p b hb => (h p b).2 hb)

/-- Records of which the first may stand at the first item. -/
theorem exists_recordsAt_iff : (∃ places, RecordsAt read last (a :: items) places bs) ↔
    (∃ places, (∀ p ∈ places, p ≠ 0) ∧ RecordsAt read last (a :: items) places bs) ∨
      ∃ b bs', bs = b :: bs' ∧ IsRecord read last (a :: items) 0 b ∧
        ∃ places, (∀ p ∈ places, p ≠ 0) ∧ RecordsAt read last (a :: items) places bs' := by
  constructor
  · rintro ⟨_ | ⟨p, places⟩, hsorted, hrecords⟩
    · exact .inl ⟨[], by simp, hsorted, hrecords⟩
    · have hlater : ∀ q ∈ places, q ≠ 0 := fun q hq =>
        Nat.ne_zero_of_lt (List.rel_of_pairwise_cons hsorted hq)
      rcases p with _ | p
      · obtain ⟨b, bs', hb, hrest, rfl⟩ := List.forall₂_cons_left_iff.1 hrecords
        exact .inr ⟨b, bs', rfl, hb, places, hlater, hsorted.of_cons, hrest⟩
      · refine .inl ⟨(p + 1) :: places, fun q hq => ?_, hsorted, hrecords⟩
        rcases List.mem_cons.1 hq with rfl | hq
        · exact p.succ_ne_zero
        · exact hlater q hq
  · rintro (⟨places, -, h⟩ | ⟨b, bs', rfl, hb, places, hpos, hsorted, hrecords⟩)
    · exact ⟨places, h⟩
    · have hfirst : (0 :: places).Pairwise (· < ·) :=
        List.pairwise_cons.2 ⟨fun q hq => Nat.pos_of_ne_zero (hpos q hq), hsorted⟩
      exact ⟨0 :: places, hfirst, .cons hb hrecords⟩

/-- What can be read off the values that are kept. -/
theorem sublist_climb_iff : bs.Sublist (climb last (items.filterMap read)) ↔
    ∃ places, RecordsAt read last items places bs := by
  induction items generalizing last bs with
  | nil =>
    rw [List.filterMap_nil, climb, List.sublist_nil]
    constructor
    · rintro rfl
      exact ⟨[], .nil, .nil⟩
    · rintro ⟨places, -, hrecords⟩
      rcases hrecords with _ | ⟨⟨a, n, ha, -⟩, -⟩
      · rfl
      · cases ha
  | cons a items ih =>
    rw [exists_recordsAt_iff]
    rcases hread : read a with _ | ⟨n, b⟩
    · -- no value here, and no record
      rw [List.filterMap_cons_none hread, ih,
        exists_recordsAt_succ_iff fun p b => isRecord_succ_of_none hread, or_iff_left]
      rintro ⟨b, bs', -, hb, -⟩
      obtain ⟨n, hn, -⟩ := isRecord_zero_iff.1 hb
      cases hread.symm.trans hn
    · have hsucc (bs : List β) : (∃ places, (∀ p ∈ places, p ≠ 0) ∧
          RecordsAt read last (a :: items) places bs) ↔
          ∃ places, RecordsAt read (max last n) items places bs :=
        exists_recordsAt_succ_iff fun p b' => isRecord_succ_of_some hread
      rw [List.filterMap_cons_some hread, climb, hsucc]
      split_ifs with hle
      · rw [ih, max_eq_left hle, or_iff_left]
        rintro ⟨b', bs', -, hb, -⟩
        obtain ⟨n', hn', hlt⟩ := isRecord_zero_iff.1 hb
        cases hread.symm.trans hn'
        exact hle.not_gt hlt
      · have hlt := not_le.1 hle
        rw [max_eq_right hlt.le, List.sublist_cons_iff, ih]
        refine or_congr_right ⟨?_, ?_⟩
        · rintro ⟨bs', rfl, hbs⟩
          refine ⟨b, bs', rfl, isRecord_zero_iff.2 ⟨n, hread, hlt⟩, (hsucc bs').2 ?_⟩
          rw [max_eq_right hlt.le]
          exact ih.1 hbs
        · rintro ⟨b', bs', rfl, hb, hrest⟩
          obtain ⟨n', hn', -⟩ := isRecord_zero_iff.1 hb
          cases hread.symm.trans hn'
          refine ⟨bs', rfl, ih.2 ?_⟩
          have := (hsucc bs').1 hrest
          rwa [max_eq_right hlt.le] at this

end Maxima
