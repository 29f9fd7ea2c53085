import Mathlib.Data.List.Induction
import Mathlib.Order.Lattice

/-!
# Items that replace one of their key

An item that is put into a list takes the first item with its key out, and goes to the end
(`put`). An item without a key takes nothing out. So the items of one key are a queue, from whose
front as many are taken as are put in (`group_putAll`), and its length stays
(`rotate_eq_drop`).

When the same items are put in twice, the second time may take out more. It leaves the same set
exactly if what it takes out is also further behind or among the items (`mem_putAll_twice_iff`) :
always, where a list has no more items of a key than are put in.
-/

namespace Replacing

variable {α κ : Type*}

/-! ## A queue -/

/-- Each item takes the place of the first. -/
def rotate (q xs : List α) : List α :=
  xs.foldl (fun q x => q.tail ++ [x]) q

theorem rotate_eq_drop (q xs : List α) :
    rotate q xs = (q ++ xs).drop (q.length + xs.length - max q.length 1) := by
  induction xs using List.reverseRecOn with
  | nil =>
    rw [rotate, List.foldl_nil, List.append_nil, List.length_nil,
      Nat.sub_eq_zero_of_le (by omega), List.drop_zero]
  | append_singleton xs x ih =>
    have hstep : rotate q (xs ++ [x]) = (rotate q xs).tail ++ [x] := by
      rw [rotate, List.foldl_append]
      rfl
    rw [hstep, ih, List.tail_drop, List.length_append, List.length_singleton, ← List.append_assoc]
    rcases Nat.eq_zero_or_pos (q.length + xs.length) with hzero | hpos
    · have hq := List.length_eq_zero_iff.1 (Nat.eq_zero_of_add_eq_zero_right hzero)
      have hxs := List.length_eq_zero_iff.1 (Nat.eq_zero_of_add_eq_zero_left hzero)
      subst hq hxs
      rfl
    · have hcut : q.length + (xs.length + 1) - max q.length 1 =
          q.length + xs.length - max q.length 1 + 1 := by omega
      have hle : q.length + xs.length - max q.length 1 + 1 ≤ (q ++ xs).length := by
        rw [List.length_append]
        omega
      rw [hcut, List.drop_append_of_le_length hle]

theorem length_rotate (q xs : List α) (h : q ≠ [] ∨ xs ≠ []) :
    (rotate q xs).length = max q.length 1 := by
  have hpos : 0 < q.length + xs.length := by
    rcases h with h | h
    · exact Nat.add_pos_left (List.length_pos_iff.2 h) _
    · exact Nat.add_pos_right _ (List.length_pos_iff.2 h)
  rw [rotate_eq_drop, List.length_drop, List.length_append]
  omega

/-- Fewer items than the queue has. -/
theorem rotate_of_lt {q xs : List α} (h : xs.length < q.length) :
    rotate q xs = q.drop xs.length ++ xs := by
  have hdrop : q.length + xs.length - max q.length 1 = xs.length := by omega
  rw [rotate_eq_drop, hdrop, List.drop_append_of_le_length h.le]

/-- At least as many items as the queue has leave the last of them. -/
theorem rotate_of_le {q xs : List α} (h : max q.length 1 ≤ xs.length) :
    rotate q xs = xs.drop (xs.length - max q.length 1) := by
  have hdrop : q.length + xs.length - max q.length 1 =
      q.length + (xs.length - max q.length 1) := by omega
  rw [rotate_eq_drop, hdrop, List.drop_append, Nat.add_sub_cancel_left,
    List.drop_eq_nil_of_le (Nat.le_add_right _ _), List.nil_append]

/-- What the items that are put in a second time leave. -/
theorem mem_rotate_twice_iff (q xs : List α) :
    (∀ x, x ∈ rotate (rotate q xs) xs ↔ x ∈ rotate q xs) ↔
      ∀ x ∈ (q.drop xs.length).take xs.length, x ∈ q.drop (2 * xs.length) ∨ x ∈ xs := by
  rcases Nat.lt_or_ge xs.length q.length with hlt | hge
  · have honce : rotate q xs = q.drop xs.length ++ xs := rotate_of_lt hlt
    have hlength : (q.drop xs.length ++ xs).length = q.length := by
      rw [List.length_append, List.length_drop]
      omega
    have htwice : rotate (rotate q xs) xs = ((q.drop xs.length ++ xs).drop xs.length) ++ xs := by
      rw [honce, rotate_of_lt (by omega)]
    have hmem (x : α) : x ∈ rotate (rotate q xs) xs ↔ x ∈ q.drop (2 * xs.length) ∨ x ∈ xs := by
      rw [htwice, List.drop_append, List.drop_drop, ← Nat.two_mul, List.mem_append, List.mem_append,
        or_assoc, or_iff_right_of_imp (fun h => List.mem_of_mem_drop h)]
    have hsplit (x : α) : x ∈ rotate q xs ↔ x ∈ (q.drop xs.length).take xs.length ∨
        x ∈ q.drop (2 * xs.length) ∨ x ∈ xs := by
      have hcut := List.take_append_drop xs.length (q.drop xs.length)
      rw [List.drop_drop, ← Nat.two_mul] at hcut
      rw [honce, List.mem_append, ← hcut, List.mem_append, hcut, or_assoc]
    constructor
    · intro h x hx
      exact (hmem x).1 ((h x).2 ((hsplit x).2 (.inl hx)))
    · intro h x
      rw [hmem, hsplit]
      exact ⟨.inr, fun hx => hx.elim (h x) id⟩
  · have hnone : q.drop xs.length = [] := List.drop_eq_nil_of_le hge
    rw [hnone, List.take_nil]
    refine iff_of_true (fun x => ?_) fun x hx => absurd hx List.not_mem_nil
    rcases Nat.eq_zero_or_pos xs.length with hzero | hpos
    · obtain rfl := List.length_eq_zero_iff.1 hzero
      exact Iff.rfl
    · have hlength : (rotate q xs).length = max q.length 1 :=
        length_rotate q xs (.inr (List.ne_nil_of_length_pos hpos))
      rw [rotate_of_le (q := rotate q xs) (by omega), hlength,
        max_eq_left (le_max_right q.length 1), rotate_of_le (q := q) (by omega)]

/-! ## Items with keys -/

variable [DecidableEq κ] (key : α → Option κ)

/-- An item takes the first of its key out, and goes to the end. -/
def put (l : List α) (x : α) : List α :=
  match key x with
  | none => l ++ [x]
  | some k => (l.eraseP fun y => key y = some k) ++ [x]

def putAll (l xs : List α) : List α :=
  xs.foldl (put key) l

/-- The items of one key. -/
def group (k : Option κ) (l : List α) : List α :=
  l.filter fun x => key x = k

/-- Of each key, the items that would be taken out when `xs` are put in a second time are also
behind those, or among `xs`. -/
def Lasting (l xs : List α) : Prop :=
  ∀ j, ∀ x ∈ ((group key (some j) l).drop (group key (some j) xs).length).take
      (group key (some j) xs).length,
    x ∈ (group key (some j) l).drop (2 * (group key (some j) xs).length) ∨
      x ∈ group key (some j) xs

variable {key} {l xs : List α} {x : α} {k : Option κ}

theorem mem_group_iff : x ∈ group key k l ↔ x ∈ l ∧ key x = k := by
  rw [group, List.mem_filter, decide_eq_true_iff]

theorem filter_eraseP_self (p : α → Bool) (l : List α) :
    (l.eraseP p).filter p = (l.filter p).tail := by
  induction l with
  | nil => rfl
  | cons a l ih =>
    rcases h : p a with _ | _
    · rw [List.eraseP_cons_of_neg (by simp [h]), List.filter_cons_of_neg (by simp [h]), ih,
        List.filter_cons_of_neg (by simp [h])]
    · rw [List.eraseP_cons_of_pos h, List.filter_cons_of_pos h, List.tail_cons]

theorem filter_eraseP_of_disjoint {p r : α → Bool} (h : ∀ a, p a = true → r a = false)
    (l : List α) : (l.eraseP p).filter r = l.filter r := by
  induction l with
  | nil => rfl
  | cons a l ih =>
    rcases hp : p a with _ | _
    · rw [List.eraseP_cons_of_neg (by simp [hp]), List.filter_cons, List.filter_cons, ih]
    · rw [List.eraseP_cons_of_pos hp, List.filter_cons_of_neg (by simp [h a hp])]

theorem group_append_singleton (k : Option κ) (l : List α) (x : α) :
    group key k (l ++ [x]) = group key k l ++ if key x = k then [x] else [] := by
  rw [group, List.filter_append, List.filter_cons, List.filter_nil, group]
  simp only [decide_eq_true_eq]

/-- One more item in the queue of its key. -/
theorem group_put (k : Option κ) (l : List α) (x : α) : group key k (put key l x) =
    if key x = k then (if k = none then group key k l else (group key k l).tail) ++ [x]
    else group key k l := by
  rw [put]
  rcases hkey : key x with _ | j
  · dsimp only
    rw [group_append_singleton, hkey]
    split_ifs with h h'
    · rfl
    · exact absurd h.symm h'
    · exact List.append_nil _
  · dsimp only
    rw [group_append_singleton, hkey]
    split_ifs with h h'
    · exact absurd (h.trans h') (Option.some_ne_none j)
    · subst h
      rw [group, filter_eraseP_self, group]
    · rw [List.append_nil, group, filter_eraseP_of_disjoint, group]
      intro a ha
      have ha : key a = some j := of_decide_eq_true ha
      exact decide_eq_false fun hk => h (ha.symm.trans hk)

theorem group_putAll_none (l xs : List α) :
    group key none (putAll key l xs) = group key none l ++ group key none xs := by
  induction xs using List.reverseRecOn with
  | nil => exact (List.append_nil _).symm
  | append_singleton xs x ih =>
    have hstep : putAll key l (xs ++ [x]) = put key (putAll key l xs) x := by
      rw [putAll, List.foldl_append]
      rfl
    rw [hstep, group_put, group_append_singleton, ih]
    by_cases hkey : key x = none
    · rw [if_pos hkey, if_pos rfl, if_pos hkey, List.append_assoc]
    · rw [if_neg hkey, if_neg hkey, List.append_nil]

theorem group_putAll (j : κ) (l xs : List α) : group key (some j) (putAll key l xs) =
    rotate (group key (some j) l) (group key (some j) xs) := by
  induction xs using List.reverseRecOn with
  | nil => rfl
  | append_singleton xs x ih =>
    have hstep : putAll key l (xs ++ [x]) = put key (putAll key l xs) x := by
      rw [putAll, List.foldl_append]
      rfl
    rw [hstep, group_put, group_append_singleton, ih]
    by_cases hkey : key x = some j
    · rw [if_pos hkey, if_neg (Option.some_ne_none j), if_pos hkey, rotate, rotate,
        List.foldl_append]
      rfl
    · rw [if_neg hkey, if_neg hkey, List.append_nil]

/-- Items put in twice leave the set that they leave once. -/
theorem mem_putAll_twice_iff :
    (∀ x, x ∈ putAll key (putAll key l xs) xs ↔ x ∈ putAll key l xs) ↔ Lasting key l xs := by
  have hgroups : (∀ x, x ∈ putAll key (putAll key l xs) xs ↔ x ∈ putAll key l xs) ↔
      ∀ j : κ, ∀ x, x ∈ group key (some j) (putAll key (putAll key l xs) xs) ↔
        x ∈ group key (some j) (putAll key l xs) := by
    constructor
    · intro h j x
      rw [mem_group_iff, mem_group_iff, h]
    · intro h x
      have hown (l : List α) : x ∈ l ↔ x ∈ group key (key x) l :=
        ⟨fun hx => mem_group_iff.2 ⟨hx, rfl⟩, fun hx => (mem_group_iff.1 hx).1⟩
      rw [hown, hown (putAll key l xs)]
      rcases key x with _ | j
      · rw [group_putAll_none, group_putAll_none, List.mem_append, List.mem_append, or_assoc,
          or_self]
      · exact h j x
  rw [hgroups, Lasting]
  refine forall_congr' fun j => ?_
  rw [group_putAll, group_putAll]
  exact mem_rotate_twice_iff _ _

/-- A list with at most one item of each key. -/
theorem lasting_of_length_le_one (h : ∀ j, (group key (some j) l).length ≤ 1) :
    Lasting key l xs := by
  intro j x hx
  rcases Nat.eq_zero_or_pos (group key (some j) xs).length with hzero | hpos
  · rw [hzero, List.take_zero] at hx
    exact absurd hx List.not_mem_nil
  · rw [List.drop_eq_nil_of_le ((h j).trans hpos), List.take_nil] at hx
    exact absurd hx List.not_mem_nil

end Replacing
