import OxenClaw.Lib.Dict

/-!
# Assignments read one after the other

Some items of a list assign a value to a key, and the last assignment of a key counts
(`assigned`). Items that are left out change nothing but the keys they assigned
(`get?_assigned_filter`), and an item put last settles the key it assigns
(`get?_assigned_concat`).
-/

namespace Assignments

variable {α κ ν : Type*} [DecidableEq κ]

/-- What an item assigns is put in. -/
def assign (reads : α → Option (κ × ν)) (d : Dict κ ν) (x : α) : Dict κ ν :=
  match reads x with
  | some (k, v) => d.set k v
  | none => d

/-- All that is assigned. -/
def assigned (reads : α → Option (κ × ν)) (l : List α) : Dict κ ν :=
  l.foldl (assign reads) []

variable {reads : α → Option (κ × ν)} {k : κ} {v : ν}

theorem get?_assign (d : Dict κ ν) (x : α) : (assign reads d x).get? k =
    match reads x with
    | some (k', v) => if k = k' then some v else d.get? k
    | none => d.get? k := by
  rw [assign]
  rcases reads x with _ | ⟨k', v⟩
  · rfl
  · exact Dict.get?_set d k' k v

/-- An item that does not assign a key leaves it. -/
theorem get?_assign_of_ne (d : Dict κ ν) {x : α} (h : ∀ v, reads x ≠ some (k, v)) :
    (assign reads d x).get? k = d.get? k := by
  rw [get?_assign]
  rcases hx : reads x with _ | ⟨k', v⟩
  · rfl
  · refine if_neg ?_
    rintro rfl
    exact h v hx

theorem get?_assigned_concat (l : List α) (x : α) : (assigned reads (l ++ [x])).get? k =
    match reads x with
    | some (k', v) => if k = k' then some v else (assigned reads l).get? k
    | none => (assigned reads l).get? k := by
  rw [assigned, List.foldl_append, List.foldl_cons, List.foldl_nil, get?_assign]
  rfl

/-- What is assigned to a key is no matter of the items that do not assign it. -/
theorem get?_assigned_filter {p : α → Bool} (l : List α)
    (h : ∀ x ∈ l, p x = false → ∀ v, reads x ≠ some (k, v)) :
    (assigned reads (l.filter p)).get? k = (assigned reads l).get? k := by
  suffices hagree : ∀ d d' : Dict κ ν, d.get? k = d'.get? k →
      ((l.filter p).foldl (assign reads) d).get? k = (l.foldl (assign reads) d').get? k from
    hagree [] [] rfl
  induction l with
  | nil => exact fun d d' hd => hd
  | cons x l ih =>
    have hrest := ih fun y hy => h y (List.mem_cons_of_mem x hy)
    intro d d' hd
    by_cases hx : p x = true
    · rw [List.filter_cons_of_pos hx, List.foldl_cons, List.foldl_cons]
      refine hrest _ _ ?_
      rw [get?_assign, get?_assign, hd]
    · rw [List.filter_cons_of_neg hx, List.foldl_cons]
      refine hrest _ _ ?_
      rw [hd, get?_assign_of_ne d' (h x List.mem_cons_self (Bool.eq_false_iff.2 hx))]

/-- What a key has is what an item assigns. -/
theorem exists_of_get?_assigned {l : List α} (h : (assigned reads l).get? k = some v) :
    ∃ x ∈ l, reads x = some (k, v) := by
  induction l using List.reverseRecOn with
  | nil => cases h
  | append_singleton l x ih =>
    rw [get?_assigned_concat] at h
    have hlater : (assigned reads l).get? k = some v → ∃ y ∈ l ++ [x], reads y = some (k, v) := by
      intro hl
      obtain ⟨y, hy, hreads⟩ := ih hl
      exact ⟨y, List.mem_append_left _ hy, hreads⟩
    rcases hx : reads x with _ | ⟨k', v'⟩
    · rw [hx] at h
      exact hlater h
    · simp only [hx] at h
      split_ifs at h with hk
      · refine ⟨x, by simp, ?_⟩
        rw [hx, hk, Option.some.inj h]
      · exact hlater h

end Assignments
