import Mathlib.Data.List.Basic

/-!
# Lists read item by item

`as.mapM f` reads each item with a reader that may refuse it. It gives the list of what was read
(`mapM_eq_some_iff`), or nothing if one item is refused (`mapM_eq_none_iff`).
-/

namespace Traverse

variable {α β : Type*} {f : α → Option β} {as : List α} {bs : List β}

theorem mapM_eq_some_iff : as.mapM f = some bs ↔ as.map f = bs.map some := by
  induction as generalizing bs with
  | nil => cases bs <;> simp
  | cons a as ih =>
    cases bs with
    | nil =>
      rw [List.mapM_cons]
      simp [Option.bind_eq_some_iff]
    | cons b bs =>
      rw [List.mapM_cons, List.map_cons, List.map_cons, List.cons.injEq, ← ih]
      simp [Option.bind_eq_some_iff]

theorem mapM_eq_none_iff : as.mapM f = none ↔ ∃ a ∈ as, f a = none := by
  induction as with
  | nil => simp
  | cons a as ih =>
    rw [List.mapM_cons, List.exists_mem_cons_iff]
    rcases ha : f a with _ | b
    · simp
    · rcases hl : as.mapM f with _ | bs <;> simp [← ih, hl]

theorem length_of_mapM (h : as.mapM f = some bs) : bs.length = as.length := by
  have hlength := congrArg List.length (mapM_eq_some_iff.1 h)
  rw [List.length_map, List.length_map] at hlength
  exact hlength.symm

/-- What is read, with a default for what would be refused. -/
theorem getD_of_mapM (d : β) (h : as.mapM f = some bs) :
    (∀ a ∈ as, f a = some ((f a).getD d)) ∧ bs = as.map fun a => (f a).getD d := by
  have hmap := mapM_eq_some_iff.1 h
  constructor
  · intro a ha
    have hmem : f a ∈ bs.map some := hmap ▸ List.mem_map_of_mem ha
    obtain ⟨b, -, hb⟩ := List.mem_map.1 hmem
    rw [← hb, Option.getD_some]
  · have hread := congrArg (List.map fun o => o.getD d) hmap
    rw [List.map_map, List.map_map] at hread
    simpa [Function.comp_def] using hread.symm

/-- All items are read to what meets a test. -/
theorem all_any_iff {p : β → Bool} : (as.all fun a => (f a).any p) = true ↔
    ∃ bs, as.mapM f = some bs ∧ ∀ b ∈ bs, p b = true := by
  induction as with
  | nil => simp
  | cons a as ih =>
    rw [List.all_cons, Bool.and_eq_true, ih, Option.any_eq_true]
    constructor
    · rintro ⟨⟨b, hb, hp⟩, bs, hbs, hall⟩
      exact ⟨b :: bs, by simp [hb, hbs], by simpa using ⟨hp, hall⟩⟩
    · rintro ⟨bs, hbs, hall⟩
      rw [mapM_eq_some_iff, List.map_cons] at hbs
      rcases bs with _ | ⟨b, bs⟩
      · cases hbs
      · rw [List.map_cons, List.cons.injEq] at hbs
        exact ⟨⟨b, hbs.1, hall b List.mem_cons_self⟩, bs, mapM_eq_some_iff.2 hbs.2,
          fun c hc => hall c (List.mem_cons_of_mem _ hc)⟩

/-- What was written is read back. -/
theorem mapM_map_of_leftInverse {g : β → α} (h : ∀ b, f (g b) = some b) (bs : List β) :
    (bs.map g).mapM f = some bs := by
  rw [mapM_eq_some_iff, List.map_map]
  exact List.map_congr_left fun b _ => h b

end Traverse
