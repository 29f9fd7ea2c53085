import Mathlib.Data.List.Basic

/-!
# Lists in which some elements must be followed at once

`Followed P R l` : in `l`, every element with `P` stands directly before one that `R`
relates to it. No element with `P` is last, so two such lists in a row are one
(`Followed.append`), every tail is one (`Followed.of_append_right`), and adding one
element keeps the property exactly when it has no `P` (`followed_append_singleton_iff`).
-/

variable {α β : Type*} {P : α → Prop} {R : α → α → Prop}

/-- Every element with `P` stands directly before one that `R` relates to it. -/
def Followed (P : α → Prop) (R : α → α → Prop) : List α → Prop
  | [] => True
  | a :: l => (P a → ∃ b, l.head? = some b ∧ R a b) ∧ Followed P R l

@[simp] theorem followed_nil : Followed P R [] :=
  trivial

@[simp] theorem followed_singleton {a : α} : Followed P R [a] ↔ ¬P a := by
  simp [Followed]

theorem followed_cons_of_not {a : α} {l : List α} (ha : ¬P a) :
    Followed P R (a :: l) ↔ Followed P R l := by
  simp [Followed, ha]

theorem followed_cons_cons {a b : α} {l : List α} :
    Followed P R (a :: b :: l) ↔ (P a → R a b) ∧ Followed P R (b :: l) := by
  simp [Followed]

/-- The positions of the list, one by one. -/
theorem followed_iff_getElem? {l : List α} :
    Followed P R l ↔ ∀ i a, l[i]? = some a → P a → ∃ b, l[i + 1]? = some b ∧ R a b := by
  induction l with
  | nil => simp
  | cons x l ih =>
    rw [Followed, ih]
    constructor
    · rintro ⟨hx, hl⟩ (_ | i) a ha hPa
      · obtain rfl : x = a := by simpa using ha
        obtain ⟨b, hb, hR⟩ := hx hPa
        exact ⟨b, by simpa [List.head?_eq_getElem?] using hb, hR⟩
      · simpa using hl i a (by simpa using ha) hPa
    · intro h
      refine ⟨fun hPx => ?_, fun i a ha hPa => ?_⟩
      · obtain ⟨b, hb, hR⟩ := h 0 x rfl hPx
        exact ⟨b, by simpa [List.head?_eq_getElem?] using hb, hR⟩
      · simpa using h (i + 1) a (by simpa using ha) hPa

instance Followed.decidable [DecidablePred P] [DecidableRel R] :
    (l : List α) → Decidable (Followed P R l)
  | [] => .isTrue trivial
  | [a] => decidable_of_iff (¬P a) followed_singleton.symm
  | a :: b :: l =>
    have := Followed.decidable (b :: l)
    decidable_of_iff ((P a → R a b) ∧ Followed P R (b :: l)) followed_cons_cons.symm

namespace Followed

theorem append {l m : List α} (hl : Followed P R l) (hm : Followed P R m) :
    Followed P R (l ++ m) := by
  induction l with
  | nil => exact hm
  | cons a l ih =>
    refine ⟨fun hPa => ?_, ih hl.2⟩
    obtain ⟨b, hb, hR⟩ := hl.1 hPa
    exact ⟨b, by simp [hb], hR⟩

theorem of_append_right {l m : List α} (h : Followed P R (l ++ m)) : Followed P R m := by
  induction l with
  | nil => exact h
  | cons a l ih => exact ih h.2

theorem drop {l : List α} (h : Followed P R l) (n : ℕ) : Followed P R (l.drop n) := by
  rw [← List.take_append_drop n l] at h
  exact h.of_append_right

/-- A change of the elements that adds no `P` and keeps `R`. -/
theorem map {l : List α} (f : α → α) (hP : ∀ a, P (f a) → P a)
    (hR : ∀ a b, R a b → R (f a) (f b)) (h : Followed P R l) : Followed P R (l.map f) := by
  induction l with
  | nil => exact h
  | cons a l ih =>
    refine ⟨fun hPa => ?_, ih h.2⟩
    obtain ⟨b, hb, hab⟩ := h.1 (hP a hPa)
    exact ⟨f b, by simp [hb], hR a b hab⟩

/-- A weaker relation asks for less. -/
theorem mono {S : α → α → Prop} (hRS : ∀ a b, R a b → S a b) {l : List α}
    (h : Followed P R l) : Followed P S l := by
  induction l with
  | nil => exact h
  | cons a l ih =>
    refine ⟨fun hPa => ?_, ih h.2⟩
    obtain ⟨b, hb, hab⟩ := h.1 hPa
    exact ⟨b, hb, hRS a b hab⟩

/-- An element with `P` and the one that answers it, added together. -/
theorem append_pair {l : List α} {a b : α} (h : Followed P R l) (hR : R a b) (hb : ¬P b) :
    Followed P R (l ++ [a, b]) :=
  h.append (followed_cons_cons.2 ⟨fun _ => hR, followed_singleton.2 hb⟩)

end Followed

theorem followed_append_singleton_iff {l : List α} {a : α} (h : Followed P R l) :
    Followed P R (l ++ [a]) ↔ ¬P a :=
  ⟨fun h' => followed_singleton.1 h'.of_append_right,
    fun ha => h.append (followed_singleton.2 ha)⟩

/-- A front of such a list is one if its last element does not have to be followed. -/
theorem followed_left_iff {l m : List α} (h : Followed P R (l ++ m)) :
    Followed P R l ↔ ∀ a ∈ l.getLast?, ¬P a := by
  induction l with
  | nil => simp
  | cons a l ih =>
    rcases l with _ | ⟨b, l⟩
    · simp
    · rw [List.cons_append, List.cons_append, followed_cons_cons] at h
      rw [followed_cons_cons, ih h.2, List.getLast?_cons_cons]
      exact and_iff_right h.1
