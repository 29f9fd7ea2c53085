import Mathlib.Data.List.Induction
import Mathlib.Data.List.Basic

/-!
# Logs in which every entry is justified by those before it

`Justified J l` : for each entry `a` of the log, `J` holds of what was logged before it and
`a`. A log only grows at its end, so a step has to justify the entries it adds
(`justified_append_singleton`). What at most one entry may be is a justification too
(`Justified.countP_le_one`).
-/

variable {α : Type*} {J : List α → α → Prop}

/-- Every entry is justified by the entries before it. -/
def Justified (J : List α → α → Prop) (l : List α) : Prop :=
  ∀ i a, l[i]? = some a → J (l.take i) a

theorem justified_iff_forall_fin {l : List α} :
    Justified J l ↔ ∀ i : Fin l.length, J (l.take i) (l.get i) := by
  constructor
  · exact fun h i => h i _ (List.getElem?_eq_getElem i.isLt)
  · intro h i a ha
    obtain ⟨hi, rfl⟩ := List.getElem?_eq_some_iff.1 ha
    exact h ⟨i, hi⟩

instance [∀ before, DecidablePred (J before)] (l : List α) : Decidable (Justified J l) :=
  decidable_of_iff _ justified_iff_forall_fin.symm

theorem justified_nil : Justified J [] :=
  fun _ _ h => nomatch h

/-- One more entry, justified by all that were there. -/
theorem justified_append_singleton {l : List α} {a : α} :
    Justified J (l ++ [a]) ↔ Justified J l ∧ J l a := by
  constructor
  · intro h
    refine ⟨fun i b hb => ?_, ?_⟩
    · have hi : i < l.length := (List.getElem?_eq_some_iff.1 hb).1
      have hJ := h i b (by rw [List.getElem?_append_left hi, hb])
      rwa [List.take_append_of_le_length (Nat.le_of_lt hi)] at hJ
    · simpa using h l.length a (by simp)
  · rintro ⟨hl, ha⟩ i b hb
    rcases Nat.lt_trichotomy i l.length with hi | rfl | hi
    · rw [List.getElem?_append_left hi] at hb
      rw [List.take_append_of_le_length (Nat.le_of_lt hi)]
      exact hl i b hb
    · obtain rfl : a = b := by simpa using hb
      simpa using ha
    · have hnone : (l ++ [a])[i]? = none := List.getElem?_eq_none (by simp; omega)
      rw [hnone] at hb
      cases hb

/-- Two stretches of a log, the second justified by the first as well. -/
theorem justified_append {l l' : List α} :
    Justified J (l ++ l') ↔ Justified J l ∧ Justified (fun before a => J (l ++ before) a) l' := by
  induction l' using List.reverseRecOn with
  | nil => simp [justified_nil]
  | append_singleton l' a ih =>
    rw [← List.append_assoc, justified_append_singleton, justified_append_singleton, ih, and_assoc]

theorem justified_singleton {a : α} : Justified J [a] ↔ J [] a := by
  rw [← List.nil_append [a], justified_append_singleton, and_iff_right justified_nil]

theorem justified_cons {l : List α} {a : α} :
    Justified J (a :: l) ↔ J [] a ∧ Justified (fun before b => J (a :: before) b) l := by
  rw [← List.singleton_append, justified_append, justified_singleton]
  rfl

theorem Justified.mono {K : List α → α → Prop} {l : List α} (h : Justified J l)
    (hJK : ∀ before a, J before a → K before a) : Justified K l :=
  fun i a ha => hJK _ a (h i a ha)

/-- What is justified by not having happened before, happens at most once. -/
theorem Justified.countP_le_one {p : α → Bool} {l : List α}
    (h : Justified (fun before a => p a = true → ∀ b ∈ before, p b = false) l) :
    l.countP p ≤ 1 := by
  induction l using List.reverseRecOn with
  | nil => exact Nat.zero_le _
  | append_singleton l a ih =>
    obtain ⟨hl, ha⟩ := justified_append_singleton.1 h
    rw [List.countP_append, List.countP_singleton]
    split_ifs with hp
    · have hzero : l.countP p = 0 := List.countP_eq_zero.2 fun b hb => by simp [ha hp b hb]
      omega
    · exact ih hl

/-- What is justified by no earlier entry being related to it, is related to no other. -/
theorem Justified.eq_of_rel {R : α → α → Prop} {l : List α} (hsymm : ∀ a b, R a b → R b a)
    (h : Justified (fun before a => ∀ b ∈ before, ¬R b a) l) {a b : α} (ha : a ∈ l) (hb : b ∈ l)
    (hab : R a b) : a = b := by
  have hearlier : ∀ {i j : ℕ} {x y : α}, i < j → l[i]? = some x → l[j]? = some y → ¬R x y := by
    intro i j x y hij hx hy
    exact h j y hy x (List.mem_of_getElem? ((List.getElem?_take_of_lt hij).trans hx))
  obtain ⟨i, hi⟩ := List.mem_iff_getElem?.1 ha
  obtain ⟨j, hj⟩ := List.mem_iff_getElem?.1 hb
  rcases Nat.lt_trichotomy i j with hij | rfl | hij
  · exact absurd hab (hearlier hij hi hj)
  · exact Option.some.inj (hi.symm.trans hj)
  · exact absurd (hsymm a b hab) (hearlier hij hj hi)
