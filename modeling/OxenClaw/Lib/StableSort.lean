import Mathlib.Data.List.Sort

/-!
# Stable sorting

`List.insertionSort` keeps the order of what it does not tell apart, so that it commutes with
leaving elements out (`StableSort.filter_insertionSort`), and lists that differ in nothing the
order reads are sorted alike (`StableSort.forall₂_insertionSort`).
-/

namespace StableSort

variable {α : Type*} {r : α → α → Prop} [DecidableRel r]

/-- What is at most every element is inserted at the head. -/
theorem orderedInsert_of_forall_rel {a : α} {l : List α} (h : ∀ b ∈ l, r a b) :
    l.orderedInsert r a = a :: l := by
  cases l with
  | nil => rfl
  | cons b l => exact List.orderedInsert_cons_of_le r l (h b List.mem_cons_self)

theorem filter_orderedInsert [IsTrans α r] (p : α → Bool) (a : α) :
    ∀ {l : List α}, l.Pairwise r →
      (l.orderedInsert r a).filter p =
        if p a then (l.filter p).orderedInsert r a else l.filter p
  | [], _ => by
    cases hp : p a <;> simp [hp]
  | b :: l, h => by
    obtain ⟨hb, hl⟩ := List.pairwise_cons.1 h
    by_cases hab : r a b
    · have hall : ∀ c ∈ (b :: l).filter p, r a c := fun c hc => by
        rcases List.mem_cons.1 (List.mem_filter.1 hc).1 with rfl | hc
        · exact hab
        · exact trans_of r hab (hb c hc)
      rw [List.orderedInsert_cons_of_le r l hab, orderedInsert_of_forall_rel hall, List.filter_cons]
    · rw [List.orderedInsert_of_not_le r l hab, List.filter_cons, filter_orderedInsert p a hl,
        List.filter_cons]
      split_ifs with hpb hpa
      · rw [List.orderedInsert_of_not_le r _ hab]
      · rfl
      · rfl
      · rfl

/-- Sorting commutes with leaving elements out. -/
theorem filter_insertionSort [Std.Total r] [IsTrans α r] (p : α → Bool) :
    ∀ l : List α, (l.insertionSort r).filter p = (l.filter p).insertionSort r
  | [] => rfl
  | a :: l => by
    rw [List.insertionSort_cons, filter_orderedInsert p a (List.pairwise_insertionSort r l),
      filter_insertionSort p l, List.filter_cons]
    split_ifs
    · rw [List.insertionSort_cons]
    · rfl

/-- What comes before all the rest, and is told apart from what stands before it, is sorted to the
head. -/
theorem insertionSort_append_cons {m : α} {a b : List α} (ha : ∀ x ∈ a, ¬r x m)
    (hb : ∀ x ∈ b, r m x) :
    (a ++ m :: b).insertionSort r = m :: (a ++ b).insertionSort r := by
  induction a with
  | nil =>
    rw [List.nil_append, List.nil_append, List.insertionSort_cons]
    exact orderedInsert_of_forall_rel fun x hx =>
      hb x ((List.perm_insertionSort r b).mem_iff.1 hx)
  | cons x a ih =>
    rw [List.cons_append, List.insertionSort_cons, ih fun y hy => ha y (List.mem_cons_of_mem x hy),
      List.orderedInsert_of_not_le r _ (ha x List.mem_cons_self), List.cons_append,
      List.insertionSort_cons]

section
variable {β : Type*} {r' : β → β → Prop} [DecidableRel r'] {R : α → β → Prop}

theorem forall₂_orderedInsert (hR : ∀ a b a' b', R a a' → R b b' → (r a b ↔ r' a' b'))
    {a : α} {a' : β} (ha : R a a') {l : List α} {l' : List β} (h : List.Forall₂ R l l') :
    List.Forall₂ R (l.orderedInsert r a) (l'.orderedInsert r' a') := by
  induction h with
  | nil => exact .cons ha .nil
  | @cons b b' l l' hb hl ih =>
    rw [List.orderedInsert_cons, List.orderedInsert_cons]
    split_ifs with h1 h2 h2
    · exact .cons ha (.cons hb hl)
    · exact absurd ((hR a b a' b' ha hb).1 h1) h2
    · exact absurd ((hR a b a' b' ha hb).2 h2) h1
    · exact .cons hb ih

/-- What holds of all pairs of a list holds of those of a list related to it. -/
theorem pairwise_of_forall₂ {p : α → α → Prop} {q : β → β → Prop}
    (hpq : ∀ a b a' b', R a a' → R b b' → p a b → q a' b') {l : List α} {l' : List β}
    (h : List.Forall₂ R l l') (hl : l.Pairwise p) : l'.Pairwise q := by
  have hlength := h.length_eq
  rw [List.pairwise_iff_getElem] at hl ⊢
  intro i j hi hj hij
  have hi' : i < l.length := by omega
  have hj' : j < l.length := by omega
  exact hpq l[i] l[j] l'[i] l'[j] (h.get hi' hi) (h.get hj' hj) (hl i j hi' hj' hij)

/-- Lists whose elements are ordered alike, place by place, are sorted alike. -/
theorem forall₂_insertionSort (hR : ∀ a b a' b', R a a' → R b b' → (r a b ↔ r' a' b'))
    {l : List α} {l' : List β} (h : List.Forall₂ R l l') :
    List.Forall₂ R (l.insertionSort r) (l'.insertionSort r') := by
  induction h with
  | nil => exact .nil
  | cons ha _ ih => exact forall₂_orderedInsert hR ha ih

end

end StableSort
