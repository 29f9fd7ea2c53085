import Mathlib.Data.List.Infix
import Mathlib.Tactic.Common

/-!
# Ranges replaced in a list

`replaceRanges` reads a list once and puts `new` in the place of each range. Splicing ranges into
the list one after the other, from the last one up, gives the same list when the ranges stand apart
(`foldr_splice`).
-/

namespace Splice

variable {α : Type*}

/-- `l[start:stop] = new`. -/
def splice (new : List α) (r : ℕ × ℕ) (l : List α) : List α :=
  l.take r.1 ++ new ++ l.drop r.2

/-- The elements of `l` from `at` on, with `new` in the place of each range. -/
def replaceRanges (new l : List α) : ℕ → List (ℕ × ℕ) → List α
  | i, [] => l.drop i
  | i, r :: rs => (l.take r.1).drop i ++ new ++ replaceRanges new l r.2 rs

/-- The ranges stand apart, in order, and inside the first `n` places. -/
structure Apart (n : ℕ) (rs : List (ℕ × ℕ)) : Prop where
  le : ∀ r ∈ rs, r.1 ≤ r.2 ∧ r.2 ≤ n
  pairwise : rs.Pairwise fun r s => r.2 ≤ s.1

theorem Apart.tail {n : ℕ} {r : ℕ × ℕ} {rs : List (ℕ × ℕ)} (h : Apart n (r :: rs)) : Apart n rs :=
  ⟨fun s hs => h.le s (List.mem_cons_of_mem r hs), h.pairwise.of_cons⟩

/-- Ranges that stand apart are spliced in from the last one up. -/
theorem foldr_splice (new l : List α) {rs : List (ℕ × ℕ)} (h : Apart l.length rs) {i : ℕ}
    (hi : ∀ r ∈ rs, i ≤ r.1) (hil : i ≤ l.length) :
    rs.foldr (splice new) l = l.take i ++ replaceRanges new l i rs := by
  induction rs generalizing i with
  | nil => exact (List.take_append_drop i l).symm
  | cons r rs ih =>
    have hir : i ≤ r.1 := hi r List.mem_cons_self
    obtain ⟨hle, hlen⟩ := h.le r List.mem_cons_self
    have hrest := ih h.tail (List.pairwise_cons.1 h.pairwise).1 hlen
    have htake : (l.take r.2 ++ replaceRanges new l r.2 rs).take r.1 = l.take r.1 := by
      rw [List.take_append_of_le_length (by simp; omega), List.take_take, min_eq_left hle]
    have hdrop : (l.take r.2 ++ replaceRanges new l r.2 rs).drop r.2
        = replaceRanges new l r.2 rs := by
      rw [List.drop_append_of_le_length (by simp; omega),
        List.drop_eq_nil_of_le (by rw [List.length_take]; omega), List.nil_append]
    have hmid : l.take i ++ (l.take r.1).drop i = l.take r.1 := by
      conv_rhs => rw [← List.take_append_drop i (l.take r.1), List.take_take, min_eq_left hir]
    rw [List.foldr_cons, hrest, splice, htake, hdrop, replaceRanges, ← List.append_assoc,
      ← List.append_assoc, hmid]

/-- What comes before the next range stays. -/
theorem replaceRanges_of_lt {new l : List α} {i : ℕ} {rs : List (ℕ × ℕ)} (hi : i < l.length)
    (h : ∀ r ∈ rs, i < r.1) :
    replaceRanges new l i rs = l[i] :: replaceRanges new l (i + 1) rs := by
  rcases rs with _ | ⟨r, rs⟩
  · exact List.drop_eq_getElem_cons hi
  · have hir := h r List.mem_cons_self
    have hlen : i < (l.take r.1).length := by
      rw [List.length_take]
      omega
    rw [replaceRanges, replaceRanges, List.drop_eq_getElem_cons hlen, List.getElem_take,
      List.cons_append, List.cons_append]

/-- What `replaceRanges` leaves is at most one element only when one range covers the list. -/
theorem length_replaceRanges_cons {new l : List α} {r : ℕ × ℕ} {rs : List (ℕ × ℕ)}
    (hnew : new ≠ []) (h : (replaceRanges new l 0 (r :: rs)).length ≤ 1) :
    new.length = 1 ∧ rs = [] ∧ l.length ≤ r.2 ∧ min r.1 l.length = 0 := by
  have hpos := List.length_pos_iff.2 hnew
  cases rs with
  | nil =>
    simp only [replaceRanges, List.length_append, List.length_drop, List.length_take] at h
    exact ⟨by omega, rfl, by omega, by omega⟩
  | cons s rs =>
    simp only [replaceRanges, List.length_append] at h
    omega

end Splice
