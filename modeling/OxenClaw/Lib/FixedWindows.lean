import Mathlib.Algebra.Order.Monoid.Defs
import Mathlib.Data.List.Basic

/-!
# Events counted in windows

A counter that starts a window of width `w` at an event and lets at most `m` events through until
the window is over lets at most `2 * m` through in any interval shorter than `w`
(`FixedWindow.Open.count_le`) : the interval meets two windows at most. `FixedWindow.Closed` says
that all windows are over at `s`, `FixedWindow.Open` that the last one started at `s` and has
counted `n`. A window goes on with `Open.event`, is over by `Open.close`, and the next starts with
`Closed.start`.
-/

namespace FixedWindow

variable {T : Type*} [AddCommMonoid T] [LinearOrder T] (w : T) (m : ℕ)

/-- How many events lie between `a` and `b`. -/
def count (a b : T) (l : List T) : ℕ :=
  l.countP fun t => a ≤ t ∧ t ≤ b

/-- The windows of the events are over when one starts at `s`. -/
structure Closed (s : T) (l : List T) : Prop where
  le : ∀ t ∈ l, t ≤ s
  recent : ∀ a, s < a + w → l.countP (a ≤ ·) ≤ m
  count_le : ∀ a b, b < a + w → count a b l ≤ 2 * m

/-- The last window started at `s` and has counted `n` of the events. -/
structure Open (s : T) (n : ℕ) (l : List T) : Prop where
  le : n ≤ m
  split : ∃ old cur, l = old ++ cur ∧ cur.length = n ∧ (∀ t ∈ cur, s ≤ t) ∧ Closed w m s old

variable {w : T} {m : ℕ} {s s' : T} {n : ℕ} {l : List T}

theorem Closed.nil : Closed w m s [] where
  le := by simp
  recent := by simp
  count_le := by simp [count]

theorem Closed.mono (h : Closed w m s l) (hs : s ≤ s') : Closed w m s' l where
  le t ht := (h.le t ht).trans hs
  recent a ha := h.recent a (hs.trans_lt ha)
  count_le := h.count_le

theorem Closed.start (h : Closed w m s l) : Open w m s 0 l where
  le := Nat.zero_le m
  split := ⟨l, [], by simp, rfl, by simp, h⟩

theorem Open.event (h : Open w m s n l) (hn : n < m) {t : T} (ht : s ≤ t) :
    Open w m s (n + 1) (l ++ [t]) := by
  obtain ⟨old, cur, rfl, rfl, hcur, hold⟩ := h.split
  refine ⟨hn, old, cur ++ [t], by simp, by simp, fun t' ht' => ?_, hold⟩
  rcases List.mem_append.1 ht' with ht' | ht'
  · exact hcur t' ht'
  · rwa [List.mem_singleton.1 ht']

/-- Two windows at most have events between `a` and `b`. -/
theorem Open.count_le (h : Open w m s n l) {a b : T} (hab : b < a + w) : count a b l ≤ 2 * m := by
  obtain ⟨old, cur, rfl, rfl, hcur, hold⟩ := h.split
  rw [count, List.countP_append]
  rcases lt_or_ge s (a + w) with hs | hs
  · have hrecent : old.countP (fun t => a ≤ t ∧ t ≤ b) ≤ m :=
      (List.countP_mono_left fun t _ ht => by simp_all).trans (hold.recent a hs)
    have hlast : cur.countP (fun t => a ≤ t ∧ t ≤ b) ≤ m := List.countP_le_length.trans h.le
    omega
  · -- The last window started behind `b`.
    have hnone : cur.countP (fun t => a ≤ t ∧ t ≤ b) = 0 := List.countP_eq_zero.2 fun t ht => by
      have hbt : b < t := (hab.trans_le hs).trans_le (hcur t ht)
      simp [hbt]
    rw [hnone]
    exact hold.count_le a b hab

theorem Open.close [IsOrderedCancelAddMonoid T] (h : Open w m s n l) (hs : s + w ≤ s')
    (hle : ∀ t ∈ l, t ≤ s') : Closed w m s' l where
  le := hle
  recent a ha := by
    obtain ⟨old, cur, rfl, rfl, -, hold⟩ := h.split
    have hsa : s < a := lt_of_add_lt_add_right (hs.trans_lt ha)
    have hnone : old.countP (a ≤ ·) = 0 := List.countP_eq_zero.2 fun t ht => by
      simpa using (hold.le t ht).trans_lt hsa
    rw [List.countP_append, hnone, Nat.zero_add]
    exact List.countP_le_length.trans h.le
  count_le _ _ hab := h.count_le hab

end FixedWindow
