import Mathlib.Algebra.Ring.Nat
import Mathlib.Data.List.Nodup
import Mathlib.Data.List.Perm.Subperm
import Mathlib.Order.Nat
import Mathlib.Tactic.Push

/-!
# Numbered candidates

A name that is taken is tried again with a number behind it, until a number gives one that is
not (`search`). Candidates of different numbers have different keys, so by the pigeonhole
principle the search ends within one try more than names are taken, and the number it ends at
is bounded (`exists_search_eq`). `suffix` is the usual way to number a name, and its number can
be read off it (`suffix_inj`).
-/

namespace Numbered

variable {α κ : Type*} [DecidableEq κ] (key : α → κ) (candidate : ℕ → α)

/-- Try `c`, then the candidates from number `n` on, at most `fuel` of them in all. -/
def search (taken : List κ) : ℕ → α → ℕ → Option α
  | 0, _, _ => none
  | fuel + 1, c, n =>
    if key c ∈ taken then search taken fuel (candidate n) (n + 1) else some c

variable {key candidate}

/-- A candidate that is free ends the search, there or earlier. -/
theorem exists_search_eq_of_free {taken : List κ} (k : ℕ) {fuel n : ℕ} {c : α}
    (hfree : key (candidate (n + k)) ∉ taken) (hfuel : k + 2 ≤ fuel) :
    ∃ c', search key candidate taken fuel c n = some c' ∧ key c' ∉ taken ∧
      (c' = c ∨ ∃ m, n ≤ m ∧ m ≤ n + k ∧ c' = candidate m) := by
  induction k generalizing fuel n c with
  | zero =>
    obtain ⟨fuel, rfl⟩ := Nat.exists_eq_add_of_le' hfuel
    by_cases hc : key c ∈ taken
    · have hn : key (candidate n) ∉ taken := hfree
      refine ⟨candidate n, ?_, hn, .inr ⟨n, le_rfl, le_rfl, rfl⟩⟩
      rw [search, if_pos hc, search, if_neg hn]
    · exact ⟨c, by rw [search, if_neg hc], hc, .inl rfl⟩
  | succ k ih =>
    obtain ⟨fuel, rfl⟩ := Nat.exists_eq_add_of_le' hfuel
    by_cases hc : key c ∈ taken
    · have hnext : key (candidate (n + 1 + k)) ∉ taken := by
        rwa [Nat.add_right_comm, Nat.add_assoc]
      have hfuel' : k + 2 ≤ fuel + k + 2 := by omega
      obtain ⟨c', hsearch, hkey, hcase⟩ := ih (c := candidate n) hnext hfuel'
      refine ⟨c', ?_, hkey, .inr ?_⟩
      · have hgo : search key candidate taken (fuel + (k + 1 + 2)) c n =
            search key candidate taken (fuel + k + 2) (candidate n) (n + 1) := by
          rw [show fuel + (k + 1 + 2) = fuel + k + 2 + 1 by omega, search, if_pos hc]
        rw [hgo, hsearch]
      · rcases hcase with rfl | ⟨m, hnm, hmk, rfl⟩
        · exact ⟨n, le_rfl, by omega, rfl⟩
        · exact ⟨m, by omega, by omega, rfl⟩
    · refine ⟨c, ?_, hc, .inl rfl⟩
      rw [show fuel + (k + 1 + 2) = fuel + k + 2 + 1 by omega, search, if_neg hc]

/-- Among one candidate more than names are taken one is free. -/
theorem exists_free (hinj : ∀ i j, key (candidate i) = key (candidate j) → i = j)
    (taken : List κ) (n : ℕ) : ∃ k ≤ taken.length, key (candidate (n + k)) ∉ taken := by
  by_contra hall
  push Not at hall
  have hnodup : ((List.range (taken.length + 1)).map fun k => key (candidate (n + k))).Nodup := by
    refine List.nodup_range.map fun i j hij => ?_
    have := hinj _ _ hij
    omega
  have hsub : ((List.range (taken.length + 1)).map fun k => key (candidate (n + k))) ⊆ taken := by
    intro x hx
    obtain ⟨k, hk, rfl⟩ := List.mem_map.1 hx
    exact hall k (Nat.lt_succ_iff.1 (List.mem_range.1 hk))
  have hle := (List.subperm_of_subset hnodup hsub).length_le
  rw [List.length_map, List.length_range] at hle
  omega

/-- The search ends at a free name : the first, or a candidate whose number is at most the
number of names taken further on. -/
theorem exists_search_eq (hinj : ∀ i j, key (candidate i) = key (candidate j) → i = j)
    {taken : List κ} {fuel n : ℕ} (c : α) (hfuel : taken.length + 2 ≤ fuel) :
    ∃ c', search key candidate taken fuel c n = some c' ∧ key c' ∉ taken ∧
      (c' = c ∨ ∃ m, n ≤ m ∧ m ≤ n + taken.length ∧ c' = candidate m) := by
  obtain ⟨k, hk, hfree⟩ := exists_free hinj taken n
  obtain ⟨c', hsearch, hkey, hcase⟩ :=
    exists_search_eq_of_free k (c := c) hfree (by omega : k + 2 ≤ fuel)
  refine ⟨c', hsearch, hkey, hcase.imp_right ?_⟩
  rintro ⟨m, hnm, hmk, rfl⟩
  exact ⟨m, hnm, by omega, rfl⟩

/-! ## Suffixes -/

/-- `f"-{n}"`. -/
def suffix (n : ℕ) : List Char :=
  '-' :: Nat.toDigits 10 n

theorem length_suffix_le {n k : ℕ} (hk : 0 < k) (h : n < 10 ^ k) : (suffix n).length ≤ k + 1 := by
  have := (Nat.length_toDigits_le_iff (by omega) hk).2 h
  simpa [suffix] using this

theorem ne_dash_of_mem_toDigits {n : ℕ} {c : Char} (h : c ∈ Nat.toDigits 10 n) : c ≠ '-' := by
  rintro rfl
  have := Nat.isDigit_of_mem_toDigits (by decide) (by decide) h
  exact absurd this (by decide)

/-- The number behind the last dash of a name. -/
theorem suffix_inj {s s' : List Char} {m n : ℕ} (h : s ++ suffix m = s' ++ suffix n) : m = n := by
  have hread : ∀ (s : List Char) (n : ℕ), (s ++ suffix n).reverse.takeWhile (· ≠ '-') =
      (Nat.toDigits 10 n).reverse := by
    intro s n
    have hdigits : ∀ c ∈ (Nat.toDigits 10 n).reverse, decide (c ≠ '-') = true := by
      intro c hc
      simpa using ne_dash_of_mem_toDigits (List.mem_reverse.1 hc)
    rw [suffix, List.reverse_append, List.reverse_cons, List.append_assoc,
      List.takeWhile_append_of_pos hdigits]
    simp
  have hdigits : Nat.toDigits 10 m = Nat.toDigits 10 n := by
    have := congrArg (fun l : List Char => l.reverse.takeWhile (· ≠ '-')) h
    simpa only [hread, List.reverse_inj] using this
  have hvalue := congrArg (fun l => Nat.ofDigitChars 10 l 0) hdigits
  simpa using hvalue

end Numbered
