import Mathlib.Data.List.MinMax
import OxenClaw.Lib.StableSort

/-!
# Greedy selection

`Greedy.select` picks one after the other, each time the first of what is left whose key is
greatest, where the key of an element may depend on what has been picked. What is picked is what
there was (`select_perm`), and with a key that depends on nothing else it is the stable sort by
the key (`select_eq_insertionSort`).
-/

namespace Greedy

variable {ι κ : Type*} [DecidableEq ι] [LinearOrder κ]

/-- At most `n` picks, behind those that are selected. -/
def select (key : List ι → ι → κ) : ℕ → List ι → List ι → List ι
  | 0, _, _ => []
  | n + 1, selected, left =>
    match left.argmax (key selected) with
    | none => []
    | some m => m :: select key n (selected ++ [m]) (left.erase m)

variable {key : List ι → ι → κ} {f : ι → κ} {m : ι} {l selected left : List ι} {n k : ℕ}

theorem select_of_argmax (h : left.argmax (key selected) = some m) (n : ℕ) :
    select key (n + 1) selected left =
      m :: select key n (selected ++ [m]) (left.erase m) := by
  rw [select, h]

omit [DecidableEq ι] in
/-- Only the keys of the elements count. -/
theorem argmax_congr {g : ι → κ} (h : ∀ x ∈ l, f x = g x) : l.argmax f = l.argmax g := by
  induction l with
  | nil => rfl
  | cons x l ih =>
    obtain ⟨hx, hl⟩ := List.forall_mem_cons.1 h
    rw [List.argmax_cons, List.argmax_cons, ih hl]
    rcases hrest : l.argmax g with _ | c
    · rfl
    · have hc : f c = g c := hl c (List.argmax_mem hrest)
      simp only [hx, hc]

omit [DecidableEq ι] in
/-- The first of the greatest : what stands before it is less. -/
theorem exists_append_of_argmax (h : l.argmax f = some m) : ∃ a b, l = a ++ m :: b ∧
    (∀ x ∈ a, f x < f m) ∧ ∀ x ∈ b, f x ≤ f m := by
  induction l generalizing m with
  | nil => cases h
  | cons x l ih =>
    rw [List.argmax_cons] at h
    rcases hrest : l.argmax f with _ | c
    · rw [hrest] at h
      cases h
      exact ⟨[], [], by rw [List.argmax_eq_none.1 hrest]; rfl, by simp, by simp⟩
    · rw [hrest] at h
      simp only at h
      split_ifs at h with hlt
      · cases h
        obtain ⟨a, b, rfl, ha, hb⟩ := ih hrest
        exact ⟨x :: a, b, rfl, List.forall_mem_cons.2 ⟨hlt, ha⟩, hb⟩
      · cases h
        refine ⟨[], l, rfl, by simp, fun y hy => ?_⟩
        exact (List.le_of_mem_argmax hy hrest).trans (not_lt.1 hlt)

/-- A pick, and what it leaves. -/
theorem erase_of_argmax (h : l.argmax f = some m) : ∃ a b, l = a ++ m :: b ∧
    l.erase m = a ++ b ∧ (∀ x ∈ a, f x < f m) ∧ ∀ x ∈ b, f x ≤ f m := by
  obtain ⟨a, b, rfl, ha, hb⟩ := exists_append_of_argmax h
  have hm : m ∉ a := fun hm => lt_irrefl _ (ha m hm)
  refine ⟨a, b, rfl, ?_, ha, hb⟩
  rw [List.erase_append_right _ hm, List.erase_cons_head]

/-- All that is left is selected, each once. -/
theorem select_perm (hn : left.length ≤ n) : (select key n selected left).Perm left := by
  induction n generalizing selected left with
  | zero => rw [List.length_eq_zero_iff.1 (Nat.le_zero.1 hn), select]
  | succ n ih =>
    rcases hpick : left.argmax (key selected) with _ | m
    · rw [select, hpick, List.argmax_eq_none.1 hpick]
    · have hmem := List.argmax_mem hpick
      have hlen := List.length_erase_of_mem hmem
      rw [select_of_argmax hpick]
      exact ((ih (by omega)).cons m).trans (List.perm_cons_erase hmem).symm

/-- The first picks are the same, however many are made. -/
theorem take_select (h : k ≤ n) :
    (select key n selected left).take k = select key k selected left := by
  induction k generalizing n selected left with
  | zero => rw [List.take_zero, select]
  | succ k ih =>
    obtain ⟨n, rfl⟩ := Nat.exists_eq_add_of_lt (Nat.lt_of_lt_of_le k.succ_pos h)
    rw [Nat.zero_add] at h ⊢
    rcases hpick : left.argmax (key selected) with _ | m
    · rw [select, select, hpick, List.take_nil]
    · rw [select_of_argmax hpick, select_of_argmax hpick, List.take_succ_cons,
        ih (Nat.le_of_succ_le_succ h)]

/-- No more is picked than there is. -/
theorem select_eq_take (h : left.length ≤ n) :
    select key k selected left = (select key n selected left).take k := by
  have hk : (select key (max n k) selected left).take n = select key (max n k) selected left :=
    List.take_of_length_le ((select_perm (h.trans (le_max_left n k))).length_eq.trans_le h)
  rw [← take_select (le_max_right n k), ← hk, take_select (le_max_left n k)]

/-- With a key that does not depend on what is selected, the stable sort, the greatest first. -/
theorem select_eq_insertionSort (hn : left.length ≤ n) :
    select (fun _ => f) n selected left = left.insertionSort fun i j => f j ≤ f i := by
  induction n generalizing selected left with
  | zero =>
    rw [List.length_eq_zero_iff.1 (Nat.le_zero.1 hn), select]
    rfl
  | succ n ih =>
    rcases hpick : left.argmax f with _ | m
    · rw [List.argmax_eq_none.1 hpick, select]
      rfl
    · have hlen := List.length_erase_of_mem (List.argmax_mem hpick)
      obtain ⟨a, b, hleft, herase, ha, hb⟩ := erase_of_argmax hpick
      rw [select_of_argmax hpick, ih (by omega), herase, hleft]
      have hbefore : ∀ x ∈ a, ¬f m ≤ f x := fun x hx => not_le.2 (ha x hx)
      exact (StableSort.insertionSort_append_cons (r := fun i j => f j ≤ f i) hbefore hb).symm

end Greedy
