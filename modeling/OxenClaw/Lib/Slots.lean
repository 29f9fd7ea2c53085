import Mathlib.Data.List.Dedup
import Mathlib.Data.List.Induction
import Mathlib.Data.List.Sort
import OxenClaw.Lib.Dict

/-!
# Fragments gathered by key

A stream of fragments, each with a key, is put together slot by slot: the slot of a key is
made at its first fragment and merged with every later one (`gather`). A slot then holds
what its own fragments make of it (`get?_gather`), whatever came in between. The slots are
read in the order of their keys (`inOrder`).
-/

namespace Dict

section Update

variable {κ ν : Type*} [DecidableEq κ]

/-- A change of `d.setdefault(k, init)`. -/
def update (d : Dict κ ν) (k : κ) (init : ν) (f : ν → ν) : Dict κ ν :=
  d.set k (f ((d.get? k).getD init))

theorem get?_update (d : Dict κ ν) (k k₂ : κ) (init : ν) (f : ν → ν) :
    (d.update k init f).get? k₂ = if k₂ = k then some (f ((d.get? k).getD init)) else d.get? k₂ :=
  get?_set d k k₂ _

end Update

section InOrder

variable {κ ν : Type*} [LinearOrder κ] {d : Dict κ ν}

/-- `sorted(d)`. -/
def inOrder (d : Dict κ ν) : List κ :=
  d.keys.insertionSort (· ≤ ·)

theorem mem_inOrder {k : κ} : k ∈ d.inOrder ↔ k ∈ d.keys :=
  List.mem_insertionSort _

/-- Distinct keys are read in strictly increasing order. -/
theorem pairwise_inOrder (h : d.keys.Nodup) : d.inOrder.Pairwise (· < ·) := by
  have hle : d.inOrder.Pairwise (· ≤ ·) := List.pairwise_insertionSort _ _
  have hne : d.inOrder.Pairwise (· ≠ ·) := (List.perm_insertionSort _ _).nodup_iff.2 h
  exact hle.imp₂ (fun _ _ hab hne => lt_of_le_of_ne hab hne) hne

end InOrder

end Dict

section Gather

variable {α κ ν : Type*} [DecidableEq κ] (key : α → κ) (init : ν) (merge : ν → α → ν)

/-- What the fragments of key `k` make of its slot. -/
def slotOf (xs : List α) (k : κ) : ν :=
  (xs.filter fun x => key x = k).foldl merge init

/-- The slots, each made at the first fragment of its key. -/
def gather (xs : List α) : Dict κ ν :=
  xs.foldl (fun d x => d.update (key x) init (merge · x)) []

section

variable {key init merge}

@[simp] theorem slotOf_nil (k : κ) : slotOf key init merge [] k = init := rfl

theorem slotOf_append_singleton (xs : List α) (x : α) (k : κ) :
    slotOf key init merge (xs ++ [x]) k =
      if key x = k then merge (slotOf key init merge xs k) x else slotOf key init merge xs k := by
  rw [slotOf, List.filter_append, List.foldl_append]
  by_cases hk : key x = k <;> simp [slotOf, hk]

theorem gather_append_singleton (xs : List α) (x : α) :
    gather key init merge (xs ++ [x]) =
      (gather key init merge xs).update (key x) init (merge · x) := by
  rw [gather, List.foldl_append]
  rfl

/-- The slot of a key is what its own fragments make of it. -/
theorem getD_gather (xs : List α) (k : κ) :
    ((gather key init merge xs).get? k).getD init = slotOf key init merge xs k := by
  induction xs using List.reverseRecOn with
  | nil => rfl
  | append_singleton xs x ih =>
    rw [gather_append_singleton, Dict.get?_update, slotOf_append_singleton]
    by_cases hk : key x = k
    · subst hk
      rw [if_pos rfl, if_pos rfl, ih, Option.getD_some]
    · rw [if_neg (Ne.symm hk), if_neg hk, ih]

/-- Where each fragment replaces the slot, the last one is left. -/
theorem exists_mem_slotOf_replace {f : α → ν} {xs : List α} {k : κ} (h : k ∈ xs.map key) :
    ∃ x ∈ xs, key x = k ∧ slotOf key init (fun _ y => f y) xs k = f x := by
  induction xs using List.reverseRecOn with
  | nil => cases h
  | append_singleton xs x ih =>
    rw [slotOf_append_singleton]
    by_cases hk : key x = k
    · exact ⟨x, List.mem_append_right _ List.mem_cons_self, hk, if_pos hk⟩
    · rw [List.map_append, List.mem_append] at h
      obtain ⟨y, hy, hyk, hslot⟩ := ih (h.resolve_right fun h => hk (List.mem_singleton.1 h).symm)
      exact ⟨y, List.mem_append_left _ hy, hyk, (if_neg hk).trans hslot⟩

/-- The keys are those of the fragments. -/
theorem mem_keys_gather (xs : List α) (k : κ) :
    k ∈ (gather key init merge xs).keys ↔ k ∈ xs.map key := by
  induction xs using List.reverseRecOn with
  | nil => exact Iff.rfl
  | append_singleton xs x ih =>
    rw [gather_append_singleton, Dict.update, Dict.keys_set, List.map_append, List.mem_append,
      ← ih]
    split_ifs with hx
    · exact ⟨Or.inl, Or.rec id fun h => by rwa [List.mem_singleton.1 h]⟩
    · exact List.mem_append

theorem nodup_keys_gather (xs : List α) : (gather key init merge xs).keys.Nodup := by
  induction xs using List.reverseRecOn with
  | nil => exact List.nodup_nil
  | append_singleton xs x ih =>
    rw [gather_append_singleton]
    exact Dict.nodup_keys_set ih _ _

end

end Gather

section KeysInOrder

variable {α κ ν : Type*} [LinearOrder κ] {key : α → κ}

/-- The keys of the fragments, in order. -/
def keysInOrder (key : α → κ) (xs : List α) : List κ :=
  (xs.map key).dedup.insertionSort (· ≤ ·)

theorem mem_keysInOrder {xs : List α} {k : κ} : k ∈ keysInOrder key xs ↔ k ∈ xs.map key :=
  (List.mem_insertionSort _).trans List.mem_dedup

theorem pairwise_keysInOrder (xs : List α) : (keysInOrder key xs).Pairwise (· < ·) := by
  have hle : (keysInOrder key xs).Pairwise (· ≤ ·) := List.pairwise_insertionSort _ _
  have hne : (keysInOrder key xs).Nodup :=
    (List.perm_insertionSort _ _).nodup_iff.2 (List.nodup_dedup _)
  exact hle.imp₂ (fun _ _ hab hne => lt_of_le_of_ne hab hne) hne

/-- In whatever way the slots are filled, they are read in the order of the keys. -/
theorem inOrder_gather (init : ν) (merge : ν → α → ν) (xs : List α) :
    (gather key init merge xs).inOrder = keysInOrder key xs := by
  refine List.Pairwise.eq_of_mem_iff (Dict.pairwise_inOrder (nodup_keys_gather xs))
    (pairwise_keysInOrder xs) fun k => ?_
  rw [Dict.mem_inOrder, mem_keys_gather, mem_keysInOrder]

end KeysInOrder
