import Mathlib.Data.Finset.Card
import Mathlib.Data.List.Nodup
import Mathlib.Data.List.Infix

/-!
# Keys in the order of their last use

A cache of bounded size keeps its keys in the order in which they were used last. A key that is
used goes to the end, and where there are more than `n` keys the first ones go.

A key stays as long as fewer than `n` different other keys are used after it
(`mem_foldl_of_card_lt`), and is gone once `n` others were brought in (`notMem_foldl_of_le_card`).
-/

namespace Recency

variable {κ : Type*} [DecidableEq κ]

/-- What can happen to a cache. -/
inductive Op (κ : Type*) where
  /-- The key is brought in, or used. -/
  | enter (k : κ)
  /-- The key is used if it is there. -/
  | visit (k : κ)
  | drop (k : κ)

def Op.key : Op κ → κ
  | .enter k => k
  | .visit k => k
  | .drop k => k

/-- A key goes to the end. -/
def use (q : List κ) (k : κ) : List κ :=
  q.erase k ++ [k]

/-- The last `n` keys. -/
def keep (n : ℕ) (q : List κ) : List κ :=
  q.drop (q.length - n)

def step (n : ℕ) (q : List κ) : Op κ → List κ
  | .enter k => keep n (use q k)
  | .visit k => if k ∈ q then use q k else q
  | .drop k => q.erase k

variable {n : ℕ} {q before after : List κ} {k k' : κ} {op : Op κ} {ops : List (Op κ)}

/-! ## Keys stay distinct, and few -/

theorem mem_use : k' ∈ use q k ↔ k' ∈ q ∨ k' = k := by
  rw [use, List.mem_append, List.mem_singleton]
  rcases eq_or_ne k' k with rfl | hne
  · simp
  · rw [List.mem_erase_of_ne hne]

theorem nodup_use (hq : q.Nodup) (k : κ) : (use q k).Nodup :=
  (hq.erase k).append (List.nodup_singleton k) (by simpa using hq.not_mem_erase)

theorem length_use_of_mem (h : k ∈ q) : (use q k).length = q.length := by
  have hpos := List.length_pos_of_mem h
  rw [use, List.length_append, List.length_erase_of_mem h, List.length_singleton]
  omega

omit [DecidableEq κ] in
theorem length_keep_le (n : ℕ) (q : List κ) : (keep n q).length ≤ n := by
  rw [keep, List.length_drop]
  omega

omit [DecidableEq κ] in
theorem keep_of_length_le (h : q.length ≤ n) : keep n q = q := by
  rw [keep, Nat.sub_eq_zero_of_le h, List.drop_zero]

theorem nodup_step (hq : q.Nodup) (op : Op κ) : (step n q op).Nodup := by
  rcases op with k | k | k
  · exact (nodup_use hq k).sublist (List.drop_sublist _ _)
  · rw [step]
    split_ifs
    · exact nodup_use hq k
    · exact hq
  · exact hq.erase k

theorem length_step_le (hq : q.length ≤ n) (op : Op κ) : (step n q op).length ≤ n := by
  rcases op with k | k | k
  · exact length_keep_le n _
  · rw [step]
    split_ifs with h
    · exact (length_use_of_mem h).trans_le hq
    · exact hq
  · exact (List.erase_sublist).length_le.trans hq

theorem mem_of_mem_step (h : k ∈ step n q op) : k ∈ q ∨ k = op.key := by
  rcases op with k' | k' | k'
  · exact mem_use.1 (List.mem_of_mem_drop h)
  · rw [step] at h
    split_ifs at h
    · exact mem_use.1 h
    · exact .inl h
  · exact .inl (List.mem_of_mem_erase h)

/-- Other keys do not bring a key in. -/
theorem notMem_foldl (h : k ∉ q) (hops : ∀ op ∈ ops, op.key ≠ k) : k ∉ ops.foldl (step n) q := by
  induction ops generalizing q with
  | nil => exact h
  | cons op ops ih =>
    obtain ⟨hne, hrest⟩ := List.forall_mem_cons.1 hops
    exact ih (fun hmem => (mem_of_mem_step hmem).elim h hne.symm) hrest

/-! ## Which keys stay -/

/-- The keys behind `k`. -/
def Behind (q : List κ) (k : κ) (after : List κ) : Prop :=
  ∃ before, q = before ++ k :: after

omit [DecidableEq κ] in
theorem Behind.mem (h : Behind q k after) : k ∈ q := by
  obtain ⟨before, rfl⟩ := h
  exact List.mem_append_right _ List.mem_cons_self

omit [DecidableEq κ] in
theorem Behind.sublist (h : Behind q k after) : after.Sublist q := by
  obtain ⟨before, rfl⟩ := h
  exact (List.sublist_cons_self k after).trans (List.sublist_append_right _ _)

/-- Behind a key another one is used. -/
theorem Behind.use (h : Behind q k after) (hq : q.Nodup) (hne : k' ≠ k) :
    Behind (use q k') k (Recency.use after k') := by
  obtain ⟨before, rfl⟩ := h
  obtain ⟨-, -, hdisjoint⟩ := List.nodup_append.1 hq
  rw [Recency.use, Recency.use]
  by_cases hbefore : k' ∈ before
  · have hafter : k' ∉ after := fun hmem =>
      hdisjoint k' hbefore k' (List.mem_cons_of_mem _ hmem) rfl
    refine ⟨before.erase k', ?_⟩
    rw [List.erase_append_left _ hbefore, List.erase_of_not_mem hafter, List.append_assoc,
      List.cons_append]
  · refine ⟨before, ?_⟩
    rw [List.erase_append_right _ hbefore, List.erase_cons_tail (by simpa using hne.symm),
      List.append_assoc, List.cons_append]

omit [DecidableEq κ] in
/-- What is behind a key stays, and the key with it where there is room. -/
theorem Behind.keep (h : Behind q k after) (hlt : after.length < n) :
    Behind (keep n q) k after := by
  obtain ⟨before, rfl⟩ := h
  refine ⟨before.drop ((before ++ k :: after).length - n), ?_⟩
  rw [Recency.keep, List.drop_append_of_le_length]
  rw [List.length_append, List.length_cons]
  omega

omit [DecidableEq κ] in
/-- A key that stays has the others behind it that were there. -/
theorem Behind.of_keep {m : ℕ} (h : k ∈ q.drop m) (hq : q.Nodup) (hafter : Behind q k after) :
    Behind (q.drop m) k after := by
  obtain ⟨before, rfl⟩ := hafter
  rcases Nat.lt_or_ge before.length m with hlt | hle
  · have hgone : (before ++ k :: after).drop m = after.drop (m - before.length - 1) := by
      obtain ⟨i, rfl⟩ : ∃ i, m = before.length + (i + 1) := ⟨m - before.length - 1, by omega⟩
      rw [List.drop_length_add_append, List.drop_succ_cons, Nat.add_sub_cancel_left,
        Nat.add_sub_cancel]
    rw [hgone] at h
    obtain ⟨-, hcons, -⟩ := List.nodup_append.1 hq
    exact absurd (List.mem_of_mem_drop h) (List.nodup_cons.1 hcons).1
  · exact ⟨before.drop m, List.drop_append_of_le_length hle⟩

theorem Behind.erase (h : Behind q k after) (hq : q.Nodup) (hne : k' ≠ k) :
    Behind (q.erase k') k (after.erase k') := by
  obtain ⟨before, rfl⟩ := h
  obtain ⟨-, -, hdisjoint⟩ := List.nodup_append.1 hq
  by_cases hbefore : k' ∈ before
  · have hafter : k' ∉ after := fun hmem =>
      hdisjoint k' hbefore k' (List.mem_cons_of_mem _ hmem) rfl
    exact ⟨before.erase k', by rw [List.erase_append_left _ hbefore, List.erase_of_not_mem hafter]⟩
  · exact ⟨before, by
      rw [List.erase_append_right _ hbefore, List.erase_cons_tail (by simpa using hne.symm)]⟩

/-- An operation on another key leaves behind a key only keys that were there, and its own. -/
theorem Behind.step (h : Behind q k after) (hq : q.Nodup) (hne : op.key ≠ k) {s : Finset κ}
    (hs : ∀ x ∈ after, x ∈ s) (hop : op.key ∈ s) (hcard : s.card < n) :
    ∃ after', Behind (Recency.step n q op) k after' ∧ ∀ x ∈ after', x ∈ s := by
  have hused : ∀ x ∈ Recency.use after op.key, x ∈ s := fun x hx =>
    (mem_use.1 hx).elim (hs x) fun heq => heq ▸ hop
  rcases op with k' | k' | k'
  · have hnodup : (Recency.use after k').Nodup := nodup_use (hq.sublist h.sublist) k'
    have hlength : (Recency.use after k').length ≤ s.card := by
      rw [← List.toFinset_card_of_nodup hnodup]
      exact Finset.card_le_card fun x hx => hused x (List.mem_toFinset.1 hx)
    exact ⟨_, (h.use hq hne).keep (hlength.trans_lt hcard), hused⟩
  · rw [Recency.step]
    split_ifs
    · exact ⟨_, h.use hq hne, hused⟩
    · exact ⟨after, h, hs⟩
  · exact ⟨_, h.erase hq hne, fun x hx => hs x (List.mem_of_mem_erase hx)⟩

/-- A key stays while the other keys that are used after it are fewer than `n`. -/
theorem mem_foldl_of_card_lt (hafter : Behind q k after) (hq : q.Nodup) {s : Finset κ}
    (hs : ∀ x ∈ after, x ∈ s) (hcard : s.card < n)
    (hops : ∀ op ∈ ops, op.key ≠ k ∧ op.key ∈ s) : k ∈ ops.foldl (step n) q := by
  induction ops generalizing q after with
  | nil => exact hafter.mem
  | cons op ops ih =>
    obtain ⟨⟨hne, hmem⟩, hrest⟩ := List.forall_mem_cons.1 hops
    obtain ⟨after', hafter', hs'⟩ := hafter.step hq hne hs hmem hcard
    exact ih hafter' (nodup_step hq op) hs' hrest

/-! ## Which keys go -/

/-- The keys that are brought in. -/
def entered (ops : List (Op κ)) : List κ :=
  ops.filterMap fun
    | .enter k => some k
    | _ => none

/-- Nothing is taken out by name. -/
def Undropped (ops : List (Op κ)) : Prop :=
  ∀ k, .drop k ∉ ops

/-- As long as a key is there, what was brought in after it is behind it. -/
theorem Behind.step_of_mem (h : Behind q k after) (hq : q.Nodup) (hne : op.key ≠ k)
    (hdrop : ∀ k', op ≠ .drop k') (hmem : k ∈ Recency.step n q op) :
    ∃ after', Behind (Recency.step n q op) k after' ∧ after ⊆ after' ∧
      ∀ k', op = .enter k' → k' ∈ after' := by
  have hsubset : after ⊆ Recency.use after op.key := fun x hx => mem_use.2 (.inl hx)
  rcases op with k' | k' | k'
  · refine ⟨_, Behind.of_keep hmem (nodup_use hq k') (h.use hq hne), hsubset, ?_⟩
    rintro k'' ⟨⟩
    exact mem_use.2 (.inr rfl)
  · rw [Recency.step]
    split_ifs
    · exact ⟨_, h.use hq hne, hsubset, nofun⟩
    · exact ⟨after, h, List.Subset.refl _, nofun⟩
  · exact absurd rfl (hdrop k')

/-- A key is gone once `n` others were brought in. -/
theorem notMem_foldl_of_le_card (hafter : Behind q k after) (hq : q.Nodup) (hlength : q.length ≤ n)
    (hdrop : Undropped ops) (hops : ∀ op ∈ ops, op.key ≠ k)
    (hcard : n ≤ (after ++ entered ops).toFinset.card) : k ∉ ops.foldl (step n) q := by
  induction ops generalizing q after with
  | nil =>
    have hnodup : after.Nodup := hq.sublist hafter.sublist
    rw [entered, List.filterMap_nil, List.append_nil, List.toFinset_card_of_nodup hnodup] at hcard
    obtain ⟨before, rfl⟩ := hafter
    rw [List.length_append, List.length_cons] at hlength
    omega
  | cons op ops ih =>
    obtain ⟨hne, hrest⟩ := List.forall_mem_cons.1 hops
    have hdrop' : Undropped ops := fun k' hk' => hdrop k' (List.mem_cons_of_mem _ hk')
    by_cases hmem : k ∈ step n q op
    · obtain ⟨after', hafter', hsubset, henter⟩ := hafter.step_of_mem hq hne
        (fun k' heq => hdrop k' (heq ▸ List.mem_cons_self)) hmem
      refine ih hafter' (nodup_step hq op) (length_step_le hlength op) hdrop' hrest ?_
      refine hcard.trans (Finset.card_le_card fun x hx => ?_)
      rw [List.mem_toFinset, List.mem_append] at hx ⊢
      rcases hx with hx | hx
      · exact .inl (hsubset hx)
      · rcases op with k' | k' | k'
        · rcases List.mem_cons.1 hx with rfl | hx
          · exact .inl (henter _ rfl)
          · exact .inr hx
        · exact .inr hx
        · exact .inr hx
    · exact notMem_foldl (q := step n q op) hmem hrest

end Recency
