import Mathlib.Data.List.Nodup
import Mathlib.Data.List.Perm.Subperm
import Mathlib.Data.List.TakeDrop
import Mathlib.Data.Nat.Init
import Mathlib.Order.Lattice

/-!
# What a pruning spares

Items have a key and a stamp. A pruning spares `m` of each key (`Spared`) if each item it
drops leaves `m` of the same key behind that are no older. Where there are no more than `m` of
a key it then drops none of them, and else `m` most recent ones are kept.

Prunings that spare compose (`Spared.trans`). One that keeps the first `n` of a list from new to
old spares exactly if no item among the first `m` of its key stands beyond `n`
(`spared_take_iff`), and one that drops the first of a list from old to new is its mirror image
(`spared_drop_iff`). What is spared are the most recent ones (`keepsMostRecent_iff_spared`).
-/

variable {α κ τ : Type*} [DecidableEq κ] [Preorder τ] [DecidableLE τ] {key : α → κ} {stamp : α → τ}
  {m : ℕ} {a b c l : List α}

/-- Each item dropped leaves `m` of its key that are no older. -/
def Spared (key : α → κ) (stamp : α → τ) (m : ℕ) (before after : List α) : Prop :=
  ∀ x ∈ before, x ∉ after → m ≤ after.countP fun y => key y = key x ∧ stamp x ≤ stamp y

namespace Spared

theorem refl (l : List α) : Spared key stamp m l l :=
  fun _ hx hnot => absurd hx hnot

theorem zero (a b : List α) : Spared key stamp 0 a b :=
  fun _ _ _ => Nat.zero_le _

/-- A pruning that goes less far. -/
theorem weaken (h : Spared key stamp m a c) (hcb : c.Subperm b) : Spared key stamp m a b := by
  intro x hx hnot
  exact (h x hx fun hc => hnot (hcb.subset hc)).trans (hcb.countP_le _)

theorem mono_left (h : Spared key stamp m a c) (hba : b ⊆ a) : Spared key stamp m b c :=
  fun x hx => h x (hba hx)

theorem of_perm {a' b' : List α} (ha : a.Perm a') (hb : b.Perm b')
    (h : Spared key stamp m a b) : Spared key stamp m a' b' :=
  (h.weaken hb.subperm).mono_left ha.symm.subset

/-- Two prunings that spare, one after the other. -/
theorem trans (hab : Spared key stamp m a b) (hbc : Spared key stamp m b c) (hb : b.Nodup) :
    Spared key stamp m a c := by
  intro x hx hnot
  by_cases hlost : ∃ y ∈ b, y ∉ c ∧ key y = key x ∧ stamp x ≤ stamp y
  · obtain ⟨y, hy, hyc, hkey, hstamp⟩ := hlost
    refine (hbc y hy hyc).trans (List.countP_mono_left fun z _ hz => ?_)
    obtain ⟨hzkey, hzstamp⟩ := of_decide_eq_true hz
    exact decide_eq_true ⟨hzkey.trans hkey, hstamp.trans hzstamp⟩
  · have hkept : ∀ y ∈ b, key y = key x ∧ stamp x ≤ stamp y → y ∈ c := fun y hy hxy =>
      not_not.1 fun hyc => hlost ⟨y, hy, hyc, hxy⟩
    have hxb : x ∉ b := fun hxb => hnot (hkept x hxb ⟨rfl, le_rfl⟩)
    refine (hab x hx hxb).trans ?_
    rw [List.countP_eq_length_filter, List.countP_eq_length_filter]
    refine ((hb.filter _).subperm fun y hy => ?_).length_le
    obtain ⟨hyb, hxy⟩ := List.mem_filter.1 hy
    exact List.mem_filter.2 ⟨hkept y hyb (of_decide_eq_true hxy), hxy⟩

end Spared

theorem mem_take_iff_of_nodup {x : α} (hl : l.Nodup) (n : ℕ) :
    x ∈ l.take n ↔ x ∈ l ∧ x ∉ l.drop n := by
  constructor
  · exact fun h => ⟨List.mem_of_mem_take h, fun h' => List.disjoint_take_drop hl le_rfl h h'⟩
  · rintro ⟨h, hnot⟩
    rw [← List.take_append_drop n l] at h
    exact (List.mem_append.1 h).resolve_right hnot

theorem mem_drop_iff_of_nodup {x : α} (hl : l.Nodup) (n : ℕ) :
    x ∈ l.drop n ↔ x ∈ l ∧ x ∉ l.take n := by
  constructor
  · exact fun h => ⟨List.mem_of_mem_drop h, fun h' => List.disjoint_take_drop hl le_rfl h' h⟩
  · rintro ⟨h, hnot⟩
    rw [← List.take_append_drop n l] at h
    exact (List.mem_append.1 h).resolve_left hnot

/-- A pruning that leaves the first `m` of each key, from new to old, spares. -/
theorem spared_of_mem_drop {group : κ → List α}
    (hsorted : ∀ k, (group k).Pairwise fun x y => stamp y ≤ stamp x)
    (hnodup : ∀ k, (group k).Nodup) (hgroup : ∀ k x, x ∈ group k ↔ x ∈ a ∧ key x = k)
    (hdrop : ∀ x ∈ a, x ∉ b → x ∈ (group (key x)).drop m) : Spared key stamp m a b := by
  intro x hx hnot
  have hxdrop := hdrop x hx hnot
  have hlen : ((group (key x)).take m).length = m := by
    rw [List.length_take, min_eq_left]
    by_contra hlt
    rw [List.drop_eq_nil_of_le (not_le.1 hlt).le] at hxdrop
    exact List.not_mem_nil hxdrop
  have hpairs := hsorted (key x)
  rw [← List.take_append_drop m (group (key x))] at hpairs
  rw [← hlen, List.countP_eq_length_filter]
  refine (((hnodup (key x)).sublist (List.take_sublist _ _)).subperm fun y hy => ?_).length_le
  obtain ⟨hya, hkey⟩ := (hgroup (key x) y).1 (List.mem_of_mem_take hy)
  refine List.mem_filter.2 ⟨not_not.1 fun hyb => ?_, decide_eq_true ⟨hkey, ?_⟩⟩
  · have hydrop := hdrop y hya hyb
    rw [hkey] at hydrop
    exact ((mem_take_iff_of_nodup (hnodup (key x)) m).1 hy).2 hydrop
  · exact (List.pairwise_append.1 hpairs).2.2 y hy x hxdrop

/-- Whether the pruning to the first `n` spares is seen from the dropped items alone : each has
`m` of its key before it. -/
theorem spared_take_iff (hl : l.Pairwise fun x y => stamp y ≤ stamp x) (hnodup : l.Nodup)
    (n : ℕ) : Spared key stamp m l (l.take n) ↔
      ∀ i, n ≤ i → ∀ x ∈ l[i]?, m ≤ (l.take i).countP fun y => key y = key x := by
  have hsplit := List.take_append_drop n l
  constructor
  · intro h i hi x hx
    obtain ⟨hlt, rfl⟩ := List.getElem?_eq_some_iff.1 hx
    have hnot : l[i] ∉ l.take n := by
      intro hmem
      obtain ⟨j, hj, heq⟩ := List.getElem_of_mem hmem
      rw [List.getElem_take, hnodup.getElem_inj_iff] at heq
      rw [List.length_take] at hj
      omega
    refine (h _ (List.getElem_mem hlt) hnot).trans ?_
    refine le_trans (List.countP_mono_left fun y _ hy => ?_)
      (List.take_prefix_take_left hi).sublist.countP_le
    exact decide_eq_true (of_decide_eq_true hy).1
  · intro h x hx hnot
    have hdrop : x ∈ l.drop n := (mem_drop_iff_of_nodup hnodup n).2 ⟨hx, hnot⟩
    -- the first dropped item of the key
    obtain ⟨pre, z, post, hpre, hz, hfirst⟩ : ∃ pre z post, l.drop n = pre ++ z :: post ∧
        key z = key x ∧ ∀ y ∈ pre, key y ≠ key x := by
      have hsome := List.find?_isSome (p := fun y => decide (key y = key x)) |>.2
        ⟨x, hdrop, decide_eq_true rfl⟩
      obtain ⟨z, hz⟩ := Option.isSome_iff_exists.1 hsome
      obtain ⟨hkey, pre, post, heq, hpre⟩ := List.find?_eq_some_iff_append.1 hz
      exact ⟨pre, z, post, heq, of_decide_eq_true hkey, fun y hy => by simpa using hpre y hy⟩
    have hlen : n < l.length := by
      by_contra hle
      rw [List.drop_eq_nil_of_le (not_lt.1 hle)] at hdrop
      exact List.not_mem_nil hdrop
    have htake : l.take (n + pre.length) = l.take n ++ pre := by
      rw [List.take_add, hpre, List.take_left']
      rfl
    have hget : l[n + pre.length]? = some z := by
      rw [← List.getElem?_drop, hpre, List.getElem?_append_right (le_refl _), Nat.sub_self]
      rfl
    have hcount := h (n + pre.length) (Nat.le_add_right _ _) z hget
    have hnone : pre.countP (fun y => key y = key z) = 0 :=
      List.countP_eq_zero.2 fun y hy => by simpa [hz] using hfirst y hy
    rw [htake, List.countP_append, hnone, Nat.add_zero] at hcount
    refine hcount.trans (List.countP_mono_left fun y hy hkey => ?_)
    rw [← hsplit] at hl
    exact decide_eq_true ⟨(of_decide_eq_true hkey).trans hz,
      (List.pairwise_append.1 hl).2.2 y hy x hdrop⟩

/-- The mirror image : of a list from old to new, the first `n` are dropped. -/
theorem spared_drop_iff (hl : l.Pairwise fun x y => stamp x ≤ stamp y) (hnodup : l.Nodup)
    (n : ℕ) : Spared key stamp m l (l.drop n) ↔
      ∀ i, i < n → ∀ x ∈ l[i]?, m ≤ (l.drop (i + 1)).countP fun y => key y = key x := by
  have hdrop : (l.drop n).Perm (l.reverse.take (l.length - n)) := by
    rw [List.take_reverse]
    rcases Nat.le_total n l.length with hn | hn
    · rw [Nat.sub_sub_self hn]
      exact (List.reverse_perm _).symm
    · rw [List.drop_eq_nil_of_le hn, Nat.sub_eq_zero_of_le hn, Nat.sub_zero, List.drop_length]
      exact List.Perm.nil
  have hmirror : Spared key stamp m l (l.drop n) ↔
      Spared key stamp m l.reverse (l.reverse.take (l.length - n)) :=
    ⟨Spared.of_perm (List.reverse_perm l).symm hdrop, Spared.of_perm (List.reverse_perm l) hdrop.symm⟩
  rw [hmirror, spared_take_iff (List.pairwise_reverse.2 hl) (List.nodup_reverse.2 hnodup)]
  constructor
  · intro h i hi x hx
    have hlt : i < l.length := (List.getElem?_eq_some_iff.1 hx).1
    have hget : l.reverse[l.length - 1 - i]? = some x := by
      rw [List.getElem?_reverse (by omega), ← hx]
      congr 1
      omega
    have hcount := h (l.length - 1 - i) (by omega) x hget
    rwa [List.take_reverse, List.countP_reverse,
      show l.length - (l.length - 1 - i) = i + 1 by omega] at hcount
  · intro h j hj x hx
    have hlt : j < l.length := by
      simpa using (List.getElem?_eq_some_iff.1 hx).1
    rw [List.getElem?_reverse hlt] at hx
    have hcount := h (l.length - 1 - j) (by omega) x hx
    rwa [List.take_reverse, List.countP_reverse,
      show l.length - j = l.length - 1 - j + 1 by omega]

/-- For each key some `m` most recent items are kept, or all where there are fewer. -/
def KeepsMostRecent (key : α → κ) (stamp : α → τ) (m : ℕ) (before after : List α) : Prop :=
  ∀ k, ∃ recent : List α, recent.Nodup ∧
    recent.length = min m (before.countP fun x => key x = k) ∧
    (∀ x ∈ recent, x ∈ before ∧ key x = k ∧ x ∈ after) ∧
    ∀ x ∈ before, key x = k → x ∉ recent → ∀ y ∈ recent, stamp x ≤ stamp y

section Linear

variable {ρ : Type*} [LinearOrder ρ] {stamp : α → ρ}

/-- The items of a key that are kept, from new to old. -/
def keptOf (key : α → κ) (stamp : α → ρ) (after : List α) (k : κ) : List α :=
  (after.filter fun x => key x = k).mergeSort fun x y => decide (stamp y ≤ stamp x)

theorem mem_keptOf (key : α → κ) (stamp : α → ρ) {x : α} {k : κ} : x ∈ keptOf key stamp a k ↔ x ∈ a ∧ key x = k := by
  rw [keptOf, List.mem_mergeSort, List.mem_filter, decide_eq_true_iff]

theorem pairwise_keptOf (key : α → κ) (stamp : α → ρ) (after : List α) (k : κ) :
    (keptOf key stamp after k).Pairwise fun x y => stamp y ≤ stamp x := by
  have htrans : ∀ x y z : α, decide (stamp y ≤ stamp x) = true → decide (stamp z ≤ stamp y) = true →
      decide (stamp z ≤ stamp x) = true := fun x y z hxy hyz =>
    decide_eq_true ((of_decide_eq_true hyz).trans (of_decide_eq_true hxy))
  have htotal : ∀ x y : α, (decide (stamp y ≤ stamp x) || decide (stamp x ≤ stamp y)) = true :=
    fun x y => by simpa using le_total (stamp y) (stamp x)
  exact (List.pairwise_mergeSort htrans htotal _).imp of_decide_eq_true

/-- Fewer than `n` items are newer than one among the first `n`. -/
theorem stamp_le_of_mem_take {x y : α} {n : ℕ}
    (hl : l.Pairwise fun x y => stamp y ≤ stamp x) (hy : y ∈ l.take n)
    (hcount : n ≤ l.countP fun z => stamp x ≤ stamp z) : stamp x ≤ stamp y := by
  by_contra hlt
  obtain ⟨pre, post, hsplit⟩ := List.append_of_mem hy
  have hwhole : l = pre ++ y :: (post ++ l.drop n) := by
    rw [← List.cons_append, ← List.append_assoc, ← hsplit, List.take_append_drop]
  have hlen : pre.length < n := by
    have hle := congrArg List.length hsplit
    simp only [List.length_take, List.length_append, List.length_cons] at hle
    omega
  have hlater : (y :: (post ++ l.drop n)).countP (fun z => decide (stamp x ≤ stamp z)) = 0 := by
    refine List.countP_eq_zero.2 fun z hz => ?_
    rw [hwhole] at hl
    have hzy : stamp z ≤ stamp y := by
      rcases List.mem_cons.1 hz with rfl | hz
      · exact le_rfl
      · exact List.rel_of_pairwise_cons (List.pairwise_append.1 hl).2.1 hz
    simpa using hzy.trans_lt (not_le.1 hlt)
  rw [hwhole, List.countP_append, hlater, Nat.add_zero] at hcount
  exact absurd (hcount.trans List.countP_le_length) (not_le.2 hlen)

/-- What a pruning spares are the most recent items of each key. -/
theorem keepsMostRecent_iff_spared (hb : b.Nodup) (hba : b ⊆ a) (ha : a.Nodup) :
    KeepsMostRecent key stamp m a b ↔ Spared key stamp m a b := by
  constructor
  · intro h x hx hnot
    obtain ⟨recent, hnodup, hlen, hkept, hnewer⟩ := h (key x)
    have hxrecent : x ∉ recent := fun hmem => hnot (hkept x hmem).2.2
    have hcons : (x :: recent).length ≤ a.countP fun y => key y = key x := by
      rw [List.countP_eq_length_filter]
      refine ((List.nodup_cons.2 ⟨hxrecent, hnodup⟩).subperm fun y hy => ?_).length_le
      rcases List.mem_cons.1 hy with rfl | hy
      · exact List.mem_filter.2 ⟨hx, decide_eq_true rfl⟩
      · exact List.mem_filter.2 ⟨(hkept y hy).1, decide_eq_true (hkept y hy).2.1⟩
    rw [List.length_cons] at hcons
    have hm : m = recent.length := by omega
    rw [hm, List.countP_eq_length_filter]
    refine (hnodup.subperm fun y hy => ?_).length_le
    exact List.mem_filter.2 ⟨(hkept y hy).2.2,
      decide_eq_true ⟨(hkept y hy).2.1, hnewer x hx rfl hxrecent y hy⟩⟩
  · intro h k
    have hperm : (keptOf key stamp b k).Perm (b.filter fun x => key x = k) :=
      List.mergeSort_perm _ _
    have hsorted := pairwise_keptOf key stamp b k
    have hnodup : (keptOf key stamp b k).Nodup := hperm.nodup_iff.2 (hb.filter _)
    -- a dropped item leaves its share
    have hshare : ∀ x ∈ a, key x = k → x ∉ b →
        m ≤ (keptOf key stamp b k).countP fun y => stamp x ≤ stamp y := by
      intro x hx hk hnot
      rw [hperm.countP_eq, List.countP_filter]
      refine (h x hx hnot).trans (List.countP_mono_left fun y _ hy => ?_)
      obtain ⟨hkey, hstamp⟩ := of_decide_eq_true hy
      simp [hkey, hstamp, hk]
    have hlen : min m (a.countP fun x => key x = k) ≤ (keptOf key stamp b k).length := by
      by_cases hlost : ∃ x ∈ a, key x = k ∧ x ∉ b
      · obtain ⟨x, hx, hk, hnot⟩ := hlost
        exact (min_le_left _ _).trans ((hshare x hx hk hnot).trans List.countP_le_length)
      · refine (min_le_right _ _).trans ?_
        rw [List.countP_eq_length_filter]
        refine ((ha.filter _).subperm fun x hx => ?_).length_le
        obtain ⟨hxa, hk⟩ := List.mem_filter.1 hx
        exact (mem_keptOf key stamp).2 ⟨not_not.1 fun hxb => hlost ⟨x, hxa, of_decide_eq_true hk, hxb⟩,
          of_decide_eq_true hk⟩
    refine ⟨(keptOf key stamp b k).take (min m (a.countP fun x => key x = k)),
      hnodup.sublist (List.take_sublist _ _), ?_, fun x hx => ?_, fun x hx hk hnot y hy => ?_⟩
    · rw [List.length_take, Nat.min_eq_left hlen]
    · obtain ⟨hxb, hk⟩ := (mem_keptOf key stamp).1 (List.mem_of_mem_take hx)
      exact ⟨hba hxb, hk, hxb⟩
    · by_cases hxb : x ∈ b
      · have hmem := (mem_keptOf key stamp).2 ⟨hxb, hk⟩
        rw [← List.take_append_drop (min m (a.countP fun x => key x = k))
          (keptOf key stamp b k)] at hmem hsorted
        exact (List.pairwise_append.1 hsorted).2.2 y hy x ((List.mem_append.1 hmem).resolve_left hnot)
      · exact stamp_le_of_mem_take hsorted hy
          ((min_le_left _ _).trans (hshare x hx hk hxb))

end Linear
