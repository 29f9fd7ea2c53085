import Mathlib.Algebra.Order.Field.Rat
import Mathlib.Data.List.Sort
import OxenClaw.Lib.Dict
import OxenClaw.Lib.Python
import OxenClaw.Lib.Spared

/-!
# Maintenance of the session store

`StoreMaintenance.tick` prunes the sessions by age, by count and by the size of the file, one
after another. The pass by age keeps the `keep_min` most recent sessions of each agent
(`spared_pruneByAge`). The pass by count looks at no agent, and the pass by size stops at
`keep_min` sessions in all : whether they keep as many of each agent depends on how the
sessions are spread (`CountSpares`, `DiskSpares`).

What a pass reads of the clock and of the file's size is an input.
-/

namespace OxenClaw

/-- What the passes read of a row of `sessions`. -/
structure SessionEntry where
  id : String
  agentId : String
  updatedAt : ℚ
  deriving DecidableEq

/-- `sessions`, whose primary key is the id. -/
structure SessionTable where
  rows : List SessionEntry
  nodup : (rows.map SessionEntry.id).Nodup

theorem SessionTable.nodup_filter (t : SessionTable) (p : SessionEntry → Bool) :
    ((t.rows.filter p).map SessionEntry.id).Nodup :=
  t.nodup.sublist (List.filter_sublist.map _)

/-- Newest first, a stable sort. -/
def newestFirst (entries : List SessionEntry) : List SessionEntry :=
  entries.insertionSort fun e e' => e'.updatedAt ≤ e.updatedAt

/-- Oldest first, a stable sort. -/
def oldestFirst (entries : List SessionEntry) : List SessionEntry :=
  entries.insertionSort fun e e' => e.updatedAt ≤ e'.updatedAt

namespace SessionTable

/-- `SELECT .. FROM sessions ORDER BY updated_at DESC`. -/
def list (t : SessionTable) : List SessionEntry :=
  newestFirst t.rows

/-- `DELETE FROM sessions WHERE id = ?`, and whether it found a row. -/
def delete (t : SessionTable) (sessionId : String) : SessionTable × Bool :=
  (⟨t.rows.filter fun e => e.id ≠ sessionId, t.nodup_filter _⟩,
    t.rows.any fun e => e.id = sessionId)

/-- Delete one by one, and count. -/
def deleteAll (t : SessionTable) : List String → SessionTable × ℕ
  | [] => (t, 0)
  | sessionId :: ids =>
    let rest := (t.delete sessionId).1.deleteAll ids
    (rest.1, rest.2 + if (t.delete sessionId).2 then 1 else 0)

end SessionTable

structure PruneResult where
  sessionsRemoved : ℕ
  bytesFreedEstimated : ℕ

/-- `db_size_bytes` before a pass and after it. -/
structure SizeReadings where
  before : ℕ
  after : ℕ

/-- The sessions `prune_by_age` deletes : of each agent's, past the `keep_min` most recent,
those older than the cutoff. -/
def agedOut (entries : List SessionEntry) (cutoff : ℚ) (keepMin : ℤ) : List SessionEntry :=
  (Dict.groupBy SessionEntry.agentId entries).flatMap fun group =>
    (Py.sliceFrom (newestFirst group.2) keepMin).filter fun e => e.updatedAt < cutoff

def pruneByAge (t : SessionTable) (now olderThanSeconds : ℚ) (keepMin : ℤ) (size : SizeReadings) :
    SessionTable × PruneResult :=
  let pruned := t.deleteAll ((agedOut t.list (now - olderThanSeconds) keepMin).map SessionEntry.id)
  (pruned.1, ⟨pruned.2, size.before - size.after⟩)

def pruneByCount (t : SessionTable) (maxSessions : ℤ) (size : SizeReadings) :
    SessionTable × PruneResult :=
  if (t.list.length : ℤ) ≤ maxSessions then (t, ⟨0, 0⟩)
  else
    let pruned := t.deleteAll ((Py.sliceFrom t.list maxSessions).map SessionEntry.id)
    (pruned.1, ⟨pruned.2, size.before - size.after⟩)

/-- The loop of `prune_by_disk_budget` over the sessions from old to new. `size i` is read after
the deletion number `i`. -/
def dropOldest (maxBytes keepMin : ℤ) (total : ℕ) :
    List SessionEntry → (size : ℕ → ℕ) → SessionTable → (removed : ℕ) → SessionTable × ℕ
  | [], _, t, removed => (t, removed)
  | e :: es, size, t, removed =>
    if (total : ℤ) - removed ≤ keepMin then (t, removed)
    else
      let deleted := t.delete e.id
      let removed' := if deleted.2 then removed + 1 else removed
      if (size 0 : ℤ) ≤ maxBytes then (deleted.1, removed')
      else dropOldest maxBytes keepMin total es (fun i => size (i + 1)) deleted.1 removed'

/-- `size 0` is read at the start, `size (i + 1)` after the deletion number `i`, `vacuumed` at
the end. -/
def pruneByDiskBudget (t : SessionTable) (maxBytes keepMin : ℤ) (size : ℕ → ℕ) (vacuumed : ℕ) :
    SessionTable × PruneResult :=
  if (size 0 : ℤ) ≤ maxBytes then (t, ⟨0, 0⟩)
  else
    let pruned := dropOldest maxBytes keepMin t.list.length (oldestFirst t.list)
      (fun i => size (i + 1)) t 0
    (pruned.1, ⟨pruned.2, size 0 - vacuumed⟩)

/-- Knobs for the periodic maintenance task. -/
structure MaintenanceConfig where
  maxAgeSeconds : Option ℚ := some (30 * 24 * 60 * 60)
  maxSessions : Option ℤ := some 1000
  maxDiskBytes : Option ℤ := some (500 * 1024 * 1024)
  keepMinPerAgent : ℤ := 5

/-- What a tick reads of the clock and the file. -/
structure TickReadings where
  now : ℚ
  age : SizeReadings
  count : SizeReadings
  disk : ℕ → ℕ
  vacuumed : ℕ

/-- The summary of a tick : sessions removed by each pass, and bytes freed. -/
structure TickSummary where
  byAge : Option ℕ
  byCount : Option ℕ
  byDisk : Option (ℕ × ℕ)

namespace MaintenanceConfig

/-- The first pass of a tick. -/
def byAge (cfg : MaintenanceConfig) (r : TickReadings) (t : SessionTable) :
    SessionTable × Option PruneResult :=
  match cfg.maxAgeSeconds with
  | none => (t, none)
  | some maxAge => (pruneByAge t r.now maxAge cfg.keepMinPerAgent r.age).map id some

/-- The second. -/
def byCount (cfg : MaintenanceConfig) (r : TickReadings) (t : SessionTable) :
    SessionTable × Option PruneResult :=
  match cfg.maxSessions with
  | none => (t, none)
  | some maxSessions => (pruneByCount t maxSessions r.count).map id some

/-- The third. -/
def byDisk (cfg : MaintenanceConfig) (r : TickReadings) (t : SessionTable) :
    SessionTable × Option PruneResult :=
  match cfg.maxDiskBytes with
  | none => (t, none)
  | some maxBytes =>
    (pruneByDiskBudget t maxBytes cfg.keepMinPerAgent r.disk r.vacuumed).map id some

/-- `StoreMaintenance.tick`. -/
def tick (cfg : MaintenanceConfig) (r : TickReadings) (t : SessionTable) :
    SessionTable × TickSummary :=
  let aged := cfg.byAge r t
  let counted := cfg.byCount r aged.1
  let fitted := cfg.byDisk r counted.1
  (fitted.1,
    { byAge := aged.2.map PruneResult.sessionsRemoved
      byCount := counted.2.map PruneResult.sessionsRemoved
      byDisk := fitted.2.map fun p => (p.sessionsRemoved, p.bytesFreedEstimated) })

end MaintenanceConfig

/-! ## What a pass deletes -/

theorem newestFirst_perm (entries : List SessionEntry) : (newestFirst entries).Perm entries :=
  List.perm_insertionSort _ _

theorem oldestFirst_perm (entries : List SessionEntry) : (oldestFirst entries).Perm entries :=
  List.perm_insertionSort _ _

theorem pairwise_newestFirst (entries : List SessionEntry) :
    (newestFirst entries).Pairwise fun e e' => e'.updatedAt ≤ e.updatedAt := by
  have : Std.Total fun e e' : SessionEntry => e'.updatedAt ≤ e.updatedAt :=
    ⟨fun e e' => le_total e'.updatedAt e.updatedAt⟩
  have : IsTrans SessionEntry fun e e' => e'.updatedAt ≤ e.updatedAt :=
    ⟨fun _ _ _ h h' => h'.trans h⟩
  exact List.pairwise_insertionSort _ entries

theorem pairwise_oldestFirst (entries : List SessionEntry) :
    (oldestFirst entries).Pairwise fun e e' => e.updatedAt ≤ e'.updatedAt := by
  have : Std.Total fun e e' : SessionEntry => e.updatedAt ≤ e'.updatedAt :=
    ⟨fun e e' => le_total e.updatedAt e'.updatedAt⟩
  have : IsTrans SessionEntry fun e e' => e.updatedAt ≤ e'.updatedAt :=
    ⟨fun _ _ _ h h' => h.trans h'⟩
  exact List.pairwise_insertionSort _ entries

namespace SessionTable

theorem nodup_rows (t : SessionTable) : t.rows.Nodup :=
  t.nodup.of_map

theorem list_perm (t : SessionTable) : t.list.Perm t.rows :=
  newestFirst_perm t.rows

theorem nodup_list (t : SessionTable) : t.list.Nodup :=
  t.list_perm.nodup_iff.2 t.nodup_rows

theorem oldestFirst_list_perm (t : SessionTable) : (oldestFirst t.list).Perm t.rows :=
  (oldestFirst_perm _).trans t.list_perm

/-- The id tells the row. -/
theorem eq_of_id_eq (t : SessionTable) {e e' : SessionEntry} (h : e ∈ t.rows) (h' : e' ∈ t.rows)
    (hid : e.id = e'.id) : e = e' :=
  List.inj_on_of_nodup_map t.nodup h h' hid

theorem rows_deleteAll (t : SessionTable) (ids : List String) :
    (t.deleteAll ids).1.rows = t.rows.filter fun e => e.id ∉ ids := by
  induction ids generalizing t with
  | nil => exact (List.filter_eq_self.2 fun e _ => by simp).symm
  | cons sessionId ids ih =>
    have hrows : (t.deleteAll (sessionId :: ids)).1.rows =
        ((t.delete sessionId).1.deleteAll ids).1.rows := rfl
    rw [hrows, ih, delete, List.filter_filter]
    refine List.filter_congr fun e _ => ?_
    by_cases hid : e.id = sessionId
    · simp [hid]
    · simp [hid]

/-- Deleting rows by their ids leaves the others. -/
theorem mem_deleteAll (t : SessionTable) {dropped : List SessionEntry} (h : dropped ⊆ t.rows)
    {e : SessionEntry} :
    e ∈ (t.deleteAll (dropped.map SessionEntry.id)).1.rows ↔ e ∈ t.rows ∧ e ∉ dropped := by
  rw [rows_deleteAll, List.mem_filter, decide_eq_true_iff]
  refine and_congr_right fun he => not_congr ⟨fun hmem => ?_, List.mem_map_of_mem⟩
  obtain ⟨e', he', hid⟩ := List.mem_map.1 hmem
  rwa [← t.eq_of_id_eq (h he') he hid]

theorem mem_delete (t : SessionTable) {e e' : SessionEntry} (h : e ∈ t.rows) :
    e' ∈ (t.delete e.id).1.rows ↔ e' ∈ t.rows ∧ e' ≠ e := by
  rw [delete, List.mem_filter, decide_eq_true_iff]
  exact and_congr_right fun he' => not_congr ⟨t.eq_of_id_eq he' h, congrArg SessionEntry.id⟩

theorem delete_found (t : SessionTable) {e : SessionEntry} (h : e ∈ t.rows) :
    (t.delete e.id).2 = true :=
  List.any_eq_true.2 ⟨e, h, decide_eq_true rfl⟩

/-- A table that has exactly the rows of a list. -/
theorem rows_perm (t : SessionTable) {l : List SessionEntry} (hl : l.Nodup)
    (h : ∀ e, e ∈ t.rows ↔ e ∈ l) : t.rows.Perm l :=
  (List.perm_ext_iff_of_nodup t.nodup_rows hl).2 h

end SessionTable

/-! ## By age -/

section

variable {t : SessionTable} {m : ℕ}

theorem mem_agedOut {entries : List SessionEntry} {cutoff : ℚ} {keepMin : ℤ} {e : SessionEntry}
    (h : e ∈ agedOut entries cutoff keepMin) :
    e ∈ Py.sliceFrom (newestFirst (entries.filter fun x => x.agentId = e.agentId)) keepMin := by
  obtain ⟨⟨agentId, group⟩, hgroup, he⟩ := List.mem_flatMap.1 h
  have hslice := (List.mem_filter.1 he).1
  rw [Dict.eq_filter_of_mem_groupBy hgroup] at hslice
  have hagent : e.agentId = agentId := by
    have hmem := (newestFirst_perm _).subset (List.mem_of_mem_drop hslice)
    exact of_decide_eq_true (List.mem_filter.1 hmem).2
  rwa [hagent]

theorem agedOut_subset (t : SessionTable) (cutoff : ℚ) (keepMin : ℤ) :
    agedOut t.list cutoff keepMin ⊆ t.rows := by
  intro e he
  have hmem := (newestFirst_perm _).subset (List.mem_of_mem_drop (mem_agedOut he))
  exact t.list_perm.subset (List.mem_of_mem_filter hmem)

/-- The pass by age keeps the most recent sessions of each agent. -/
theorem spared_pruneByAge (t : SessionTable) (now olderThanSeconds : ℚ) (keepMin : ℤ)
    (size : SizeReadings) : Spared SessionEntry.agentId SessionEntry.updatedAt keepMin.toNat
      t.rows (pruneByAge t now olderThanSeconds keepMin size).1.rows := by
  rcases lt_or_ge keepMin 0 with hneg | hkeep
  · rw [Int.toNat_eq_zero.2 hneg.le]
    exact Spared.zero _ _
  · refine spared_of_mem_drop
      (fun agentId => pairwise_newestFirst (t.list.filter fun e => e.agentId = agentId))
      (fun agentId => (newestFirst_perm _).nodup_iff.2 (t.nodup_list.filter _))
      (fun agentId e => ?_) fun e he hnot => ?_
    · rw [(newestFirst_perm _).mem_iff, List.mem_filter, t.list_perm.mem_iff, decide_eq_true_iff]
    · have hsub := agedOut_subset t (now - olderThanSeconds) keepMin
      have hout : e ∈ agedOut t.list (now - olderThanSeconds) keepMin :=
        not_not.1 fun hout => hnot ((t.mem_deleteAll hsub).2 ⟨he, hout⟩)
      have hslice := mem_agedOut hout
      rwa [Py.sliceFrom, Py.sliceStart, if_pos hkeep] at hslice

theorem pruneByAge_subset (t : SessionTable) (now olderThanSeconds : ℚ) (keepMin : ℤ)
    (size : SizeReadings) : (pruneByAge t now olderThanSeconds keepMin size).1.rows ⊆ t.rows :=
  fun _ he => ((t.mem_deleteAll (agedOut_subset t _ keepMin)).1 he).1

/-! ## By count -/

/-- No session among the `m` most recent of its agent stands past the limit. -/
def CountSpares (m : ℕ) (maxSessions : ℤ) (l : List SessionEntry) : Prop :=
  ∀ i, Py.sliceStart l.length maxSessions ≤ i → ∀ e ∈ l[i]?,
    m ≤ (l.take i).countP fun e' => e'.agentId = e.agentId

theorem rows_pruneByCount (t : SessionTable) (maxSessions : ℤ) (size : SizeReadings) :
    (pruneByCount t maxSessions size).1.rows.Perm
      (t.list.take (Py.sliceStart t.list.length maxSessions)) := by
  unfold pruneByCount
  split_ifs with hle
  · have hstart : t.list.length ≤ Py.sliceStart t.list.length maxSessions := by
      unfold Py.sliceStart
      split_ifs <;> omega
    rw [List.take_of_length_le hstart]
    exact t.list_perm.symm
  · have hsub : Py.sliceFrom t.list maxSessions ⊆ t.rows := fun e he =>
      t.list_perm.subset (List.mem_of_mem_drop he)
    refine SessionTable.rows_perm _ (t.nodup_list.sublist (List.take_sublist _ _)) fun e => ?_
    rw [t.mem_deleteAll hsub, ← t.list_perm.mem_iff]
    exact (mem_take_iff_of_nodup t.nodup_list _).symm

theorem spared_pruneByCount_iff (t : SessionTable) (maxSessions : ℤ) (size : SizeReadings)
    (m : ℕ) : Spared SessionEntry.agentId SessionEntry.updatedAt m t.rows
      (pruneByCount t maxSessions size).1.rows ↔ CountSpares m maxSessions t.list := by
  have hrows := rows_pruneByCount t maxSessions size
  have hsorted : t.list.Pairwise fun e e' => e'.updatedAt ≤ e.updatedAt :=
    pairwise_newestFirst t.rows
  exact Iff.trans
    ⟨Spared.of_perm t.list_perm.symm hrows, Spared.of_perm t.list_perm hrows.symm⟩
    (spared_take_iff hsorted t.nodup_list _)

/-! ## By size -/

/-- No session among the `m` most recent of its agent is one the loop reaches, from old to new,
before `keepMin` are left or the file is small enough. -/
def DiskSpares (m : ℕ) (maxBytes keepMin : ℤ) (size : ℕ → ℕ) (l : List SessionEntry) : Prop :=
  ∀ i : ℕ, i + keepMin < l.length → (∀ j ≤ i, maxBytes < size j) → ∀ e ∈ l[i]?,
    m ≤ (l.drop (i + 1)).countP fun e' => e'.agentId = e.agentId

theorem dropOldest_cons {t : SessionTable} {e : SessionEntry} (he : e ∈ t.rows)
    (maxBytes keepMin : ℤ) (total : ℕ) (es : List SessionEntry) (size : ℕ → ℕ) (removed : ℕ) :
    dropOldest maxBytes keepMin total (e :: es) size t removed =
      if (total : ℤ) - removed ≤ keepMin then (t, removed)
      else if (size 0 : ℤ) ≤ maxBytes then ((t.delete e.id).1, removed + 1)
      else dropOldest maxBytes keepMin total es (fun i => size (i + 1)) (t.delete e.id).1
        (removed + 1) := by
  rw [dropOldest]
  simp only [t.delete_found he, if_true]

/-- The loop deletes a first part of its list, as long as more than `keepMin` are left and the
file is too large. -/
theorem exists_dropOldest (maxBytes keepMin : ℤ) (total : ℕ) (es : List SessionEntry)
    (size : ℕ → ℕ) (t : SessionTable) (removed : ℕ) (hnodup : es.Nodup) (hsub : es ⊆ t.rows) :
    ∃ n, (∀ e, e ∈ (dropOldest maxBytes keepMin total es size t removed).1.rows ↔
        e ∈ t.rows ∧ e ∉ es.take n) ∧
      ∀ i < es.length, (i < n ↔
        keepMin < total - (removed + i : ℕ) ∧ ∀ j < i, maxBytes < size j) := by
  induction es generalizing size t removed with
  | nil => exact ⟨0, fun e => by simp [dropOldest], fun i hi => absurd hi (Nat.not_lt_zero i)⟩
  | cons e es ih =>
    have he : e ∈ t.rows := hsub List.mem_cons_self
    obtain ⟨hhead, htail⟩ := List.nodup_cons.1 hnodup
    rw [dropOldest_cons he]
    split_ifs with hkeep hsmall
    · refine ⟨0, fun e' => by simp, fun i _ => iff_of_false (Nat.not_lt_zero i) fun h => ?_⟩
      have hleft := h.1
      push_cast at hleft
      omega
    · refine ⟨1, fun e' => ?_, fun i _ => ?_⟩
      · rw [t.mem_delete he, List.take_succ_cons, List.take_zero, List.mem_singleton]
      · cases i with
        | zero => exact iff_of_true Nat.one_pos ⟨not_le.1 hkeep, fun _ h => absurd h (Nat.not_lt_zero _)⟩
        | succ i =>
          exact iff_of_false (by omega) fun h => absurd (h.2 0 i.succ_pos) (not_lt.2 hsmall)
    · have hrest : es ⊆ (t.delete e.id).1.rows := fun e' he' =>
        (t.mem_delete he).2 ⟨hsub (List.mem_cons_of_mem _ he'), fun heq => hhead (heq ▸ he')⟩
      obtain ⟨n, hrows, hn⟩ := ih (fun i => size (i + 1)) (t.delete e.id).1 (removed + 1) htail hrest
      refine ⟨n + 1, fun e' => ?_, fun i hi => ?_⟩
      · rw [hrows, t.mem_delete he, List.take_succ_cons, List.mem_cons, not_or, and_assoc]
      · cases i with
        | zero => exact iff_of_true n.succ_pos ⟨not_le.1 hkeep, fun _ h => absurd h (Nat.not_lt_zero _)⟩
        | succ i =>
          rw [Nat.succ_lt_succ_iff, hn i (Nat.lt_of_succ_lt_succ hi), Nat.forall_lt_succ_left,
            show removed + 1 + i = removed + (i + 1) by omega]
          exact and_congr_right fun _ => ⟨fun h => ⟨not_le.1 hsmall, h⟩, fun h => h.2⟩

theorem exists_rows_pruneByDiskBudget (t : SessionTable) (maxBytes keepMin : ℤ) (size : ℕ → ℕ)
    (vacuumed : ℕ) :
    ∃ n, (pruneByDiskBudget t maxBytes keepMin size vacuumed).1.rows.Perm
        ((oldestFirst t.list).drop n) ∧
      ∀ i < t.rows.length, (i < n ↔ i + keepMin < t.rows.length ∧ ∀ j ≤ i, maxBytes < size j) := by
  have hperm := t.oldestFirst_list_perm
  have hnodup : (oldestFirst t.list).Nodup := hperm.nodup_iff.2 t.nodup_rows
  unfold pruneByDiskBudget
  split_ifs with hsmall
  · refine ⟨0, hperm.symm, fun i _ => iff_of_false (Nat.not_lt_zero i) fun h => ?_⟩
    exact absurd (h.2 0 i.zero_le) (not_lt.2 hsmall)
  · obtain ⟨n, hrows, hn⟩ := exists_dropOldest maxBytes keepMin t.list.length
      (oldestFirst t.list) (fun i => size (i + 1)) t 0 hnodup hperm.subset
    refine ⟨n, SessionTable.rows_perm _ (hnodup.sublist (List.drop_sublist _ _)) fun e => ?_,
      fun i hi => ?_⟩
    · rw [hrows, mem_drop_iff_of_nodup hnodup, hperm.mem_iff]
    · rw [hn i (hperm.length_eq ▸ hi), Nat.zero_add, t.list_perm.length_eq]
      refine and_congr (by omega) ⟨fun h j hj => ?_, fun h j hj => h (j + 1) hj⟩
      cases j with
      | zero => exact not_le.1 hsmall
      | succ j => exact h j (Nat.lt_of_succ_le hj)

theorem spared_pruneByDiskBudget_iff (t : SessionTable) (maxBytes keepMin : ℤ) (size : ℕ → ℕ)
    (vacuumed m : ℕ) : Spared SessionEntry.agentId SessionEntry.updatedAt m t.rows
      (pruneByDiskBudget t maxBytes keepMin size vacuumed).1.rows ↔
        DiskSpares m maxBytes keepMin size (oldestFirst t.list) := by
  obtain ⟨n, hrows, hn⟩ := exists_rows_pruneByDiskBudget t maxBytes keepMin size vacuumed
  have hperm := t.oldestFirst_list_perm
  have hdrop : Spared SessionEntry.agentId SessionEntry.updatedAt m (oldestFirst t.list)
      ((oldestFirst t.list).drop n) ↔ _ :=
    spared_drop_iff (pairwise_oldestFirst t.list) (hperm.nodup_iff.2 t.nodup_rows) n
  rw [DiskSpares, hperm.length_eq]
  refine Iff.trans ⟨Spared.of_perm hperm.symm hrows, Spared.of_perm hperm hrows.symm⟩ (hdrop.trans ?_)
  constructor
  · intro h i hleft hlarge e he
    have hlt : i < t.rows.length := hperm.length_eq ▸ (List.getElem?_eq_some_iff.1 he).1
    exact h i ((hn i hlt).2 ⟨hleft, hlarge⟩) e he
  · intro h i hi e he
    have hlt : i < t.rows.length := hperm.length_eq ▸ (List.getElem?_eq_some_iff.1 he).1
    obtain ⟨hleft, hlarge⟩ := (hn i hlt).1 hi
    exact h i hleft hlarge e he

end

/-! ## A tick -/

namespace MaintenanceConfig

variable (cfg : MaintenanceConfig) (r : TickReadings) (t : SessionTable)

/-- The passes by count and by size find the sessions so spread that they leave each agent its
most recent ones. -/
def Spares : Prop :=
  (∀ maxSessions ∈ cfg.maxSessions,
    CountSpares cfg.keepMinPerAgent.toNat maxSessions (cfg.byAge r t).1.list) ∧
  ∀ maxBytes ∈ cfg.maxDiskBytes,
    DiskSpares cfg.keepMinPerAgent.toNat maxBytes cfg.keepMinPerAgent r.disk
      (oldestFirst (cfg.byCount r (cfg.byAge r t).1).1.list)

theorem spared_byAge : Spared SessionEntry.agentId SessionEntry.updatedAt
    cfg.keepMinPerAgent.toNat t.rows (cfg.byAge r t).1.rows := by
  unfold byAge
  split
  · exact Spared.refl _
  · exact spared_pruneByAge t _ _ _ r.age

theorem spared_byCount_iff : Spared SessionEntry.agentId SessionEntry.updatedAt
    cfg.keepMinPerAgent.toNat t.rows (cfg.byCount r t).1.rows ↔
      ∀ maxSessions ∈ cfg.maxSessions, CountSpares cfg.keepMinPerAgent.toNat maxSessions t.list := by
  unfold byCount
  split
  · rename_i hnone
    exact iff_of_true (Spared.refl _) (by simp [hnone])
  · rename_i maxSessions hsome
    refine (spared_pruneByCount_iff t maxSessions r.count _).trans
      ⟨fun h n hn => ?_, fun h => h _ hsome⟩
    rwa [← Option.some.inj (hsome.symm.trans hn)]

theorem spared_byDisk_iff : Spared SessionEntry.agentId SessionEntry.updatedAt
    cfg.keepMinPerAgent.toNat t.rows (cfg.byDisk r t).1.rows ↔
      ∀ maxBytes ∈ cfg.maxDiskBytes, DiskSpares cfg.keepMinPerAgent.toNat maxBytes
        cfg.keepMinPerAgent r.disk (oldestFirst t.list) := by
  unfold byDisk
  split
  · rename_i hnone
    exact iff_of_true (Spared.refl _) (by simp [hnone])
  · rename_i maxBytes hsome
    refine (spared_pruneByDiskBudget_iff t maxBytes _ r.disk r.vacuumed _).trans
      ⟨fun h n hn => ?_, fun h => h _ hsome⟩
    rwa [← Option.some.inj (hsome.symm.trans hn)]

theorem byAge_subset : (cfg.byAge r t).1.rows ⊆ t.rows := by
  unfold byAge
  split
  · exact fun _ h => h
  · exact pruneByAge_subset t _ _ _ r.age

theorem byCount_subset : (cfg.byCount r t).1.rows ⊆ t.rows := by
  unfold byCount
  split
  · exact fun _ h => h
  · intro e he
    exact t.list_perm.subset (List.mem_of_mem_take ((rows_pruneByCount t _ _).subset he))

theorem byDisk_subset : (cfg.byDisk r t).1.rows ⊆ t.rows := by
  unfold byDisk
  split
  · exact fun _ h => h
  · rename_i maxBytes _
    intro e he
    obtain ⟨n, hrows, -⟩ := exists_rows_pruneByDiskBudget t maxBytes cfg.keepMinPerAgent r.disk
      r.vacuumed
    exact t.oldestFirst_list_perm.subset (List.mem_of_mem_drop (hrows.subset he))

/-- A tick keeps the most recent sessions of each agent exactly if the sessions are so spread
that its last two passes do. -/
theorem keepsMostRecent_tick_iff : KeepsMostRecent SessionEntry.agentId SessionEntry.updatedAt
    cfg.keepMinPerAgent.toNat t.rows (cfg.tick r t).1.rows ↔ cfg.Spares r t := by
  obtain ⟨aged, haged⟩ : ∃ aged, aged = (cfg.byAge r t).1 := ⟨_, rfl⟩
  obtain ⟨counted, hcounted⟩ : ∃ counted, counted = (cfg.byCount r aged).1 := ⟨_, rfl⟩
  have hagedsub : aged.rows ⊆ t.rows := haged ▸ cfg.byAge_subset r t
  have hcountedsub : counted.rows ⊆ aged.rows := hcounted ▸ cfg.byCount_subset r aged
  have hfinalsub : (cfg.tick r t).1.rows ⊆ counted.rows := by
    rw [hcounted, haged]
    exact cfg.byDisk_subset r _
  have hfinal : (cfg.tick r t).1 = (cfg.byDisk r counted).1 := by
    rw [hcounted, haged]
    rfl
  have hcountedall : counted.rows ⊆ t.rows := fun e he => hagedsub (hcountedsub he)
  rw [keepsMostRecent_iff_spared (cfg.tick r t).1.nodup_rows
    (fun e he => hcountedall (hfinalsub he)) t.nodup_rows, Spares, ← haged,
    ← cfg.spared_byCount_iff r aged, ← hcounted, ← cfg.spared_byDisk_iff r counted, ← hfinal]
  constructor
  · intro h
    exact ⟨(h.weaken ((cfg.tick r t).1.nodup_rows.subperm hfinalsub)).mono_left hagedsub,
      h.mono_left hcountedall⟩
  · rintro ⟨hcount, hdisk⟩
    have hage := cfg.spared_byAge r t
    rw [← haged] at hage
    exact (hage.trans hcount aged.nodup_rows).trans hdisk counted.nodup_rows

/-- A quiet agent with one session, and a busy one. -/
def quietAndBusy : SessionTable where
  rows := [⟨"s1", "quiet", 1⟩, ⟨"s2", "busy", 2⟩, ⟨"s3", "busy", 3⟩]
  nodup := by decide

/-- A limit of two sessions costs the quiet agent its only one. -/
theorem tick_quietAndBusy :
    ¬∀ (cfg : MaintenanceConfig) (r : TickReadings) (t : SessionTable),
      KeepsMostRecent SessionEntry.agentId SessionEntry.updatedAt cfg.keepMinPerAgent.toNat t.rows
        (cfg.tick r t).1.rows := by
  intro h
  obtain ⟨recent, -, hlen, hkept, -⟩ := h
    { maxAgeSeconds := none, maxSessions := some 2, maxDiskBytes := none }
    ⟨0, ⟨0, 0⟩, ⟨0, 0⟩, fun _ => 0, 0⟩ quietAndBusy "quiet"
  have hone : recent.length = 1 := hlen
  obtain ⟨e, he⟩ := List.exists_mem_of_length_pos (hone ▸ Nat.one_pos)
  obtain ⟨-, hagent, hmem⟩ := hkept e he
  have hbusy : ∀ e ∈ (({ maxAgeSeconds := none, maxSessions := some 2, maxDiskBytes := none } :
      MaintenanceConfig).tick ⟨0, ⟨0, 0⟩, ⟨0, 0⟩, fun _ => 0, 0⟩ quietAndBusy).1.rows,
      e.agentId = "busy" := by
    decide +kernel
  exact absurd (hagent.symm.trans (hbusy e hmem)) (by decide)

end MaintenanceConfig

end OxenClaw
