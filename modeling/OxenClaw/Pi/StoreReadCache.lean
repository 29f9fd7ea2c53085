import OxenClaw.Lib.Dict
import OxenClaw.Lib.Recency
import OxenClaw.Lib.Runs

/-!
# The read cache of the session store

`StoreReadCache` keeps the sessions that were read last : a `dict` of them, and a list of their
ids in the order of their last use. It never has another session than the one that was put in last
(`run_coherent`), and keeps it as long as fewer other ids are used than it has room for
(`get_after_put`).
-/

namespace OxenClaw.Pi

open Recency (Op)

/-- `StoreReadCache`, of sessions in `ν`. -/
structure StoreReadCache (ν : Type*) where
  capacity : ℤ := 32
  data : Dict String ν := []
  order : List String := []

namespace StoreReadCache

variable {ν : Type*}

/-- `_touch`. -/
def touch (c : StoreReadCache ν) (key : String) : StoreReadCache ν :=
  { c with order := (if key ∈ c.order then c.order.erase key else c.order) ++ [key] }

/-- `get`. -/
def get (c : StoreReadCache ν) (key : String) : StoreReadCache ν × Option ν :=
  match c.data.get? key with
  | none => (c, none)
  | some value => (c.touch key, some value)

/-- The session that goes first, where there is no room. -/
def evict (c : StoreReadCache ν) : StoreReadCache ν :=
  match c.order with
  | [] => c
  | oldest :: rest =>
    if c.capacity ≤ c.data.length then { c with data := c.data.erase oldest, order := rest } else c

/-- `put`. -/
def put (c : StoreReadCache ν) (key : String) (value : ν) : StoreReadCache ν :=
  if key ∈ c.data.keys then { c with data := c.data.set key value }.touch key
  else { c.evict with data := c.evict.data.set key value, order := c.evict.order ++ [key] }

/-- `invalidate`. -/
def invalidate (c : StoreReadCache ν) (key : String) : StoreReadCache ν :=
  { c with data := c.data.erase key, order := c.order.erase key }

/-- `clear`. -/
def clear (c : StoreReadCache ν) : StoreReadCache ν :=
  { c with data := [], order := [] }

/-- A call on the cache. -/
inductive Call (ν : Type*) where
  | get (key : String)
  | put (key : String) (value : ν)
  | invalidate (key : String)
  | clear

def step (c : StoreReadCache ν) : Call ν → StoreReadCache ν
  | .get key => (c.get key).1
  | .put key value => c.put key value
  | .invalidate key => c.invalidate key
  | .clear => c.clear

/-- The cache after some calls. -/
def run (capacity : ℤ) (calls : List (Call ν)) : StoreReadCache ν :=
  calls.foldl step { capacity }

/-! ## The two halves agree -/

/-- How many sessions there are at most : one stays even where there is no room. -/
def bound (capacity : ℤ) : ℕ :=
  (max capacity 1).toNat

/-- The ids of `data` are those of `order`, each once, and not too many. -/
structure Ok (capacity : ℤ) (c : StoreReadCache ν) : Prop where
  capacity_eq : c.capacity = capacity
  nodup : c.order.Nodup
  nodup_keys : c.data.keys.Nodup
  mem_iff : ∀ key, key ∈ c.data.keys ↔ key ∈ c.order
  length_le : c.order.length ≤ bound capacity

variable {c : StoreReadCache ν} {capacity : ℤ} {key : String} {value : ν}

theorem touch_order (c : StoreReadCache ν) (key : String) :
    (c.touch key).order = Recency.use c.order key := by
  rw [touch, Recency.use]
  split_ifs with h
  · rfl
  · rw [List.erase_of_not_mem h]

theorem Ok.length_eq (h : Ok capacity c) : c.data.length = c.order.length := by
  have hperm : c.data.keys.Perm c.order :=
    (List.perm_ext_iff_of_nodup h.nodup_keys h.nodup).2 h.mem_iff
  rw [← hperm.length_eq, Dict.keys, List.length_map]

theorem ok_empty (capacity : ℤ) : Ok capacity ({ capacity } : StoreReadCache ν) :=
  ⟨rfl, List.nodup_nil, List.nodup_nil, fun _ => Iff.rfl, Nat.zero_le _⟩

theorem Ok.touch (h : Ok capacity c) (hkey : key ∈ c.order) : Ok capacity (c.touch key) := by
  refine ⟨h.capacity_eq, ?_, h.nodup_keys, fun k => ?_, ?_⟩
  · rw [touch_order]
    exact Recency.nodup_use h.nodup key
  · rw [touch_order, Recency.mem_use]
    refine (h.mem_iff k).trans ⟨.inl, fun hor => hor.elim id fun heq => heq ▸ hkey⟩
  · rw [touch_order, Recency.length_use_of_mem hkey]
    exact h.length_le

/-- What is left by `evict` has room for one more. -/
theorem Ok.evict (h : Ok capacity c) :
    Ok capacity c.evict ∧ c.evict.order.length < bound capacity ∧
      c.evict.order = c.order.drop (c.order.length + 1 - bound capacity) := by
  have hlength := h.length_eq
  have hle := h.length_le
  have hcapacity := h.capacity_eq
  rcases horder : c.order with _ | ⟨oldest, rest⟩
  · have hsame : c.evict = c := by rw [StoreReadCache.evict, horder]
    rw [hsame, horder]
    refine ⟨h, ?_, List.drop_nil.symm⟩
    rw [List.length_nil, bound]
    omega
  have hevict : c.evict = if c.capacity ≤ c.data.length then
      { c with data := c.data.erase oldest, order := rest } else c := by
    rw [StoreReadCache.evict, horder]
  rw [horder, List.length_cons] at hle hlength
  rw [bound] at hle ⊢
  rw [hevict]
  split_ifs with hfull
  · have hdrop : rest.length + 1 + 1 - (max capacity 1).toNat = 1 := by omega
    have hnodup := h.nodup
    rw [horder] at hnodup
    obtain ⟨hnotMem, hrest⟩ := List.nodup_cons.1 hnodup
    refine ⟨⟨hcapacity, hrest, Dict.nodup_keys_erase h.nodup_keys oldest, fun k => ?_, ?_⟩, ?_, ?_⟩
    · rw [Dict.keys_erase, List.mem_filter, h.mem_iff k, horder, List.mem_cons, decide_eq_true_iff]
      refine ⟨fun hk => hk.1.resolve_left hk.2, fun hk => ⟨.inr hk, ?_⟩⟩
      rintro rfl
      exact hnotMem hk
    · rw [bound]
      exact (Nat.le_succ _).trans hle
    · exact hle
    · rw [List.length_cons, hdrop, List.drop_succ_cons, List.drop_zero]
  · have hdrop : rest.length + 1 + 1 - (max capacity 1).toNat = 0 := by omega
    refine ⟨h, ?_, ?_⟩
    · rw [horder, List.length_cons]
      omega
    · rw [List.length_cons, hdrop, List.drop_zero, horder]

theorem Ok.put (h : Ok capacity c) (key : String) (value : ν) :
    Ok capacity (c.put key value) := by
  rw [StoreReadCache.put]
  split_ifs with hkey
  · have hset : Ok capacity { c with data := c.data.set key value } := by
      refine ⟨h.capacity_eq, h.nodup, Dict.nodup_keys_set h.nodup_keys key value, fun k => ?_,
        h.length_le⟩
      rw [Dict.keys_set, if_pos hkey]
      exact h.mem_iff k
    exact hset.touch ((h.mem_iff key).1 hkey)
  · obtain ⟨hok, hlt, hdrop⟩ := h.evict
    have hnew : key ∉ c.evict.order := fun hmem =>
      hkey ((h.mem_iff key).2 (List.mem_of_mem_drop (hdrop ▸ hmem)))
    refine ⟨hok.capacity_eq, ?_, Dict.nodup_keys_set hok.nodup_keys key value, fun k => ?_, ?_⟩
    · exact hok.nodup.append (List.nodup_singleton key) (by simpa using hnew)
    · rw [Dict.mem_keys_set, List.mem_append, List.mem_singleton, hok.mem_iff k]
    · rw [List.length_append, List.length_singleton]
      exact hlt

theorem Ok.step (h : Ok capacity c) (call : Call ν) : Ok capacity (c.step call) := by
  rcases call with key | ⟨key, value⟩ | key | _
  · rw [StoreReadCache.step, StoreReadCache.get]
    rcases hget : c.data.get? key with _ | value
    · exact h
    · exact h.touch ((h.mem_iff key).1 (Dict.mem_keys_iff.2 ⟨value, hget⟩))
  · exact h.put key value
  · refine ⟨h.capacity_eq, h.nodup.erase key, Dict.nodup_keys_erase h.nodup_keys key, fun k => ?_,
      (List.erase_sublist).length_le.trans h.length_le⟩
    rw [StoreReadCache.step, invalidate, Dict.keys_erase, List.mem_filter, h.mem_iff k,
      h.nodup.mem_erase_iff, decide_eq_true_iff, and_comm]
  · exact ⟨h.capacity_eq, List.nodup_nil, List.nodup_nil, fun _ => Iff.rfl, Nat.zero_le _⟩

/-! ## What is read -/

/-- The session that was put in last under an id, and not taken out since. -/
def latest (key : String) (calls : List (Call ν)) : Option ν :=
  calls.foldl (fun found call =>
    match call with
    | .put key' value => if key' = key then some value else found
    | .invalidate key' => if key' = key then none else found
    | .clear => none
    | .get _ => found) none

/-- What the cache has is what was put in last. -/
def Fresh (latest : String → Option ν) (c : StoreReadCache ν) : Prop :=
  ∀ key value, c.data.get? key = some value → latest key = some value

theorem get?_evict {key : String} {value : ν} (h : c.evict.data.get? key = some value) :
    c.data.get? key = some value := by
  rw [StoreReadCache.evict] at h
  split at h
  · exact h
  · split_ifs at h
    · exact (Dict.get?_of_get?_erase h).2
    · exact h

theorem get?_put {key' : String} {found : ν} (h : (c.put key value).data.get? key' = some found) :
    (key' = key ∧ found = value) ∨ (key' ≠ key ∧ c.data.get? key' = some found) := by
  have hset (d : Dict String ν) (h : (d.set key value).get? key' = some found) :
      (key' = key ∧ found = value) ∨ (key' ≠ key ∧ d.get? key' = some found) := by
    rw [Dict.get?_set] at h
    split_ifs at h with heq
    · exact .inl ⟨heq, (Option.some.inj h).symm⟩
    · exact .inr ⟨heq, h⟩
  rw [StoreReadCache.put] at h
  split_ifs at h
  · exact hset _ h
  · exact (hset _ h).imp_right (And.imp_right get?_evict)

theorem latest_append_singleton (key : String) (calls : List (Call ν)) (call : Call ν) :
    latest key (calls ++ [call]) =
      match call with
      | .put key' value => if key' = key then some value else latest key calls
      | .invalidate key' => if key' = key then none else latest key calls
      | .clear => none
      | .get _ => latest key calls := by
  rw [latest, List.foldl_append]
  rfl

/-- The cache holds at most its capacity of sessions, and one where that is less than one, and
answers with no other session than the one that was put in last, and not taken out since. -/
theorem run_coherent (capacity : ℤ) (calls : List (Call ν)) :
    Ok capacity (run capacity calls) ∧ (run capacity calls).data.length ≤ bound capacity ∧
      ∀ key value, ((run capacity calls).get key).2 = some value →
        latest key calls = some value := by
  have hok : Ok capacity (run capacity calls) :=
    foldl_invariant (I := Ok capacity) (fun _ call h => h.step call) (ok_empty capacity) calls
  refine ⟨hok, hok.length_eq.trans_le hok.length_le, ?_⟩
  have hfresh : Fresh (fun key => latest key calls) (run capacity calls) := by
    clear hok
    induction calls using List.reverseRecOn with
    | nil => exact fun key value h => nomatch h
    | append_singleton calls call ih =>
      have hrun : run capacity (calls ++ [call]) = (run capacity calls).step call := by
        rw [run, List.foldl_append]
        rfl
      intro key found hfound
      rw [hrun] at hfound
      dsimp only
      rw [latest_append_singleton]
      rcases call with key' | ⟨key', value⟩ | key' | _
      · refine ih key found ?_
        rw [step, StoreReadCache.get] at hfound
        split at hfound
        · exact hfound
        · exact hfound
      · rcases get?_put hfound with ⟨rfl, rfl⟩ | ⟨hne, hold⟩
        · exact if_pos rfl
        · exact (if_neg hne.symm).trans (ih key found hold)
      · obtain ⟨hne, hold⟩ := Dict.get?_of_get?_erase hfound
        exact (if_neg hne.symm).trans (ih key found hold)
      · cases hfound
  intro key value hget
  refine hfresh key value ?_
  rw [StoreReadCache.get] at hget
  rcases hdata : (run capacity calls).data.get? key with _ | found
  · rw [hdata] at hget
    cases hget
  · rw [hdata] at hget
    exact hget

/-! ## What stays -/

/-- What a call does to the order of the ids. -/
def Call.op : Call ν → Option (Op String)
  | .get key => some (.visit key)
  | .put key _ => some (.enter key)
  | .invalidate key => some (.drop key)
  | .clear => none

theorem Ok.order_step (h : Ok capacity c) {call : Call ν} {op : Op String}
    (hop : call.op = some op) :
    (c.step call).order = Recency.step (bound capacity) c.order op := by
  rcases call with key | ⟨key, value⟩ | key | _
  · obtain rfl := Option.some.inj hop
    rw [StoreReadCache.step, StoreReadCache.get, Recency.step]
    rcases hget : c.data.get? key with _ | value
    · rw [if_neg fun hmem => Dict.get?_eq_none_iff.1 hget ((h.mem_iff key).2 hmem)]
    · rw [if_pos ((h.mem_iff key).1 (Dict.mem_keys_iff.2 ⟨value, hget⟩))]
      exact touch_order c key
  · obtain rfl := Option.some.inj hop
    rw [StoreReadCache.step, StoreReadCache.put, Recency.step]
    split_ifs with hkey
    · have hmem := (h.mem_iff key).1 hkey
      rw [touch_order]
      refine (Recency.keep_of_length_le ?_).symm
      rw [Recency.length_use_of_mem hmem]
      exact h.length_le
    · obtain ⟨-, -, hdrop⟩ := h.evict
      have hnew : key ∉ c.order := fun hmem => hkey ((h.mem_iff key).2 hmem)
      have hroom : c.order.length + 1 - bound capacity ≤ c.order.length := by
        rw [bound]
        omega
      change c.evict.order ++ [key] = _
      rw [hdrop, Recency.use, List.erase_of_not_mem hnew, Recency.keep, List.length_append,
        List.length_singleton, List.drop_append_of_le_length hroom]
  · obtain rfl := Option.some.inj hop
    rfl
  · cases hop

/-- The ids that calls are about. -/
def keysOf (calls : List (Call ν)) : List String :=
  calls.filterMap fun call => call.op.map Op.key

/-- The ids that are put in. -/
def putsOf (calls : List (Call ν)) : List String :=
  calls.filterMap fun
    | .put key _ => some key
    | _ => none

/-- The calls leave one id alone. -/
def About (key : String) (call : Call ν) : Prop :=
  ∃ op, call.op = some op ∧ op.key ≠ key

theorem exists_ops {calls : List (Call ν)} (hcalls : ∀ call ∈ calls, About key call)
    (h : Ok capacity c) : ∃ ops, calls.filterMap Call.op = ops ∧
      (∀ op ∈ ops, op.key ≠ key) ∧
      (calls.foldl StoreReadCache.step c).order = ops.foldl (Recency.step (bound capacity)) c.order ∧
      Ok capacity (calls.foldl StoreReadCache.step c) := by
  induction calls generalizing c with
  | nil => exact ⟨[], rfl, nofun, rfl, h⟩
  | cons call calls ih =>
    obtain ⟨⟨op, hop, hne⟩, hrest⟩ := List.forall_mem_cons.1 hcalls
    obtain ⟨ops, hops, hother, horder, hok⟩ := ih hrest (h.step call)
    refine ⟨op :: ops, ?_, List.forall_mem_cons.2 ⟨hne, hother⟩, ?_, hok⟩
    · rw [List.filterMap_cons_some hop, hops]
    · rw [List.foldl_cons, horder, h.order_step hop, List.foldl_cons]

theorem latest_append_of_about {calls : List (Call ν)} (hcalls : ∀ call ∈ calls, About key call)
    (before : List (Call ν)) : latest key (before ++ calls) = latest key before := by
  induction calls using List.reverseRecOn with
  | nil => rw [List.append_nil]
  | append_singleton calls call ih =>
    rw [← List.append_assoc, latest_append_singleton]
    obtain ⟨op, hop, hne⟩ := hcalls call (List.mem_append_right _ (List.mem_singleton_self call))
    have hbefore := ih fun call hcall => hcalls call (List.mem_append_left _ hcall)
    rcases call with key' | ⟨key', value⟩ | key' | _
    · exact hbefore
    · obtain rfl := Option.some.inj hop
      exact (if_neg hne).trans hbefore
    · obtain rfl := Option.some.inj hop
      exact (if_neg hne).trans hbefore
    · cases hop

/-- After a session is put in, calls about fewer other ids than there is room for leave it there,
and once as many others were put in, without one being taken out, it is gone. -/
theorem get_after_put (capacity : ℤ) (before : List (Call ν)) (key : String) (value : ν)
    (others : List (Call ν)) (hothers : ∀ call ∈ others, About key call) :
    ((keysOf others).toFinset.card < bound capacity →
      ((run capacity (before ++ .put key value :: others)).get key).2 = some value) ∧
    ((∀ key', .invalidate key' ∉ others) → bound capacity ≤ (putsOf others).toFinset.card →
      ((run capacity (before ++ .put key value :: others)).get key).2 = none) := by
  obtain ⟨hbefore, -, -⟩ := run_coherent capacity before
  obtain ⟨hall, -, hlatest⟩ := run_coherent capacity (before ++ .put key value :: others)
  have hroom : 0 < bound capacity := by
    rw [bound]
    omega
  have hput := hbefore.put key value
  have hlast : Recency.Behind ((run capacity before).put key value).order key [] := by
    have horder : ((run capacity before).step (.put key value)).order =
        Recency.step (bound capacity) (run capacity before).order (.enter key) :=
      hbefore.order_step rfl
    rw [StoreReadCache.step, Recency.step] at horder
    rw [horder]
    exact Recency.Behind.keep ⟨_, rfl⟩ hroom
  obtain ⟨ops, hops, hother, horder, -⟩ := exists_ops hothers hput
  have hrun : run capacity (before ++ .put key value :: others) =
      others.foldl StoreReadCache.step ((run capacity before).put key value) := by
    rw [run, List.foldl_append, List.foldl_cons]
    rfl
  rw [← hrun] at horder
  have hkeys : keysOf others = ops.map Op.key := by
    rw [← hops, keysOf, List.map_filterMap]
  refine ⟨fun hcard => ?_, fun hkept hcard => ?_⟩
  · have hmem : key ∈ (run capacity (before ++ .put key value :: others)).order := by
      rw [horder]
      refine Recency.mem_foldl_of_card_lt hlast hput.nodup (List.forall_mem_nil _) hcard
        fun op hop => ?_
      refine ⟨hother op hop, ?_⟩
      rw [List.mem_toFinset, hkeys]
      exact List.mem_map_of_mem hop
    obtain ⟨found, hfound⟩ := Dict.mem_keys_iff.1 ((hall.mem_iff key).2 hmem)
    have hget : ((run capacity (before ++ .put key value :: others)).get key).2 = some found := by
      rw [StoreReadCache.get, hfound]
    have hvalue := hlatest key found hget
    rw [← List.singleton_append, ← List.append_assoc, latest_append_of_about hothers,
      latest_append_singleton] at hvalue
    rw [hget, ← hvalue]
    exact if_pos rfl
  · have hgone : key ∉ (run capacity (before ++ .put key value :: others)).order := by
      rw [horder]
      refine Recency.notMem_foldl_of_le_card hlast hput.nodup hput.length_le ?_ hother ?_
      · intro key' hdrop
        rw [← hops, List.mem_filterMap] at hdrop
        obtain ⟨call, hcall, hop⟩ := hdrop
        rcases call with key'' | ⟨key'', value'⟩ | key'' | _
        · cases hop
        · cases hop
        · exact hkept key'' hcall
        · cases hop
      · have hentered : Recency.entered ops = putsOf others := by
          rw [← hops, Recency.entered, putsOf, List.filterMap_filterMap]
          refine List.filterMap_congr fun call _ => ?_
          rcases call with key'' | ⟨key'', value'⟩ | key'' | _
          · rfl
          · rfl
          · rfl
          · rfl
        rw [List.nil_append, hentered]
        exact hcard
    have hnone : (run capacity (before ++ .put key value :: others)).data.get? key = none :=
      Dict.get?_eq_none_iff.2 fun hmem => hgone ((hall.mem_iff key).1 hmem)
    rw [StoreReadCache.get, hnone]

/-- Where there is room for two, one other session leaves the first, and two do not. -/
theorem get_after_put_two :
    ((run 2 [.put "a" 1, .get "b", .put "b" 2]).get "a").2 = some 1 ∧
    ((run 2 [.put "a" 1, .put "b" 2, .put "c" 3]).get "a").2 = none := by
  have hab : "b" ≠ "a" := by decide
  have hac : "c" ≠ "a" := by decide
  refine ⟨(get_after_put 2 [] "a" 1 [.get "b", .put "b" 2] ?_).1 (by decide),
    (get_after_put 2 [] "a" 1 [.put "b" 2, .put "c" 3] ?_).2 ?_ (by decide)⟩
  · exact List.forall_mem_cons.2 ⟨⟨_, rfl, hab⟩, List.forall_mem_cons.2 ⟨⟨_, rfl, hab⟩, nofun⟩⟩
  · exact List.forall_mem_cons.2 ⟨⟨_, rfl, hab⟩, List.forall_mem_cons.2 ⟨⟨_, rfl, hac⟩, nofun⟩⟩
  · rintro key' hkey'
    simp at hkey'

end StoreReadCache

end OxenClaw.Pi
