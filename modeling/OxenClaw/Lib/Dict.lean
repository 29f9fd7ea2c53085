import Mathlib.Data.List.Induction
import Mathlib.Data.List.Nodup

/-!
# Dictionaries in insertion order

A Python `dict` is the list of its entries in insertion order. `Dict.set` replaces the
value of a key where it stands and appends a new key at the end; `Dict.get?` is the first
entry. Starting from the empty dictionary keys stay distinct (`Dict.nodup_keys_set`). Among the
entries that meet a test the first is the last exactly when there are no two
(`Dict.find?_eq_find?_reverse_iff`).
-/

/-- A `dict`, in insertion order. -/
abbrev Dict (κ ν : Type*) := List (κ × ν)

namespace Dict

variable {κ ν : Type*} [DecidableEq κ]

/-- `d.get(k)`. -/
def get? : Dict κ ν → κ → Option ν
  | [], _ => none
  | (k', v) :: d, k => if k' = k then some v else get? d k

/-- `d[k] = v`. -/
def set : Dict κ ν → κ → ν → Dict κ ν
  | [], k, v => [(k, v)]
  | (k', v') :: d, k, v => if k' = k then (k', v) :: d else (k', v') :: set d k v

/-- `d.pop(k, None)`. -/
def erase (d : Dict κ ν) (k : κ) : Dict κ ν :=
  d.filter (·.1 ≠ k)

/-- `d.keys()`. -/
def keys (d : Dict κ ν) : List κ :=
  d.map Prod.fst

/-- `{k: v for k, v in entries}`. -/
def ofList (entries : List (κ × ν)) : Dict κ ν :=
  entries.foldl (fun d e => set d e.1 e.2) []

/-- `d.setdefault(f(x), []).append(x)` for each `x`. -/
def groupBy {α : Type*} (f : α → κ) (l : List α) : Dict κ (List α) :=
  l.foldl (fun d x => set d (f x) ((d.get? (f x)).getD [] ++ [x])) []

@[simp] theorem get?_nil (k : κ) : get? ([] : Dict κ ν) k = none := rfl

theorem get?_cons (k' : κ) (v : ν) (d : Dict κ ν) (k : κ) :
    get? ((k', v) :: d) k = if k' = k then some v else get? d k := rfl

@[simp] theorem get?_set_self : ∀ (d : Dict κ ν) (k : κ) (v : ν), (d.set k v).get? k = some v
  | [], k, v => if_pos rfl
  | (k', v') :: d, k, v => by
    rw [set]
    split_ifs with h
    · rw [get?_cons, if_pos h]
    · rw [get?_cons, if_neg h, get?_set_self d k v]

theorem get?_set_of_ne {k k₂ : κ} (h : k₂ ≠ k) :
    ∀ (d : Dict κ ν) (v : ν), (d.set k v).get? k₂ = d.get? k₂
  | [], v => by simp [set, get?, h.symm]
  | (k', v') :: d, v => by
    rw [set]
    split_ifs with hk
    · rw [get?_cons, get?_cons, hk, if_neg h.symm, if_neg h.symm]
    · rw [get?_cons, get?_cons, get?_set_of_ne h d v]

theorem get?_set (d : Dict κ ν) (k k₂ : κ) (v : ν) :
    (d.set k v).get? k₂ = if k₂ = k then some v else d.get? k₂ := by
  split_ifs with h
  · rw [h, get?_set_self]
  · exact get?_set_of_ne h d v

/-- Every value changed under its own key. -/
theorem get?_map {μ : Type*} (f : κ → ν → μ) (k : κ) :
    ∀ d : Dict κ ν, get? (d.map fun e => (e.1, f e.1 e.2)) k = (d.get? k).map (f k)
  | [] => rfl
  | (k', v) :: d => by
    rw [List.map_cons, get?_cons, get?_cons, get?_map f k d]
    split_ifs with h
    · rw [h]
      rfl
    · rfl

/-- The entries whose keys are kept. -/
theorem get?_filter (p : κ → Bool) (k : κ) :
    ∀ d : Dict κ ν, get? (d.filter fun e => p e.1) k = if p k then d.get? k else none
  | [] => by simp
  | (k', v) :: d => by
    have ih := get?_filter p k d
    rw [List.filter_cons, get?_cons]
    by_cases hp : p k' = true
    · rw [if_pos hp, get?_cons, ih]
      by_cases hk : k' = k
      · rw [if_pos hk, if_pos hk, if_pos (hk ▸ hp)]
      · rw [if_neg hk, if_neg hk]
    · rw [if_neg hp, ih]
      by_cases hk : k' = k
      · rw [if_neg (hk ▸ hp), if_neg (hk ▸ hp)]
      · rw [if_neg hk]

theorem get?_append (k : κ) (e : Dict κ ν) :
    ∀ d : Dict κ ν, get? (d ++ e) k = (d.get? k).or (e.get? k)
  | [] => rfl
  | (k', v) :: d => by
    rw [List.cons_append, get?_cons, get?_cons, get?_append k e d]
    split_ifs <;> rfl

@[simp] theorem get?_erase_self : ∀ (d : Dict κ ν) (k : κ), (d.erase k).get? k = none
  | [], _ => rfl
  | (k', v) :: d, k => by
    by_cases hk : k' = k
    · simpa [erase, hk] using get?_erase_self d k
    · simpa [erase, hk, get?_cons] using get?_erase_self d k

theorem get?_erase_of_ne {k k₂ : κ} (h : k₂ ≠ k) :
    ∀ d : Dict κ ν, (d.erase k).get? k₂ = d.get? k₂
  | [] => rfl
  | (k', v) :: d => by
    have ih := get?_erase_of_ne h d
    by_cases hk : k' = k
    · simpa [erase, hk, get?_cons, h.symm] using ih
    · by_cases hk₂ : k' = k₂
      · simp [erase, hk₂, h, get?_cons]
      · simpa [erase, hk, hk₂, get?_cons] using ih

/-- What is left after an entry is taken out was there before. -/
theorem get?_of_get?_erase {d : Dict κ ν} {k k₂ : κ} {v : ν}
    (h : (d.erase k).get? k₂ = some v) : k₂ ≠ k ∧ d.get? k₂ = some v := by
  by_cases hk : k₂ = k
  · rw [hk, get?_erase_self] at h
    cases h
  · exact ⟨hk, by rwa [get?_erase_of_ne hk] at h⟩

theorem mem_of_get? {k : κ} {v : ν} : ∀ {d : Dict κ ν}, d.get? k = some v → (k, v) ∈ d
  | [], h => by cases h
  | (k', v') :: d, h => by
    rw [get?_cons] at h
    split_ifs at h with hk
    · rw [← hk, ← Option.some.inj h]
      exact List.mem_cons_self
    · exact List.mem_cons_of_mem _ (mem_of_get? h)

theorem get?_eq_none_iff {k : κ} : ∀ {d : Dict κ ν}, d.get? k = none ↔ k ∉ keys d
  | [] => by simp [keys]
  | (k', v') :: d => by
    rw [get?_cons, keys, List.map_cons, List.mem_cons, not_or]
    split_ifs with hk
    · exact ⟨nofun, fun h => absurd hk.symm h.1⟩
    · exact get?_eq_none_iff.trans ⟨fun h => ⟨Ne.symm hk, h⟩, fun h => h.2⟩

theorem mem_set {k : κ} {v : ν} {e : κ × ν} :
    ∀ {d : Dict κ ν}, e ∈ d.set k v → e = (k, v) ∨ e ∈ d
  | [], h => Or.inl (List.mem_singleton.1 h)
  | (k', v') :: d, h => by
    rw [set] at h
    split_ifs at h with hk
    · rcases List.mem_cons.1 h with rfl | h
      · exact Or.inl (by rw [hk])
      · exact Or.inr (List.mem_cons_of_mem _ h)
    · rcases List.mem_cons.1 h with rfl | h
      · exact Or.inr List.mem_cons_self
      · exact (mem_set h).imp_right (List.mem_cons_of_mem _)

theorem keys_set (d : Dict κ ν) (k : κ) (v : ν) :
    keys (d.set k v) = if k ∈ keys d then keys d else keys d ++ [k] := by
  induction d with
  | nil => rfl
  | cons e d ih =>
    obtain ⟨k', v'⟩ := e
    rw [set]
    by_cases hk : k' = k
    · simp [keys, hk]
    · have hk' : k ≠ k' := Ne.symm hk
      simp only [keys] at ih
      by_cases hmem : k ∈ d.map Prod.fst
      · simp [keys, hk, hmem, ih]
      · simp [keys, hk, hk', hmem, ih]

/-- A new key is set at the end. -/
theorem set_of_notMem_keys {d : Dict κ ν} {k : κ} (v : ν) (h : k ∉ keys d) :
    d.set k v = d ++ [(k, v)] := by
  induction d with
  | nil => rfl
  | cons e d ih =>
    rw [keys, List.map_cons, List.mem_cons, not_or] at h
    rw [set, if_neg (Ne.symm h.1), ih h.2, List.cons_append]

/-- Pairs with distinct keys are the entries of the dictionary they make. -/
theorem ofList_of_nodup {entries : List (κ × ν)} (h : (keys entries).Nodup) :
    ofList entries = entries := by
  induction entries using List.reverseRecOn with
  | nil => rfl
  | append_singleton entries e ih =>
    rw [keys, List.map_append, List.nodup_append] at h
    have hih : entries.foldl (fun d e => set d e.1 e.2) [] = entries := ih h.1
    rw [ofList, List.foldl_append, hih, List.foldl_cons, List.foldl_nil]
    refine set_of_notMem_keys e.2 fun hmem => ?_
    exact h.2.2 e.1 hmem e.1 (by simp) rfl

theorem mem_keys_set {d : Dict κ ν} {k k' : κ} {v : ν} :
    k' ∈ keys (d.set k v) ↔ k' ∈ keys d ∨ k' = k := by
  rw [keys_set]
  split_ifs with h
  · exact ⟨Or.inl, fun hor => hor.elim id fun heq => heq ▸ h⟩
  · rw [List.mem_append, List.mem_singleton]

theorem nodup_keys_set {d : Dict κ ν} (h : (keys d).Nodup) (k : κ) (v : ν) :
    (keys (d.set k v)).Nodup := by
  rw [keys_set]
  split_ifs with hk
  · exact h
  · exact h.append (List.nodup_singleton k) (by simpa using hk)

theorem keys_erase (d : Dict κ ν) (k : κ) : keys (d.erase k) = (keys d).filter (· ≠ k) := by
  rw [keys, erase, keys, List.filter_map]
  rfl

theorem nodup_keys_erase {d : Dict κ ν} (h : (keys d).Nodup) (k : κ) :
    (keys (d.erase k)).Nodup :=
  h.sublist (List.filter_sublist.map _)

/-- An entry is the first one of its key where keys are distinct. -/
theorem get?_of_mem {k : κ} {v : ν} :
    ∀ {d : Dict κ ν}, (keys d).Nodup → (k, v) ∈ d → d.get? k = some v
  | [], _, h => absurd h List.not_mem_nil
  | (k', v') :: d, hd, h => by
    obtain ⟨hhead, htail⟩ := List.nodup_cons.1 hd
    rw [get?_cons]
    rcases List.mem_cons.1 h with heq | h
    · obtain ⟨rfl, rfl⟩ := Prod.mk.inj heq
      rw [if_pos rfl]
    · have hk : k' ≠ k := by
        rintro rfl
        exact hhead (List.mem_map.2 ⟨_, h, rfl⟩)
      rw [if_neg hk, get?_of_mem htail h]

/-- What is grouped under a key, in order. -/
theorem get?_groupBy {α : Type*} (f : α → κ) (l : List α) (k : κ) :
    ((groupBy f l).get? k).getD [] = l.filter fun x => f x = k := by
  induction l using List.reverseRecOn with
  | nil => rfl
  | append_singleton l x ih =>
    rw [groupBy, List.foldl_append, List.foldl_cons, List.foldl_nil, get?_set, List.filter_append]
    split_ifs with hk
    · subst hk
      rw [Option.getD_some, ← groupBy, ih, List.filter_cons_of_pos (by simp), List.filter_nil]
    · rw [← groupBy, ih, List.filter_cons_of_neg (by simpa using Ne.symm hk), List.filter_nil,
        List.append_nil]

theorem nodup_keys_groupBy {α : Type*} (f : α → κ) (l : List α) : (keys (groupBy f l)).Nodup := by
  induction l using List.reverseRecOn with
  | nil => exact List.nodup_nil
  | append_singleton l x ih =>
    rw [groupBy, List.foldl_append]
    exact nodup_keys_set ih _ _

/-- A group is what there is of its key. -/
theorem eq_filter_of_mem_groupBy {α : Type*} {f : α → κ} {l xs : List α} {k : κ}
    (h : (k, xs) ∈ groupBy f l) : xs = l.filter fun x => f x = k := by
  rw [← get?_groupBy, get?_of_mem (nodup_keys_groupBy f l) h, Option.getD_some]

theorem perm_flatMap_set {α : Type*} (d : Dict κ (List α)) (k : κ) (x : α) :
    ((d.set k ((d.get? k).getD [] ++ [x])).flatMap Prod.snd).Perm (d.flatMap Prod.snd ++ [x]) := by
  induction d with
  | nil => exact List.Perm.refl _
  | cons e d ih =>
    rcases e with ⟨k', v⟩
    rw [set, get?_cons]
    split_ifs with hk
    · rw [List.flatMap_cons, List.flatMap_cons, Option.getD_some, List.append_assoc,
        List.append_assoc]
      exact List.perm_append_comm.append_left v
    · rw [List.flatMap_cons, List.flatMap_cons, List.append_assoc]
      exact ih.append_left v

/-- The groups are what there is. -/
theorem perm_flatMap_groupBy {α : Type*} (f : α → κ) (l : List α) :
    ((groupBy f l).flatMap Prod.snd).Perm l := by
  induction l using List.reverseRecOn with
  | nil => exact List.Perm.refl _
  | append_singleton l x ih =>
    rw [groupBy, List.foldl_append]
    exact (perm_flatMap_set _ _ x).trans (ih.append_right [x])

theorem mem_keys_iff {d : Dict κ ν} {k : κ} : k ∈ keys d ↔ ∃ v, d.get? k = some v := by
  rw [← Option.isSome_iff_exists, ← Option.ne_none_iff_isSome, ne_eq, get?_eq_none_iff, not_not]

/-- The entries, found by their keys. -/
theorem eq_filterMap_keys {d : Dict κ ν} (h : (keys d).Nodup) :
    d = (keys d).filterMap fun k => (d.get? k).map (k, ·) := by
  have hself : ∀ e ∈ d, (d.get? e.1).map (e.1, ·) = some e := fun e he => by
    rw [get?_of_mem h he]
    rfl
  conv_lhs => rw [← List.filterMap_some (l := d)]
  rw [keys, List.filterMap_map]
  exact List.filterMap_congr fun e he => (hself e he).symm

/-! ## Entries set one after the other -/

section

variable {α : Type*} {f : α → κ} {g : α → ν}

theorem mem_keys_foldl_set {k : κ} (l : List α) (d : Dict κ ν) :
    k ∈ keys (l.foldl (fun d x => d.set (f x) (g x)) d) ↔ k ∈ keys d ∨ ∃ x ∈ l, f x = k := by
  induction l generalizing d with
  | nil => simp
  | cons x l ih =>
    rw [List.foldl_cons, ih, mem_keys_set]
    simp only [List.mem_cons, exists_eq_or_imp, or_assoc, eq_comm (a := k)]

theorem nodup_keys_foldl_set (l : List α) {d : Dict κ ν} (h : (keys d).Nodup) :
    (keys (l.foldl (fun d x => d.set (f x) (g x)) d)).Nodup := by
  induction l generalizing d with
  | nil => exact h
  | cons x l ih => exact ih (nodup_keys_set h _ _)

theorem get?_foldl_set_of_notMem {k : κ} (l : List α) (d : Dict κ ν) (h : ∀ x ∈ l, f x ≠ k) :
    (l.foldl (fun d x => d.set (f x) (g x)) d).get? k = d.get? k := by
  induction l generalizing d with
  | nil => rfl
  | cons x l ih =>
    rw [List.foldl_cons, ih _ fun y hy => h y (List.mem_cons_of_mem _ hy),
      get?_set_of_ne (Ne.symm (h x List.mem_cons_self))]

/-- Entries of one key agree. -/
theorem get?_foldl_set_of_mem {x : α} {l : List α} (hx : x ∈ l) (d : Dict κ ν)
    (h : ∀ y ∈ l, f y = f x → g y = g x) :
    (l.foldl (fun d x => d.set (f x) (g x)) d).get? (f x) = some (g x) := by
  induction l using List.reverseRecOn with
  | nil => cases hx
  | append_singleton l z ih =>
    rw [List.foldl_append, List.foldl_cons, List.foldl_nil, get?_set]
    split_ifs with hz
    · rw [h z (by simp) hz.symm]
    · have hl : x ∈ l := by
        rcases List.mem_append.1 hx with hl | hl
        · exact hl
        · exact absurd (congrArg f (List.mem_singleton.1 hl)) hz
      exact ih hl fun y hy => h y (List.mem_append_left _ hy)

end

/-! ## Entries renamed -/

section

variable {κ' μ : Type*} {f : κ → κ'} {g : ν → μ}

omit [DecidableEq κ] in
/-- Every key and every value changed. -/
def rename (f : κ → κ') (g : ν → μ) (d : Dict κ ν) : Dict κ' μ :=
  d.map fun e => (f e.1, g e.2)

variable [DecidableEq κ']

theorem get?_rename (hf : Function.Injective f) (k : κ) :
    ∀ d : Dict κ ν, (rename f g d).get? (f k) = (d.get? k).map g
  | [] => rfl
  | (k', v) :: d => by
    have ih := get?_rename hf k d
    rw [rename, List.map_cons, get?_cons, get?_cons]
    by_cases hk : k' = k
    · rw [if_pos (congrArg f hk), if_pos hk, Option.map_some]
    · rw [if_neg fun h => hk (hf h), if_neg hk]
      exact ih

theorem set_rename (hf : Function.Injective f) (k : κ) (v : ν) :
    ∀ d : Dict κ ν, (rename f g d).set (f k) (g v) = rename f g (d.set k v)
  | [] => rfl
  | (k', v') :: d => by
    have ih := set_rename hf k v d
    rw [rename, List.map_cons, set, set]
    by_cases hk : k' = k
    · rw [if_pos (congrArg f hk), if_pos hk, rename, List.map_cons]
    · rw [if_neg fun h => hk (hf h), if_neg hk, rename, List.map_cons]
      exact congrArg _ ih

theorem erase_rename (hf : Function.Injective f) (k : κ) (d : Dict κ ν) :
    (rename f g d).erase (f k) = rename f g (d.erase k) := by
  rw [erase, rename, List.filter_map, rename, erase]
  congr 1
  exact List.filter_congr fun e _ => by simp [hf.eq_iff]

end

/-! ## Entries chosen by their keys -/

section

variable {p : κ → Bool} {k : κ}

theorem filter_set_of_pos (hk : p k = true) (v : ν) : ∀ d : Dict κ ν,
    (d.set k v).filter (fun e => p e.1) = set (d.filter fun e => p e.1) k v
  | [] => by simp [set, hk]
  | (k', v') :: d => by
    have ih := filter_set_of_pos hk v d
    rw [set]
    by_cases hk' : k' = k
    · subst hk'
      rw [if_pos rfl, List.filter_cons_of_pos (by exact hk), List.filter_cons_of_pos (by exact hk),
        set, if_pos rfl]
    · rw [if_neg hk', List.filter_cons, List.filter_cons, ih]
      split_ifs with hp
      · rw [set, if_neg hk']
      · rfl

theorem filter_set_of_neg (hk : p k = false) (v : ν) : ∀ d : Dict κ ν,
    (d.set k v).filter (fun e => p e.1) = d.filter fun e => p e.1
  | [] => by simp [set, hk]
  | (k', v') :: d => by
    have ih := filter_set_of_neg hk v d
    rw [set]
    by_cases hk' : k' = k
    · subst hk'
      rw [if_pos rfl, List.filter_cons_of_neg (by simpa using hk),
        List.filter_cons_of_neg (by simpa using hk)]
    · rw [if_neg hk', List.filter_cons, List.filter_cons, ih]

theorem filter_erase (d : Dict κ ν) :
    (d.erase k).filter (fun e => p e.1) = erase (d.filter fun e => p e.1) k :=
  List.filter_comm _ _ _

theorem erase_of_get?_eq_none {d : Dict κ ν} (h : d.get? k = none) : d.erase k = d := by
  refine List.filter_eq_self.2 fun e he => ?_
  have hne : e.1 ≠ k := by
    rintro rfl
    exact get?_eq_none_iff.1 h (List.mem_map_of_mem he)
  simpa using hne

end

/-! ## The first and the last entry -/

omit [DecidableEq κ] in
/-- From the front and from the back the same entry is found when one key at most meets the
test. -/
theorem find?_eq_find?_reverse_iff {p : κ × ν → Bool} :
    ∀ {d : Dict κ ν}, (keys d).Nodup →
      (d.find? p = d.reverse.find? p ↔ ∀ e ∈ d, ∀ e' ∈ d, p e → p e' → e.1 = e'.1)
  | [], _ => by simp
  | e :: d, hd => by
    obtain ⟨hhead, htail⟩ := List.nodup_cons.1 hd
    have hne (e' : κ × ν) (he' : e' ∈ d) : e.1 ≠ e'.1 := fun h =>
      hhead (h ▸ List.mem_map.2 ⟨e', he', rfl⟩)
    rw [List.reverse_cons, List.find?_append, List.find?_cons]
    cases he : p e with
    | false =>
      have hrest : (d.find? p = d.reverse.find? p) ↔ _ := find?_eq_find?_reverse_iff htail
      simp only [List.find?_cons, he, List.find?_nil, Option.or_none, hrest, List.forall_mem_cons,
        Bool.false_eq_true, false_implies, implies_true, true_and]
    | true =>
      cases hlast : d.reverse.find? p with
      | none =>
        have hnone (e' : κ × ν) (he' : e' ∈ d) : ¬p e' :=
          List.find?_eq_none.1 hlast e' (List.mem_reverse.2 he')
        simp only [List.find?_cons, he, Option.none_or, true_iff]
        rintro a ha b hb hpa hpb
        rcases List.mem_cons.1 ha with rfl | ha
        · rcases List.mem_cons.1 hb with rfl | hb
          · rfl
          · exact absurd hpb (hnone b hb)
        · exact absurd hpa (hnone a ha)
      | some e' =>
        have he' : e' ∈ d := List.mem_reverse.1 (List.mem_of_find?_eq_some hlast)
        have hpe' : p e' := List.find?_some hlast
        refine iff_of_false (fun h => ?_) fun h => ?_
        · obtain rfl : e = e' := by simpa using h
          exact hne e he' rfl
        · exact hne e' he' (h e (by simp) e' (by simp [he']) he hpe')

end Dict
