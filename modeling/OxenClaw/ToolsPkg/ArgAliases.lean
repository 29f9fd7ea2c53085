import OxenClaw.Lib.Dict
import OxenClaw.Lib.Python

/-!
# Argument aliases

A model that calls a tool may name its arguments differently. `fold_aliases` moves the first alias
that has a value to the canonical name, and takes out all aliases. In a table in which no name
stands twice, each row is folded as if the others were not there, all other arguments are left as
they are, and neither the order of the rows nor folding once more changes anything
(`foldAliases_spec`).
-/

namespace OxenClaw.ArgAliases

variable {ν : Type*}

/-- An argument of a call, as far as `_is_truthy` looks at it. -/
inductive ArgValue (ν : Type*) where
  | none
  | str (s : List Char)
  | other (v : ν)

/-- `_is_truthy`. -/
def isTruthy : ArgValue ν → Bool
  | .none => false
  | .str s => !(Py.strip s).isEmpty
  | .other _ => true

/-- The value of a name, where it has one that counts. -/
def value (data : Dict String (ArgValue ν)) (name : String) : Option (ArgValue ν) :=
  (data.get? name).filter isTruthy

/-- One round of the loop of `fold_aliases`. -/
def foldRow (out : Dict String (ArgValue ν)) (row : String × List String) :
    Dict String (ArgValue ν) :=
  let folded :=
    match value out row.1, row.2.findSome? (value out) with
    | none, some v => out.set row.1 v
    | _, _ => out
  row.2.foldl Dict.erase folded

/-- `fold_aliases` of a `dict`. -/
def foldAliases (data : Dict String (ArgValue ν)) (mapping : List (String × List String)) :
    Dict String (ArgValue ν) :=
  mapping.foldl foldRow data

/-- A row's names. -/
def names (row : String × List String) : List String :=
  row.1 :: row.2

/-- A mapping in which no name stands twice. -/
structure AliasTable where
  rows : List (String × List String)
  distinct : (rows.flatMap names).Nodup

/-- What a canonical name has after the fold. -/
def folded (data : Dict String (ArgValue ν)) (row : String × List String) :
    Option (ArgValue ν) :=
  match value data row.1, row.2.findSome? (value data) with
  | none, some v => some v
  | _, _ => data.get? row.1

/-! ## One row -/

variable {data data' : Dict String (ArgValue ν)} {row : String × List String} {name : String}

theorem get?_foldl_erase (aliases : List String) :
    (aliases.foldl Dict.erase data).get? name =
      if name ∈ aliases then none else data.get? name := by
  induction aliases generalizing data with
  | nil => rw [List.foldl_nil, if_neg List.not_mem_nil]
  | cons a aliases ih =>
    rw [List.foldl_cons, ih]
    by_cases ha : name = a
    · rw [ha, Dict.get?_erase_self, if_pos List.mem_cons_self, ite_self]
    · rw [Dict.get?_erase_of_ne ha]
      simp [ha]

theorem get?_foldRow_of_ne (h : name ∉ names row) :
    (foldRow data row).get? name = data.get? name := by
  obtain ⟨hne, hnot⟩ := not_or.1 (mt List.mem_cons.2 h)
  rw [foldRow, get?_foldl_erase, if_neg hnot]
  split
  · rw [Dict.get?_set_of_ne hne]
  · rfl

theorem get?_foldRow_alias (h : name ∈ row.2) : (foldRow data row).get? name = none := by
  rw [foldRow, get?_foldl_erase, if_pos h]

theorem get?_foldRow_canonical (h : row.1 ∉ row.2) :
    (foldRow data row).get? row.1 = folded data row := by
  rw [foldRow, get?_foldl_erase, if_neg h, folded]
  split
  · rw [Dict.get?_set_self]
  · rfl

theorem findSome?_congr {α β : Type*} {f g : α → Option β} {l : List α}
    (h : ∀ x ∈ l, f x = g x) : l.findSome? f = l.findSome? g := by
  induction l with
  | nil => rfl
  | cons x l ih =>
    obtain ⟨hx, hrest⟩ := List.forall_mem_cons.1 h
    rw [List.findSome?_cons, List.findSome?_cons, hx, ih hrest]

/-- What a row's names have after its fold depends on what they have before. -/
theorem folded_congr (h : ∀ n ∈ names row, data.get? n = data'.get? n) :
    folded data row = folded data' row := by
  have hvalue : ∀ n ∈ names row, value data n = value data' n := fun n hn => by
    rw [value, value, h n hn]
  have hfind : row.2.findSome? (value data) = row.2.findSome? (value data') :=
    findSome?_congr fun n hn => hvalue n (List.mem_cons_of_mem _ hn)
  rw [folded, folded, hvalue _ List.mem_cons_self, hfind, h _ List.mem_cons_self]

theorem foldRow_of_absent (h : ∀ n ∈ row.2, data.get? n = none) : foldRow data row = data := by
  have hfind : row.2.findSome? (value data) = none := by
    refine List.findSome?_eq_none_iff.2 fun n hn => ?_
    rw [value, h n hn]
    rfl
  have herase (aliases : List String) (haliases : ∀ n ∈ aliases, data.get? n = none) :
      aliases.foldl Dict.erase data = data := by
    induction aliases with
    | nil => rfl
    | cons a aliases ih =>
      obtain ⟨ha, hrest⟩ := List.forall_mem_cons.1 haliases
      rw [List.foldl_cons, Dict.erase_of_get?_eq_none ha, ih hrest]
  rw [foldRow, hfind]
  split
  · next heq => cases heq
  · exact herase row.2 h

/-! ## The table -/

theorem get?_foldAliases_of_notMem (rows : List (String × List String))
    (h : name ∉ rows.flatMap names) : (foldAliases data rows).get? name = data.get? name := by
  induction rows generalizing data with
  | nil => rfl
  | cons row rows ih =>
    obtain ⟨hrow, hrest⟩ := not_or.1 (mt List.mem_append.2 h)
    rw [foldAliases, List.foldl_cons, ← foldAliases, ih hrest, get?_foldRow_of_ne hrow]

/-- A row's names are folded by the row. -/
theorem get?_foldAliases_of_mem (data : Dict String (ArgValue ν))
    {rows : List (String × List String)} (hdistinct : (rows.flatMap names).Nodup)
    (hrow : row ∈ rows) :
    (foldAliases data rows).get? row.1 = folded data row ∧
      ∀ a ∈ row.2, (foldAliases data rows).get? a = none := by
  induction rows generalizing data with
  | nil => exact absurd hrow List.not_mem_nil
  | cons first rows ih =>
    rw [List.flatMap_cons, List.nodup_append'] at hdistinct
    obtain ⟨hfirst, hrest, hdisjoint⟩ := hdistinct
    rw [foldAliases, List.foldl_cons, ← foldAliases]
    rcases List.mem_cons.1 hrow with rfl | hmem
    · rw [get?_foldAliases_of_notMem rows (hdisjoint List.mem_cons_self),
        get?_foldRow_canonical (List.nodup_cons.1 hfirst).1]
      refine ⟨rfl, fun a ha => ?_⟩
      rw [get?_foldAliases_of_notMem rows (hdisjoint (List.mem_cons_of_mem _ ha)),
        get?_foldRow_alias ha]
    · obtain ⟨hcanonical, haliases⟩ := ih (foldRow data first) hrest hmem
      refine ⟨hcanonical.trans (folded_congr fun n hn => get?_foldRow_of_ne fun hn' => ?_),
        haliases⟩
      exact hdisjoint hn' (List.mem_flatMap.2 ⟨row, hmem, hn⟩)

theorem foldAliases_of_absent {rows : List (String × List String)}
    (h : ∀ row ∈ rows, ∀ a ∈ row.2, data.get? a = none) : foldAliases data rows = data := by
  induction rows with
  | nil => rfl
  | cons row rows ih =>
    obtain ⟨hrow, hrest⟩ := List.forall_mem_cons.1 h
    rw [foldAliases, List.foldl_cons, ← foldAliases, foldRow_of_absent hrow, ih hrest]

/-- The order of the rows does not matter. -/
theorem get?_foldAliases_of_perm {rows rows' : List (String × List String)}
    (hdistinct : (rows.flatMap names).Nodup) (hperm : rows'.Perm rows) :
    (foldAliases data rows').get? name = (foldAliases data rows).get? name := by
  have hnames := hperm.flatMap_right names
  have hdistinct' := hnames.nodup_iff.2 hdistinct
  by_cases hname : name ∈ rows.flatMap names
  · obtain ⟨row, hrow, hmem⟩ := List.mem_flatMap.1 hname
    obtain ⟨hcanonical, haliases⟩ := get?_foldAliases_of_mem data hdistinct hrow
    obtain ⟨hcanonical', haliases'⟩ :=
      get?_foldAliases_of_mem data hdistinct' (hperm.mem_iff.2 hrow)
    rcases List.mem_cons.1 hmem with rfl | halias
    · rw [hcanonical, hcanonical']
    · rw [haliases name halias, haliases' name halias]
  · rw [get?_foldAliases_of_notMem rows hname,
      get?_foldAliases_of_notMem rows' (mt hnames.mem_iff.1 hname)]

/-- After the fold a canonical name has what it had, or if that does not count the first of its
aliases that does, no alias is left, and other names have what they had. Folding once more changes
nothing, and the order of the rows does not matter. -/
theorem foldAliases_spec (t : AliasTable) (data : Dict String (ArgValue ν)) :
    (∀ row ∈ t.rows, (foldAliases data t.rows).get? row.1 = folded data row ∧
      ∀ a ∈ row.2, (foldAliases data t.rows).get? a = none) ∧
    (∀ name ∉ t.rows.flatMap names, (foldAliases data t.rows).get? name = data.get? name) ∧
    foldAliases (foldAliases data t.rows) t.rows = foldAliases data t.rows ∧
    ∀ rows, rows.Perm t.rows → ∀ name,
      (foldAliases data rows).get? name = (foldAliases data t.rows).get? name :=
  ⟨fun _ hrow => get?_foldAliases_of_mem data t.distinct hrow,
    fun _ hname => get?_foldAliases_of_notMem t.rows hname,
    foldAliases_of_absent fun _ hrow => (get?_foldAliases_of_mem data t.distinct hrow).2,
    fun _ hperm _ => get?_foldAliases_of_perm t.distinct hperm⟩

end OxenClaw.ArgAliases
