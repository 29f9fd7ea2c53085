import Mathlib.Data.List.Forall2

/-!
# Texts as lines

A list cut at a separator (`List.splitOn`) and put together again (`List.intercalate`). What is
cut from the middle of a text has for its lines pieces of the text's own lines : `Drawn` says
that of any two lists of lines, in order.

`Block` is a run of lines that stands in a text from a given line on.
-/

namespace Lines

variable {α : Type*}

/-! ## Drawn lines -/

/-- Each of the lines is part of a line of `source`, in order. -/
abbrev Drawn (lines source : List (List α)) : Prop :=
  List.SublistForall₂ (· <:+: ·) lines source

instance isTrans_isInfix : IsTrans (List α) (· <:+: ·) where
  trans _ _ _ := List.IsInfix.trans

instance refl_isInfix : Std.Refl (α := List α) (· <:+: ·) where
  refl _ := List.infix_rfl

theorem Drawn.of_forall₂ {lines source : List (List α)}
    (h : List.Forall₂ (· <:+: ·) lines source) : Drawn lines source :=
  List.sublistForall₂_iff.2 ⟨source, h, List.Sublist.refl _⟩

theorem Drawn.refl (lines : List (List α)) : Drawn lines lines :=
  Drawn.of_forall₂ (List.forall₂_refl lines)

theorem Drawn.trans {a b c : List (List α)} (hab : Drawn a b) (hbc : Drawn b c) : Drawn a c :=
  IsTrans.trans a b c hab hbc

theorem Drawn.mono {a b c : List (List α)} (hab : Drawn a b) (hbc : b.Sublist c) : Drawn a c := by
  obtain ⟨l, hl, hlb⟩ := List.sublistForall₂_iff.1 hab
  exact List.sublistForall₂_iff.2 ⟨l, hl, hlb.trans hbc⟩

theorem Drawn.append {a b a' b' : List (List α)} (h : Drawn a a') (h' : Drawn b b') :
    Drawn (a ++ b) (a' ++ b') := by
  obtain ⟨l, hl, hla⟩ := List.sublistForall₂_iff.1 h
  obtain ⟨l', hl', hlb⟩ := List.sublistForall₂_iff.1 h'
  exact List.sublistForall₂_iff.2 ⟨l ++ l', List.rel_append hl hl', hla.append hlb⟩

/-! ## Ranges -/

/-- The lines of `source` from line `m` to line `n`, counted from one. -/
def range (source : List (List α)) (m n : ℕ) : List (List α) :=
  (source.take n).drop (m - 1)

/-- Two ranges, the second below the first, lie in the range from the start of the first to the
end of the second. -/
theorem range_append_sublist {source : List (List α)} {m n m' n' : ℕ} (hm : m - 1 ≤ n)
    (hn : n ≤ source.length) (h : n < m') (h' : m' ≤ n') :
    (range source m n ++ range source m' n').Sublist (range source m n') := by
  have htake : source.take n' = source.take n ++ (source.take n').drop n := by
    have htake := (List.take_append_drop n (source.take n')).symm
    rwa [List.take_take, Nat.min_eq_left (by omega)] at htake
  have hlen : m - 1 ≤ (source.take n).length := by
    rw [List.length_take]
    omega
  have hrange : range source m n' = range source m n ++ (source.take n').drop n := by
    rw [range, htake, List.drop_append_of_le_length hlen, range, ← htake]
  have hdrop : range source m' n' = ((source.take n').drop n).drop (m' - 1 - n) := by
    rw [range, List.drop_drop]
    congr 1
    omega
  rw [hrange, hdrop]
  exact (List.Sublist.refl _).append (List.drop_sublist _ _)

/-! ## Blocks -/

/-- The lines stand in `source` from line `n` on, counted from one. -/
def Block (source : List (List α)) (n : ℕ) (lines : List (List α)) : Prop :=
  1 ≤ n ∧ lines <+: source.drop (n - 1)

namespace Block

variable {source a b : List (List α)} {n : ℕ}

theorem left (h : Block source n (a ++ b)) : Block source n a :=
  ⟨h.1, (List.prefix_append a b).trans h.2⟩

theorem right (h : Block source n (a ++ b)) : Block source (n + a.length) b := by
  obtain ⟨hn, c, hc⟩ := h
  refine ⟨by omega, c, ?_⟩
  have hdrop : source.drop (n + a.length - 1) = (source.drop (n - 1)).drop a.length := by
    rw [List.drop_drop]
    congr 1
    omega
  rw [hdrop, ← hc, List.append_assoc, List.drop_left]

theorem mem (h : Block source n a) {line : List α} (hline : line ∈ a) : line ∈ source :=
  List.mem_of_mem_drop (h.2.subset hline)

theorem le_length (h : Block source n a) (ha : a ≠ []) : n + a.length ≤ source.length + 1 := by
  have hlen := h.2.length_le
  have hpos := List.length_pos_iff.2 ha
  have hn := h.1
  rw [List.length_drop] at hlen
  omega

/-- A block is the range it fills. -/
theorem range_eq (h : Block source n a) : range source n (n + a.length - 1) = a := by
  have hn := h.1
  rw [range, List.drop_take, show n + a.length - 1 - (n - 1) = a.length by omega]
  exact (List.prefix_iff_eq_take.1 h.2).symm

end Block

/-! ## Cutting -/

variable [DecidableEq α] {sep : α}

/-- Two texts put together : the last line of the first and the first line of the second
become one. -/
theorem exists_splitOn_append (sep : α) (a b : List α) : ∃ init x y rest,
    a.splitOn sep = init ++ [x] ∧ b.splitOn sep = y :: rest ∧
      (a ++ b).splitOn sep = init ++ (x ++ y) :: rest := by
  induction a with
  | nil =>
    obtain ⟨y, rest, h⟩ := List.exists_cons_of_ne_nil (List.splitOn_ne_nil sep b)
    exact ⟨[], [], y, rest, rfl, h, by simpa using h⟩
  | cons c a ih =>
    obtain ⟨init, x, y, rest, ha, hb, hab⟩ := ih
    rw [List.cons_append, List.splitOn_cons_eq_if_modifyHead, List.splitOn_cons_eq_if_modifyHead,
      ha, hab]
    by_cases hc : (c == sep) = true
    · exact ⟨[] :: init, x, y, rest, by simp [hc], hb, by simp [hc]⟩
    · cases init with
      | nil => exact ⟨[], c :: x, y, rest, by simp [hc], hb, by simp [hc]⟩
      | cons z init => exact ⟨(c :: z) :: init, x, y, rest, by simp [hc], hb, by simp [hc]⟩

/-- What is joined is cut at the separators between the parts and inside of them. -/
theorem splitOn_intercalate_eq_flatMap {parts : List (List α)} (h : parts ≠ []) :
    ([sep].intercalate parts).splitOn sep = parts.flatMap (List.splitOn sep) := by
  induction parts with
  | nil => exact absurd rfl h
  | cons a parts ih =>
    rcases eq_or_ne parts [] with rfl | hparts
    · rw [List.intercalate_singleton, List.flatMap_singleton]
    · rw [List.intercalate_cons_of_ne_nil hparts, List.append_assoc, List.singleton_append,
        List.splitOn_append_cons_self, ih hparts, List.flatMap_cons]

@[simp]
theorem length_splitOn (sep : α) (a : List α) : (a.splitOn sep).length = a.count sep + 1 := by
  induction a with
  | nil => simp
  | cons c a ih =>
    rw [List.splitOn_cons_eq_if_modifyHead, List.count_cons]
    split_ifs with h
    · simp [ih]
    · simp [ih]

theorem not_mem_of_mem_splitOn {a line : List α} (h : line ∈ a.splitOn sep) : sep ∉ line := by
  induction a generalizing line with
  | nil =>
    rw [List.splitOn_nil, List.mem_singleton] at h
    simp [h]
  | cons c a ih =>
    rw [List.splitOn_cons_eq_if_modifyHead] at h
    split_ifs at h with hc
    · rcases List.mem_cons.1 h with rfl | h
      · exact List.not_mem_nil
      · exact ih h
    · obtain ⟨y, rest, hy⟩ := List.exists_cons_of_ne_nil (List.splitOn_ne_nil sep a)
      rw [hy, List.modifyHead_cons] at h
      rcases List.mem_cons.1 h with rfl | h
      · have hne : ¬sep = c := fun he => hc (by simp [he])
        simpa [hne] using ih (hy ▸ List.mem_cons_self)
      · exact ih (hy ▸ List.mem_cons_of_mem y h)

omit [DecidableEq α] in
theorem subset_intercalate {lines : List (List α)} {line : List α} (h : line ∈ lines) :
    line ⊆ [sep].intercalate lines := by
  induction lines with
  | nil => exact absurd h List.not_mem_nil
  | cons first lines ih =>
    cases lines with
    | nil => rw [List.mem_singleton.1 h, List.intercalate_singleton]; exact List.Subset.refl _
    | cons next lines =>
      rw [List.intercalate_cons_cons]
      rcases List.mem_cons.1 h with rfl | h
      · exact List.subset_append_of_subset_left _ (List.subset_append_left _ _)
      · exact List.subset_append_of_subset_right _ (ih h)

omit [DecidableEq α] in
theorem mem_intercalate {lines : List (List α)} {c : α} (h : c ∈ [sep].intercalate lines) :
    c = sep ∨ ∃ line ∈ lines, c ∈ line := by
  induction lines with
  | nil => exact absurd h List.not_mem_nil
  | cons first lines ih =>
    cases lines with
    | nil => exact Or.inr ⟨first, List.mem_cons_self, by simpa using h⟩
    | cons next lines =>
      rw [List.intercalate_cons_cons, List.append_assoc, List.mem_append, List.mem_append,
        List.mem_singleton] at h
      rcases h with h | h | h
      · exact Or.inr ⟨first, List.mem_cons_self, h⟩
      · exact Or.inl h
      · exact (ih h).imp_right fun ⟨line, hline, hc⟩ =>
          ⟨line, List.mem_cons_of_mem _ hline, hc⟩

theorem subset_of_mem_splitOn {a line : List α} (h : line ∈ a.splitOn sep) : line ⊆ a := by
  have hsubset : line ⊆ [sep].intercalate (a.splitOn sep) := subset_intercalate h
  rwa [List.intercalate_splitOn] at hsubset

/-- The lines of a text that another one starts with. -/
theorem Drawn.of_isPrefix {a b : List α} (h : a <+: b) :
    Drawn (a.splitOn sep) (b.splitOn sep) := by
  obtain ⟨c, rfl⟩ := h
  obtain ⟨init, x, y, rest, ha, -, hac⟩ := exists_splitOn_append sep a c
  have hlast : Drawn [x] ((x ++ y) :: rest) :=
    .cons (List.prefix_append x y).isInfix .nil
  rw [ha, hac]
  exact (Drawn.refl init).append hlast

/-- A text whose lines are the ends of given lines, cut in two : the lines of the first part
are parts of those lines, the lines of the second one are ends of those left, the line that is
cut among both. -/
theorem forall₂_suffix_append {a b : List α} {block : List (List α)}
    (h : List.Forall₂ (· <:+ ·) ((a ++ b).splitOn sep) block) :
    List.Forall₂ (· <:+: ·) (a.splitOn sep) (block.take (a.count sep + 1)) ∧
      List.Forall₂ (· <:+ ·) (b.splitOn sep) (block.drop (a.count sep)) := by
  obtain ⟨init, x, y, rest, ha, hb, hab⟩ := exists_splitOn_append sep a b
  have hcount : a.count sep = init.length := by
    have hlen := length_splitOn sep a
    rw [ha, List.length_append, List.length_singleton] at hlen
    omega
  rw [hab] at h
  obtain ⟨l, l', hl, hl', rfl⟩ : ∃ l l', List.Forall₂ (· <:+ ·) init l ∧
      List.Forall₂ (· <:+ ·) ((x ++ y) :: rest) l' ∧ block = l ++ l' := by
    refine ⟨block.take init.length, block.drop init.length, ?_, ?_, ?_⟩
    · exact (List.forall₂_take_append _ _ _ h.flip).flip
    · exact (List.forall₂_drop_append _ _ _ h.flip).flip
    · exact (List.take_append_drop _ _).symm
  obtain ⟨z, l', hz, hrest, rfl⟩ := List.forall₂_cons_left_iff.1 hl'
  rw [ha, hb, hcount, hl.length_eq, List.take_length_add_append, List.drop_left]
  constructor
  · have hx : x <:+: z := (List.prefix_append x y).isInfix.trans hz.isInfix
    exact List.rel_append (hl.imp fun _ _ h => h.isInfix) (.cons hx .nil)
  · exact .cons ((List.suffix_append x y).trans hz) hrest

/-! ## Runs of parts -/

omit [DecidableEq α] in
/-- Parts, with the separator before each. -/
theorem cons_intercalate {parts : List (List α)} (h : parts ≠ []) :
    sep :: [sep].intercalate parts = parts.flatMap (sep :: ·) := by
  induction parts with
  | nil => exact absurd rfl h
  | cons part parts ih =>
    rw [List.flatMap_cons]
    by_cases hne : parts = []
    · simp [hne]
    · rw [← ih hne, List.intercalate_cons_of_ne_nil hne, List.append_assoc, List.singleton_append]
      rfl

/-- What stands between two separators is a run of the parts. -/
theorem infix_between_iff {w s : List α} : (sep :: w ++ [sep]) <:+: (sep :: s ++ [sep]) ↔
    ∃ run, run ≠ [] ∧ run <:+: s.splitOn sep ∧ [sep].intercalate run = w := by
  constructor
  · rintro ⟨u, v, h⟩
    have hsplit := congrArg (List.splitOn sep) h
    have hleft : u ++ (sep :: w ++ [sep]) ++ v = u ++ sep :: (w ++ sep :: v) := by simp
    have hright : sep :: s ++ [sep] = [] ++ sep :: (s ++ sep :: []) := rfl
    rw [hleft, hright, List.splitOn_append_cons_self, List.splitOn_append_cons_self,
      List.splitOn_append_cons_self, List.splitOn_append_cons_self, List.splitOn_nil] at hsplit
    obtain ⟨x, U, hu⟩ := List.exists_cons_of_ne_nil (List.splitOn_ne_nil sep u)
    have hv : v.splitOn sep = (v.splitOn sep).dropLast ++ [(v.splitOn sep).getLast _] :=
      (List.dropLast_append_getLast (List.splitOn_ne_nil sep v)).symm
    rw [hu, hv, List.cons_append, List.singleton_append, ← List.append_assoc, ← List.append_assoc]
      at hsplit
    obtain ⟨hparts, -⟩ := List.append_inj' (List.cons.inj hsplit).2 rfl
    exact ⟨w.splitOn sep, List.splitOn_ne_nil sep w, ⟨U, _, hparts⟩, List.intercalate_splitOn sep⟩
  · rintro ⟨run, hne, ⟨U, V, hparts⟩, rfl⟩
    have hs : sep :: s = (U ++ run ++ V).flatMap (sep :: ·) := by
      rw [hparts, ← cons_intercalate (List.splitOn_ne_nil sep s), List.intercalate_splitOn]
    obtain ⟨rest, hrest⟩ : ∃ rest, V.flatMap (sep :: ·) ++ [sep] = sep :: rest := by
      rcases V with _ | ⟨part, V⟩
      · exact ⟨[], rfl⟩
      · exact ⟨_, rfl⟩
    rw [cons_intercalate hne, hs, List.flatMap_append, List.flatMap_append]
    refine ⟨U.flatMap (sep :: ·), rest, ?_⟩
    rw [List.append_assoc _ _ [sep], hrest]
    simp

end Lines
