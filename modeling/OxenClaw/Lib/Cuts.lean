import OxenClaw.Lib.Holes
import OxenClaw.Lib.Text

/-!
# Where texts are cut

`str.partition` cuts at the first occurrence of a separator (`partition_append`). A separator
whose first character it has only once does not overlap itself, so it occurs first behind any text
it is not in (`first_of_head`). `str.splitlines` cuts at every line break (`splitlines_unlines`).
-/

namespace Py

open Holes (First)

/-- A character at which `str.splitlines` cuts. -/
def isLineBreak (c : Char) : Bool :=
  let n := c.toNat
  (10 ≤ n && n ≤ 13) || (28 ≤ n && n ≤ 30) || n == 0x85 || n == 0x2028 || n == 0x2029

/-- The lines, where the one that is open has begun with `line`. -/
def splitlinesFrom : List Char → List Char → List (List Char)
  | line, [] => if line = [] then [] else [line]
  | line, '\r' :: '\n' :: s => line :: splitlinesFrom [] s
  | line, c :: s =>
    if isLineBreak c then line :: splitlinesFrom [] s else splitlinesFrom (line ++ [c]) s

/-- `s.splitlines()`. -/
def splitlines (s : List Char) : List (List Char) :=
  splitlinesFrom [] s

variable {sep s a b t line : List Char} {c : Char}

/-! ## The first occurrence -/

theorem first_tail (h : First sep (c :: a) b) : First sep a b := by
  intro before' rest' heq
  have hle := h (c :: before') rest' (by
    rw [List.cons_append, List.cons_append, heq]
    rfl)
  exact Nat.le_of_succ_le_succ hle

/-- What has its first character only once occurs first behind a text it is not in. -/
theorem first_of_head (hc : c ∉ t) (h : ¬c :: t <:+: a) (b : List Char) : First (c :: t) a b := by
  intro before' rest' heq
  by_contra hlt
  rw [Nat.not_le] at hlt
  obtain ⟨r, hr⟩ : ∃ r, a = before' ++ r := by
    have hbegins : before' <+: a ++ (c :: t) ++ b := by
      rw [heq, List.append_assoc]
      exact List.prefix_append _ _
    rw [List.append_assoc] at hbegins
    obtain ⟨r, hr⟩ := List.prefix_of_prefix_length_le hbegins (List.prefix_append a _) hlt.le
    exact ⟨r, hr.symm⟩
  subst hr
  rw [List.append_assoc, List.append_assoc, List.append_assoc, List.append_right_inj] at heq
  rw [List.length_append] at hlt
  have hbegins : c :: t <+: r ++ (c :: t ++ b) := ⟨rest', heq.symm⟩
  rcases List.prefix_or_prefix_of_prefix hbegins (List.prefix_append r _) with hin | ⟨u, hu⟩
  · exact h (hin.isInfix.trans (List.suffix_append before' r).isInfix)
  · rcases r with _ | ⟨d, r⟩
    · simp at hlt
    · rcases u with _ | ⟨e, u⟩
      · rw [List.append_nil] at hu
        exact h (hu ▸ (List.suffix_append before' _).isInfix)
      · obtain ⟨x, hx⟩ := hbegins
        have htail : e :: u ++ x = c :: t ++ b := by
          rw [← hu, List.append_assoc, List.append_right_inj] at hx
          rw [hx, hu]
        obtain rfl : e = c := (List.cons.inj htail).1
        rw [List.cons_append, List.cons.injEq] at hu
        exact hc (by rw [← hu.2]; simp)

/-! ## `partition` -/

theorem partition_append (hsep : sep ≠ []) (h : First sep a b) :
    partition sep (a ++ sep ++ b) = some (a, b) := by
  induction a with
  | nil =>
    obtain ⟨c, t, rfl⟩ := List.exists_cons_of_ne_nil hsep
    have hbegins : (c :: t).isPrefixOf (c :: (t ++ b)) = true := by
      rw [List.isPrefixOf_iff_prefix]
      exact List.prefix_append (c :: t) b
    rw [List.nil_append, List.cons_append, partition, if_pos hbegins, ← List.cons_append,
      List.drop_left]
  | cons c a ih =>
    have hnot : ¬sep.isPrefixOf (c :: (a ++ sep ++ b)) = true := by
      rw [List.isPrefixOf_iff_prefix, List.append_assoc]
      exact h.not_begins List.suffix_rfl
    rw [List.cons_append, List.cons_append, partition, if_neg hnot, ih (first_tail h)]
    rfl

theorem partition_eq_some (h : partition sep s = some (a, b)) : s = a ++ sep ++ b := by
  induction s generalizing a with
  | nil => cases h
  | cons c s ih =>
    rw [partition] at h
    split_ifs at h with hbegins
    · obtain ⟨rest, hrest⟩ := List.isPrefixOf_iff_prefix.1 hbegins
      rw [← hrest, List.drop_left] at h
      cases h
      exact hrest.symm
    · obtain ⟨⟨a', b'⟩, hab, heq⟩ := Option.map_eq_some_iff.1 h
      cases heq
      rw [ih hab]
      rfl

/-- What is in a text is found, no later than it is there. -/
theorem exists_partition (hsep : sep ≠ []) (h : s = a ++ sep ++ b) :
    ∃ a' b', partition sep s = some (a', b') ∧ a'.length ≤ a.length := by
  induction s generalizing a with
  | nil =>
    have hnil := congrArg List.length h
    have hpos := List.length_pos_iff.2 hsep
    simp only [List.length_nil, List.length_append] at hnil
    omega
  | cons c s ih =>
    rw [partition]
    split_ifs with hbegins
    · exact ⟨[], _, rfl, Nat.zero_le _⟩
    · rcases a with _ | ⟨d, a⟩
      · rw [List.isPrefixOf_iff_prefix, h, List.nil_append] at hbegins
        exact absurd (List.prefix_append _ _) hbegins
      · obtain ⟨a', b', hcut, hle⟩ := ih (List.cons.inj h).2
        exact ⟨c :: a', b', by rw [hcut, Option.map_some], Nat.succ_le_succ hle⟩

/-! ## `splitlines` -/

theorem isSpace_of_isLineBreak (h : isLineBreak c = true) : isSpace c = true := by
  simp only [isLineBreak, isSpace, Bool.or_eq_true, Bool.and_eq_true, decide_eq_true_eq,
    beq_iff_eq] at h ⊢
  omega

/-- A line has no line break. -/
theorem isLineBreak_of_mem_splitlinesFrom {s line l : List Char} {c : Char}
    (hline : ∀ d ∈ line, isLineBreak d = false) (hl : l ∈ splitlinesFrom line s) (hc : c ∈ l) :
    isLineBreak c = false := by
  fun_induction splitlinesFrom line s with
  | case1 => simp at hl
  | case2 line hne =>
    rw [List.mem_singleton.1 hl] at hc
    exact hline c hc
  | case3 line s ih =>
    rcases List.mem_cons.1 hl with rfl | hl
    · exact hline c hc
    · exact ih (by simp) hl
  | case4 line d s hd hbreak ih =>
    rcases List.mem_cons.1 hl with rfl | hl
    · exact hline c hc
    · exact ih (by simp) hl
  | case5 line d s hd hbreak ih =>
    refine ih (fun e he => ?_) hl
    rcases List.mem_append.1 he with he | he
    · exact hline e he
    · rw [List.mem_singleton.1 he]
      simpa using hbreak

theorem isLineBreak_of_mem_splitlines {s l : List Char} {c : Char} (hl : l ∈ splitlines s)
    (hc : c ∈ l) : isLineBreak c = false :=
  isLineBreak_of_mem_splitlinesFrom (by simp) hl hc

theorem splitlinesFrom_cons (hc : c ≠ '\r') (line s : List Char) : splitlinesFrom line (c :: s) =
    if isLineBreak c then line :: splitlinesFrom [] s else splitlinesFrom (line ++ [c]) s := by
  rw [splitlinesFrom]
  rintro s' rfl
  exact fun _ => hc rfl

theorem splitlinesFrom_append (h : ∀ c ∈ a, isLineBreak c = false) (line s : List Char) :
    splitlinesFrom line (a ++ s) = splitlinesFrom (line ++ a) s := by
  induction a generalizing line with
  | nil => rw [List.append_nil, List.nil_append]
  | cons c a ih =>
    have hc := h c List.mem_cons_self
    have hne : c ≠ '\r' := by
      rintro rfl
      exact absurd hc (by decide)
    rw [List.cons_append, splitlinesFrom_cons hne, hc, if_neg (by simp),
      ih fun d hd => h d (List.mem_cons_of_mem c hd), List.append_assoc, List.singleton_append]

/-- Lines that are put together are cut as they were. -/
theorem splitlines_unlines {lines : List (List Char)}
    (h : ∀ line ∈ lines, line ≠ [] ∧ ∀ c ∈ line, isLineBreak c = false) :
    splitlines (unlines lines) = lines := by
  induction lines with
  | nil => rfl
  | cons line lines ih =>
    obtain ⟨hne, hbreaks⟩ := h line List.mem_cons_self
    have hrest := ih fun l hl => h l (List.mem_cons_of_mem _ hl)
    rcases lines with _ | ⟨line', lines⟩
    · have hall : unlines [line] = line ++ [] := by simp [unlines]
      rw [splitlines, hall, splitlinesFrom_append hbreaks, splitlinesFrom, if_neg (by simpa)]
      rfl
    · rw [splitlines, unlines_cons line (by simp), splitlinesFrom_append hbreaks,
        splitlinesFrom_cons (by decide), if_pos (by decide)]
      rw [splitlines] at hrest
      rw [hrest]
      rfl

/-- Lines that each end in a `\n` are cut as they were, also empty ones. -/
theorem splitlines_unlines_newline {lines : List (List Char)} (hne : lines ≠ [])
    (h : ∀ line ∈ lines, ∀ c ∈ line, isLineBreak c = false) :
    splitlines (unlines lines ++ ['\n']) = lines := by
  have hfirst {line : List Char} (hline : ∀ c ∈ line, isLineBreak c = false) (s : List Char) :
      splitlines (line ++ '\n' :: s) = line :: splitlines s := by
    rw [splitlines, splitlinesFrom_append hline, splitlinesFrom_cons (by decide),
      if_pos (by decide), List.nil_append, splitlines]
  induction lines with
  | nil => exact absurd rfl hne
  | cons line lines ih =>
    have hline := h line List.mem_cons_self
    by_cases hlast : lines = []
    · subst hlast
      have hall : unlines [line] = line := by simp [unlines]
      rw [hall, hfirst hline]
      rfl
    · rw [unlines_cons line hlast, List.append_assoc, List.cons_append, hfirst hline,
        ih hlast fun l hl => h l (List.mem_cons_of_mem _ hl)]

/-! ## Lines put together -/

/-- What stands behind a line break is the start of a line. -/
theorem exists_line_of_infix {lines : List (List Char)} (hc : c ≠ '\n')
    (hlines : ∀ line ∈ lines, '\n' ∉ line) (h : '\n' :: c :: t <:+: unlines lines) :
    ∃ line ∈ lines, line.head? = some c := by
  obtain ⟨a, b, heq⟩ := h
  have hne : lines ≠ [] := by
    rintro rfl
    simp [unlines] at heq
  have hcut : a.splitOn '\n' ++ (c :: (t ++ b)).splitOn '\n' = lines := by
    rw [← List.splitOn_append_cons_self]
    have hlines := List.splitOn_intercalate '\n' hlines hne
    rw [← unlines, ← heq] at hlines
    simpa using hlines
  obtain ⟨line, rest, hrest⟩ := List.exists_cons_of_ne_nil (List.splitOn_ne_nil '\n' (t ++ b))
  refine ⟨c :: line, ?_, rfl⟩
  rw [← hcut, List.splitOn_cons_eq_if_modifyHead, if_neg (by simpa using hc), hrest]
  simp

theorem not_mem_unlines {lines : List (List Char)} (hc : c ≠ '\n')
    (h : ∀ line ∈ lines, c ∉ line) : c ∉ unlines lines := by
  induction lines with
  | nil => simp [unlines]
  | cons line lines ih =>
    have hline := h line List.mem_cons_self
    have hrest := ih fun l hl => h l (List.mem_cons_of_mem _ hl)
    by_cases hlast : lines = []
    · simpa [unlines, hlast] using hline
    · rw [unlines_cons line hlast]
      simp [hline, hrest, hc]

theorem getLast?_unlines {lines : List (List Char)} (hne : lines ≠ [])
    (hlines : ∀ line ∈ lines, line ≠ []) :
    (unlines lines).getLast? = (lines.getLast hne).getLast? := by
  induction lines with
  | nil => exact absurd rfl hne
  | cons line lines ih =>
    by_cases hlast : lines = []
    · subst hlast
      simp [unlines]
    · have hrest := ih hlast fun l hl => hlines l (List.mem_cons_of_mem _ hl)
      have hnil : lines.getLast hlast ≠ [] :=
        hlines _ (List.mem_cons_of_mem _ (List.getLast_mem hlast))
      rw [List.getLast?_eq_some_getLast hnil] at hrest
      rw [unlines_cons line hlast, List.getLast_cons hlast, List.getLast?_append,
        List.getLast?_cons, hrest, List.getLast?_eq_some_getLast hnil]
      rfl

/-! ## Trimming -/

section

variable {p : Char → Bool}

theorem dropWhile_of_head (h : ∀ c ∈ s.head?, p c = false) : s.dropWhile p = s := by
  rcases s with _ | ⟨c, s⟩
  · rfl
  · rw [List.dropWhile_cons, h c rfl, if_neg Bool.false_ne_true]

theorem rdropWhile_of_last (h : ∀ c ∈ s.getLast?, p c = false) : s.rdropWhile p = s := by
  rw [List.rdropWhile, dropWhile_of_head fun c hc => h c (by rwa [List.head?_reverse] at hc),
    List.reverse_reverse]

/-- What is trimmed off a text whose own ends stay. -/
theorem trim_append (ha : ∀ c ∈ a, p c = true) (hb : ∀ c ∈ b, p c = true)
    (hhead : ∀ c ∈ s.head?, p c = false) (hlast : ∀ c ∈ s.getLast?, p c = false) :
    ((a ++ s ++ b).dropWhile p).rdropWhile p = s := by
  rw [List.append_assoc, List.dropWhile_append_of_pos ha]
  rcases s with _ | ⟨c, s⟩
  · rw [List.nil_append, List.dropWhile_eq_nil_iff.2 hb, List.rdropWhile_nil]
  · have hkeep : ((c :: s) ++ b).dropWhile p = (c :: s) ++ b := dropWhile_of_head hhead
    rw [hkeep, List.rdropWhile, List.reverse_append,
      List.dropWhile_append_of_pos (by simpa using hb)]
    exact rdropWhile_of_last hlast

/-- What is left has no end to trim. -/
theorem ends_trim (s : List Char) : (∀ c ∈ ((s.dropWhile p).rdropWhile p).head?, p c = false) ∧
    ∀ c ∈ ((s.dropWhile p).rdropWhile p).getLast?, p c = false := by
  refine ⟨fun c hc => ?_, fun c hc => ?_⟩
  · obtain ⟨rest, hrest⟩ := List.rdropWhile_prefix p (l := s.dropWhile p)
    have hhead := List.head?_dropWhile_not p s
    rcases hleft : (s.dropWhile p).rdropWhile p with _ | ⟨d, left⟩
    · rw [hleft] at hc
      cases hc
    · rw [hleft] at hc hrest
      cases hc
      rw [← hrest, List.cons_append, List.head?_cons] at hhead
      exact hhead
  · have hne : (s.dropWhile p).rdropWhile p ≠ [] := by
      intro hnil
      rw [hnil] at hc
      cases hc
    rw [List.getLast?_eq_some_getLast hne] at hc
    rw [← Option.some.inj hc]
    simpa using List.rdropWhile_last_not p _ hne

/-- Ends of the characters that are stripped are no matter. -/
theorem stripChars_append_append {chars : List Char} (ha : ∀ c ∈ a, c ∈ chars)
    (hb : ∀ c ∈ b, c ∈ chars) (s : List Char) :
    stripChars chars (a ++ s ++ b) = stripChars chars s := by
  obtain ⟨before, after, hs, hbefore, hafter⟩ := exists_append_stripChars chars s
  have hends := ends_trim (p := (chars.contains ·)) s
  have hleft : a ++ s ++ b = (a ++ before) ++ stripChars chars s ++ (after ++ b) := by
    conv_lhs => rw [hs]
    simp only [List.append_assoc]
  rw [hleft]
  refine trim_append (fun c hc => ?_) (fun c hc => ?_) hends.1 hends.2
  · rcases List.mem_append.1 hc with hc | hc
    · simpa using ha c hc
    · simpa using hbefore c hc
  · rcases List.mem_append.1 hc with hc | hc
    · simpa using hafter c hc
    · simpa using hb c hc

theorem stripChars_eq_self_iff {chars s : List Char} : stripChars chars s = s ↔
    (∀ c ∈ s.head?, c ∉ chars) ∧ ∀ c ∈ s.getLast?, c ∉ chars := by
  constructor
  · intro h
    have hends := ends_trim (p := (chars.contains ·)) s
    rw [← stripChars, h] at hends
    simpa using hends
  · rintro ⟨hhead, hlast⟩
    rw [stripChars, dropWhile_of_head fun c hc => by simpa using hhead c hc,
      rdropWhile_of_last fun c hc => by simpa using hlast c hc]

theorem strip_of_ends (hhead : ∀ c ∈ s.head?, isSpace c = false)
    (hlast : ∀ c ∈ s.getLast?, isSpace c = false) : strip s = s := by
  rw [strip, dropWhile_of_head hhead, rdropWhile_of_last hlast]

/-- A text between two characters that stay is not stripped. -/
theorem strip_between {a b : Char} (ha : isSpace a = false) (hb : isSpace b = false)
    (s : List Char) : strip (a :: s ++ [b]) = a :: s ++ [b] := by
  refine strip_of_ends (fun c hc => ?_) fun c hc => ?_
  · rw [List.cons_append, List.head?_cons] at hc
    rwa [← Option.some.inj hc]
  · rw [List.getLast?_concat] at hc
    rwa [← Option.some.inj hc]

end

end Py
