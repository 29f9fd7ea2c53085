import OxenClaw.Lib.Python

/-!
# Texts

Texts put together from lines, read from a file with any kind of line break, and stripped. The
`ink` of a text is what of it is not white space : it is what survives stripping, joining and
reading.
-/

namespace Py

/-- `"\n".join(lines)`. -/
def unlines (lines : List (List Char)) : List Char :=
  ['\n'].intercalate lines

/-- What `read_text` makes of the characters of a file : every line break is a `\n`. -/
def universalNewlines : List Char → List Char
  | '\r' :: '\n' :: s => '\n' :: universalNewlines s
  | '\r' :: s => '\n' :: universalNewlines s
  | c :: s => c :: universalNewlines s
  | [] => []

/-- `s.strip(chars)`. -/
def stripChars (chars s : List Char) : List Char :=
  (s.dropWhile fun c => chars.contains c).rdropWhile fun c => chars.contains c

/-- `s.rfind(sep)`, nothing where it is `-1`. -/
def rfind (sep : List Char) : List Char → Option ℕ
  | [] => if sep = [] then some 0 else none
  | c :: s =>
    match rfind sep s with
    | some i => some (i + 1)
    | none => if sep.isPrefixOf (c :: s) then some 0 else none

theorem unlines_cons (line : List Char) {lines : List (List Char)} (h : lines ≠ []) :
    unlines (line :: lines) = line ++ '\n' :: unlines lines := by
  rw [unlines, List.intercalate_cons_of_ne_nil h, List.append_assoc]
  rfl

/-! ## Ink -/

/-- The characters that are not white space. -/
def ink (s : List Char) : List Char :=
  s.filter fun c => !isSpace c

@[simp]
theorem ink_nil : ink [] = [] :=
  rfl

@[simp]
theorem ink_append (s t : List Char) : ink (s ++ t) = ink s ++ ink t :=
  List.filter_append s t

@[simp]
theorem ink_newline_cons (s : List Char) : ink ('\n' :: s) = ink s :=
  List.filter_cons_of_neg (by decide)

theorem ink_eq_nil {s : List Char} : ink s = [] ↔ ∀ c ∈ s, isSpace c = true := by
  simp [ink, List.filter_eq_nil_iff]

theorem ink_unlines (lines : List (List Char)) : ink (unlines lines) = lines.flatMap ink := by
  unfold unlines
  induction lines with
  | nil => simp
  | cons line lines ih =>
    cases lines with
    | nil => simp
    | cons next lines => simp [ih]

theorem ink_flatMap_splitOn (s : List Char) : (s.splitOn '\n').flatMap ink = ink s := by
  rw [← ink_unlines, unlines, List.intercalate_splitOn]

theorem ink_rstrip (s : List Char) : ink (rstrip s) = ink s := by
  have hs := List.rdropWhile_append_rtakeWhile (p := isSpace) (l := s)
  have htail : ink (s.rtakeWhile isSpace) = [] :=
    ink_eq_nil.2 fun c hc => List.mem_rtakeWhile_imp hc
  conv_rhs => rw [← hs, ink_append, htail, List.append_nil]
  rfl

theorem ink_strip (s : List Char) : ink (strip s) = ink s := by
  obtain ⟨before, after, hs, hbefore, hafter⟩ := exists_append_strip s
  conv_rhs => rw [hs, ink_append, ink_append, ink_eq_nil.2 hbefore, ink_eq_nil.2 hafter]
  simp

theorem strip_eq_nil_iff {s : List Char} : strip s = [] ↔ ink s = [] := by
  constructor
  · intro h
    rw [← ink_strip, h, ink_nil]
  · intro h
    by_contra hne
    obtain ⟨c, hc, hspace⟩ := exists_mem_strip hne
    rw [← ink_strip, ink_eq_nil] at h
    simp [h c hc] at hspace

/-! ## Stripping -/

section

variable {a s b : List Char}

theorem strip_append_left (ha : ∀ c ∈ a, isSpace c = true) (s : List Char) :
    strip (a ++ s) = strip s := by
  rw [strip, List.dropWhile_append_of_pos ha, strip]

theorem rstrip_append_right (s : List Char) (hb : ∀ c ∈ b, isSpace c = true) :
    rstrip (s ++ b) = rstrip s := by
  rw [rstrip, List.rdropWhile, List.reverse_append,
    List.dropWhile_append_of_pos (by simpa using hb), rstrip, List.rdropWhile]

theorem strip_append_right (s : List Char) (hb : ∀ c ∈ b, isSpace c = true) :
    strip (s ++ b) = strip s := by
  by_cases hs : ∀ c ∈ s, isSpace c = true
  · have hsb : strip (s ++ b) = [] := strip_eq_nil_iff.2 <| by
      rw [ink_append, ink_eq_nil.2 hs, ink_eq_nil.2 hb, List.append_nil]
    rw [hsb, strip_eq_nil_iff.2 (ink_eq_nil.2 hs)]
  · have hdrop : (s ++ b).dropWhile isSpace = s.dropWhile isSpace ++ b := by
      rw [List.dropWhile_append]
      have hne : (s.dropWhile isSpace).isEmpty = false := by
        rw [List.isEmpty_eq_false_iff]
        intro h
        exact hs (List.dropWhile_eq_nil_iff.1 h)
      simp [hne]
    rw [strip, hdrop]
    exact rstrip_append_right _ hb

theorem strip_subset (s : List Char) : strip s ⊆ s := by
  obtain ⟨before, after, hs, -, -⟩ := exists_append_strip s
  intro c hc
  rw [hs]
  exact List.mem_append_left _ (List.mem_append_right _ hc)

theorem getLast?_rstrip_ne {c : Char} (hc : isSpace c = true) (s : List Char) :
    (rstrip s).getLast? ≠ some c := by
  intro h
  have hne : rstrip s ≠ [] := by
    rintro hnil
    simp [hnil] at h
  have hlast := (List.getLast_eq_iff_getLast?_eq_some hne).2 h
  have hnot : ¬isSpace ((rstrip s).getLast hne) = true :=
    List.rdropWhile_last_not isSpace s hne
  rw [hlast] at hnot
  exact hnot hc

/-- White space around a text is stripped off. -/
theorem strip_append_append (ha : ∀ c ∈ a, isSpace c = true) (s : List Char)
    (hb : ∀ c ∈ b, isSpace c = true) : strip (a ++ s ++ b) = strip s := by
  rw [strip_append_right _ hb, strip_append_left ha]

theorem strip_strip (s : List Char) : strip (strip s) = strip s := by
  obtain ⟨before, after, hs, hbefore, hafter⟩ := exists_append_strip s
  conv_rhs => rw [hs]
  exact (strip_append_append hbefore (strip s) hafter).symm

theorem head?_strip_ne {c : Char} (hc : isSpace c = true) (s : List Char) :
    (strip s).head? ≠ some c := by
  intro h
  obtain ⟨t, ht⟩ := List.head?_eq_some_iff.1 h
  have hspace : ∀ d ∈ [c], isSpace d = true := by simpa using hc
  have hstrip : strip s = strip t := by
    rw [← strip_strip, ht]
    exact strip_append_left hspace t
  obtain ⟨before, after, hlen, -, -⟩ := exists_append_strip t
  have hshort := congrArg List.length hlen
  have hlong := congrArg List.length (hstrip.symm.trans ht)
  simp only [List.length_append, List.length_cons] at hshort hlong
  omega

theorem exists_append_rstrip (s : List Char) :
    ∃ after, s = rstrip s ++ after ∧ ∀ c ∈ after, isSpace c = true :=
  ⟨s.rtakeWhile isSpace, List.rdropWhile_append_rtakeWhile.symm,
    fun _ => List.mem_rtakeWhile_imp⟩

/-- `rstrip` leaves what `strip` leaves, with the white space before it. -/
theorem exists_rstrip (s : List Char) :
    ∃ before, rstrip s = before ++ strip s ∧ ∀ c ∈ before, isSpace c = true := by
  obtain ⟨after, hs, hafter⟩ := exists_append_rstrip s
  have hstrip : strip s = strip (rstrip s) := by
    conv_lhs => rw [hs]
    exact strip_append_right _ hafter
  have hself : rstrip ((rstrip s).dropWhile isSpace) = (rstrip s).dropWhile isSpace := by
    refine List.rdropWhile_eq_self_iff.2 fun hne => ?_
    have hsuffix := List.dropWhile_suffix (l := rstrip s) isSpace
    rw [hsuffix.getLast hne]
    exact List.rdropWhile_last_not isSpace s _
  refine ⟨(rstrip s).takeWhile isSpace, ?_, fun _ => List.mem_takeWhile_imp⟩
  have hrest : strip s = (rstrip s).dropWhile isSpace := hstrip.trans hself
  rw [hrest, List.takeWhile_append_dropWhile]

theorem exists_append_stripChars (chars s : List Char) : ∃ before after,
    s = before ++ stripChars chars s ++ after ∧ (∀ c ∈ before, c ∈ chars) ∧
      ∀ c ∈ after, c ∈ chars := by
  refine ⟨s.takeWhile fun c => chars.contains c,
    (s.dropWhile fun c => chars.contains c).rtakeWhile fun c => chars.contains c, ?_,
    fun c hc => ?_, fun c hc => ?_⟩
  · rw [stripChars, List.append_assoc, List.rdropWhile_append_rtakeWhile,
      List.takeWhile_append_dropWhile]
  · simpa using List.mem_takeWhile_imp hc
  · simpa using List.mem_rtakeWhile_imp hc

/-- Characters that are white space, stripped first, make no difference. -/
theorem strip_stripChars {chars : List Char} (h : ∀ c ∈ chars, isSpace c = true) (s : List Char) :
    strip (stripChars chars s) = strip s := by
  obtain ⟨before, after, hs, hbefore, hafter⟩ := exists_append_stripChars chars s
  conv_rhs => rw [hs]
  exact (strip_append_append (fun c hc => h c (hbefore c hc)) _
    fun c hc => h c (hafter c hc)).symm

end

/-! ## Line breaks -/

theorem not_mem_universalNewlines (s : List Char) : '\r' ∉ universalNewlines s := by
  fun_induction universalNewlines s with
  | case1 s ih => simpa using ih
  | case2 s h ih => simpa using ih
  | case3 c s h h' ih =>
    have hc : '\r' ≠ c := fun he => h' he.symm
    simp [hc, ih]
  | case4 => simp

/-- A text without `\r`, before a text that is read. -/
theorem universalNewlines_append {a : List Char} (ha : '\r' ∉ a) (b : List Char) :
    universalNewlines (a ++ b) = a ++ universalNewlines b := by
  induction a with
  | nil => rfl
  | cons c a ih =>
    rw [List.mem_cons, not_or] at ha
    have hc : c ≠ '\r' := Ne.symm ha.1
    rw [List.cons_append, universalNewlines, ih ha.2, List.cons_append]
    · rintro s rfl
      exact absurd rfl hc
    · rintro rfl
      exact absurd rfl hc

/-- The lines of a text that is read, if the first has no line break. -/
theorem splitOn_universalNewlines_unlines {line : List Char} (h : '\n' ∉ line ∧ '\r' ∉ line)
    {lines : List (List Char)} (hne : lines ≠ []) :
    (universalNewlines (unlines (line :: lines))).splitOn '\n' =
      line :: (universalNewlines (unlines lines)).splitOn '\n' := by
  have hnewline : universalNewlines ('\n' :: unlines lines) =
      '\n' :: universalNewlines (unlines lines) := by
    simp [universalNewlines]
  rw [unlines_cons line hne, universalNewlines_append h.2, hnewline,
    List.splitOn_append_cons_self, List.splitOn_eq_singleton h.1, List.singleton_append]

theorem universalNewlines_eq_self {s : List Char} (h : '\r' ∉ s) : universalNewlines s = s := by
  have happend := universalNewlines_append h []
  rwa [List.append_nil, universalNewlines, List.append_nil] at happend

/-- Two texts that are read, where no line break is cut between them. -/
theorem universalNewlines_append_of_ne {a b : List Char}
    (h : a.getLast? ≠ some '\r' ∨ b.head? ≠ some '\n') :
    universalNewlines (a ++ b) = universalNewlines a ++ universalNewlines b := by
  fun_induction universalNewlines a with
  | case1 s ih =>
    have hs : s.getLast? ≠ some '\r' ∨ b.head? ≠ some '\n' := by
      refine h.imp_left fun hlast hs => hlast ?_
      rw [List.getLast?_cons_cons, List.getLast?_cons, hs, Option.getD_some]
    simp [universalNewlines, ih hs]
  | case2 s hs ih =>
    have hnext : ∀ t, s ++ b = '\n' :: t → False := by
      intro t ht
      cases s with
      | nil =>
        rw [List.nil_append] at ht
        simp [ht] at h
      | cons c s => exact hs s (by simp_all)
    have hrest : s.getLast? ≠ some '\r' ∨ b.head? ≠ some '\n' := by
      refine h.imp_left fun hlast hs => hlast ?_
      rw [List.getLast?_cons, hs, Option.getD_some]
    rw [List.cons_append, universalNewlines, ih hrest, List.cons_append]
    exact hnext
  | case3 c s hc hc' ih =>
    have hrest : s.getLast? ≠ some '\r' ∨ b.head? ≠ some '\n' := by
      refine h.imp_left fun hlast hs => hlast ?_
      rw [List.getLast?_cons, hs, Option.getD_some]
    rw [List.cons_append, universalNewlines, ih hrest, List.cons_append]
    · exact fun t hc _ => hc' hc
    · exact hc'
  | case4 => rfl

theorem ink_universalNewlines (s : List Char) : ink (universalNewlines s) = ink s := by
  fun_induction universalNewlines s with
  | case1 s ih => simpa [ink, isSpace] using ih
  | case2 s h ih => simpa [ink, isSpace] using ih
  | case3 c s h h' ih => simp_all [ink, List.filter_cons]
  | case4 => rfl

/-! ## The last occurrence -/

section Rfind

variable {sep s : List Char} {n i j : ℕ}

theorem rfind_cons (sep : List Char) (c : Char) (s : List Char) : rfind sep (c :: s) =
    match rfind sep s with
    | some i => some (i + 1)
    | none => if sep.isPrefixOf (c :: s) then some 0 else none :=
  rfl

theorem rfind_eq_none (hsep : sep ≠ []) (h : rfind sep s = none) (j : ℕ) : ¬ sep <+: s.drop j := by
  induction s generalizing j with
  | nil => simpa using hsep
  | cons c s ih =>
    rw [rfind_cons] at h
    cases hrest : rfind sep s with
    | some i => simp [hrest] at h
    | none =>
      rcases j with _ | j
      · simpa [hrest] using h
      · exact ih hrest j

theorem rfind_eq_some (hsep : sep ≠ []) (h : rfind sep s = some i) :
    sep <+: s.drop i ∧ ∀ j, sep <+: s.drop j → j ≤ i := by
  induction s generalizing i with
  | nil => simp [rfind, hsep] at h
  | cons c s ih =>
    rw [rfind_cons] at h
    cases hrest : rfind sep s with
    | some k =>
      simp only [hrest, Option.some.injEq] at h
      obtain ⟨hat, hlast⟩ := ih hrest
      subst h
      refine ⟨hat, fun j hj => ?_⟩
      rcases j with _ | j
      · exact Nat.zero_le _
      · exact Nat.succ_le_succ (hlast j hj)
    | none =>
      simp only [hrest, Option.ite_none_right_eq_some, Option.some.injEq] at h
      obtain ⟨hat, rfl⟩ := h
      refine ⟨by simpa using hat, fun j hj => ?_⟩
      rcases j with _ | j
      · exact le_rfl
      · exact absurd hj (rfind_eq_none hsep hrest j)

theorem rfind_add_length_le (hsep : sep ≠ []) (h : rfind sep s = some i) :
    i + sep.length ≤ s.length := by
  have hlength := (rfind_eq_some hsep h).1.length_le
  have hpos := List.length_pos_iff.2 hsep
  rw [List.length_drop] at hlength
  omega

/-- Where a beginning of the text has `sep`. -/
theorem isPrefix_drop_take (hsep : sep ≠ []) :
    sep <+: (s.take n).drop j ↔ sep <+: s.drop j ∧ j + sep.length ≤ n := by
  have hpos := List.length_pos_iff.2 hsep
  rw [List.drop_take, List.prefix_take_iff]
  exact and_congr_right fun _ => by omega

/-- The last occurrence, where it is in a beginning of the text, is the last there. -/
theorem rfind_take (hsep : sep ≠ []) (h : rfind sep s = some i) (hi : i + sep.length ≤ n) :
    rfind sep (s.take n) = some i := by
  obtain ⟨hat, hlast⟩ := rfind_eq_some hsep h
  have hin : sep <+: (s.take n).drop i := (isPrefix_drop_take hsep).2 ⟨hat, hi⟩
  cases hrfind : rfind sep (s.take n) with
  | none => exact absurd hin (rfind_eq_none hsep hrfind i)
  | some k =>
    obtain ⟨hk, hlastk⟩ := rfind_eq_some hsep hrfind
    have hle := hlast k ((isPrefix_drop_take hsep).1 hk).1
    have hge := hlastk i hin
    rw [le_antisymm hle hge]

/-- A beginning of the text has no later occurrence than the text. -/
theorem exists_rfind_of_take (hsep : sep ≠ []) (h : rfind sep (s.take n) = some j) :
    ∃ i, rfind sep s = some i ∧ j ≤ i := by
  have hat := ((isPrefix_drop_take hsep).1 (rfind_eq_some hsep h).1).1
  cases hrfind : rfind sep s with
  | none => exact absurd hat (rfind_eq_none hsep hrfind j)
  | some i => exact ⟨i, rfl, (rfind_eq_some hsep hrfind).2 j hat⟩

end Rfind

end Py
