import OxenClaw.Lib.Text
import OxenClaw.Lib.Utf8

/-!
# Reply chunks

`chunk_text` cuts a reply into chunks for a channel, at the last blank line, else the last line
break, else the last space of a window of `limit` characters, and drops the line breaks after a
cut. The limit is in bytes and the window in characters : a chunk fits exactly if the window of
the characters that fit would have been cut at the same place (`chunkText_fits_iff`), which is so
of an ASCII text (`breaksFit_of_ascii`).
-/

namespace OxenClaw

open Py

/-- What `_best_split` looks for, in this order. -/
def splitSeparators : List (List Char) := [['\n', '\n'], ['\n'], [' ']]

/-- The loop of `_best_split`. -/
def splitAfter (window : List Char) : List (List Char) → ℕ
  | [] => window.length
  | sep :: seps =>
    match (rfind sep window).filter (0 < ·) with
    | some idx => idx + sep.length
    | none => splitAfter window seps

def bestSplit (window : List Char) : ℕ :=
  splitAfter window splitSeparators

/-- `s.lstrip("\n")`. -/
def lstripNewlines (s : List Char) : List Char :=
  s.dropWhile (· == '\n')

/-- The loop of `chunk_text`, nothing where it takes more than `fuel` rounds. -/
def chunkLoop (limit : ℕ) : ℕ → List Char → Option (List (List Char))
  | 0, _ => none
  | fuel + 1, remaining =>
    if limit < (utf8 remaining).length then
      let cut := bestSplit (remaining.take limit)
      (chunkLoop limit fuel (lstripNewlines (remaining.drop cut))).map (remaining.take cut :: ·)
    else if remaining = [] then some []
    else some [remaining]

/-- `list(chunk_text(text, limit))`. -/
def chunkText (fuel : ℕ) (text : List Char) (limit : ℤ) :
    Except String (Option (List (List Char))) :=
  if limit ≤ 0 then .error "limit must be positive" else .ok (chunkLoop limit.toNat fuel text)

/-! ## What the chunks are to be -/

/-- The text is the chunks, with a run of line breaks after each. -/
def Rebuilds (text : List Char) (chunks : List (List Char)) : Prop :=
  ∃ runs : List (List Char), runs.length = chunks.length ∧ (∀ run ∈ runs, ∀ c ∈ run, c = '\n') ∧
    text = (chunks.zipWith (· ++ ·) runs).flatten

/-- What is left to be cut, where each cut is at the best place among the characters that fit. -/
inductive Remainder (limit : ℕ) : List Char → List Char → Prop
  | refl (r : List Char) : Remainder limit r r
  | cut {r r' : List Char} : limit < (utf8 r).length →
      Remainder limit (lstripNewlines (r.drop (bestSplit (utf8Take limit r)))) r' →
      Remainder limit r r'

/-- Each window of `limit` characters is best cut where the characters are that fit. -/
def BreaksFit (limit : ℕ) (text : List Char) : Prop :=
  ∀ r, Remainder limit text r → limit < (utf8 r).length →
    bestSplit (r.take limit) = bestSplit (utf8Take limit r)

/-! ## The best cut -/

section Split

variable {seps : List (List Char)} {window : List Char} {n : ℕ}

theorem splitAfter_le (h : [] ∉ seps) : splitAfter window seps ≤ window.length := by
  induction seps with
  | nil => exact le_rfl
  | cons sep seps ih =>
    rw [List.mem_cons, not_or] at h
    rw [splitAfter]
    split
    · next idx hidx => exact rfind_add_length_le (Ne.symm h.1) (Option.filter_eq_some_iff.1 hidx).1
    · exact ih h.2

theorem splitAfter_pos (hwindow : window ≠ []) : 0 < splitAfter window seps := by
  induction seps with
  | nil => exact List.length_pos_iff.2 hwindow
  | cons sep seps ih =>
    rw [splitAfter]
    split
    · next idx hidx =>
      have hpos : 0 < idx := by simpa using (Option.filter_eq_some_iff.1 hidx).2
      omega
    · exact ih

/-- A separator that is not in the window, but maybe at its start, is not in its beginning. -/
theorem filter_rfind_take {sep : List Char} (hsep : sep ≠ [])
    (h : (rfind sep window).filter (0 < ·) = none) :
    (rfind sep (window.take n)).filter (0 < ·) = none := by
  rw [Option.filter_eq_none_iff] at h ⊢
  intro j hj
  obtain ⟨i, hi, hle⟩ := exists_rfind_of_take hsep hj
  have hzero := h i hi
  simp only [decide_eq_true_eq, not_lt] at hzero ⊢
  omega

/-- A cut within the first `n` characters is the cut of these. -/
theorem splitAfter_le_iff (h : [] ∉ seps) :
    splitAfter window seps ≤ n ↔ splitAfter window seps = splitAfter (window.take n) seps := by
  constructor
  · intro hle
    induction seps with
    | nil =>
      rw [splitAfter] at hle
      rw [List.take_of_length_le hle]
    | cons sep seps ih =>
      rw [List.mem_cons, not_or] at h
      have hsep := Ne.symm h.1
      cases hfound : (rfind sep window).filter (0 < ·) with
      | some idx =>
        obtain ⟨hrfind, hpos⟩ := Option.filter_eq_some_iff.1 hfound
        rw [splitAfter, hfound] at hle ⊢
        rw [splitAfter, rfind_take hsep hrfind hle, Option.filter_some, if_pos hpos]
      | none =>
        rw [splitAfter, hfound] at hle ⊢
        rw [splitAfter, filter_rfind_take hsep hfound]
        exact ih h.2 hle
  · intro heq
    rw [heq]
    exact (splitAfter_le h).trans (List.length_take_le n window)

end Split

/-! ## The loop -/

section Loop

variable {limit fuel : ℕ} {r r' : List Char} {chunks : List (List Char)}

theorem nil_notMem_splitSeparators : [] ∉ splitSeparators := by
  simp [splitSeparators]

/-- A cut fits exactly if it is the one of the characters that fit. -/
theorem cut_fits_iff (limit : ℕ) (r : List Char) :
    (utf8 (r.take (bestSplit (r.take limit)))).length ≤ limit ↔
      bestSplit (r.take limit) = bestSplit (utf8Take limit r) := by
  have hcut : bestSplit (r.take limit) ≤ r.length :=
    (splitAfter_le nil_notMem_splitSeparators).trans (List.length_take_le' limit r)
  have htake : (r.take limit).take (utf8Take limit r).length = utf8Take limit r := by
    rw [List.take_take, Nat.min_eq_left (length_utf8Take_le limit r), ← utf8Take_eq_take]
  rw [length_utf8_take_le_iff hcut, bestSplit, splitAfter_le_iff nil_notMem_splitSeparators, htake,
    bestSplit]

/-- What a round of the loop does. -/
theorem chunkLoop_cases (h : chunkLoop limit (fuel + 1) r = some chunks) :
    (limit < (utf8 r).length ∧ ∃ rest,
      chunkLoop limit fuel (lstripNewlines (r.drop (bestSplit (r.take limit)))) = some rest ∧
        chunks = r.take (bestSplit (r.take limit)) :: rest) ∨
      ((utf8 r).length ≤ limit ∧ (r = [] ∧ chunks = [] ∨ chunks = [r])) := by
  rw [chunkLoop] at h
  split_ifs at h with hlong hempty
  · obtain ⟨rest, hrest, rfl⟩ := Option.map_eq_some_iff.1 h
    exact Or.inl ⟨hlong, rest, hrest, rfl⟩
  · exact Or.inr ⟨Nat.le_of_not_lt hlong, Or.inl ⟨hempty, (Option.some.inj h).symm⟩⟩
  · exact Or.inr ⟨Nat.le_of_not_lt hlong, Or.inr (Option.some.inj h).symm⟩

/-- Each cut leaves less. -/
theorem length_lstripNewlines_lt (hlimit : 0 < limit) (hlong : limit < (utf8 r).length) :
    (lstripNewlines (r.drop (bestSplit (r.take limit)))).length < r.length := by
  have hr : r ≠ [] := by
    rintro rfl
    exact absurd hlong (Nat.not_lt_zero limit)
  have hwindow : r.take limit ≠ [] := by
    rw [Ne, List.take_eq_nil_iff, not_or]
    exact ⟨hlimit.ne', hr⟩
  have hcut : 0 < bestSplit (r.take limit) := splitAfter_pos hwindow
  have hdrop :=
    (List.dropWhile_sublist (· == '\n') (l := r.drop (bestSplit (r.take limit)))).length_le
  have hpos := List.length_pos_iff.2 hr
  rw [List.length_drop] at hdrop
  rw [lstripNewlines]
  omega

/-- The loop ends. -/
theorem chunkLoop_returns (hlimit : 0 < limit) (r : List Char) :
    ∃ chunks, ∀ fuel, r.length < fuel → chunkLoop limit fuel r = some chunks := by
  induction hn : r.length using Nat.strong_induction_on generalizing r with
  | h n ih =>
    by_cases hlong : limit < (utf8 r).length
    · have hless := length_lstripNewlines_lt hlimit hlong
      obtain ⟨rest, hrest⟩ := ih _ (hn ▸ hless) _ rfl
      refine ⟨r.take (bestSplit (r.take limit)) :: rest, fun fuel hfuel => ?_⟩
      obtain ⟨fuel, rfl⟩ := Nat.exists_eq_succ_of_ne_zero (Nat.ne_of_gt (Nat.zero_lt_of_lt hfuel))
      rw [chunkLoop, if_pos hlong]
      dsimp only
      rw [hrest fuel (by omega), Option.map_some]
    · refine ⟨if r = [] then [] else [r], fun fuel hfuel => ?_⟩
      obtain ⟨fuel, rfl⟩ := Nat.exists_eq_succ_of_ne_zero (Nat.ne_of_gt (Nat.zero_lt_of_lt hfuel))
      rw [chunkLoop, if_neg hlong]
      split_ifs <;> rfl

/-- The chunks and the line breaks dropped after them are the text. -/
theorem rebuilds_of_chunkLoop (h : chunkLoop limit fuel r = some chunks) : Rebuilds r chunks := by
  induction fuel generalizing r chunks with
  | zero => cases h
  | succ fuel ih =>
    obtain ⟨-, rest, hrest, rfl⟩ | ⟨-, ⟨rfl, rfl⟩ | rfl⟩ := chunkLoop_cases h
    · obtain ⟨runs, hlength, hruns, htext⟩ := ih hrest
      refine ⟨(r.drop (bestSplit (r.take limit))).takeWhile (· == '\n') :: runs, by simp [hlength],
        fun run hrun => ?_, ?_⟩
      · obtain rfl | hrun := List.mem_cons.1 hrun
        · exact fun c hc => by simpa using List.mem_takeWhile_imp hc
        · exact hruns run hrun
      · rw [List.zipWith_cons_cons, List.flatten_cons, ← htext, List.append_assoc, lstripNewlines,
          List.takeWhile_append_dropWhile, List.take_append_drop]
    · exact ⟨[], rfl, by simp, rfl⟩
    · exact ⟨[[]], rfl, by simp, by simp⟩

theorem breaksFit_of_le (h : (utf8 r).length ≤ limit) : BreaksFit limit r := by
  rintro r' (_ | ⟨hlong, -⟩) hr'
  · exact absurd hr' (Nat.not_lt.2 h)
  · exact absurd hlong (Nat.not_lt.2 h)

theorem breaksFit_iff (hlong : limit < (utf8 r).length) : BreaksFit limit r ↔
    bestSplit (r.take limit) = bestSplit (utf8Take limit r) ∧
      BreaksFit limit (lstripNewlines (r.drop (bestSplit (utf8Take limit r)))) := by
  constructor
  · exact fun h => ⟨h r (.refl r) hlong, fun r' hr' => h r' (.cut hlong hr')⟩
  · rintro ⟨hhere, hrest⟩ r' (_ | ⟨-, hr'⟩)
    · exact fun _ => hhere
    · exact hrest r' hr'

/-- The chunks fit exactly if the windows are cut where the characters are that fit. -/
theorem fits_iff_of_chunkLoop (h : chunkLoop limit fuel r = some chunks) :
    (∀ c ∈ chunks, (utf8 c).length ≤ limit) ↔ BreaksFit limit r := by
  induction fuel generalizing r chunks with
  | zero => cases h
  | succ fuel ih =>
    obtain ⟨hlong, rest, hrest, rfl⟩ | ⟨hfits, hchunks⟩ := chunkLoop_cases h
    · rw [List.forall_mem_cons, cut_fits_iff, ih hrest, breaksFit_iff hlong]
      exact and_congr_right fun heq => by rw [heq]
    · refine iff_of_true (fun c hc => ?_) (breaksFit_of_le hfits)
      obtain ⟨-, rfl⟩ | rfl := hchunks
      · cases hc
      · rwa [List.mem_singleton.1 hc]

/-- Nothing is left that is not in the text. -/
theorem Remainder.subset (h : Remainder limit r r') : r' ⊆ r := by
  induction h with
  | refl r => exact List.Subset.refl r
  | cut _ _ ih =>
    exact List.Subset.trans ih
      (List.Subset.trans (List.dropWhile_sublist _).subset (List.drop_subset _ _))

end Loop

/-- The loop returns the same chunks however long it is given. -/
def Returns (text : List Char) (limit : ℤ) (chunks : List (List Char)) : Prop :=
  ∀ fuel, text.length < fuel → chunkText fuel text limit = .ok (some chunks)

/-- `chunk_text` ends with chunks that are the text but for line breaks between them, and these
are within the limit exactly if each window of `limit` characters is best cut where the
characters are that fit. -/
theorem chunkText_fits_iff (text : List Char) {limit : ℤ} (hlimit : 0 < limit) :
    (∃ chunks, Returns text limit chunks ∧ (∀ c ∈ chunks, ((utf8 c).length : ℤ) ≤ limit) ∧
      Rebuilds text chunks) ↔ BreaksFit limit.toNat text := by
  obtain ⟨chunks, hloop⟩ := chunkLoop_returns (Int.lt_toNat.2 hlimit) text
  have hreturns : Returns text limit chunks := fun fuel hfuel => by
    rw [chunkText, if_neg (Int.not_le.2 hlimit), hloop fuel hfuel]
  have hrun := hloop _ (Nat.lt_succ_self text.length)
  have hfits : (∀ c ∈ chunks, ((utf8 c).length : ℤ) ≤ limit) ↔ BreaksFit limit.toNat text := by
    rw [← fits_iff_of_chunkLoop hrun]
    exact forall₂_congr fun c _ => by omega
  constructor
  · rintro ⟨chunks', hreturns', hfits', -⟩
    have heq := (hreturns _ (Nat.lt_succ_self _)).symm.trans (hreturns' _ (Nat.lt_succ_self _))
    cases heq
    exact hfits.1 hfits'
  · exact fun h => ⟨chunks, hreturns, hfits.2 h, rebuilds_of_chunkLoop hrun⟩

/-- An ASCII text is cut into chunks that fit. -/
theorem breaksFit_of_ascii {text : List Char} (h : ∀ c ∈ text, c.toNat < 128) (limit : ℕ) :
    BreaksFit limit text := by
  intro r hr _
  rw [utf8Take_of_ascii fun c hc => h c (hr.subset hc)]

theorem chunkText_fits_iff_ascii :
    ∃ chunks, Returns "one two\n\nthree".toList 9 chunks ∧
      (∀ c ∈ chunks, ((utf8 c).length : ℤ) ≤ 9) ∧ Rebuilds "one two\n\nthree".toList chunks :=
  (chunkText_fits_iff "one two\n\nthree".toList (by decide)).2
    (breaksFit_of_ascii (Py.forall_of_all (by decide)) _)

/-- Three characters of two bytes each are within a window of four. -/
theorem chunkText_exceeds_limit :
    ¬ ∃ chunks, Returns "ééé".toList 4 chunks ∧ (∀ c ∈ chunks, ((utf8 c).length : ℤ) ≤ 4) ∧
      Rebuilds "ééé".toList chunks := by
  rintro ⟨chunks, hreturns, hfits, -⟩
  have hrun : chunkText 4 "ééé".toList 4 = .ok (some ["ééé".toList]) := by decide
  cases hrun.symm.trans (hreturns 4 (by decide))
  exact absurd (hfits _ List.mem_cons_self) (by decide)

end OxenClaw
