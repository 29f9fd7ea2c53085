import OxenClaw.Memory.Chunker

/-!
# How long chunks are

The pieces that `chunk_markdown` splits a text into are as long as allowed at most
(`length_le_of_mem_splitPieces`). The merging pass puts what is too short together with the next
piece, however long that is, and does not look at the bound again. A chunk is longer than allowed
exactly if a piece that is not blank is put behind a pending text with which it does not fit
(`chunkMarkdown_fits_iff`).
-/

namespace OxenClaw.Memory

open Py

/-- What is merged : the sections, split where they are too long. -/
def splitPieces (text : List Char) (maxChars : ℕ) : List Chunk :=
  (splitByHeadings (text.splitOn '\n')).flatMap (sized maxChars)

/-- How long the last text is when pieces of these lengths are merged. -/
def pendingLength (minChars : ℕ) (lengths : List ℕ) : Option ℕ :=
  lengths.foldl (fun last n => match last with
    | some l => if l < minChars then some (l + 1 + n) else some n
    | none => some n) none

/-- No piece is put behind a text that is too short, unless it is blank or fits. -/
def MergesFit (maxChars minChars : ℕ) (cs : List Chunk) : Prop :=
  ∀ before c behind, cs = before ++ c :: behind → strip c.text ≠ [] →
    ∀ l ∈ pendingLength minChars (before.map fun c => c.text.length), l < minChars →
      l + 1 + (rstrip c.text).length ≤ maxChars

/-! ## The pieces -/

theorem length_le_of_mem_hardSplit {maxChars : ℕ} {text : List Char} {n : ℕ} {c : Chunk}
    (h : c ∈ hardSplit maxChars text n) : c.text.length ≤ maxChars := by
  fun_induction hardSplit maxChars text n with
  | case1 text n hne piece stop ih =>
    rcases List.mem_cons.1 h with rfl | h
    · exact List.length_take_le _ _
    · exact ih h
  | case2 => exact absurd h List.not_mem_nil

theorem ParaLoop.length_le_of_mem_flush {maxChars : ℕ} {loop : ParaLoop} {n : ℕ}
    (hout : ∀ c ∈ loop.out, c.text.length ≤ maxChars) :
    ∀ c ∈ loop.flush maxChars n, c.text.length ≤ maxChars := by
  intro c hc
  rw [ParaLoop.flush] at hc
  split_ifs at hc with hlines
  · exact hout c hc
  · dsimp only at hc
    split_ifs at hc with hfits
    · rcases List.mem_append.1 hc with hc | hc
      · exact hout c hc
      · rw [List.mem_singleton.1 hc]
        exact hfits
    · rcases List.mem_append.1 hc with hc | hc
      · exact hout c hc
      · exact length_le_of_mem_hardSplit hc

theorem length_le_of_mem_splitOversize {maxChars : ℕ} {body : List Char} {n : ℕ} :
    ∀ c ∈ splitOversize body n maxChars, c.text.length ≤ maxChars := by
  refine ParaLoop.length_le_of_mem_flush ?_
  refine foldl_invariant (I := fun loop : ParaLoop => ∀ c ∈ loop.out, c.text.length ≤ maxChars)
    (fun loop line hloop => ?_) (by simp) _
  rw [ParaLoop.step]
  split_ifs
  · exact ParaLoop.length_le_of_mem_flush hloop
  · exact hloop

/-- No piece is longer than allowed. -/
theorem length_le_of_mem_splitPieces {text : List Char} {maxChars : ℕ} {c : Chunk}
    (h : c ∈ splitPieces text maxChars) : c.text.length ≤ maxChars := by
  obtain ⟨sec, -, hc⟩ := List.mem_flatMap.1 h
  rw [sized] at hc
  split_ifs at hc with hfits
  · rw [List.mem_singleton.1 hc]
    exact hfits
  · exact length_le_of_mem_splitOversize c hc

/-! ## Merging -/

theorem mergeSmall_append (minChars : ℕ) (cs : List Chunk) (c : Chunk) :
    mergeSmall (cs ++ [c]) minChars = mergeStep minChars (mergeSmall cs minChars) c := by
  rw [mergeSmall, List.foldl_append]
  rfl

/-- What is pending when pieces are merged is the last text. -/
theorem length_getLast?_mergeSmall (minChars : ℕ) (cs : List Chunk) :
    (mergeSmall cs minChars).getLast?.map (fun c => c.text.length) =
      pendingLength minChars (cs.map fun c => c.text.length) := by
  induction cs using List.reverseRecOn with
  | nil => rfl
  | append_singleton cs c ih =>
    rw [mergeSmall_append, List.map_append, List.map_singleton, pendingLength, List.foldl_append,
      List.foldl_cons, List.foldl_nil]
    rw [pendingLength] at ih
    rw [← ih, mergeStep]
    rcases hlast : (mergeSmall cs minChars).getLast? with _ | prev
    · simp
    · by_cases hshort : prev.text.length < minChars
      · simp [hshort]
        omega
      · simp [hshort]

theorem mergesFit_append {maxChars minChars : ℕ} {cs : List Chunk} {c : Chunk} :
    MergesFit maxChars minChars (cs ++ [c]) ↔ MergesFit maxChars minChars cs ∧
      (strip c.text ≠ [] → ∀ l ∈ pendingLength minChars (cs.map fun c => c.text.length),
        l < minChars → l + 1 + (rstrip c.text).length ≤ maxChars) := by
  constructor
  · intro h
    refine ⟨fun before c' behind heq => ?_, h cs c [] rfl⟩
    exact h before c' (behind ++ [c]) (by rw [heq, List.append_assoc, List.cons_append])
  · rintro ⟨h, hlast⟩ before c' behind heq
    rcases List.eq_nil_or_concat behind with rfl | ⟨behind, c'', rfl⟩
    · obtain ⟨rfl, hc⟩ := List.append_inj' heq rfl
      obtain rfl : c = c' := List.singleton_inj.1 hc
      exact hlast
    · rw [List.concat_eq_append, ← List.cons_append, ← List.append_assoc] at heq
      exact h before c' behind (List.append_inj' heq rfl).1

/-- The end of a text with a last line that is not blank. -/
theorem rstrip_append_of_ink (a : List Char) {b : List Char} (h : strip b ≠ []) :
    rstrip (a ++ b) = a ++ rstrip b := by
  obtain ⟨after, hb, hafter⟩ := exists_append_rstrip b
  have hne : rstrip b ≠ [] := by
    intro hnil
    rw [hnil, List.nil_append] at hb
    exact h (strip_eq_nil_iff.2 (ink_eq_nil.2 (hb ▸ hafter)))
  conv_lhs => rw [hb, ← List.append_assoc, rstrip_append_right _ hafter]
  refine List.rdropWhile_eq_self_iff.2 fun hne' => ?_
  rw [List.getLast_append_of_ne_nil hne' hne]
  exact List.rdropWhile_last_not isSpace b hne

theorem length_rstrip_le (s : List Char) : (rstrip s).length ≤ s.length :=
  (List.rdropWhile_prefix isSpace s).length_le

/-- A piece that is merged leaves the texts short enough exactly if it is blank or fits. -/
theorem mergeStep_fits_iff {maxChars minChars : ℕ} {merged : List Chunk} {c : Chunk}
    (hc : c.text.length ≤ maxChars) :
    (∀ m ∈ mergeStep minChars merged c, (rstrip m.text).length ≤ maxChars) ↔
      (∀ m ∈ merged, (rstrip m.text).length ≤ maxChars) ∧
        (strip c.text ≠ [] → ∀ l ∈ merged.getLast?.map (fun c => c.text.length), l < minChars →
          l + 1 + (rstrip c.text).length ≤ maxChars) := by
  have hfits : (rstrip c.text).length ≤ maxChars := (length_rstrip_le c.text).trans hc
  rw [mergeStep]
  rcases List.eq_nil_or_concat merged with rfl | ⟨front, prev, rfl⟩
  · simpa using hfits
  · rw [List.concat_eq_append]
    simp only [List.getLast?_concat, List.dropLast_concat, Option.map_some, Option.mem_some_iff,
      forall_eq']
    by_cases hshort : prev.text.length < minChars
    · rw [if_pos hshort, List.forall_mem_append, List.forall_mem_append, List.forall_mem_singleton,
        List.forall_mem_singleton]
      by_cases hblank : strip c.text = []
      · -- the blank end is stripped off again
        have hspace : ∀ d ∈ '\n' :: c.text, isSpace d = true := by
          rintro d (_ | ⟨_, hd⟩)
          · rfl
          · exact ink_eq_nil.1 (strip_eq_nil_iff.1 hblank) d hd
        rw [rstrip_append_right _ hspace]
        simp [hblank]
      · have hjoin : rstrip (prev.text ++ '\n' :: c.text) =
            prev.text ++ '\n' :: rstrip c.text := by
          rw [← List.singleton_append, ← List.append_assoc, rstrip_append_of_ink _ hblank,
            List.append_assoc, List.singleton_append]
        have hprev : (rstrip prev.text).length ≤ prev.text.length := length_rstrip_le _
        rw [hjoin, List.length_append, List.length_cons]
        constructor
        · rintro ⟨hfront, hlast⟩
          exact ⟨⟨hfront, by omega⟩, fun _ _ => by omega⟩
        · rintro ⟨⟨hfront, -⟩, hlast⟩
          have := hlast hblank hshort
          exact ⟨hfront, by omega⟩
    · rw [if_neg hshort, List.forall_mem_append, List.forall_mem_singleton]
      have hvoid : strip c.text ≠ [] → prev.text.length < minChars →
          prev.text.length + 1 + (rstrip c.text).length ≤ maxChars :=
        fun _ h => absurd h hshort
      exact and_congr_right fun _ => iff_of_true hfits hvoid

/-- What is merged is short enough exactly if the pieces fit. -/
theorem mergeSmall_fits_iff {maxChars minChars : ℕ} {cs : List Chunk}
    (hcs : ∀ c ∈ cs, c.text.length ≤ maxChars) :
    (∀ m ∈ mergeSmall cs minChars, (rstrip m.text).length ≤ maxChars) ↔
      MergesFit maxChars minChars cs := by
  induction cs using List.reverseRecOn with
  | nil =>
    refine iff_of_true (by simp [mergeSmall]) fun before c behind heq => ?_
    simp at heq
  | append_singleton cs c ih =>
    rw [List.forall_mem_append, List.forall_mem_singleton] at hcs
    rw [mergeSmall_append, mergeStep_fits_iff hcs.2, ih hcs.1, mergesFit_append,
      length_getLast?_mergeSmall]

/-- Every chunk is as long as allowed at most, exactly if no piece with text is put behind a pending
text with which it does not fit. -/
theorem chunkMarkdown_fits_iff (text : List Char) (maxChars minChars : ℕ) :
    (∀ c ∈ chunkMarkdown text maxChars minChars, c.text.length ≤ maxChars) ↔
      MergesFit maxChars minChars (splitPieces text maxChars) := by
  rw [← mergeSmall_fits_iff fun _ => length_le_of_mem_splitPieces, chunkMarkdown]
  by_cases htext : text = []
  · subst htext
    have hpieces : splitPieces [] maxChars = [⟨1, 1, []⟩] := by
      have hsections : splitByHeadings (([] : List Char).splitOn '\n') = [⟨1, 1, []⟩] := rfl
      rw [splitPieces, hsections, List.flatMap_singleton]
      exact if_pos (Nat.zero_le maxChars)
    rw [if_pos rfl, hpieces]
    refine iff_of_true (by simp) fun m hm => ?_
    obtain rfl : m = ⟨1, 1, []⟩ := List.mem_singleton.1 hm
    exact Nat.zero_le _
  · rw [if_neg htext]
    constructor
    · intro h m hm
      by_cases hblank : strip m.text = []
      · have hnil : rstrip m.text = [] :=
          List.rdropWhile_eq_nil_iff.2 (ink_eq_nil.1 (strip_eq_nil_iff.1 hblank))
        simp [hnil]
      · exact h { m with text := rstrip m.text }
          (List.mem_map_of_mem (List.mem_filter.2 ⟨hm, by simpa using hblank⟩))
    · intro h c hc
      obtain ⟨m, hm, rfl⟩ := List.mem_map.1 hc
      exact h m (List.mem_of_mem_filter hm)

/-- A line before a heading, put before its section. -/
theorem chunkMarkdown_exceeds : ¬∀ (text : List Char) (maxChars minChars : ℕ),
    ∀ c ∈ chunkMarkdown text maxChars minChars, c.text.length ≤ maxChars := by
  intro h
  have hlong := h "intro\n# Title".toList 8 6
  revert hlong
  decide +kernel

end OxenClaw.Memory
