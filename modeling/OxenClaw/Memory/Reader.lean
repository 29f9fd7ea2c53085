import Mathlib.Algebra.Order.Ring.Int
import OxenClaw.Lib.Lines
import OxenClaw.Lib.Text

/-!
# Reading a file of the corpus in ranges

`read_file_range` gives the lines of a file from one on, as many as a count and a bound on the
characters allow, and says where to go on. Going on from the first line ends, and gives every line
once and in order, up to the first that is longer than the bound : that line is cut, and what is
behind it is not reached, since a page that was cut names no line to go on from
(`readPages_spec`).
-/

namespace OxenClaw.Memory

open Py

structure MemoryReadResult where
  path : String
  text : List Char
  startLine : ℕ
  endLine : ℕ
  truncated : Bool
  nextFrom : Option ℕ
  deriving DecidableEq

/-- What `rel_path` leads to, and the text as it is decoded. -/
inductive CorpusFile where
  | escapes
  | missing
  | text (content : List Char)

/-- The `while` of `_fit_to_chars`, from a count on. -/
def fitCount (lines : List (List Char)) (maxChars : ℕ) : ℕ → ℕ
  | 0 => 0
  | 1 => 1
  | n + 2 =>
    if maxChars < (unlines (lines.take (n + 2))).length then fitCount lines maxChars (n + 1)
    else n + 2

/-- `_fit_to_chars` : the text, how many lines it has, and whether the first of them was cut. -/
def fitToChars (lines : List (List Char)) (maxChars : ℕ) : List Char × ℕ × Bool :=
  if lines = [] then ([], 0, false)
  else
    let included := fitCount lines maxChars lines.length
    let text := unlines (lines.take included)
    if text.length ≤ maxChars then (text, included, false) else (text.take maxChars, 1, true)

/-- A limit that is less than one is one. -/
def atLeastOne (limit : ℤ) : ℕ :=
  (max limit 1).toNat

/-- The lines of a file. -/
def fileLines (content : List Char) : List (List Char) :=
  (universalNewlines content).splitOn '\n'

/-- `read_file_range`, or nothing where it raises. -/
def readFileRange (file : CorpusFile) (relPath : String) (fromLine lines maxChars : ℤ) :
    Option MemoryReadResult :=
  let fromLine := atLeastOne fromLine
  match file with
  | .escapes => none
  | .missing => some ⟨relPath, [], fromLine, fromLine - 1, false, none⟩
  | .text content =>
    let selected := ((fileLines content).drop (fromLine - 1)).take (atLeastOne lines)
    let moreSource : Bool := fromLine - 1 + selected.length < (fileLines content).length
    let (fitted, included, hardTruncated) := fitToChars selected (atLeastOne maxChars)
    let more : Bool := moreSource || included < selected.length
    some {
      path := relPath
      text := fitted
      startLine := fromLine
      endLine := if 0 < included then fromLine + included - 1 else fromLine - 1
      truncated := hardTruncated || more
      nextFrom := if !hardTruncated && more then some (fromLine + included) else none }

/-- Read on from `next_from`, `n` times at most. -/
def readPages (file : CorpusFile) (relPath : String) (lines maxChars : ℤ) :
    ℕ → ℤ → Option (List MemoryReadResult)
  | 0, _ => some []
  | n + 1, fromLine => do
    let r ← readFileRange file relPath fromLine lines maxChars
    match r.nextFrom with
    | none => return [r]
    | some next =>
      let rs ← readPages file relPath lines maxChars n next
      return r :: rs

/-- The lines up to the first that is too long, which is cut. -/
def readable (maxChars : ℕ) : List (List Char) → List (List Char)
  | [] => []
  | line :: lines =>
    if line.length ≤ maxChars then line :: readable maxChars lines else [line.take maxChars]

/-! ## One page -/

section

variable {lines : List (List Char)} {maxChars : ℕ}

theorem length_le_unlines {line : List Char} (h : line ∈ lines) :
    line.length ≤ (unlines lines).length := by
  induction lines with
  | nil => exact absurd h List.not_mem_nil
  | cons l lines ih =>
    by_cases hnil : lines = []
    · subst hnil
      rw [List.mem_singleton.1 h]
      simp [unlines]
    · rw [unlines_cons l hnil, List.length_append, List.length_cons]
      rcases List.mem_cons.1 h with rfl | h
      · omega
      · have := ih h
        omega

theorem fitCount_spec (lines : List (List Char)) (maxChars : ℕ) {n : ℕ} (hn : 0 < n) :
    0 < fitCount lines maxChars n ∧ fitCount lines maxChars n ≤ n ∧ (fitCount lines maxChars n = 1 ∨
      (unlines (lines.take (fitCount lines maxChars n))).length ≤ maxChars) := by
  fun_induction fitCount lines maxChars n with
  | case1 => omega
  | case2 => exact ⟨hn, le_rfl, .inl rfl⟩
  | case3 n hlong ih =>
    obtain ⟨hpos, hle, hfits⟩ := ih (by omega)
    exact ⟨hpos, by omega, hfits⟩
  | case4 n hfits => exact ⟨hn, le_rfl, .inr (by omega)⟩

/-- A first line that fits is given whole, with those behind it that fit as well. -/
theorem fitToChars_of_le (lines : List (List Char)) {line : List Char}
    (h : line.length ≤ maxChars) :
    ∃ c, 0 < c ∧ c ≤ (line :: lines).length ∧
      (unlines ((line :: lines).take c)).length ≤ maxChars ∧
        fitToChars (line :: lines) maxChars = (unlines ((line :: lines).take c), c, false) := by
  obtain ⟨hpos, hle, hfits⟩ := fitCount_spec (line :: lines) maxChars
    (n := (line :: lines).length) (by simp)
  have hshort : (unlines ((line :: lines).take
      (fitCount (line :: lines) maxChars (line :: lines).length))).length ≤ maxChars := by
    rcases hfits with hone | hfits
    · rw [hone]
      simpa [unlines] using h
    · exact hfits
  refine ⟨_, hpos, hle, hshort, ?_⟩
  rw [fitToChars, if_neg (by simp)]
  exact if_pos hshort

/-- A first line that is too long is cut. -/
theorem fitToChars_of_lt (lines : List (List Char)) {line : List Char}
    (h : maxChars < line.length) :
    fitToChars (line :: lines) maxChars = (line.take maxChars, 1, true) := by
  obtain ⟨hpos, -, hfits⟩ := fitCount_spec (line :: lines) maxChars
    (n := (line :: lines).length) (by simp)
  have hmem : line ∈ (line :: lines).take
      (fitCount (line :: lines) maxChars (line :: lines).length) := by
    obtain ⟨c, hc⟩ := Nat.exists_eq_add_of_lt hpos
    rw [hc]
    simp
  have hlong := length_le_unlines hmem
  have hone : fitCount (line :: lines) maxChars (line :: lines).length = 1 :=
    hfits.resolve_right (by omega)
  have htext : unlines ((line :: lines).take 1) = line := by simp [unlines]
  rw [fitToChars, if_neg (by simp), hone]
  simp only [htext]
  exact if_neg (by omega)

end

theorem atLeastOne_pos (limit : ℤ) : 0 < atLeastOne limit := by
  rw [atLeastOne]
  omega

theorem atLeastOne_succ (i : ℕ) : atLeastOne ((i : ℤ) + 1) = i + 1 := by
  rw [atLeastOne]
  omega

section Page

variable {content line : List Char} {rest : List (List Char)} {i : ℕ} (relPath : String)
  (lines maxChars : ℤ)

/-- A page from a line that fits : the lines it gives, and where it goes on. -/
theorem readFileRange_of_le (hrest : (fileLines content).drop i = line :: rest)
    (h : line.length ≤ atLeastOne maxChars) : ∃ c r,
      readFileRange (.text content) relPath (i + 1) lines maxChars = some r ∧
      0 < c ∧ i + c ≤ (fileLines content).length ∧
      (∀ l ∈ (line :: rest).take c, l.length ≤ atLeastOne maxChars) ∧
      r.text = unlines ((line :: rest).take c) ∧ r.startLine = i + 1 ∧ r.endLine = i + c ∧
      r.nextFrom = if i + c < (fileLines content).length then some (i + 1 + c) else none := by
  obtain ⟨k, hk⟩ := Nat.exists_eq_add_of_lt (atLeastOne_pos lines)
  have hselected : ((fileLines content).drop i).take (atLeastOne lines) =
      line :: rest.take k := by
    rw [hrest, hk, Nat.zero_add, List.take_succ_cons]
  obtain ⟨c, hpos, hle, hfits, hfit⟩ := fitToChars_of_le (rest.take k) h
  have hlen := congrArg List.length hrest
  rw [List.length_drop, List.length_cons] at hlen
  have hsize : (line :: rest.take k).length = min k rest.length + 1 := by
    rw [List.length_cons, List.length_take]
  rw [hsize] at hle
  have htake : (line :: rest.take k).take c = (line :: rest).take c := by
    obtain ⟨d, rfl⟩ := Nat.exists_eq_add_of_lt hpos
    rw [Nat.zero_add, List.take_succ_cons, List.take_succ_cons, List.take_take]
    congr 2
    omega
  rw [htake] at hfits hfit
  have hmore : (decide (i + (line :: rest.take k).length < (fileLines content).length) ||
      decide (c < (line :: rest.take k).length)) =
        decide (i + c < (fileLines content).length) := by
    rw [hsize, ← Bool.decide_or, decide_eq_decide]
    omega
  refine ⟨c, ⟨relPath, unlines ((line :: rest).take c), i + 1, i + c,
    decide (i + c < (fileLines content).length),
    if i + c < (fileLines content).length then some (i + 1 + c) else none⟩, ?_, hpos, by omega,
    fun l hl => (length_le_unlines hl).trans hfits, rfl, rfl, rfl, rfl⟩
  rw [readFileRange]
  simp only [atLeastOne_succ, Nat.add_sub_cancel, hselected, hfit, hmore, if_pos hpos,
    Bool.not_false, Bool.true_and, Bool.false_or, decide_eq_true_eq]
  rw [Nat.add_right_comm, Nat.add_sub_cancel]

/-- A page from a line that is too long is its first characters, and the last page. -/
theorem readFileRange_of_lt (hrest : (fileLines content).drop i = line :: rest)
    (h : atLeastOne maxChars < line.length) :
    readFileRange (.text content) relPath (i + 1) lines maxChars = some
      ⟨relPath, line.take (atLeastOne maxChars), i + 1, i + 1, true, none⟩ := by
  obtain ⟨k, hk⟩ := Nat.exists_eq_add_of_lt (atLeastOne_pos lines)
  have hselected : ((fileLines content).drop i).take (atLeastOne lines) =
      line :: rest.take k := by
    rw [hrest, hk, Nat.zero_add, List.take_succ_cons]
  have hfit := fitToChars_of_lt (rest.take k) h
  rw [readFileRange]
  simp only [atLeastOne_succ, Nat.add_sub_cancel, hselected, hfit]
  rfl

end Page

/-! ## All pages -/

theorem readable_take {maxChars c : ℕ} {ls : List (List Char)}
    (h : ∀ l ∈ ls.take c, l.length ≤ maxChars) :
    readable maxChars ls = ls.take c ++ readable maxChars (ls.drop c) := by
  induction c generalizing ls with
  | zero => rfl
  | succ c ih =>
    rcases ls with _ | ⟨l, ls⟩
    · rfl
    · rw [List.take_succ_cons, List.forall_mem_cons] at h
      rw [readable, if_pos h.1, ih h.2, List.take_succ_cons, List.drop_succ_cons,
        List.cons_append]

/-- The pages from a line on. -/
theorem readPages_from {content : List Char} (relPath : String) (lines maxChars : ℤ) {n i : ℕ}
    (hi : i < (fileLines content).length) (hn : (fileLines content).length ≤ i + n) :
    ∃ rs, readPages (.text content) relPath lines maxChars n (i + 1) = some rs ∧
      (∃ r ∈ rs.getLast?, r.nextFrom = none) ∧
      rs.flatMap (fun r => r.text.splitOn '\n') =
        readable (atLeastOne maxChars) ((fileLines content).drop i) ∧
      rs.flatMap (fun r => List.range' r.startLine (r.endLine + 1 - r.startLine)) =
        List.range' (i + 1)
          (readable (atLeastOne maxChars) ((fileLines content).drop i)).length := by
  induction n generalizing i with
  | zero => omega
  | succ n ih =>
    obtain ⟨line, rest, hrest⟩ := List.exists_cons_of_ne_nil
      (l := (fileLines content).drop i) (by simpa using hi)
    have hbreak : ∀ l ∈ (fileLines content).drop i, '\n' ∉ l :=
      fun l hl => Lines.not_mem_of_mem_splitOn (List.mem_of_mem_drop hl)
    rw [hrest] at hbreak
    rw [readPages]
    by_cases hline : line.length ≤ atLeastOne maxChars
    · obtain ⟨c, page, hpage, hpos, hle, hshort, htext, hstart, hstop, hnext⟩ :=
        readFileRange_of_le relPath lines maxChars hrest hline
      have htaken : (unlines ((line :: rest).take c)).splitOn '\n' = (line :: rest).take c := by
        refine List.splitOn_intercalate '\n' (fun l hl => hbreak l (List.mem_of_mem_take hl)) ?_
        rw [ne_eq, List.take_eq_nil_iff, not_or]
        exact ⟨by omega, by simp⟩
      have hbehind : (line :: rest).drop c = (fileLines content).drop (i + c) := by
        rw [← hrest, List.drop_drop]
      have hcount : ((line :: rest).take c).length = c := by
        have hlen := congrArg List.length hrest
        rw [List.length_drop] at hlen
        rw [List.length_take]
        omega
      have hreadable := readable_take hshort
      rw [hbehind] at hreadable
      have hrange : i + c + 1 - (i + 1) = c := by omega
      rw [hrest, hreadable, List.length_append, hcount, ← List.range'_append_1, hpage]
      by_cases hmore : i + c < (fileLines content).length
      · obtain ⟨rs, hrs, ⟨r, hr, hend⟩, htexts, hranges⟩ := ih hmore (by omega)
        have hcast : ((i + 1 + c : ℕ) : ℤ) = (i + c : ℕ) + 1 := by omega
        rw [if_pos hmore] at hnext
        refine ⟨page :: rs, ?_, ⟨r, ?_, hend⟩, ?_, ?_⟩
        · simp only [Option.bind_eq_bind, Option.bind_some, hnext, hcast, hrs]
          rfl
        · rcases rs with _ | ⟨r', rs⟩
          · exact absurd hr (by simp)
          · exact hr
        · rw [List.flatMap_cons, htexts, htext, htaken]
        · rw [List.flatMap_cons, hranges, hstart, hstop, hrange, Nat.add_right_comm i c 1]
      · have hnil : (fileLines content).drop (i + c) = [] := List.drop_eq_nil_iff.2 (by omega)
        rw [if_neg hmore] at hnext
        refine ⟨[page], ?_, ⟨page, rfl, hnext⟩, ?_, ?_⟩
        · simp only [Option.bind_eq_bind, Option.bind_some, hnext]
          rfl
        · rw [List.flatMap_singleton, htext, htaken, hnil, readable, List.append_nil]
        · rw [List.flatMap_singleton, hnil, readable, hstart, hstop, hrange,
            List.length_nil, List.range'_zero, List.append_nil]
    · have hpage := readFileRange_of_lt relPath lines maxChars hrest (by omega)
      have hcut : '\n' ∉ line.take (atLeastOne maxChars) :=
        fun h => hbreak line List.mem_cons_self (List.mem_of_mem_take h)
      rw [hpage, hrest, readable, if_neg hline]
      refine ⟨[_], rfl, ⟨_, rfl, rfl⟩, ?_, ?_⟩
      · simp [List.splitOn_eq_singleton hcut]
      · simp

/-- Reading on from the first line ends, and gives every line once, up to the first that is too
long, which is cut. -/
theorem readPages_spec (content : List Char) (relPath : String) (lines maxChars : ℤ) {n : ℕ}
    (hn : (fileLines content).length ≤ n) :
    ∃ rs, readPages (.text content) relPath lines maxChars n 1 = some rs ∧
      (∃ r ∈ rs.getLast?, r.nextFrom = none) ∧
      rs.flatMap (fun r => r.text.splitOn '\n') =
        readable (atLeastOne maxChars) (fileLines content) ∧
      rs.flatMap (fun r => List.range' r.startLine (r.endLine + 1 - r.startLine)) =
        List.range' 1 (readable (atLeastOne maxChars) (fileLines content)).length := by
  have hpos : 0 < (fileLines content).length :=
    List.length_pos_iff.2 (List.splitOn_ne_nil '\n' _)
  have hall := readPages_from relPath lines maxChars hpos (n := n) (by omega)
  simpa using hall

theorem readPages_spec_two :
    ∃ rs, readPages (.text "one\ntwo".toList) "a.md" 1 100 2 1 = some rs ∧
      (∃ r ∈ rs.getLast?, r.nextFrom = none) ∧
      rs.flatMap (fun r => r.text.splitOn '\n') =
        readable (atLeastOne 100) (fileLines "one\ntwo".toList) ∧
      rs.flatMap (fun r => List.range' r.startLine (r.endLine + 1 - r.startLine)) =
        List.range' 1 (readable (atLeastOne 100) (fileLines "one\ntwo".toList)).length :=
  readPages_spec "one\ntwo".toList "a.md" 1 100 (by decide)

/-- What is behind a line that is too long is not reached. -/
theorem readPages_stop : ¬∀ (content : List Char) (lines maxChars : ℤ), ∃ n rs,
    readPages (.text content) "a.md" lines maxChars n 1 = some rs ∧
      (∃ r ∈ rs.getLast?, r.nextFrom = none) ∧
        List.Forall₂ (· <+: ·) (rs.flatMap fun r => r.text.splitOn '\n') (fileLines content) := by
  intro h
  obtain ⟨n, rs, hrs, -, hlines⟩ := h "long\nend".toList 10 3
  have hlen := hlines.length_eq
  rcases n with _ | n
  · cases hrs
    exact absurd hlen (by decide)
  · cases hrs
    exact absurd hlen (by decide)

end OxenClaw.Memory
