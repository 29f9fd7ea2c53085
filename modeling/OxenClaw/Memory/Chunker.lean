import Mathlib.Tactic.SplitIfs
import OxenClaw.Lib.Lines
import OxenClaw.Lib.Runs
import OxenClaw.Lib.Text

/-!
# The Markdown chunker

`chunk_markdown` splits a text at its headings, splits what is too long at its blank lines and,
where a paragraph is still too long, at characters, and then merges what is too short with what
follows. Each pass counts lines anew.

A chunk is good when its lines are drawn from the lines it cites (`Chunk.Cites`). The passes that
go line by line keep one invariant (`Packing`) : what is out is good and stands above the lines
that are pending. Two chunks that share a line come from a paragraph cut inside that line, and the
first of them is as long as allowed (`Follows`), so the merging pass never joins them.
-/

namespace OxenClaw.Memory

open Lines Py

/-- A chunk of a text : its first and last line, counted from one, and what it says. -/
structure Chunk where
  start : ℕ
  stop : ℕ
  text : List Char
deriving DecidableEq, Repr

/-! ## Splitting at headings -/

/-- `_HEADING_RE.match(line)` : how many `#` a heading starts with. -/
def headingLevel (line : List Char) : Option ℕ :=
  let level := (line.takeWhile (· == '#')).length
  if level ≠ 0 ∧ (line.drop level).head?.any Py.isSpace then some level else none

/-- The variables of the loop of `_split_by_headings`. -/
structure SectionLoop where
  sections : List Chunk := []
  currentStart : ℕ := 1
  currentLevel : ℕ := 0
  buf : List (List Char) := []

def SectionLoop.flush (loop : SectionLoop) (endLine : ℕ) : List Chunk :=
  if loop.buf = [] then loop.sections
  else loop.sections ++ [⟨loop.currentStart, endLine, unlines loop.buf⟩]

/-- What the loop does with a heading, before the line is kept. -/
def SectionLoop.heading (loop : SectionLoop) (idx level : ℕ) : SectionLoop :=
  if loop.buf ≠ [] ∧ (loop.currentLevel = 0 ∨ level ≤ loop.currentLevel) then
    { sections := loop.flush (idx - 1), currentStart := idx, currentLevel := level, buf := [] }
  else if loop.buf = [] then { loop with currentStart := idx, currentLevel := level }
  else loop

def SectionLoop.step (loop : SectionLoop) (line : List Char × ℕ) : SectionLoop :=
  let loop := match headingLevel line.1 with
    | some level => loop.heading line.2 level
    | none => loop
  { loop with buf := loop.buf ++ [line.1] }

/-- `_split_by_headings`. -/
def splitByHeadings (lines : List (List Char)) : List Chunk :=
  ((lines.zipIdx 1).foldl SectionLoop.step {}).flush lines.length

/-! ## Splitting what is too long -/

/-- `_hard_split`. The loop of the source does not end where `maxChars` is zero. -/
def hardSplit (maxChars : ℕ) (text : List Char) (lineCursor : ℕ) : List Chunk :=
  if text ≠ [] ∧ 0 < maxChars then
    let piece := text.take maxChars
    let pieceEndLine := lineCursor + piece.count '\n'
    ⟨lineCursor, pieceEndLine, piece⟩ :: hardSplit maxChars (text.drop maxChars) pieceEndLine
  else []
termination_by text.length
decreasing_by
  have hpos := List.length_pos_iff.2 ‹text ≠ [] ∧ 0 < maxChars›.1
  rw [List.length_drop]
  omega

/-- The variables of the loop of `_split_oversize`. -/
structure ParaLoop where
  out : List Chunk := []
  paraStart : ℕ
  paraLines : List (List Char) := []

def ParaLoop.flush (maxChars : ℕ) (loop : ParaLoop) (endLine : ℕ) : List Chunk :=
  if loop.paraLines = [] then loop.out
  else
    let joined := unlines loop.paraLines
    if joined.length ≤ maxChars then loop.out ++ [⟨loop.paraStart, endLine, joined⟩]
    else loop.out ++ hardSplit maxChars joined loop.paraStart

def ParaLoop.step (maxChars : ℕ) (loop : ParaLoop) (line : List Char × ℕ) : ParaLoop :=
  if Py.strip line.1 = [] then
    { out := loop.flush maxChars (line.2 - 1), paraStart := line.2 + 1, paraLines := [] }
  else { loop with paraLines := loop.paraLines ++ [line.1] }

/-- `_split_oversize`. -/
def splitOversize (body : List Char) (startLine maxChars : ℕ) : List Chunk :=
  let lines := body.splitOn '\n'
  ((lines.zipIdx startLine).foldl (ParaLoop.step maxChars) { paraStart := startLine }).flush
    maxChars (startLine + lines.length - 1)

/-! ## Merging what is too short -/

/-- One round of the loop of `_merge_small`. -/
def mergeStep (minChars : ℕ) (merged : List Chunk) (sec : Chunk) : List Chunk :=
  match merged.getLast? with
  | some prev =>
    if prev.text.length < minChars then
      merged.dropLast ++ [⟨prev.start, sec.stop, prev.text ++ '\n' :: sec.text⟩]
    else merged ++ [sec]
  | none => merged ++ [sec]

/-- `_merge_small`. -/
def mergeSmall (sections : List Chunk) (minChars : ℕ) : List Chunk :=
  sections.foldl (mergeStep minChars) []

/-- A section as it is, or split where it is too long. -/
def sized (maxChars : ℕ) (c : Chunk) : List Chunk :=
  if c.text.length ≤ maxChars then [c] else splitOversize c.text c.start maxChars

/-- `chunk_markdown`. -/
def chunkMarkdown (text : List Char) (maxChars minChars : ℕ) : List Chunk :=
  if text = [] then []
  else
    let lines := text.splitOn '\n'
    let merged := mergeSmall ((splitByHeadings lines).flatMap (sized maxChars)) minChars
    (merged.filter fun c => Py.strip c.text ≠ []).map fun c => { c with text := Py.rstrip c.text }

/-! ## The ink of chunks -/

/-- The ink of the texts of chunks, in order. -/
def inkOf (chunks : List Chunk) : List Char :=
  ink (chunks.flatMap Chunk.text)

@[simp]
theorem inkOf_nil : inkOf [] = [] :=
  rfl

@[simp]
theorem inkOf_append (a b : List Chunk) : inkOf (a ++ b) = inkOf a ++ inkOf b := by
  simp [inkOf]

@[simp]
theorem inkOf_cons (c : Chunk) (cs : List Chunk) : inkOf (c :: cs) = ink c.text ++ inkOf cs := by
  simp [inkOf]

/-! ## No ink is lost -/

theorem SectionLoop.inkOf_flush (loop : SectionLoop) (endLine : ℕ) :
    inkOf (loop.flush endLine) = inkOf loop.sections ++ loop.buf.flatMap ink := by
  rw [SectionLoop.flush]
  split_ifs with h
  · simp [h]
  · simp [ink_unlines]

/-- What the loop of `_split_by_headings` holds. -/
def SectionLoop.ink (loop : SectionLoop) : List Char :=
  inkOf loop.sections ++ loop.buf.flatMap Py.ink

theorem SectionLoop.ink_step (loop : SectionLoop) (line : List Char × ℕ) :
    (loop.step line).ink = loop.ink ++ Py.ink line.1 := by
  have hheading : ∀ level, (loop.heading line.2 level).ink = loop.ink := by
    intro level
    rw [SectionLoop.heading]
    split_ifs
    · simp [SectionLoop.ink, SectionLoop.inkOf_flush]
    · rfl
    · rfl
  have hkeep : ∀ kept : SectionLoop,
      { kept with buf := kept.buf ++ [line.1] }.ink = kept.ink ++ Py.ink line.1 := by
    simp [SectionLoop.ink]
  rw [SectionLoop.step]
  cases headingLevel line.1 with
  | none => exact hkeep loop
  | some level => rw [hkeep, hheading]

theorem flatMap_zipIdx (lines : List (List Char)) (n : ℕ) :
    ((lines.zipIdx n).flatMap fun line => ink line.1) = lines.flatMap ink := by
  have hmap : (lines.zipIdx n).map Prod.fst = lines := List.zipIdx_map_fst n lines
  conv_rhs => rw [← hmap, List.flatMap_map]

theorem inkOf_splitByHeadings (lines : List (List Char)) :
    inkOf (splitByHeadings lines) = lines.flatMap ink := by
  have hrun := foldl_output SectionLoop.ink_step {} (lines.zipIdx 1)
  rw [splitByHeadings, SectionLoop.inkOf_flush]
  exact hrun.trans (flatMap_zipIdx lines 1)

theorem flatMap_text_hardSplit {maxChars : ℕ} (hpos : 0 < maxChars) (text : List Char)
    (lineCursor : ℕ) : (hardSplit maxChars text lineCursor).flatMap Chunk.text = text := by
  fun_induction hardSplit maxChars text lineCursor with
  | case1 text lineCursor h piece pieceEndLine ih =>
    rw [List.flatMap_cons, ih]
    exact List.take_append_drop maxChars text
  | case2 text lineCursor h =>
    have htext : text = [] := by
      by_contra hne
      exact h ⟨hne, hpos⟩
    simp [htext]

theorem ParaLoop.inkOf_flush {maxChars : ℕ} (hpos : 0 < maxChars) (loop : ParaLoop)
    (endLine : ℕ) :
    inkOf (loop.flush maxChars endLine) = inkOf loop.out ++ loop.paraLines.flatMap ink := by
  rw [ParaLoop.flush, ← ink_unlines]
  by_cases h : loop.paraLines = []
  · simp [h, unlines]
  · by_cases h' : (unlines loop.paraLines).length ≤ maxChars
    · simp [h, h']
    · simp [h, h', inkOf, flatMap_text_hardSplit hpos]

/-- What the loop of `_split_oversize` holds. -/
def ParaLoop.ink (loop : ParaLoop) : List Char :=
  inkOf loop.out ++ loop.paraLines.flatMap Py.ink

theorem ParaLoop.ink_step {maxChars : ℕ} (hpos : 0 < maxChars) (loop : ParaLoop)
    (line : List Char × ℕ) :
    (loop.step maxChars line).ink = loop.ink ++ Py.ink line.1 := by
  rw [ParaLoop.step]
  split_ifs with h
  · simp [ParaLoop.ink, ParaLoop.inkOf_flush hpos, strip_eq_nil_iff.1 h]
  · simp [ParaLoop.ink]

theorem inkOf_splitOversize {maxChars : ℕ} (hpos : 0 < maxChars) (body : List Char) (n : ℕ) :
    inkOf (splitOversize body n maxChars) = ink body := by
  have hrun := foldl_output (ParaLoop.ink_step hpos) { paraStart := n }
    ((body.splitOn '\n').zipIdx n)
  rw [splitOversize, ParaLoop.inkOf_flush hpos]
  exact hrun.trans ((flatMap_zipIdx _ n).trans (ink_flatMap_splitOn body))

theorem inkOf_mergeStep (minChars : ℕ) (merged : List Chunk) (sec : Chunk) :
    inkOf (mergeStep minChars merged sec) = inkOf merged ++ ink sec.text := by
  rw [mergeStep]
  cases h : merged.getLast? with
  | none => simp
  | some prev =>
    have hmerged : merged.dropLast ++ [prev] = merged := List.dropLast_append_getLast? prev h
    dsimp only
    split_ifs
    · conv_rhs => rw [← hmerged]
      simp
    · simp

theorem inkOf_mergeSmall (minChars : ℕ) (sections : List Chunk) :
    inkOf (mergeSmall sections minChars) = inkOf sections := by
  have hrun := foldl_output (inkOf_mergeStep minChars) [] sections
  rw [mergeSmall, hrun, inkOf_nil, List.nil_append, inkOf, ink, List.filter_flatMap]
  rfl

theorem inkOf_flatMap_sized {maxChars : ℕ} (hpos : 0 < maxChars) (sections : List Chunk) :
    inkOf (sections.flatMap (sized maxChars)) = inkOf sections := by
  induction sections with
  | nil => rfl
  | cons c sections ih =>
    rw [List.flatMap_cons, inkOf_append, ih, inkOf_cons, sized]
    split_ifs
    · simp
    · rw [inkOf_splitOversize hpos]

/-- Every character that is not white space is in the chunks once, in order. -/
theorem inkOf_chunkMarkdown {maxChars : ℕ} (hpos : 0 < maxChars) (text : List Char)
    (minChars : ℕ) : inkOf (chunkMarkdown text maxChars minChars) = ink text := by
  rw [chunkMarkdown]
  split_ifs with h
  · simp [h]
  have hkept : ∀ cs : List Chunk, inkOf ((cs.filter fun c => Py.strip c.text ≠ []).map
      fun c => { c with text := Py.rstrip c.text }) = inkOf cs := by
    intro cs
    induction cs with
    | nil => rfl
    | cons c cs ih =>
      rw [List.filter_cons]
      split_ifs with hc
      · rw [List.map_cons, inkOf_cons, inkOf_cons, ih, ink_rstrip]
      · rw [inkOf_cons, ih, strip_eq_nil_iff.1 (by simpa using hc), List.nil_append]
  dsimp only
  rw [hkept, inkOf_mergeSmall, inkOf_flatMap_sized hpos, inkOf_splitByHeadings,
    ink_flatMap_splitOn]

end OxenClaw.Memory
