import OxenClaw.Lib.Holes
import OxenClaw.Lib.Lines
import OxenClaw.Lib.Splice
import OxenClaw.Lib.Text
import Mathlib.Data.List.Pairwise
import Mathlib.Data.List.Sort

/-!
# Fuzzy find and replace

`fuzzy_find_and_replace` of `tools_pkg/fuzzy_match.py`. Six of its strategies go by lines : they
scan the normalized lines of the file for blocks that look like the old text (`Scan`), and splice
the new text into the lines of the file as they are. The ratio of `SequenceMatcher` is a parameter.

The lines of the file are cut at `\n` and joined by `\r\n` when the file has one, and blocks that
overlap are spliced one into the other. So the lines outside of the blocks survive exactly when no
two blocks overlap, and the file has no `\r\n` unless all of it becomes one line
(`fuzzyFindAndReplace_replaces_iff`).
-/

namespace OxenClaw.ToolsPkg

open Py Splice

/-- The text of a file, or of a part of it. -/
abbrev Text := List Char

def unicodeMap : List (Char × Text) :=
  [('\u201c', ['"']), ('\u201d', ['"']), ('\u2018', ['\'']), ('\u2019', ['\'']),
    ('\u2014', ['-', '-']), ('\u2013', ['-']), ('\u2026', ['.', '.', '.']), ('\u00a0', [' '])]

def unicodeNormalize (text : Text) : Text :=
  unicodeMap.foldl (fun out e => Holes.replaceAll [e.1] e.2 out) text

/-- `text.count(pat)` once `skip` more characters of the last occurrence are passed. -/
def countFrom (pat : Text) : ℕ → Text → ℕ
  | _, [] => 0
  | skip + 1, _ :: text => countFrom pat skip text
  | 0, c :: text =>
    if pat <+: c :: text then countFrom pat (pat.length - 1) text + 1
    else countFrom pat 0 text

/-- `text.count(pat)`, for a pattern that is not empty. -/
def count (text pat : Text) : ℕ :=
  countFrom pat 0 text

/-- `content.split("\n")`. -/
abbrev splitLines (content : Text) : List Text :=
  content.splitOn '\n'

/-- The line break that the lines are joined with. -/
def newlineOf (original : Text) : Text :=
  if ['\r', '\n'] <:+: original ∧ '\n' ∈ original then ['\r', '\n'] else ['\n']

/-- The lines with the new text in the place of each match, the last match first. -/
def spliceLines (original : Text) (contentLines : List Text) (found : List (ℕ × ℕ)) (new : Text) :
    Text :=
  (newlineOf original).intercalate
    ((found.insertionSort fun a b => b.1 ≤ a.1).foldl
      (fun lines r => splice (splitLines new) r lines) contentLines)

/-! ## Scanning the lines -/

/-- What a line strategy scans, the number of lines of the old text, and the test of a block. -/
structure Scan where
  lines : List Text
  size : ℕ
  test : List Text → Bool

/-- The block of lines that starts at `i`. -/
def Scan.block (s : Scan) (i : ℕ) : List Text :=
  (s.lines.drop i).take s.size

/-- The blocks that pass the test, as ranges of lines. -/
def Scan.found (s : Scan) : Option (List (ℕ × ℕ)) :=
  if s.size = 0 ∨ s.lines.length < s.size then none
  else
    let starts := (List.range (s.lines.length - s.size + 1)).filter fun i => s.test (s.block i)
    if starts = [] then none else some (starts.map fun i => (i, i + s.size))

/-- The file with the blocks replaced, and their number. -/
def Scan.replace (s : Scan) (content new : Text) : Option (Text × ℕ) :=
  s.found.map fun found => (spliceLines content (splitLines content) found new, found.length)

/-- A scan for the lines of the old text, both sides brought into one form line by line. -/
def Scan.ofLines (norm : Text → Text) (content old : Text) : Scan :=
  let oldLines := (splitLines old).map norm
  ⟨(splitLines content).map norm, oldLines.length, fun block => unlines block = unlines oldLines⟩

/-! ## The strategies -/

def exact (content old new : Text) : Option (Text × ℕ) :=
  if ¬old <:+: content then none
  else some (Holes.replaceAll old new content, count content old)

def lineTrimmedScan (content old : Text) : Scan :=
  Scan.ofLines (fun line => (rstrip line).dropWhile isSpace) content old

def lineTrimmed (content old new : Text) : Option (Text × ℕ) :=
  (lineTrimmedScan content old).replace content new

/-- `re.sub(r"[ \t]+", " ", s)`, where `inRun` says that a run has begun. -/
def collapseFrom (inRun : Bool) : Text → Text
  | [] => []
  | c :: s =>
    if c = ' ' ∨ c = '\t' then
      if inRun then collapseFrom true s else ' ' :: collapseFrom true s
    else c :: collapseFrom false s

def collapse (s : Text) : Text :=
  collapseFrom false s

def whitespaceNormalizedScan (content old : Text) : Scan :=
  ⟨(splitLines content).map collapse, (splitLines (collapse old)).length,
    fun block => unlines block = collapse old⟩

def whitespaceNormalized (content old new : Text) : Option (Text × ℕ) :=
  if collapse old = old ∧ collapse content = content then none
  else if ¬collapse old <:+: collapse content then none
  else (whitespaceNormalizedScan content old).replace content new

def indentationFlexibleScan (content old : Text) : Scan :=
  Scan.ofLines (List.dropWhile isSpace) content old

def indentationFlexible (content old new : Text) : Option (Text × ℕ) :=
  (indentationFlexibleScan content old).replace content new

def unescape (s : Text) : Text :=
  Holes.replaceAll ['\\', 'r'] ['\r']
    (Holes.replaceAll ['\\', 't'] ['\t'] (Holes.replaceAll ['\\', 'n'] ['\n'] s))

def escapeNormalized (content old new : Text) : Option (Text × ℕ) :=
  if unescape old = old then none
  else if ¬unescape old <:+: content then none
  else some (Holes.replaceAll (unescape old) new content, count content (unescape old))

def unicodeNormalizedScan (content old : Text) : Scan :=
  ⟨splitLines (unicodeNormalize content), (splitLines (unicodeNormalize old)).length,
    fun block => unlines block = unicodeNormalize old⟩

def unicodeNormalized (content old new : Text) : Option (Text × ℕ) :=
  if unicodeNormalize content = content ∧ unicodeNormalize old = old then none
  else (unicodeNormalizedScan content old).replace content new

/-- The first two and the last two lines of the block are those of the old text. -/
def anchored (oldLines block : List Text) : Bool :=
  (block.take 2).map strip = (oldLines.take 2).map strip ∧
    (block.drop (block.length - 2)).map strip = (oldLines.drop (oldLines.length - 2)).map strip

def blockAnchorScan (content old : Text) : Scan :=
  ⟨splitLines content, (splitLines old).length, anchored (splitLines old)⟩

def blockAnchor (content old new : Text) : Option (Text × ℕ) :=
  if (splitLines old).length < 4 then none
  else (blockAnchorScan content old).replace content new

section

variable (ratio : Text → Text → ℚ)

def contextAwareScan (content old : Text) : Scan :=
  ⟨splitLines content, (splitLines old).length, fun block => 23 / 25 ≤ ratio (unlines block) old⟩

def contextAware (content old new : Text) : Option (Text × ℕ) :=
  (contextAwareScan ratio content old).replace content new

inductive Strategy where
  | exact | lineTrimmed | whitespaceNormalized | indentationFlexible | escapeNormalized
  | unicodeNormalized | blockAnchor | contextAware
  deriving DecidableEq

namespace Strategy

def name : Strategy → String
  | exact => "exact"
  | lineTrimmed => "line_trimmed"
  | whitespaceNormalized => "whitespace_normalized"
  | indentationFlexible => "indentation_flexible"
  | escapeNormalized => "escape_normalized"
  | unicodeNormalized => "unicode_normalized"
  | blockAnchor => "block_anchor"
  | contextAware => "context_aware"

def all : List Strategy :=
  [exact, lineTrimmed, whitespaceNormalized, indentationFlexible, escapeNormalized,
    unicodeNormalized, blockAnchor, contextAware]

def apply : Strategy → Text → Text → Text → Option (Text × ℕ)
  | exact => ToolsPkg.exact
  | lineTrimmed => ToolsPkg.lineTrimmed
  | whitespaceNormalized => ToolsPkg.whitespaceNormalized
  | indentationFlexible => ToolsPkg.indentationFlexible
  | escapeNormalized => ToolsPkg.escapeNormalized
  | unicodeNormalized => ToolsPkg.unicodeNormalized
  | blockAnchor => ToolsPkg.blockAnchor
  | contextAware => ToolsPkg.contextAware ratio

/-- What a strategy that goes by lines scans. -/
def scan : Strategy → Text → Text → Option Scan
  | exact, _, _ => none
  | lineTrimmed, content, old => some (lineTrimmedScan content old)
  | whitespaceNormalized, content, old => some (whitespaceNormalizedScan content old)
  | indentationFlexible, content, old => some (indentationFlexibleScan content old)
  | escapeNormalized, _, _ => none
  | unicodeNormalized, content, old => some (unicodeNormalizedScan content old)
  | blockAnchor, content, old => some (blockAnchorScan content old)
  | contextAware, content, old => some (contextAwareScan ratio content old)

end Strategy

/-! ## Find and replace -/

structure FuzzyMatchError where
  message : String
  strategiesTried : List String
  nearMiss : Text
  deriving DecidableEq

/-- A suspect escape is in the old text and not in the file. -/
def detectEscapeDrift (content old : Text) : Bool :=
  [['\\', '\''], ['\\', '"']].any fun suspect =>
    decide (suspect <:+: old ∧ ¬suspect <:+: content)

/-- The window of the file that is most like the old text, or its beginning. -/
def bestWindow (content old : Text) : Text :=
  let starts := (List.range ((max 1 (content.length - 200) + 63) / 64)).map (64 * ·)
  let best := starts.foldl (fun (best : ℚ × ℕ) i =>
    let score := ratio ((content.drop i).take 200) old
    if best.1 < score then (score, i) else best) (0, 0)
  (content.drop best.2).take 200

/-- The strategies that are left, after those of `tried`. -/
def firstHit (content old new : Text) (expected : ℤ) :
    List Strategy → List String → Except FuzzyMatchError (Text × Strategy)
  | [], tried =>
    let nearMiss := if 200 < content.length then bestWindow ratio content old else []
    .error ⟨"no strategy could place the patch", tried,
      if nearMiss ≠ [] then nearMiss else content.take 200⟩
  | s :: rest, tried =>
    match s.apply ratio content old new with
    | none => firstHit content old new expected rest (tried ++ [s.name])
    | some (newContent, count) =>
      if count ≠ expected then
        .error ⟨"expected " ++ toString expected ++ " match(es), found " ++ toString count ++
          " (strategy '" ++ s.name ++ "'). Provide more context in old_str to disambiguate.",
          tried ++ [s.name], old.take 200⟩
      else .ok (newContent, s)

def fuzzyFindAndReplace (content old new : Text) (expected : ℤ) :
    Except FuzzyMatchError (Text × Strategy) :=
  if old = [] then .error ⟨"old_str must not be empty", [], []⟩
  else if old = new then .error ⟨"old_str and new_str are identical — no-op refused", [], []⟩
  else if detectEscapeDrift content old then
    .error ⟨"escape-drift detected: old_str carries literal \\' or \\\" sequences absent from " ++
      "the file. Likely a JSON tool-call serialisation artifact — re-emit without the spurious " ++
      "backslash.", ["escape_drift_guard"], []⟩
  else firstHit ratio content old new expected Strategy.all []

end

/-! ## The blocks that a scan finds -/

namespace Scan

/-- The block at `i` lies in the file and passes the test. -/
def Hit (s : Scan) (i : ℕ) : Prop :=
  i + s.size ≤ s.lines.length ∧ s.test (s.block i) = true

/-- No two blocks that pass the test overlap. -/
def NoOverlap (s : Scan) : Prop :=
  ∀ i j, i < j → s.Hit i → s.Hit j → i + s.size ≤ j

variable {s : Scan} {found : List (ℕ × ℕ)}

theorem size_pos (h : s.found = some found) : 0 < s.size := by
  rw [Scan.found] at h
  split_ifs at h
  omega

theorem ne_nil_of_found (h : s.found = some found) : found ≠ [] := by
  rw [Scan.found] at h
  split_ifs at h with hsize
  simp only [Option.ite_none_left_eq_some, Option.some.injEq] at h
  obtain ⟨hne, rfl⟩ := h
  simpa using hne

theorem mem_found (h : s.found = some found) {r : ℕ × ℕ} :
    r ∈ found ↔ s.Hit r.1 ∧ r.2 = r.1 + s.size := by
  rw [Scan.found] at h
  split_ifs at h with hsize
  simp only [Option.ite_none_left_eq_some, Option.some.injEq] at h
  obtain ⟨-, rfl⟩ := h
  obtain ⟨i, j⟩ := r
  simp only [List.mem_map, List.mem_filter, List.mem_range, Prod.mk.injEq, Hit]
  constructor
  · rintro ⟨i, ⟨hi, htest⟩, rfl, rfl⟩
    exact ⟨⟨by omega, htest⟩, rfl⟩
  · rintro ⟨⟨hi, htest⟩, rfl⟩
    exact ⟨i, ⟨by omega, htest⟩, rfl, rfl⟩

theorem pairwise_found (h : s.found = some found) : found.Pairwise fun a b => a.1 < b.1 := by
  rw [Scan.found] at h
  split_ifs at h with hsize
  simp only [Option.ite_none_left_eq_some, Option.some.injEq] at h
  obtain ⟨-, rfl⟩ := h
  exact List.pairwise_map.2 (List.pairwise_lt_range.filter _)

/-- The sort puts the last block first. -/
theorem insertionSort_found (h : s.found = some found) :
    (found.insertionSort fun a b => b.1 ≤ a.1) = found.reverse := by
  have hperm := (List.perm_insertionSort (fun a b : ℕ × ℕ => b.1 ≤ a.1) found).trans
    (List.reverse_perm found).symm
  have hsorted : (found.insertionSort fun a b => b.1 ≤ a.1).Pairwise fun a b => b.1 ≤ a.1 :=
    List.pairwise_insertionSort _ found
  have hreverse : found.reverse.Pairwise fun a b => b.1 ≤ a.1 :=
    List.pairwise_reverse.2 ((pairwise_found h).imp le_of_lt)
  refine hperm.eq_of_pairwise (fun a b ha hb hab hba => ?_) hsorted hreverse
  have ha' := ((mem_found h).1 ((List.mem_insertionSort _).1 ha)).2
  have hb' := ((mem_found h).1 (List.mem_reverse.1 hb)).2
  exact Prod.ext (by omega) (by omega)

theorem apart_found (h : s.found = some found) (hs : s.NoOverlap) :
    Apart s.lines.length found := by
  refine ⟨fun r hr => ?_, ?_⟩
  · obtain ⟨⟨hle, -⟩, hr⟩ := (mem_found h).1 hr
    omega
  · refine (pairwise_found h).imp_of_mem fun {a b} ha hb hab => ?_
    obtain ⟨hhit, hstop⟩ := (mem_found h).1 ha
    have := hs a.1 b.1 hab hhit ((mem_found h).1 hb).1
    omega

/-- Ranges of blocks that stand apart, as many as there are blocks, are all of them. -/
theorem eq_found (h : s.found = some found) {rs : List (ℕ × ℕ)}
    (hmem : ∀ r ∈ rs, r ∈ found) (hrs : Apart s.lines.length rs)
    (hlen : rs.length = found.length) : rs = found := by
  have hpos := size_pos h
  have hlt : rs.Pairwise fun a b => a.1 < b.1 := by
    refine hrs.pairwise.imp_of_mem fun {a b} ha _ hab => ?_
    have := ((mem_found h).1 (hmem a ha)).2
    omega
  have hnodup : rs.Nodup := hlt.imp fun hab heq => by rw [heq] at hab; omega
  have hperm : rs.Perm found := (List.subperm_of_subset hnodup hmem).perm_of_length_le hlen.ge
  exact hperm.eq_of_pairwise (fun a b _ _ hab hba => by omega) hlt (pairwise_found h)

theorem noOverlap_of_apart (h : s.found = some found) (hfound : Apart s.lines.length found) :
    s.NoOverlap := by
  intro i j hij hi hj
  have hmemi : (i, i + s.size) ∈ found := (mem_found h).2 ⟨hi, rfl⟩
  have hmemj : (j, j + s.size) ∈ found := (mem_found h).2 ⟨hj, rfl⟩
  have hpos := size_pos h
  by_contra hlt
  have hdisjoint : found.Pairwise fun a b => a.2 ≤ b.1 ∨ b.2 ≤ a.1 :=
    hfound.pairwise.imp Or.inl
  have hne : (i, i + s.size) ≠ (j, j + s.size) := fun heq => hij.ne (Prod.mk.inj heq).1
  have hsymm : Std.Symm fun a b : ℕ × ℕ => a.2 ≤ b.1 ∨ b.2 ≤ a.1 := ⟨fun _ _ => Or.symm⟩
  have := hdisjoint.forall hmemi hmemj hne
  omega

end Scan

/-! ## The lines of the file -/

/-- Replacing one character is replacing it wherever it stands. -/
theorem replaceAll_singleton (c : Char) (new text : Text) :
    Holes.replaceAll [c] new text = text.flatMap fun x => if x = c then new else [x] := by
  induction text with
  | nil => rfl
  | cons x text ih =>
    have hbegins : [c] <+: x :: text ↔ x = c := by
      rw [List.cons_prefix_cons]
      simp [eq_comm]
    rw [Holes.replaceAll] at ih ⊢
    rw [Holes.replaceFrom, List.flatMap_cons, ← ih]
    split_ifs <;> simp_all

theorem count_replaceAll {c sep : Char} {new : Text} (hc : c ≠ sep) (hnew : sep ∉ new)
    (text : Text) : (Holes.replaceAll [c] new text).count sep = text.count sep := by
  rw [replaceAll_singleton]
  induction text with
  | nil => rfl
  | cons x text ih =>
    rw [List.flatMap_cons, List.count_append, ih, List.count_cons]
    by_cases hx : x = c
    · rw [if_pos hx, List.count_eq_zero_of_not_mem hnew, hx]
      simp [hc]
    · rw [if_neg hx, List.count_singleton, Nat.add_comm]

/-- The map changes characters within a line, it never adds or removes a line break. -/
theorem count_unicodeNormalize (text : Text) :
    (unicodeNormalize text).count '\n' = text.count '\n' := by
  have hmap : ∀ e ∈ unicodeMap, e.1 ≠ '\n' ∧ '\n' ∉ e.2 := by
    simp [unicodeMap]
  have hfold : ∀ entries : List (Char × Text), (∀ e ∈ entries, e.1 ≠ '\n' ∧ '\n' ∉ e.2) →
      ∀ out : Text, (entries.foldl (fun out e => Holes.replaceAll [e.1] e.2 out) out).count '\n'
        = out.count '\n' := by
    intro entries hentries
    induction entries with
    | nil => exact fun _ => rfl
    | cons e entries ih =>
      intro out
      obtain ⟨hc, hnew⟩ := hentries e List.mem_cons_self
      rw [List.foldl_cons, ih fun e' he' => hentries e' (List.mem_cons_of_mem e he'),
        count_replaceAll hc hnew]
  exact hfold unicodeMap hmap text

/-- A scan has a line for each line of the file. -/
theorem length_scan_lines {ratio : Text → Text → ℚ} {strategy : Strategy} {content old : Text}
    {s : Scan} (h : strategy.scan ratio content old = some s) :
    s.lines.length = (splitLines content).length := by
  cases strategy with
  | exact | escapeNormalized => exact absurd h (by simp [Strategy.scan])
  | lineTrimmed | indentationFlexible | whitespaceNormalized =>
    rw [← Option.some.inj h]
    exact List.length_map _
  | unicodeNormalized =>
    rw [← Option.some.inj h]
    simp only [unicodeNormalizedScan, splitLines, Lines.length_splitOn, count_unicodeNormalize]
  | blockAnchor | contextAware =>
    rw [← Option.some.inj h]
    rfl

/-- A strategy that goes by lines and hits returns what its scan makes of the file. -/
theorem replace_of_apply {ratio : Text → Text → ℚ} {strategy : Strategy}
    {content old new : Text} {s : Scan} {result : Text × ℕ}
    (hs : strategy.scan ratio content old = some s)
    (h : strategy.apply ratio content old new = some result) :
    s.replace content new = some result := by
  cases strategy with
  | exact | escapeNormalized => exact absurd hs (by simp [Strategy.scan])
  | lineTrimmed | indentationFlexible | contextAware =>
    rw [← Option.some.inj hs]
    exact h
  | whitespaceNormalized =>
    rw [← Option.some.inj hs]
    simp only [Strategy.apply, whitespaceNormalized] at h
    split_ifs at h
    exact h
  | unicodeNormalized =>
    rw [← Option.some.inj hs]
    simp only [Strategy.apply, unicodeNormalized] at h
    split_ifs at h
    exact h
  | blockAnchor =>
    rw [← Option.some.inj hs]
    simp only [Strategy.apply, blockAnchor] at h
    split_ifs at h
    exact h

/-- What comes out came from one strategy, with as many matches as expected. -/
theorem apply_of_ok {ratio : Text → Text → ℚ} {content old new result : Text} {expected : ℤ}
    {strategy : Strategy}
    (h : fuzzyFindAndReplace ratio content old new expected = .ok (result, strategy)) :
    ∃ count : ℕ, strategy.apply ratio content old new = some (result, count) ∧
      (count : ℤ) = expected := by
  have hfirst : ∀ (rest : List Strategy) (tried : List String),
      firstHit ratio content old new expected rest tried = .ok (result, strategy) →
      ∃ count : ℕ, strategy.apply ratio content old new = some (result, count) ∧
        (count : ℤ) = expected := by
    intro rest
    induction rest with
    | nil => exact fun _ hfirst => nomatch hfirst
    | cons s rest ih =>
      intro tried hfirst
      rw [firstHit] at hfirst
      split at hfirst
      · exact ih _ hfirst
      · rename_i newContent count happly
        split_ifs at hfirst with hcount
        cases hfirst
        exact ⟨count, happly, not_not.1 hcount⟩
  rw [fuzzyFindAndReplace] at h
  split_ifs at h
  exact hfirst _ _ h

/-- Two line breaks of different lengths join lines to the same text only if there is at most one
line. -/
theorem intercalate_crlf_iff (lines : List Text) :
    ['\r', '\n'].intercalate lines = unlines lines ↔ lines.length ≤ 1 := by
  constructor
  · intro h
    have hlen : ∀ (sep : Text) (ls : List Text),
        (sep.intercalate ls).length = (ls.map List.length).sum + sep.length * (ls.length - 1) := by
      intro sep ls
      induction ls with
      | nil => rfl
      | cons line ls ih =>
        cases ls with
        | nil => simp
        | cons next ls =>
          rw [List.intercalate_cons_of_ne_nil (List.cons_ne_nil next ls), List.length_append,
            List.length_append, ih]
          simp only [List.map_cons, List.sum_cons, List.length_cons, Nat.add_sub_cancel]
          ring
    have := congrArg List.length h
    rw [unlines, hlen, hlen] at this
    simp only [List.length_cons, List.length_nil] at this
    omega
  · intro h
    rcases lines with _ | ⟨line, _ | ⟨next, rest⟩⟩
    · rfl
    · simp [unlines]
    · simp at h

/-! ## The edited file -/

/-- The result is the file with `expected` of the blocks, which stand apart, replaced by the new
text, and every other line as it was. -/
def Scan.Replaces (s : Scan) (content new : Text) (expected : ℤ) (result : Text) : Prop :=
  ∃ ranges : List (ℕ × ℕ), (ranges.length : ℤ) = expected ∧
    (∀ r ∈ ranges, s.Hit r.1 ∧ r.2 = r.1 + s.size) ∧
    Apart (splitLines content).length ranges ∧
    result = unlines (replaceRanges (splitLines new) (splitLines content) 0 ranges)

/-- The blocks that stand apart are all replaced at once. -/
theorem spliceLines_found {s : Scan} {found : List (ℕ × ℕ)} {content : Text} (new : Text)
    (h : s.found = some found) (hapart : Apart (splitLines content).length found) :
    spliceLines content (splitLines content) found new
      = (newlineOf content).intercalate
          (replaceRanges (splitLines new) (splitLines content) 0 found) := by
  have hfold := foldr_splice (splitLines new) (splitLines content) hapart
    (fun r _ => Nat.zero_le r.1) (Nat.zero_le _)
  rw [List.take_zero, List.nil_append] at hfold
  rw [spliceLines, s.insertionSort_found h, List.foldl_reverse, ← hfold]

/-- A file of which one block is left, of one line. -/
theorem length_replaceRanges_found {s : Scan} {found : List (ℕ × ℕ)} {content new : Text}
    (h : s.found = some found) (hlen : s.lines.length = (splitLines content).length)
    (hapart : Apart (splitLines content).length found) :
    (replaceRanges (splitLines new) (splitLines content) 0 found).length ≤ 1 ↔
      s.size = (splitLines content).length ∧ '\n' ∉ new := by
  have hone : (splitLines new).length = 1 ↔ '\n' ∉ new := by
    rw [Lines.length_splitOn, Nat.succ_inj, List.count_eq_zero]
  obtain ⟨r, rs, rfl⟩ := List.exists_cons_of_ne_nil (s.ne_nil_of_found h)
  obtain ⟨⟨hle, -⟩, hstop⟩ := (s.mem_found h).1 List.mem_cons_self
  constructor
  · intro hshort
    obtain ⟨hnew, -, hall, hzero⟩ :=
      length_replaceRanges_cons (List.splitOn_ne_nil '\n' new) hshort
    have hpos := s.size_pos h
    exact ⟨by omega, hone.1 hnew⟩
  · rintro ⟨hsize, hnew⟩
    have hrs : rs = [] := by
      refine List.eq_nil_iff_forall_not_mem.2 fun t ht => ?_
      have hbefore := (List.pairwise_cons.1 hapart.pairwise).1 t ht
      obtain ⟨⟨hle', -⟩, -⟩ := (s.mem_found h).1 (List.mem_cons_of_mem r ht)
      have hpos := s.size_pos h
      omega
    rw [hrs, replaceRanges, replaceRanges, List.length_append, List.length_append, hone.2 hnew,
      List.length_drop, List.length_drop, List.length_take]
    omega

/-- An edit that goes by lines replaces the blocks it found, and leaves every other line with its
line break, exactly when no two of these blocks overlap, and the file has no `\r\n` unless it is
one block that becomes one line. -/
theorem fuzzyFindAndReplace_replaces_iff {ratio : Text → Text → ℚ} {content old new result : Text}
    {expected : ℤ} {strategy : Strategy} {s : Scan}
    (hs : strategy.scan ratio content old = some s)
    (h : fuzzyFindAndReplace ratio content old new expected = .ok (result, strategy)) :
    s.Replaces content new expected result ↔
      s.NoOverlap ∧ (¬['\r', '\n'] <:+: content ∨
        s.size = (splitLines content).length ∧ '\n' ∉ new) := by
  obtain ⟨count, happly, rfl⟩ := apply_of_ok h
  have hreplace := replace_of_apply hs happly
  obtain ⟨found, hfound, heq⟩ := Option.map_eq_some_iff.1 hreplace
  obtain ⟨hresult, rfl⟩ := Prod.mk.inj heq
  have hlen := length_scan_lines hs
  have hcrlf : '\n' ∈ content ∨ ¬['\r', '\n'] <:+: content :=
    or_iff_not_imp_right.2 fun hin => (not_not.1 hin).subset (by simp)
  -- joined by the line break that the file is said to have, against joined by `\n`
  have hjoin : Apart (splitLines content).length found → (result
      = unlines (replaceRanges (splitLines new) (splitLines content) 0 found) ↔
        ¬['\r', '\n'] <:+: content ∨ s.size = (splitLines content).length ∧ '\n' ∉ new) := by
    intro hapart
    rw [← length_replaceRanges_found hfound hlen hapart, ← intercalate_crlf_iff, ← hresult,
      spliceLines_found new hfound hapart, newlineOf]
    split_ifs with hnl
    · exact ⟨Or.inr, fun hor => hor.resolve_left (not_not.2 hnl.1)⟩
    · have hno : ¬['\r', '\n'] <:+: content := by tauto
      exact ⟨fun _ => .inl hno, fun _ => rfl⟩
  constructor
  · rintro ⟨ranges, hcount, hhits, hapart, htext⟩
    rw [← hlen] at hapart
    obtain rfl := s.eq_found hfound (fun r hr => (s.mem_found hfound).2 (hhits r hr)) hapart
      (Nat.cast_inj.1 hcount)
    exact ⟨s.noOverlap_of_apart hfound hapart, (hjoin (hlen ▸ hapart)).1 htext⟩
  · rintro ⟨hover, hor⟩
    have hapart := hlen ▸ s.apart_found hfound hover
    exact ⟨found, rfl, fun r hr => (s.mem_found hfound).1 hr, hapart, (hjoin hapart).2 hor⟩

/-- A trailing blank in the old text, and a file of two lines. -/
theorem fuzzyFindAndReplace_replaces_iff_trailing_blank :
    (lineTrimmedScan "a\nb\n".toList "b ".toList).Replaces "a\nb\n".toList "c".toList 1
        "a\nc\n".toList ↔
      (lineTrimmedScan "a\nb\n".toList "b ".toList).NoOverlap ∧
        (¬['\r', '\n'] <:+: "a\nb\n".toList ∨
          (lineTrimmedScan "a\nb\n".toList "b ".toList).size
              = (splitLines "a\nb\n".toList).length ∧ '\n' ∉ "c".toList) := by
  have h : fuzzyFindAndReplace (fun _ _ => 0) "a\nb\n".toList "b ".toList "c".toList 1
      = .ok ("a\nc\n".toList, .lineTrimmed) := by
    decide +kernel
  exact fuzzyFindAndReplace_replaces_iff rfl h

/-- A file with `\r\n` line breaks gets a `\r` more on every line. -/
theorem fuzzyFindAndReplace_rewrites_crlf :
    ¬∀ (ratio : Text → Text → ℚ) (content old new result : Text) (expected : ℤ)
        (strategy : Strategy) (s : Scan), strategy.scan ratio content old = some s →
      fuzzyFindAndReplace ratio content old new expected = .ok (result, strategy) →
      ∃ ranges : List (ℕ × ℕ), (ranges.length : ℤ) = expected ∧
        Apart (splitLines content).length ranges ∧
        result = unlines (replaceRanges (splitLines new) (splitLines content) 0 ranges) := by
  intro hall
  obtain ⟨ranges, hcount, hapart, htext⟩ := hall (fun _ _ => 0) "a\r\nb\r\n".toList "b ".toList
    "c".toList "a\r\r\nc\r\n".toList 1 .lineTrimmed _ rfl (by decide +kernel)
  have hno : ∀ i ≤ 3, ∀ j ≤ 3, "a\r\r\nc\r\n".toList
      ≠ unlines (replaceRanges (splitLines "c".toList) (splitLines "a\r\nb\r\n".toList) 0
          [(i, j)]) := by
    decide +kernel
  obtain ⟨⟨i, j⟩, rfl⟩ := List.length_eq_one_iff.1 (Nat.cast_inj.1 hcount)
  obtain ⟨hij, hj⟩ := hapart.le (i, j) List.mem_cons_self
  have hlen : (splitLines "a\r\nb\r\n".toList).length = 3 := by decide +kernel
  rw [hlen] at hj
  exact hno i (hij.trans hj) j hj htext

end OxenClaw.ToolsPkg
