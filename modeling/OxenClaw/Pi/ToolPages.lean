import Mathlib.Data.List.Forall2
import OxenClaw.Lib.JsonValue
import OxenClaw.Lib.Packing

/-!
# Pages of a tool's output

`split_large_payload` packs the items of a payload into pages of at most `page_chars`, where an
item counts for its text and one character more. Joined by line breaks the items of a page stay
one character below their count. Put between brackets they are one above it, and a page that is
filled to the last character is too long (`splitLargePayload_iff`).
-/

namespace OxenClaw

open CodePoints

inductive PageSerializer where
  | json
  | lines
  deriving DecidableEq

/-- One page of a paginated tool output. -/
structure ToolPage where
  page : ℕ
  totalPages : ℕ
  content : CodePoints
  hasMore : Bool
  deriving DecidableEq

/-- `_format`, with `json.dumps(.., ensure_ascii=False)`. -/
def formatItem (dumps : JsonValue → CodePoints) : PageSerializer → JsonValue → CodePoints
  | .lines, .str s => s
  | _, item => dumps item

/-- What an item's text counts for. -/
def itemSize (s : CodePoints) : ℕ :=
  s.length + 1

/-- The `pages` of the loop. -/
def payloadChunks (pageChars : ℤ) (texts : List CodePoints) : List (List CodePoints) :=
  Packing.pack itemSize pageChars texts

/-- The `body` of a page. -/
def pageBody : PageSerializer → List CodePoints → CodePoints
  | .lines, chunk => (lit "\n").intercalate chunk
  | .json, chunk => lit "[" ++ (lit ",").intercalate chunk ++ lit "]"

def splitLargePayload (dumps : JsonValue → CodePoints) (items : List JsonValue) (pageChars : ℤ)
    (serializer : PageSerializer) : List ToolPage :=
  if items.isEmpty then [⟨1, 1, [], false⟩]
  else
    let chunks := payloadChunks pageChars (items.map (formatItem dumps serializer))
    chunks.mapIdx fun i chunk =>
      ⟨i + 1, chunks.length, pageBody serializer chunk, i + 1 < chunks.length⟩

/-- The page is made of these texts. -/
def ToolPage.Carries (serializer : PageSerializer) (page : ToolPage) (chunk : List CodePoints) :
    Prop :=
  page.content = pageBody serializer chunk ∨ chunk = [] ∧ page.content = []

/-- The pages carry every text, in order, and those that carry more than one are within
`page_chars`. -/
structure Paginated (serializer : PageSerializer) (pageChars : ℤ) (texts : List CodePoints)
    (pages : List ToolPage) (chunks : List (List CodePoints)) : Prop where
  complete : chunks.flatten = texts
  carried : List.Forall₂ (ToolPage.Carries serializer) pages chunks
  bounded : ∀ pc ∈ pages.zip chunks, 1 < pc.2.length → (pc.1.content.length : ℤ) ≤ pageChars

/-! ## The length of a page -/

variable {chunk : List CodePoints}

theorem length_intercalate_singleton (c : ℕ) (h : chunk ≠ []) :
    ([c].intercalate chunk).length + 1 = Packing.total itemSize chunk := by
  induction chunk with
  | nil => exact absurd rfl h
  | cons s chunk ih =>
    rw [Packing.total_cons, itemSize]
    rcases chunk with _ | ⟨t, chunk⟩
    · simp [Packing.total]
    · rw [List.intercalate_cons_of_ne_nil (by simp), ← ih (by simp)]
      simp only [List.length_append, List.length_cons, List.length_nil]
      omega

theorem length_pageBody_lines (h : chunk ≠ []) :
    (pageBody .lines chunk).length + 1 = Packing.total itemSize chunk :=
  length_intercalate_singleton _ h

theorem length_pageBody_json (h : chunk ≠ []) :
    (pageBody .json chunk).length = Packing.total itemSize chunk + 1 := by
  rw [← length_intercalate_singleton 44 h]
  change (lit "[" ++ [44].intercalate chunk ++ lit "]").length = _
  simp only [List.length_append]
  change 1 + _ + 1 = _
  omega

/-- A page of a packing is too long exactly if it is put between brackets and full. -/
theorem length_pageBody_le_iff {serializer : PageSerializer} {pageChars : ℤ} (h : 1 < chunk.length)
    (hfits : (Packing.total itemSize chunk : ℤ) ≤ pageChars) :
    ((pageBody serializer chunk).length : ℤ) ≤ pageChars ↔
      serializer = .lines ∨ (Packing.total itemSize chunk : ℤ) ≠ pageChars := by
  have hne : chunk ≠ [] := List.length_pos_iff.1 (by omega)
  cases serializer with
  | lines =>
    have hlength := length_pageBody_lines hne
    simp only [true_or, iff_true]
    omega
  | json =>
    have hlength := length_pageBody_json hne
    simp only [reduceCtorEq, false_or]
    omega

/-! ## The pages -/

section Pages

variable (dumps : JsonValue → CodePoints) (items : List JsonValue) (pageChars : ℤ)
  (serializer : PageSerializer)

/-- Each page carries its chunk. -/
theorem forall₂_splitLargePayload :
    List.Forall₂ (ToolPage.Carries serializer)
      (splitLargePayload dumps items pageChars serializer)
      (payloadChunks pageChars (items.map (formatItem dumps serializer))) := by
  rw [splitLargePayload]
  split_ifs with hempty
  · rw [List.isEmpty_iff.1 hempty]
    exact List.Forall₂.cons (Or.inr ⟨rfl, rfl⟩) List.Forall₂.nil
  · refine List.forall₂_iff_get.2 ⟨by simp, fun i hi hi' => Or.inl ?_⟩
    simp

/-- A page with its chunk, where that has an item. -/
theorem content_of_mem_zip {pc : ToolPage × List CodePoints}
    (h : pc ∈ (splitLargePayload dumps items pageChars serializer).zip
      (payloadChunks pageChars (items.map (formatItem dumps serializer)))) (hne : pc.2 ≠ []) :
    pc.1.content = pageBody serializer pc.2 := by
  have hcarries := (List.forall₂_iff_zip.1
    (forall₂_splitLargePayload dumps items pageChars serializer)).2 h
  exact hcarries.resolve_right fun hnil => hne hnil.1

/-- A chunk has its page. -/
theorem exists_mem_zip {chunk : List CodePoints}
    (h : chunk ∈ payloadChunks pageChars (items.map (formatItem dumps serializer))) :
    ∃ page, (page, chunk) ∈ (splitLargePayload dumps items pageChars serializer).zip
      (payloadChunks pageChars (items.map (formatItem dumps serializer))) := by
  have hlength := (forall₂_splitLargePayload dumps items pageChars serializer).length_eq
  rw [← List.map_snd_zip hlength.ge] at h
  obtain ⟨⟨page, _⟩, hmem, rfl⟩ := List.mem_map.1 h
  exact ⟨page, hmem⟩

/-- The pages of a payload carry its items, each once and in order, and a page of more than one is
within `page_chars` unless it is put between brackets and its items, each with one character more,
come to exactly that. -/
theorem splitLargePayload_iff :
    Paginated serializer pageChars (items.map (formatItem dumps serializer))
      (splitLargePayload dumps items pageChars serializer)
      (payloadChunks pageChars (items.map (formatItem dumps serializer))) ↔
    serializer = .lines ∨ ∀ parts, Packing.Packed itemSize pageChars parts →
      parts.flatten = items.map (formatItem dumps serializer) → ∀ part ∈ parts, 1 < part.length →
        (Packing.total itemSize part : ℤ) ≠ pageChars := by
  have hflatten := Packing.flatten_pack itemSize pageChars (items.map (formatItem dumps serializer))
  constructor
  · intro h
    refine or_iff_not_imp_left.2 fun hjson parts hparts heq part hpart hlong => ?_
    have hitems : items.map (formatItem dumps serializer) ≠ [] := by
      intro hnil
      rw [hnil] at heq
      have hmem := (List.sublist_flatten_of_mem hpart).length_le
      rw [heq, List.length_nil] at hmem
      omega
    have hpacked := Packing.packed_pack itemSize pageChars hitems
    rw [hparts.unique hpacked (heq.trans hflatten.symm)] at hpart
    obtain ⟨page, hpage⟩ := exists_mem_zip dumps items pageChars serializer hpart
    have hbounded := h.bounded _ hpage hlong
    rw [content_of_mem_zip dumps items pageChars serializer hpage
      (List.length_pos_iff.1 (Nat.zero_lt_of_lt hlong)),
      length_pageBody_le_iff hlong (hpacked.fits part hpart hlong)] at hbounded
    exact hbounded.resolve_left hjson
  · intro h
    refine ⟨hflatten, forall₂_splitLargePayload dumps items pageChars serializer,
      fun pc hpc hlong => ?_⟩
    have hchunk := (List.of_mem_zip hpc).2
    have hitems : items.map (formatItem dumps serializer) ≠ [] := by
      intro hnil
      rw [hnil] at hchunk
      rw [List.mem_singleton.1 hchunk] at hlong
      exact absurd hlong (by simp)
    have hpacked := Packing.packed_pack itemSize pageChars hitems
    rw [content_of_mem_zip dumps items pageChars serializer hpc
      (List.length_pos_iff.1 (Nat.zero_lt_of_lt hlong)),
      length_pageBody_le_iff hlong (hpacked.fits _ hchunk hlong)]
    exact h.imp_right fun hnone => hnone _ hpacked hflatten _ hchunk hlong

end Pages

/-- What `json.dumps` gives for a digit. -/
def dumpsDigit : JsonValue → CodePoints
  | .int n => lit (toString n)
  | _ => []

/-- A page of two digits has five characters, for a bound of four. -/
theorem splitLargePayload_exceeds :
    ¬ Paginated .json 4 ([.int 1, .int 2].map (formatItem dumpsDigit .json))
      (splitLargePayload dumpsDigit [.int 1, .int 2] 4 .json)
      (payloadChunks 4 ([.int 1, .int 2].map (formatItem dumpsDigit .json))) := by
  intro h
  have hpage := h.bounded (⟨1, 1, lit "[1,2]", false⟩, [lit "1", lit "2"]) (by decide) (by decide)
  exact absurd hpage (by decide)

end OxenClaw
