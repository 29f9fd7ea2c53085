import OxenClaw.Memory.Chunker

/-!
# The lines a chunk cites

A chunk is good when its lines are drawn from the lines it cites (`Chunk.Cites`). The passes that
go line by line keep one invariant : what is out is good and stands above the lines that are
pending, in order (`Laid`). Two chunks that share a line come from a paragraph cut inside that
line, and the first of them is as long as allowed (`Follows`), so the merging pass never joins
them.
-/

namespace OxenClaw.Memory

open Lines Py

/-- The chunk lies in the text, and its lines are drawn from those it cites. -/
structure Chunk.Cites (source : List (List Char)) (c : Chunk) : Prop where
  one_le : 1 ≤ c.start
  start_le : c.start ≤ c.stop
  stop_le : c.stop ≤ source.length
  drawn : Drawn (c.text.splitOn '\n') (range source c.start c.stop)

/-- The chunk is a run of whole lines. -/
structure Chunk.Whole (source : List (List Char)) (c : Chunk) : Prop where
  block : Block source c.start (c.text.splitOn '\n')
  stop_eq : c.start + (c.text.splitOn '\n').length = c.stop + 1

/-- `b` stands below `a`, or starts where `a` stops and `a` is full. -/
def Follows (full : ℕ) (a b : Chunk) : Prop :=
  a.stop < b.start ∨ a.stop ≤ b.start ∧ full ≤ a.text.length

variable {source : List (List Char)}

theorem Chunk.Whole.cites {c : Chunk} (h : c.Whole source) : c.Cites source := by
  obtain ⟨hblock, hstop⟩ := h
  have hlen : (c.text.splitOn '\n').length = c.text.count '\n' + 1 := length_splitOn '\n' c.text
  have hend := hblock.le_length (List.splitOn_ne_nil '\n' c.text)
  refine ⟨hblock.1, by omega, by omega, ?_⟩
  have hrange := hblock.range_eq
  rw [show c.start + (c.text.splitOn '\n').length - 1 = c.stop by omega] at hrange
  rw [hrange]
  exact Drawn.refl _

/-! ## Chunks laid out -/

/-- The chunks stand in order on the lines from `lo` to before `hi`. -/
structure Laid (P : Chunk → Prop) (R : Chunk → Chunk → Prop) (lo hi : ℕ) (cs : List Chunk) :
    Prop where
  le : lo ≤ hi
  good : ∀ c ∈ cs, P c ∧ lo ≤ c.start ∧ c.stop < hi
  pairwise : cs.Pairwise R

/-- `b` stands below `a`. -/
abbrev Below (a b : Chunk) : Prop :=
  a.stop < b.start

theorem Below.follows (full : ℕ) {a b : Chunk} (h : Below a b) : Follows full a b :=
  Or.inl h

namespace Laid

variable {P : Chunk → Prop} {R : Chunk → Chunk → Prop} {lo mid hi : ℕ} {c : Chunk}
  {cs ds : List Chunk}

theorem nil (P : Chunk → Prop) (R : Chunk → Chunk → Prop) (h : lo ≤ hi) : Laid P R lo hi [] :=
  ⟨h, fun _ hc => absurd hc List.not_mem_nil, List.Pairwise.nil⟩

theorem append (hR : ∀ {a b}, Below a b → R a b) (hcs : Laid P R lo mid cs)
    (hds : Laid P R mid hi ds) : Laid P R lo hi (cs ++ ds) := by
  refine ⟨hcs.le.trans hds.le, fun c hc => ?_, List.pairwise_append.2
    ⟨hcs.pairwise, hds.pairwise, fun a ha b hb => ?_⟩⟩
  · rcases List.mem_append.1 hc with hc | hc
    · obtain ⟨hP, hlo, hmid⟩ := hcs.good c hc
      exact ⟨hP, hlo, hmid.trans_le hds.le⟩
    · obtain ⟨hP, hmid, hhi⟩ := hds.good c hc
      exact ⟨hP, hcs.le.trans hmid, hhi⟩
  · exact hR ((hcs.good a ha).2.2.trans_le (hds.good b hb).2.1)

theorem singleton (hP : P c) (hle : c.start ≤ c.stop) : Laid P R c.start (c.stop + 1) [c] := by
  refine ⟨by omega, fun d hd => ?_, List.pairwise_singleton R c⟩
  rw [List.mem_singleton.1 hd]
  exact ⟨hP, le_rfl, Nat.lt_succ_self _⟩

theorem mono (h : Laid P R mid hi cs) (hlo : lo ≤ mid) : Laid P R lo hi cs :=
  ⟨hlo.trans h.le, fun c hc => ⟨(h.good c hc).1, hlo.trans (h.good c hc).2.1, (h.good c hc).2.2⟩,
    h.pairwise⟩

theorem extend (h : Laid P R lo mid cs) (hhi : mid ≤ hi) : Laid P R lo hi cs :=
  ⟨h.le.trans hhi, fun c hc => ⟨(h.good c hc).1, (h.good c hc).2.1,
    (h.good c hc).2.2.trans_le hhi⟩, h.pairwise⟩

/-- The first chunk, and the others from the line after it on. -/
theorem uncons (h : Laid P Below lo hi (c :: cs)) :
    P c ∧ lo ≤ c.start ∧ Laid P Below (c.stop + 1) hi cs := by
  obtain ⟨hP, hlo, hstop⟩ := h.good c List.mem_cons_self
  obtain ⟨hbelow, hpairwise⟩ := List.pairwise_cons.1 h.pairwise
  refine ⟨hP, hlo, hstop, fun d hd => ?_, hpairwise⟩
  obtain ⟨hd', -, hdstop⟩ := h.good d (List.mem_cons_of_mem c hd)
  exact ⟨hd', hbelow d hd, hdstop⟩

end Laid

/-- The chunks that are out, and the lines that are pending from line `start` to before `hi`. -/
structure Packing (source : List (List Char)) (P : Chunk → Prop) (R : Chunk → Chunk → Prop)
    (lo hi : ℕ) (out : List Chunk) (start : ℕ) (pending : List (List Char)) : Prop where
  laid : Laid P R lo start out
  block : Block source start pending
  end_eq : start + pending.length = hi

theorem splitOn_unlines (hsource : ∀ line ∈ source, '\n' ∉ line) {n : ℕ}
    {lines : List (List Char)} (hlines : Block source n lines) (hne : lines ≠ []) :
    (unlines lines).splitOn '\n' = lines :=
  List.splitOn_intercalate '\n' (fun _ h => hsource _ (hlines.mem h)) hne

theorem whole_unlines (hsource : ∀ line ∈ source, '\n' ∉ line) {n stop : ℕ}
    {lines : List (List Char)} (hlines : Block source n lines) (hne : lines ≠ [])
    (hstop : n + lines.length = stop + 1) : Chunk.Whole source ⟨n, stop, unlines lines⟩ := by
  have hsplit := splitOn_unlines hsource hlines hne
  constructor
  · rwa [hsplit]
  · rwa [hsplit]

/-! ## Sections -/

theorem SectionLoop.laid_flush (hsource : ∀ line ∈ source, '\n' ∉ line) {loop : SectionLoop}
    {lo hi endLine : ℕ} {rest : List (List Char)}
    (h : Packing source (Chunk.Whole source) Below lo hi loop.sections loop.currentStart
      (loop.buf ++ rest)) (hend : loop.currentStart + loop.buf.length = endLine + 1) :
    Laid (Chunk.Whole source) Below lo (endLine + 1) (loop.flush endLine) := by
  rw [SectionLoop.flush]
  split_ifs with hbuf
  · exact h.laid.extend (by omega)
  · have hwhole := whole_unlines hsource h.block.left hbuf hend
    have hpos := List.length_pos_iff.2 hbuf
    exact h.laid.append id (Laid.singleton hwhole (by dsimp only; omega))

/-- The loop of `_split_by_headings` before the line `idx`, the first of `rest`. -/
structure SectionLoop.Packs (source : List (List Char)) (hi idx : ℕ) (rest : List (List Char))
    (loop : SectionLoop) : Prop where
  packing : Packing source (Chunk.Whole source) Below 1 hi loop.sections loop.currentStart
    (loop.buf ++ rest)
  idx_eq : loop.currentStart + loop.buf.length = idx

theorem SectionLoop.Packs.heading (hsource : ∀ line ∈ source, '\n' ∉ line) {loop : SectionLoop}
    {hi idx : ℕ} {rest : List (List Char)} (h : loop.Packs source hi idx rest) (level : ℕ) :
    (loop.heading idx level).Packs source hi idx rest := by
  obtain ⟨hpacking, hidx⟩ := h
  have hone : 1 ≤ loop.currentStart := hpacking.block.1
  rw [SectionLoop.heading]
  split_ifs with hopen hbuf
  · have hend : loop.currentStart + loop.buf.length = idx - 1 + 1 := by omega
    have hlaid := loop.laid_flush hsource hpacking hend
    have hright := hpacking.block.right
    have hhi := hpacking.end_eq
    rw [Nat.sub_add_cancel (by omega)] at hlaid
    rw [hidx] at hright
    rw [List.length_append] at hhi
    exact ⟨⟨hlaid, hright, by dsimp only; simp; omega⟩, rfl⟩
  · rw [hbuf, List.length_nil, Nat.add_zero] at hidx
    subst hidx
    exact ⟨hpacking, by simp [hbuf]⟩
  · exact ⟨hpacking, hidx⟩

theorem SectionLoop.Packs.step (hsource : ∀ line ∈ source, '\n' ∉ line) {loop : SectionLoop}
    {hi idx : ℕ} {line : List Char} {rest : List (List Char)}
    (h : loop.Packs source hi idx (line :: rest)) :
    (loop.step (line, idx)).Packs source hi (idx + 1) rest := by
  have hkeep : ∀ kept : SectionLoop, kept.Packs source hi idx (line :: rest) →
      { kept with buf := kept.buf ++ [line] }.Packs source hi (idx + 1) rest := by
    rintro kept ⟨hpacking, hidx⟩
    refine ⟨?_, ?_⟩
    · rwa [List.append_assoc]
    · simp [← hidx, Nat.add_assoc]
  rw [SectionLoop.step]
  cases headingLevel line with
  | none => exact hkeep loop h
  | some level => exact hkeep _ (h.heading hsource level)

/-- The sections are runs of whole lines, in order. -/
theorem laid_splitByHeadings (hsource : ∀ line ∈ source, '\n' ∉ line) :
    Laid (Chunk.Whole source) Below 1 (source.length + 1) (splitByHeadings source) := by
  have hstart : SectionLoop.Packs source (source.length + 1) 1 source {} :=
    ⟨⟨Laid.nil _ _ le_rfl, ⟨le_rfl, List.prefix_rfl⟩, Nat.add_comm 1 _⟩, rfl⟩
  have hend := foldl_zipIdx_remaining
    (I := fun loop idx rest => SectionLoop.Packs source (source.length + 1) idx rest loop)
    (fun loop idx line rest h => h.step hsource) hstart
  rw [splitByHeadings]
  exact SectionLoop.laid_flush hsource hend.packing (hend.idx_eq.trans (Nat.add_comm 1 _))

/-! ## Paragraphs -/

/-- The pieces of a text whose lines are the ends of a block. -/
theorem laid_hardSplit (maxChars : ℕ) (text : List Char) (n : ℕ) :
    ∀ block : List (List Char), Block source n block →
      List.Forall₂ (· <:+ ·) (text.splitOn '\n') block →
      Laid (Chunk.Cites source) (Follows maxChars) n (n + block.length)
        (hardSplit maxChars text n) := by
  fun_induction hardSplit maxChars text n with
  | case2 text n h => exact fun _ _ _ => Laid.nil _ _ (Nat.le_add_right n _)
  | case1 text n h piece pieceEndLine ih =>
    intro block hblock htext
    have hcut : piece ++ text.drop maxChars = text := List.take_append_drop maxChars text
    rw [← hcut] at htext
    obtain ⟨hpiece, hrest⟩ := forall₂_suffix_append htext
    have hlen : block.length = (piece ++ text.drop maxChars).count '\n' + 1 := by
      rw [← htext.length_eq, length_splitOn]
    rw [List.count_append] at hlen
    have hfirst : Block source n (block.take (piece.count '\n' + 1)) := by
      rw [← List.take_append_drop (piece.count '\n' + 1) block] at hblock
      exact hblock.left
    have hothers : Block source pieceEndLine (block.drop (piece.count '\n')) := by
      rw [← List.take_append_drop (piece.count '\n') block] at hblock
      have hright := hblock.right
      rwa [List.length_take, Nat.min_eq_left (by omega)] at hright
    have hlaid := ih _ hothers hrest
    have hend : pieceEndLine + (block.drop (piece.count '\n')).length = n + block.length := by
      rw [List.length_drop]
      omega
    rw [hend] at hlaid
    have hbottom := hblock.le_length (List.ne_nil_of_length_pos (by omega))
    have hcites : Chunk.Cites source ⟨n, pieceEndLine, piece⟩ := by
      have hrange := hfirst.range_eq
      rw [List.length_take, Nat.min_eq_left (by omega), Nat.add_succ_sub_one] at hrange
      refine ⟨hblock.1, Nat.le_add_right n _, by dsimp only; omega, ?_⟩
      dsimp only
      rw [hrange]
      exact Drawn.of_forall₂ hpiece
    refine ⟨hlaid.le.trans' (Nat.le_add_right n _), fun c hc => ?_,
      List.pairwise_cons.2 ⟨fun c hc => ?_, hlaid.pairwise⟩⟩
    · rcases List.mem_cons.1 hc with rfl | hc
      · exact ⟨hcites, le_rfl, by dsimp only; omega⟩
      · obtain ⟨hc', hlo, hhi⟩ := hlaid.good c hc
        exact ⟨hc', le_trans (Nat.le_add_right n _) hlo, hhi⟩
    -- a piece that others follow is full
    · refine Or.inr ⟨(hlaid.good c hc).2.1, ?_⟩
      have hmore : text.drop maxChars ≠ [] := by
        intro hnil
        rw [hnil, hardSplit] at hc
        simp at hc
      have hlong := List.length_pos_iff.2 hmore
      rw [List.length_drop] at hlong
      rw [List.length_take]
      omega

theorem forall₂_suffix_refl (lines : List (List Char)) : List.Forall₂ (· <:+ ·) lines lines :=
  List.forall₂_same.2 fun line _ => List.suffix_refl line

theorem ParaLoop.laid_flush (hsource : ∀ line ∈ source, '\n' ∉ line) {maxChars : ℕ}
    {loop : ParaLoop} {lo hi endLine : ℕ} {rest : List (List Char)}
    (h : Packing source (Chunk.Cites source) (Follows maxChars) lo hi loop.out loop.paraStart
      (loop.paraLines ++ rest)) (hend : loop.paraStart + loop.paraLines.length = endLine + 1) :
    Laid (Chunk.Cites source) (Follows maxChars) lo (endLine + 1)
      (loop.flush maxChars endLine) := by
  have hblock := h.block.left
  rw [ParaLoop.flush]
  split_ifs with hlines
  · exact h.laid.extend (by omega)
  dsimp only
  split_ifs
  · have hcites := (whole_unlines hsource hblock hlines hend).cites
    exact h.laid.append (Below.follows maxChars) (Laid.singleton hcites hcites.start_le)
  · have hsplit := splitOn_unlines hsource hblock hlines
    have hpieces := laid_hardSplit maxChars (unlines loop.paraLines) loop.paraStart _ hblock
      (by rw [hsplit]; exact forall₂_suffix_refl _)
    rw [hend] at hpieces
    exact h.laid.append (Below.follows maxChars) hpieces

/-- The loop of `_split_oversize` before the line `idx`, the first of `rest`. -/
structure ParaLoop.Packs (source : List (List Char)) (maxChars lo hi idx : ℕ)
    (rest : List (List Char)) (loop : ParaLoop) : Prop where
  packing : Packing source (Chunk.Cites source) (Follows maxChars) lo hi loop.out loop.paraStart
    (loop.paraLines ++ rest)
  idx_eq : loop.paraStart + loop.paraLines.length = idx

theorem ParaLoop.Packs.step (hsource : ∀ line ∈ source, '\n' ∉ line) {maxChars lo hi idx : ℕ}
    {loop : ParaLoop} {line : List Char} {rest : List (List Char)}
    (h : loop.Packs source maxChars lo hi idx (line :: rest)) :
    (loop.step maxChars (line, idx)).Packs source maxChars lo hi (idx + 1) rest := by
  obtain ⟨hpacking, hidx⟩ := h
  rw [ParaLoop.step]
  split_ifs
  · have hone : 1 ≤ loop.paraStart := hpacking.block.1
    have hidx' : loop.paraStart + loop.paraLines.length = idx - 1 + 1 := by omega
    have hlaid := loop.laid_flush hsource hpacking hidx'
    have hright := Block.right (a := loop.paraLines ++ [line]) (b := rest)
      (by simpa using hpacking.block)
    have hhi := hpacking.end_eq
    rw [Nat.sub_add_cancel (by omega)] at hlaid
    rw [List.length_append, List.length_singleton, ← Nat.add_assoc, hidx] at hright
    rw [List.length_append, List.length_cons] at hhi
    exact ⟨⟨hlaid.extend (Nat.le_succ idx), hright, by dsimp only; simp; omega⟩, rfl⟩
  · refine ⟨?_, ?_⟩
    · rwa [List.append_assoc]
    · simp [← hidx, Nat.add_assoc]

/-- The parts of a section are in order, on its lines. -/
theorem laid_splitOversize (hsource : ∀ line ∈ source, '\n' ∉ line) (maxChars : ℕ) {c : Chunk}
    (hc : c.Whole source) :
    Laid (Chunk.Cites source) (Follows maxChars) c.start (c.stop + 1)
      (splitOversize c.text c.start maxChars) := by
  obtain ⟨hblock, hstop⟩ := hc
  have hstart : ParaLoop.Packs source maxChars c.start (c.stop + 1) c.start
      (c.text.splitOn '\n') { paraStart := c.start } :=
    ⟨⟨Laid.nil _ _ le_rfl, hblock, hstop⟩, rfl⟩
  have hend := foldl_zipIdx_remaining
    (I := fun loop idx rest => ParaLoop.Packs source maxChars c.start (c.stop + 1) idx rest loop)
    (fun loop idx line rest h => h.step hsource) hstart
  rw [splitOversize, hstop, Nat.add_sub_cancel]
  exact ParaLoop.laid_flush hsource hend.packing (hend.idx_eq.trans hstop)

theorem laid_sized (hsource : ∀ line ∈ source, '\n' ∉ line) (maxChars : ℕ) {c : Chunk}
    (hc : c.Whole source) :
    Laid (Chunk.Cites source) (Follows maxChars) c.start (c.stop + 1) (sized maxChars c) := by
  rw [sized]
  split_ifs
  · exact Laid.singleton hc.cites hc.cites.start_le
  · exact laid_splitOversize hsource maxChars hc

theorem laid_flatMap_sized (hsource : ∀ line ∈ source, '\n' ∉ line) (maxChars : ℕ)
    {sections : List Chunk} {lo hi : ℕ} (h : Laid (Chunk.Whole source) Below lo hi sections) :
    Laid (Chunk.Cites source) (Follows maxChars) lo hi (sections.flatMap (sized maxChars)) := by
  induction sections generalizing lo with
  | nil => exact Laid.nil _ _ h.le
  | cons c sections ih =>
    obtain ⟨hc, hlo, hrest⟩ := h.uncons
    exact ((laid_sized hsource maxChars hc).mono hlo).append (Below.follows maxChars) (ih hrest)

/-! ## Merging -/

/-- The chunks cite the text, each after the one before it. -/
structure Citing (source : List (List Char)) (full : ℕ) (cs : List Chunk) : Prop where
  cites : ∀ c ∈ cs, c.Cites source
  follows : cs.Pairwise (Follows full)

/-- Two chunks, the second below the first, as one. -/
theorem Chunk.Cites.merge {a b : Chunk} (ha : a.Cites source) (hb : b.Cites source)
    (hbelow : Below a b) : Chunk.Cites source ⟨a.start, b.stop, a.text ++ '\n' :: b.text⟩ := by
  have hale := ha.start_le
  have hble := hb.start_le
  have hbelow' : a.stop < b.start := hbelow
  refine ⟨ha.one_le, by dsimp only; omega, hb.stop_le, ?_⟩
  dsimp only
  rw [List.splitOn_append_cons_self]
  exact (ha.drawn.append hb.drawn).mono
    (range_append_sublist (by omega) ha.stop_le hbelow hb.start_le)

theorem Citing.mergeStep {full : ℕ} {merged rest : List Chunk} {sec : Chunk}
    (h : Citing source full (merged ++ sec :: rest)) :
    Citing source full (mergeStep full merged sec ++ rest) := by
  have hkeep : Citing source full ((merged ++ [sec]) ++ rest) := by simpa using h
  rw [Memory.mergeStep]
  cases hlast : merged.getLast? with
  | none => exact hkeep
  | some prev =>
    dsimp only
    split_ifs with hshort
    swap
    · exact hkeep
    have hmerged : merged.dropLast ++ [prev] = merged := List.dropLast_append_getLast? prev hlast
    obtain ⟨hcites, hfollows⟩ := h
    rw [← hmerged, List.append_assoc, List.singleton_append] at hcites hfollows
    generalize merged.dropLast = init at hcites hfollows ⊢
    obtain ⟨hinit, htail, hacross⟩ := List.pairwise_append.1 hfollows
    obtain ⟨hprev, htail⟩ := List.pairwise_cons.1 htail
    obtain ⟨hsec, hrest⟩ := List.pairwise_cons.1 htail
    -- `prev` is too short to be full, so `sec` stands below it
    have hbelow : Below prev sec :=
      (hprev sec List.mem_cons_self).resolve_right fun h => absurd h.2 (by omega)
    have hmerge : Chunk.Cites source ⟨prev.start, sec.stop, prev.text ++ '\n' :: sec.text⟩ :=
      Chunk.Cites.merge (hcites prev (by simp)) (hcites sec (by simp)) hbelow
    rw [List.append_assoc, List.singleton_append]
    constructor
    · intro c hc
      rcases List.mem_append.1 hc with hc | hc
      · exact hcites c (List.mem_append_left _ hc)
      · rcases List.mem_cons.1 hc with rfl | hc
        · exact hmerge
        · exact hcites c (by simp [hc])
    · refine List.pairwise_append.2 ⟨hinit, List.pairwise_cons.2 ⟨fun b hb => ?_, hrest⟩,
        fun a ha b hb => ?_⟩
      · rcases hsec b hb with hlt | ⟨hle, hfull⟩
        · exact Or.inl hlt
        · exact Or.inr ⟨hle, by dsimp only; rw [List.length_append, List.length_cons]; omega⟩
      · rcases List.mem_cons.1 hb with rfl | hb
        · exact hacross a ha prev List.mem_cons_self
        · exact hacross a ha b (by simp [hb])

theorem Citing.mergeSmall {full : ℕ} {sections : List Chunk} (h : Citing source full sections) :
    Citing source full (mergeSmall sections full) := by
  have hrun : Citing source full (sections.foldl (Memory.mergeStep full) [] ++ []) :=
    foldl_remaining (I := fun merged rest => Citing source full (merged ++ rest))
      (fun merged sec rest h => h.mergeStep) h
  rwa [List.append_nil] at hrun

theorem Chunk.Cites.rstrip {c : Chunk} (h : c.Cites source) :
    Chunk.Cites source { c with text := Py.rstrip c.text } :=
  ⟨h.one_le, h.start_le, h.stop_le,
    (Drawn.of_isPrefix (List.rdropWhile_prefix Py.isSpace c.text)).trans h.drawn⟩

theorem Laid.citing {lo hi minChars maxChars : ℕ} (hle : minChars ≤ maxChars) {cs : List Chunk}
    (h : Laid (Chunk.Cites source) (Follows maxChars) lo hi cs) : Citing source minChars cs :=
  ⟨fun c hc => (h.good c hc).1, h.pairwise.imp fun hab => hab.imp_right fun hab =>
    ⟨hab.1, hle.trans hab.2⟩⟩

/-- Each chunk of a text cites it, and none starts above the end of the one before it. -/
theorem cites_chunkMarkdown (text : List Char) {maxChars minChars : ℕ} (hle : minChars ≤ maxChars) :
    (∀ c ∈ chunkMarkdown text maxChars minChars, c.Cites (text.splitOn '\n')) ∧
      (chunkMarkdown text maxChars minChars).Pairwise fun a b => a.stop ≤ b.start := by
  have hsource : ∀ line ∈ text.splitOn '\n', '\n' ∉ line := fun _ => not_mem_of_mem_splitOn
  have hsized := laid_flatMap_sized hsource maxChars (laid_splitByHeadings hsource)
  obtain ⟨hcites, hfollows⟩ := (hsized.citing hle).mergeSmall
  rw [chunkMarkdown]
  split_ifs
  · exact ⟨fun _ hc => absurd hc List.not_mem_nil, List.Pairwise.nil⟩
  dsimp only
  constructor
  · intro c hc
    obtain ⟨d, hd, rfl⟩ := List.mem_map.1 hc
    exact (hcites d (List.mem_of_mem_filter hd)).rstrip
  · refine List.pairwise_map.2 ((hfollows.filter _).imp fun h => ?_)
    exact h.elim le_of_lt And.left

/-- `chunk_markdown` covers the text : its chunks hold every character that is not white space
once and in order, on lines of the text that are in order, and the lines of each chunk are drawn
from those it cites. -/
theorem chunkMarkdown_covers (text : List Char) {maxChars minChars : ℕ} (hmin : 0 < minChars)
    (hlt : minChars < maxChars) :
    ink ((chunkMarkdown text maxChars minChars).flatMap Chunk.text) = ink text ∧
      (∀ c ∈ chunkMarkdown text maxChars minChars, 1 ≤ c.start ∧ c.start ≤ c.stop ∧
        c.stop ≤ (text.splitOn '\n').length) ∧
      (chunkMarkdown text maxChars minChars).Pairwise (fun a b => a.stop ≤ b.start) ∧
      ∀ c ∈ chunkMarkdown text maxChars minChars,
        Drawn (c.text.splitOn '\n') (range (text.splitOn '\n') c.start c.stop) := by
  obtain ⟨hcites, hordered⟩ := cites_chunkMarkdown text hlt.le
  refine ⟨inkOf_chunkMarkdown (hmin.trans hlt) text minChars, fun c hc => ?_, hordered,
    fun c hc => (hcites c hc).drawn⟩
  exact ⟨(hcites c hc).one_le, (hcites c hc).start_le, (hcites c hc).stop_le⟩

/-- Two sections, the first too long and cut inside a line. -/
theorem chunkMarkdown_covers_twoSections :
    ink ((chunkMarkdown "# a\nx y\n\n# b\nz".toList 5 2).flatMap Chunk.text) = "#axy#bz".toList := by
  have hmin : 0 < 2 := by decide
  have hmax : 2 < 5 := by decide
  exact (chunkMarkdown_covers "# a\nx y\n\n# b\nz".toList hmin hmax).1.trans (by decide)

end OxenClaw.Memory
