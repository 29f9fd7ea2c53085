import OxenClaw.Wiki.Store

/-!
# Which pages are read back

A page that is rendered and parsed again is the same page, up to leading line breaks and trailing
white space of its body, exactly if no field has a value that counts as missing, no related name has
a line break or a bracket at an end, and the body brings no related block of its own
(`parse_alike_iff`). The YAML codec is lossless, the name is not empty and the time stamps are not
zero.
-/

namespace OxenClaw

/-- The body without leading line breaks and trailing white space. -/
def trimBody (body : List Char) : List Char :=
  (Py.rstrip body).dropWhile (· == '\n')

/-- The same page, up to the ends of its body. -/
def WikiPage.Alike (p q : WikiPage) : Prop :=
  p = { q with body := p.body } ∧ trimBody p.body = trimBody q.body

/-- What is dumped is loaded as it was, and it does not end the frontmatter. -/
structure WikiCodec.Lossless (codec : WikiCodec) (fm : Args) : Prop where
  load : codec.load (codec.dump fm) = some (.obj fm)
  ends : ¬"\n---".toList <:+: codec.dump fm

/-- A text with a related block in it. -/
def HasBlock (text : List Char) : Prop :=
  ∃ a b c, text = a ++ (relatedStartMarker ++ ['\n']) ++ (b ++ '\n' :: relatedEndMarker ++ c)

/-- A page that is read back. -/
structure WikiPage.ReadsBack (page : WikiPage) : Prop where
  slug : page.slug ≠ ""
  summary : page.summary.Kept
  provenanceMode : page.provenanceMode.Kept
  claims : ∀ c ∈ page.claims, c.Stable
  related : ∀ r ∈ page.related, (∀ c ∈ r, Py.isLineBreak c = false) ∧
    (∀ c ∈ r.head?, c ∉ ['[', ']']) ∧ ∀ c ∈ r.getLast?, c ∉ ['[', ']']
  /-- Without related pages the body has no such block. -/
  noBlock : page.related = [] → ¬HasBlock (trimBody page.body ++ ['\n'])
  /-- With related pages it does not start one. -/
  noMarker : page.related ≠ [] →
    ¬relatedStartMarker ++ ['\n'] <:+: trimBody page.body ++ ['\n']

/-! ## The fields -/

theorem Json.orNull_eq_self_iff {v : Json} : v.orNull = v ↔ v.Kept := by
  refine ⟨fun h => ?_, Json.Kept.orNull⟩
  by_cases hv : v.truthy = true
  · exact Or.inr hv
  · rw [Json.orNull, if_neg hv] at h
    exact Or.inl h.symm

theorem map_eq_self_iff {α : Type*} {f : α → α} {l : List α} :
    l.map f = l ↔ ∀ x ∈ l, f x = x := by
  induction l with
  | nil => simp
  | cons x l ih => rw [List.map_cons, List.cons.injEq, ih, List.forall_mem_cons]

theorem WikiEvidence.reread_eq_self_iff {e : WikiEvidence} : e.reread = e ↔ e.Stable := by
  refine ⟨fun h => ?_, WikiEvidence.Stable.reread⟩
  obtain ⟨sourceId, path, lines, note, weight, updatedAt⟩ := e
  simp only [WikiEvidence.reread, WikiEvidence.mk.injEq, Json.orNull_eq_self_iff, and_true] at h
  exact ⟨h.1, h.2.1, h.2.2.1, h.2.2.2⟩

theorem WikiClaim.reread_eq_self_iff {c : WikiClaim} : c.reread = c ↔ c.Stable := by
  refine ⟨fun h => ?_, WikiClaim.Stable.reread⟩
  obtain ⟨text, evidence, contested, confidence, assertedAt, lastVerifiedAt, claimId⟩ := c
  simp only [WikiClaim.reread, WikiClaim.mk.injEq, map_eq_self_iff,
    WikiEvidence.reread_eq_self_iff, Json.orNull_eq_self_iff, true_and] at h
  exact ⟨h.1, h.2⟩

/-- A slug is never empty. -/
theorem slugifyWikiSegment_ne_empty (codec : WikiCodec) (name : String) :
    slugifyWikiSegment codec name ≠ "" := by
  rw [slugifyWikiSegment]
  split_ifs with h
  · decide
  · dsimp only
    split_ifs with hs hlen
    · decide
    · intro hempty
      exact hs (by simpa using congrArg String.toList hempty)
    · intro hempty
      simpa using congrArg String.toList hempty

theorem WikiPage.reread_eq_iff {codec : WikiCodec} {page : WikiPage} {body : List Char}
    {related : List (List Char)} :
    page.reread codec body related = { page with body } ↔
      page.slug ≠ "" ∧ related = page.related ∧ (∀ c ∈ page.claims, c.Stable) ∧
        page.summary.Kept ∧ page.provenanceMode.Kept := by
  have hslug : (if page.slug = "" then slugifyWikiSegment codec page.name else page.slug) =
      page.slug ↔ page.slug ≠ "" := by
    split_ifs with h
    · rw [h]
      simpa using slugifyWikiSegment_ne_empty codec page.name
    · simpa using h
  simp only [WikiPage.reread, WikiPage.mk.injEq, hslug, map_eq_self_iff,
    WikiClaim.reread_eq_self_iff, Json.orNull_eq_self_iff, true_and, and_true]

/-! ## The body -/

section Body

variable {body before after text : List Char} {related : List (List Char)}

theorem trimBody_eq_self (hend : Py.rstrip body = body) (hstart : body.head? ≠ some '\n') :
    trimBody body = body := by
  rw [trimBody, hend]
  refine Py.dropWhile_of_head fun c hc => ?_
  have hne : c ≠ '\n' := fun he => hstart (he ▸ hc)
  simpa using hne

theorem length_trimBody_le (body : List Char) : (trimBody body).length ≤ body.length :=
  (List.dropWhile_suffix _).length_le.trans (List.rdropWhile_prefix _ _).length_le

/-- What is left of a body has no end to trim. -/
theorem ends_trimBody (body : List Char) :
    Py.rstrip (trimBody body) = trimBody body ∧ (trimBody body).head? ≠ some '\n' := by
  constructor
  · obtain ⟨a, ha⟩ := List.dropWhile_suffix (l := Py.rstrip body) (· == '\n')
    refine Py.rdropWhile_of_last fun c hc => ?_
    have hlast : (Py.rstrip body).getLast? = some c := by
      rw [← ha, List.getLast?_append, ← trimBody, hc]
      rfl
    by_contra hspace
    exact Py.getLast?_rstrip_ne (by simpa using hspace) body hlast
  · intro h
    have hhead := List.head?_dropWhile_not (· == '\n') (Py.rstrip body)
    rw [← trimBody, h] at hhead
    simp at hhead

/-- Line breaks at the start of the body are dropped with the one before it. -/
theorem dropWhile_trimBody (body rest : List Char) :
    ('\n' :: (Py.rstrip body ++ rest)).dropWhile (· == '\n') =
      ('\n' :: (trimBody body ++ rest)).dropWhile (· == '\n') := by
  have hsplit := List.takeWhile_append_dropWhile (p := (· == '\n')) (l := Py.rstrip body)
  rw [List.dropWhile_cons_of_pos (by simp), List.dropWhile_cons_of_pos (by simp), trimBody]
  conv_lhs => rw [← hsplit, List.append_assoc]
  exact List.dropWhile_append_of_pos fun c hc => List.mem_takeWhile_imp (p := (· == '\n')) hc

/-- What the text before a block leaves of the body is no longer than it. -/
theorem length_trimBody_before_le (before : List Char) :
    (trimBody (Py.stripChars ['\n'] (Py.rstrip before ++ ['\n']))).length ≤ before.length := by
  have hshort : (Py.stripChars ['\n'] (Py.rstrip before ++ ['\n'])).length ≤
      (Py.rstrip before).length := by
    have happend : Py.stripChars ['\n'] ([] ++ Py.rstrip before ++ ['\n']) =
        Py.stripChars ['\n'] (Py.rstrip before) :=
      Py.stripChars_append_append (by simp) (by simp) _
    rw [List.nil_append] at happend
    rw [happend]
    exact (List.rdropWhile_prefix _ _).length_le.trans (List.dropWhile_suffix _).length_le
  exact (length_trimBody_le _).trans (hshort.trans (List.rdropWhile_prefix _ _).length_le)

/-- A block is found, with what is before the first start of one. -/
theorem splitRelated_of_block (h : HasBlock text) : ∃ before bullets after,
    Py.partition (relatedStartMarker ++ ['\n']) text = some (before, after) ∧
      splitRelated text = (Py.rstrip before ++ ['\n'],
        (Py.splitlines (Py.strip bullets)).filterMap readBullet) := by
  obtain ⟨a, b, c, htext⟩ := h
  obtain ⟨before, after, hstart, hle⟩ := Py.exists_partition (by decide) htext
  -- What is behind the first start has the end of the block that is there.
  obtain ⟨d, hd⟩ : ∃ d, after = d ++ ('\n' :: relatedEndMarker) ++ c := by
    have hcut := Py.partition_eq_some hstart
    have hsuffix : ('\n' :: relatedEndMarker) ++ c <:+ text := by
      rw [htext]
      exact ⟨a ++ (relatedStartMarker ++ ['\n']) ++ b, by simp⟩
    have hafter : after <:+ text := hcut ▸ List.suffix_append _ _
    obtain ⟨d, hd⟩ := List.suffix_of_suffix_length_le hsuffix hafter (by
      have hlen := congrArg List.length (htext.symm.trans hcut)
      simp only [List.length_append, List.length_cons] at hlen ⊢
      omega)
    exact ⟨d, by rw [← hd, List.append_assoc]⟩
  obtain ⟨bullets, rest, hend, -⟩ := Py.exists_partition (by decide) hd
  refine ⟨before, bullets, after, hstart, ?_⟩
  rw [splitRelated, hstart]
  simp only [hend]

/-- A name is made of characters of its line. -/
theorem mem_of_readBullet {line r : List Char} (h : readBullet line = some r) {c : Char}
    (hc : c ∈ r) : c ∈ line := by
  rw [readBullet] at h
  split_ifs at h
  rw [← Option.some.inj h] at hc
  obtain ⟨a, b, hab, -⟩ := Py.exists_append_stripChars ['[', ']']
    (Py.strip ((Py.strip line).dropWhile (· == '-')))
  have hmem : c ∈ Py.strip ((Py.strip line).dropWhile (· == '-')) := by
    rw [hab]
    simp [hc]
  exact Py.strip_subset _ ((List.dropWhile_sublist _).subset (Py.strip_subset _ hmem))

/-- What is cut off before the end of a body is missed. -/
theorem length_le_of_trimBody (hcut : splitRelated text = (Py.rstrip before ++ ['\n'], related))
    (hbody : trimBody (Py.stripChars ['\n'] (splitRelated text).1) = body) :
    body.length ≤ before.length := by
  rw [← hbody, hcut]
  exact length_trimBody_before_le before

theorem length_relatedStart : relatedStartMarker.length = 36 := by
  decide

/-- Without related pages, a body that is read back has no block. -/
theorem not_hasBlock_of_trimBody (hstart : body.head? ≠ some '\n')
    (hbody : trimBody (Py.stripChars ['\n']
      (splitRelated (('\n' :: (body ++ ['\n'])).dropWhile (· == '\n'))).1) = body) :
    ¬HasBlock (body ++ ['\n']) := by
  intro hblock
  have hne : body ≠ [] := by
    rintro rfl
    obtain ⟨a, b, c, heq⟩ := hblock
    have hlen := congrArg List.length heq
    simp only [List.length_append, length_relatedStart, List.nil_append, List.length_singleton]
      at hlen
    omega
  rw [dropWhile_newline_append hstart hne] at hbody
  obtain ⟨before, bullets, after, hpart, hcut⟩ := splitRelated_of_block hblock
  have hle := length_le_of_trimBody hcut hbody
  have hlen := congrArg List.length (Py.partition_eq_some hpart)
  simp only [List.length_append, length_relatedStart, List.length_singleton] at hlen
  omega

/-- With related pages, a body that is read back starts no block of its own. -/
theorem not_start_infix_of_trimBody (hstart : body.head? ≠ some '\n') (hne : related ≠ [])
    (hbody : trimBody (Py.stripChars ['\n']
      (splitRelated (('\n' :: (body ++ relatedBlock related ++ ['\n'])).dropWhile
        (· == '\n'))).1) = body) :
    ¬relatedStartMarker ++ ['\n'] <:+: body ++ ['\n'] := by
  rintro ⟨a, c, heq⟩
  have hlen := congrArg List.length heq
  simp only [List.length_append, length_relatedStart, List.length_singleton] at hlen
  have hbodyNe : body ≠ [] := by
    rintro rfl
    rw [List.length_nil] at hlen
    omega
  -- The start in the body comes before the block.
  have htext : body ++ (relatedBlock related ++ ['\n']) = a ++ (relatedStartMarker ++ ['\n']) ++
      (c ++ '\n' :: (relatedStartMarker ++ ['\n'] ++
        (Py.unlines (related.map relatedBullet) ++ '\n' :: relatedEndMarker ++ ['\n']))) := by
    rw [relatedBlock_eq hne, ← List.append_assoc _ c, heq]
    simp only [List.append_assoc, List.cons_append, List.nil_append]
  rw [List.append_assoc, dropWhile_newline_append hstart hbodyNe] at hbody
  have hblock : HasBlock (body ++ (relatedBlock related ++ ['\n'])) := by
    refine ⟨a, c ++ '\n' :: (relatedStartMarker ++ ['\n'] ++
      Py.unlines (related.map relatedBullet)), ['\n'], ?_⟩
    rw [htext]
    simp only [List.append_assoc, List.cons_append]
  obtain ⟨before, bullets, after, hpart, hcut⟩ := splitRelated_of_block hblock
  obtain ⟨before', after', hpart', hle⟩ := Py.exists_partition (by decide) htext
  obtain ⟨rfl, rfl⟩ := Prod.mk.inj (Option.some.inj (hpart.symm.trans hpart'))
  have hshort := length_le_of_trimBody hcut hbody
  omega

/-- Related names that are read back have no line break. -/
theorem isLineBreak_of_names {names : List (List Char)} (h : (splitRelated text).2 = names) :
    ∀ r ∈ names, ∀ c ∈ r, Py.isLineBreak c = false := by
  subst h
  intro r hr c hc
  rw [splitRelated] at hr
  split at hr
  · cases hr
  · split at hr
    · cases hr
    · obtain ⟨line, hline, hread⟩ := List.mem_filterMap.1 hr
      exact Py.isLineBreak_of_mem_splitlines hline (mem_of_readBullet hread hc)

/-- The names of the block behind a body, without brackets at their ends. -/
theorem names_page (hstart : body.head? ≠ some '\n') (hne : related ≠ [])
    (hlines : ∀ r ∈ related, ∀ c ∈ r, Py.isLineBreak c = false)
    (hmarker : ¬relatedStartMarker ++ ['\n'] <:+: body ++ ['\n']) :
    (splitRelated (('\n' :: (body ++ relatedBlock related ++ ['\n'])).dropWhile
      (· == '\n'))).2 = related.map (Py.stripChars ['[', ']']) := by
  have hcut (before : List Char) (hbefore : ¬relatedStartMarker ++ ['\n'] <:+: before) :
      (splitRelated (before ++ (relatedStartMarker ++ ['\n']) ++
        (Py.unlines (related.map relatedBullet) ++ '\n' :: relatedEndMarker ++ ['\n']))).2 =
          related.map (Py.stripChars ['[', ']']) := by
    rw [splitRelated_append hbefore (relatedEnd_not_within hlines), readBullets hlines]
  by_cases hbody : body = []
  · rw [← hcut [] (by decide), relatedBlock_eq hne, hbody]
    rfl
  · rw [← hcut _ (relatedStart_not_within hmarker), List.append_assoc body,
      dropWhile_newline_append hstart hbody, relatedBlock_eq hne]
    simp only [List.append_assoc, List.cons_append, List.nil_append]

/-- What is read behind a body that has no ends to trim. -/
theorem splitRelated_page_iff (related : List (List Char)) (hend : Py.rstrip body = body)
    (hstart : body.head? ≠ some '\n') :
    (splitRelated (('\n' :: (body ++ relatedBlock related ++ ['\n'])).dropWhile
        (· == '\n'))).2 = related ∧
      trimBody (Py.stripChars ['\n'] (splitRelated (('\n' :: (body ++ relatedBlock related ++
        ['\n'])).dropWhile (· == '\n'))).1) = body ↔
      (∀ r ∈ related, (∀ c ∈ r, Py.isLineBreak c = false) ∧
        (∀ c ∈ r.head?, c ∉ ['[', ']']) ∧ ∀ c ∈ r.getLast?, c ∉ ['[', ']']) ∧
      (related = [] → ¬HasBlock (body ++ ['\n'])) ∧
      (related ≠ [] → ¬relatedStartMarker ++ ['\n'] <:+: body ++ ['\n']) := by
  constructor
  · rintro ⟨hnames, hbody⟩
    have hmarker := fun hne : related ≠ [] => not_start_infix_of_trimBody hstart hne hbody
    have hbreaks := isLineBreak_of_names hnames
    refine ⟨fun r hr => ⟨hbreaks r hr, ?_⟩, fun hnil => ?_, hmarker⟩
    · have hne : related ≠ [] := List.ne_nil_of_mem hr
      rw [names_page hstart hne hbreaks (hmarker hne)] at hnames
      exact Py.stripChars_eq_self_iff.1 (map_eq_self_iff.1 hnames r hr)
    · rw [hnil, relatedBlock, if_pos rfl, List.append_nil] at hbody
      exact not_hasBlock_of_trimBody hstart hbody
  · rintro ⟨hlines, hnoBlock, hnoMarker⟩
    have habsent (h : related = []) (a b c : List Char) : body ++ ['\n'] ≠
        a ++ (relatedStartMarker ++ ['\n']) ++ (b ++ '\n' :: relatedEndMarker ++ c) :=
      fun heq => hnoBlock h ⟨a, b, c, heq⟩
    obtain ⟨text, hcut, htext⟩ := splitRelated_page hend hstart hlines habsent hnoMarker
    rw [hcut]
    exact ⟨rfl, by rw [htext, trimBody_eq_self hend hstart]⟩

end Body

/-- **The round trip.** A page is read back, up to the ends of its body, exactly if its fields, its
related names and its body are such that the text keeps them. -/
theorem parse_alike_iff {codec : WikiCodec} {page : WikiPage}
    (hyaml : codec.Lossless page.frontmatter) (hname : page.name ≠ "")
    (hcreated : page.createdAt ≠ 0) (hupdated : page.updatedAt ≠ 0) (now : ℚ) :
    (∃ page', parseWikiMarkdown codec now (renderWikiMarkdown codec page) = some page' ∧
      page'.Alike page) ↔ page.ReadsBack := by
  obtain ⟨hend, hstart⟩ := ends_trimBody page.body
  have htext := dropWhile_trimBody page.body (relatedBlock page.related ++ ['\n'])
  rw [← List.append_assoc, ← List.append_assoc] at htext
  obtain ⟨out, hout⟩ : ∃ out, splitRelated (('\n' :: (Py.rstrip page.body ++
      relatedBlock page.related ++ ['\n'])).dropWhile (· == '\n')) = out := ⟨_, rfl⟩
  have hparse : parseWikiMarkdown codec now (renderWikiMarkdown codec page) =
      some (page.reread codec (Py.stripChars ['\n'] out.1) out.2) :=
    parseWikiMarkdown_eq hyaml.load hyaml.ends hname hcreated hupdated now hout
  have hpage := splitRelated_page_iff page.related hend hstart
  rw [← htext, hout] at hpage
  rw [hparse]
  constructor
  · rintro ⟨page', hpage', heq, hbody⟩
    obtain rfl := Option.some.inj hpage'
    obtain ⟨hslug, hnames, hclaims, hsummary, hmode⟩ := WikiPage.reread_eq_iff.1 heq
    obtain ⟨hrelated, hnoBlock, hnoMarker⟩ := hpage.1 ⟨hnames, hbody⟩
    exact ⟨hslug, hsummary, hmode, hclaims, hrelated, hnoBlock, hnoMarker⟩
  · intro h
    obtain ⟨hnames, hbody⟩ := hpage.2 ⟨h.related, h.noBlock, h.noMarker⟩
    exact ⟨_, rfl, WikiPage.reread_eq_iff.2 ⟨h.slug, hnames, h.claims, h.summary, h.provenanceMode⟩,
      hbody⟩

theorem lossless_noteCodec : noteCodec.Lossless notePage.frontmatter where
  load := rfl
  ends := by decide

/-- A page with a related one, and blank ends. -/
def relatedNote : WikiPage :=
  { notePage with body := "\n Hello. \n".toList, related := ["b".toList] }

theorem parse_alike_relatedNote :
    ((parseWikiMarkdown noteCodec 2 (renderWikiMarkdown noteCodec relatedNote)).any fun page =>
      decide (page.related = relatedNote.related)) = true := by
  have hyaml : noteCodec.Lossless relatedNote.frontmatter := lossless_noteCodec
  obtain ⟨page, hparse, heq, -⟩ := (parse_alike_iff hyaml (by decide) (by decide) (by decide) 2).2 {
      slug := by decide
      summary := .inl rfl
      provenanceMode := .inl rfl
      claims := by simp [relatedNote, notePage]
      related := by simp [relatedNote]; decide
      noBlock := fun h => absurd h (by decide)
      noMarker := fun _ => by decide +kernel }
  rw [hparse, heq]
  rfl

/-- A page with a related one whose name starts with a bracket. -/
def draftNote : WikiPage :=
  { notePage with related := ["[draft] b".toList] }

/-- The bracket is lost. -/
theorem parse_loses_bracket :
    ¬∀ (codec : WikiCodec) (page : WikiPage), codec.Lossless page.frontmatter →
      page.name ≠ "" → page.createdAt ≠ 0 → page.updatedAt ≠ 0 → ∀ now,
        ∃ page', parseWikiMarkdown codec now (renderWikiMarkdown codec page) = some page' ∧
          page'.Alike page := by
  intro h
  obtain ⟨page', hparse, heq, -⟩ := h noteCodec draftNote lossless_noteCodec (by decide)
    (by decide) (by decide) 2
  have hnames : page'.related = draftNote.related := by rw [heq]
  have hread : (parseWikiMarkdown noteCodec 2 (renderWikiMarkdown noteCodec draftNote)).map
      WikiPage.related = some ["[draft] b".toList] := by
    rw [hparse, Option.map_some, hnames]
    rfl
  exact absurd hread (by decide +kernel)

end OxenClaw
