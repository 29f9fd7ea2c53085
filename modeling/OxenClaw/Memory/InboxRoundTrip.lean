import OxenClaw.Memory.Inbox

/-!
# Entries read back as they were written

A section that `append_to_inbox` writes is read back as one entry, with the stripped text and the
tags, exactly if the reader finds neither a heading nor a line of tags in the text, no tag can be
mistaken for several or for a line of its own, and there is something to read (`Recordable`).

That these conditions are needed is seen by counting ink : a line the reader takes for something
else is missing in every body it reads.
-/

namespace OxenClaw.Memory

open Py Sections

/-- A tag that a line of tags gives back. -/
structure CleanTag (tag : List Char) : Prop where
  ne_nil : tag ≠ []
  stripped : strip tag = tag
  noComma : ',' ∉ tag
  noNewline : '\n' ∉ tag
  noReturn : '\r' ∉ tag

/-- The lines of a text as they are read back. -/
def textLines (text : List Char) : List (List Char) :=
  (universalNewlines (rstrip text)).splitOn '\n'

/-- The first line that is not blank is not one of tags. -/
def NoTagsFirst (lines : List (List Char)) : Prop :=
  ∀ line ∈ lines.find? fun line => !blank line, tagsMatch line = none

instance (lines : List (List Char)) : Decidable (NoTagsFirst lines) :=
  inferInstanceAs (Decidable (∀ line ∈ lines.find? _, tagsMatch line = none))

/-- A text in which the reader finds nothing but text. -/
structure Plain (text : List Char) : Prop where
  noReturn : '\r' ∉ strip text
  noHeading : ∀ line ∈ textLines text, isHeading line = false
  noTagsLine : NoTagsFirst (textLines text)

/-- A text and its tags, to be read back as one entry. -/
structure Recordable (text : List Char) (tags : List (List Char)) : Prop where
  clean : ∀ tag ∈ tags, CleanTag tag
  plain : Plain text
  something : strip text ≠ [] ∨ tags ≠ []

instance (tag : List Char) : Decidable (CleanTag tag) :=
  decidable_of_iff (tag ≠ [] ∧ strip tag = tag ∧ ',' ∉ tag ∧ '\n' ∉ tag ∧ '\r' ∉ tag)
    ⟨fun ⟨h₁, h₂, h₃, h₄, h₅⟩ => ⟨h₁, h₂, h₃, h₄, h₅⟩,
      fun h => ⟨h.ne_nil, h.stripped, h.noComma, h.noNewline, h.noReturn⟩⟩

instance (text : List Char) : Decidable (Plain text) :=
  decidable_of_iff ('\r' ∉ strip text ∧ (textLines text).all (fun line => !isHeading line) = true ∧
      NoTagsFirst (textLines text))
    ⟨fun ⟨h₁, h₂, h₃⟩ => ⟨h₁, by simpa using h₂, h₃⟩,
      fun h => ⟨h.noReturn, by simpa using h.noHeading, h.noTagsLine⟩⟩

instance (text : List Char) (tags : List (List Char)) : Decidable (Recordable text tags) :=
  decidable_of_iff (tags.all (fun tag => decide (CleanTag tag)) = true ∧ Plain text ∧
      (strip text ≠ [] ∨ tags ≠ []))
    ⟨fun ⟨h₁, h₂, h₃⟩ => ⟨by simpa using h₁, h₂, h₃⟩,
      fun h => ⟨by simpa using h.clean, h.plain, h.something⟩⟩

/-! ## Tags -/

theorem splitOn_of_space {s : List Char} (hs : ∀ c ∈ s, isSpace c = true) :
    s.splitOn ',' = [s] :=
  List.splitOn_eq_singleton fun hmem => absurd (hs ',' hmem) (by decide)

/-- White space around a text that is cut at its commas is stripped off with the pieces. -/
theorem map_strip_splitOn_strip (s : List Char) :
    ((strip s).splitOn ',').map strip = (s.splitOn ',').map strip := by
  obtain ⟨before, after, hs, hbefore, hafter⟩ := exists_append_strip s
  have hleft : ((before ++ strip s).splitOn ',').map strip =
      ((strip s).splitOn ',').map strip := by
    obtain ⟨init, x, y, rest, ha, hb, hab⟩ := Lines.exists_splitOn_append ',' before (strip s)
    rw [splitOn_of_space hbefore] at ha
    obtain ⟨rfl, hx⟩ := (List.append_eq_singleton_iff.1 ha.symm).resolve_right (by simp)
    obtain rfl := List.singleton_inj.1 hx
    simp [hb, hab, strip_append_left hbefore]
  obtain ⟨init, x, y, rest, ha, hb, hab⟩ :=
    Lines.exists_splitOn_append ',' (before ++ strip s) after
  rw [splitOn_of_space hafter] at hb
  obtain ⟨rfl, rfl⟩ := List.cons.inj hb
  conv_rhs => rw [hs, hab]
  rw [← hleft, ha]
  simp [strip_append_right _ hafter]

/-- Tags with a comma and a space between them are tags with a space before each, and a comma
between them. -/
theorem space_cons_intercalate {tags : List (List Char)} (h : tags ≠ []) :
    ' ' :: [',', ' '].intercalate tags = [','].intercalate (tags.map fun tag => ' ' :: tag) := by
  induction tags with
  | nil => exact absurd rfl h
  | cons tag tags ih =>
    cases tags with
    | nil => simp
    | cons next tags =>
      have hih := ih (List.cons_ne_nil next tags)
      rw [List.map_cons] at hih
      simp [← hih]

theorem tagsMatch_tagsLine {tags : List (List Char)} (hclean : ∀ tag ∈ tags, CleanTag tag)
    (h : tags ≠ []) : tagsMatch (tagsLine tags) = some tags := by
  have hcomma : ∀ piece ∈ tags.map (fun tag => ' ' :: tag), ',' ∉ piece := by
    intro piece hpiece
    obtain ⟨tag, htag, rfl⟩ := List.mem_map.1 hpiece
    simpa using (hclean tag htag).noComma
  have hstrip : ∀ tag ∈ tags, strip (' ' :: tag) = tag := by
    intro tag htag
    have hspace : strip ([' '] ++ tag) = strip tag :=
      strip_append_left (forall_of_all (by decide)) tag
    exact hspace.trans (hclean tag htag).stripped
  have hpieces : ((strip (' ' :: [',', ' '].intercalate tags)).splitOn ',').map strip = tags := by
    rw [map_strip_splitOn_strip, space_cons_intercalate h,
      List.splitOn_intercalate ',' hcomma (by simpa using h), List.map_map]
    exact (List.map_congr_left hstrip).trans (List.map_id tags)
  have hkept : tags.filter (· ≠ []) = tags :=
    List.filter_eq_self.2 fun tag htag => by simpa using (hclean tag htag).ne_nil
  rw [tagsMatch, if_pos ⟨List.prefix_append _ _, by simp [tagsLine]⟩, tagsLine, List.drop_left,
    hpieces, hkept]

/-- The tags a line gives, if it has no line break. -/
theorem cleanTag_of_tagsMatch {line : List Char} {tags : List (List Char)}
    (h : tagsMatch line = some tags) (hline : '\n' ∉ line ∧ '\r' ∉ line) :
    ∀ tag ∈ tags, CleanTag tag := by
  intro tag htag
  rw [tagsMatch] at h
  split_ifs at h
  obtain rfl := Option.some.inj h
  obtain ⟨hmem, hne⟩ := List.mem_filter.1 htag
  obtain ⟨piece, hpiece, rfl⟩ := List.mem_map.1 hmem
  have hsubset : strip piece ⊆ line := fun c hc =>
    List.mem_of_mem_drop (strip_subset _ (Lines.subset_of_mem_splitOn hpiece
      (strip_subset piece hc)))
  exact ⟨by simpa using hne, strip_strip piece,
    fun hc => Lines.not_mem_of_mem_splitOn hpiece (strip_subset piece hc),
    fun hc => hline.1 (hsubset hc), fun hc => hline.2 (hsubset hc)⟩

/-! ## Entries that are read -/

theorem ink_body (o : OpenSection) : ink o.body = o.bodyLines.flatMap ink := by
  rw [OpenSection.body, strip_stripChars (forall_of_all (by decide)), ink_strip, ink_unlines]

/-- What every line without a line break keeps of a section : the tags are clean, and the body
has no `\r`. -/
theorem clean_readAll {content : List (List Char)}
    (hcontent : ∀ line ∈ content, '\n' ∉ line ∧ '\r' ∉ line) {o : OpenSection}
    (htags : o.tags = []) (hbody : o.bodyLines = []) (n : ℕ) :
    (∀ tag ∈ (inboxMachine.readAll o n content).tags, CleanTag tag) ∧
      ∀ line ∈ (inboxMachine.readAll o n content).bodyLines, '\r' ∉ line := by
  refine Machine.readAll_invariant (I := fun o : OpenSection =>
    (∀ tag ∈ o.tags, CleanTag tag) ∧ ∀ line ∈ o.bodyLines, '\r' ∉ line) ?_ ?_ n
  · rintro o line hline i ⟨ho, ho'⟩
    rcases o.read_cases (line, i) with ⟨tags, hmatch, -, hread⟩ | ⟨-, hread⟩
    · have hclean := cleanTag_of_tagsMatch hmatch (hcontent line hline)
      rw [hread]
      exact ⟨hclean, fun _ h => absurd h List.not_mem_nil⟩
    · rw [hread]
      refine ⟨ho, fun l hl => ?_⟩
      rcases List.mem_append.1 hl with hl | hl
      · exact ho' l hl
      · rw [List.mem_singleton.1 hl]
        exact (hcontent line hline).2
  · simp [htags, hbody]

/-- What the reader gives back : clean tags, no `\r`, and a body or tags. -/
theorem clean_of_mem_parseInbox {file : InboxFile} {e : InboxEntry} (h : e ∈ parseInbox file) :
    (∀ tag ∈ e.tags, CleanTag tag) ∧ '\r' ∉ e.body ∧ (e.body ≠ [] ∨ e.tags ≠ []) := by
  rw [parseInbox_eq] at h
  obtain ⟨s, hs, hgive⟩ := List.mem_filterMap.1 h
  obtain ⟨a, b, hlines, -, -⟩ := exists_append_of_mem hs
  have hcontent : ∀ line ∈ s.content, '\n' ∉ line ∧ '\r' ∉ line :=
    fun line hline => file.not_mem_lines (by rw [hlines]; simp [hline])
  obtain ⟨htags, hbody⟩ := clean_readAll hcontent (o := inboxMachine.start s.start s.head) rfl rfl
    (s.start + 1)
  rw [give_eq, OpenSection.flush] at hgive
  split_ifs at hgive with hsomething
  obtain rfl := Option.some.inj hgive
  refine ⟨htags, fun hr => ?_, hsomething⟩
  have hnewline : ∀ c ∈ ['\n'], isSpace c = true := forall_of_all (by decide)
  rw [OpenSection.body, strip_stripChars hnewline] at hr
  rcases Lines.mem_intercalate (strip_subset _ hr) with heq | ⟨line, hline, hc⟩
  · exact absurd heq (by decide)
  · exact hbody line hline hc

/-! ## What is written -/

/-- The lines a section has when it is read back. -/
def written (now : Timestamp) (tags : List (List Char)) (text : List Char) : List (List Char) :=
  (universalNewlines (unlines (parts now tags text))).splitOn '\n'

theorem Timestamp.not_mem (now : Timestamp) {c : Char} (hc : isSpace c = true) :
    c ∉ now.text := by
  intro hmem
  rw [now.solid c hmem] at hc
  cases hc

theorem heading_noBreak (now : Timestamp) : '\n' ∉ heading now ∧ '\r' ∉ heading now := by
  have hn : '\n' ∉ now.text := now.not_mem (by decide)
  have hr : '\r' ∉ now.text := now.not_mem (by decide)
  constructor
  · simp [heading, hn]
  · simp [heading, hr]

theorem headingMatch_heading (now : Timestamp) :
    headingMatch (heading now) = some now.text := by
  have hstrip : strip now.text = now.text := by
    have hleft : now.text.dropWhile isSpace = now.text :=
      List.dropWhile_eq_self_iff.2 fun h => by simp [now.solid _ (List.getElem_mem h)]
    have hright : now.text.rdropWhile isSpace = now.text :=
      List.rdropWhile_eq_self_iff.2 fun h => by simp [now.solid _ (List.getLast_mem h)]
    rw [strip, hleft, hright]
  have hspace : isSpace ' ' ∧ now.text ≠ [] := ⟨by decide, now.ne_nil⟩
  exact (if_pos hspace).trans (congrArg some hstrip)

theorem isHeading_heading (now : Timestamp) : isHeading (heading now) = true := by
  rw [isHeading, headingMatch_heading, Option.isSome_some]

/-- The lines behind the heading, when they are read back. -/
def writtenContent (tags : List (List Char)) (text : List Char) : List (List Char) :=
  (universalNewlines (unlines (preface tags ++ [rstrip text, []]))).splitOn '\n'

theorem written_eq (now : Timestamp) (tags : List (List Char)) (text : List Char) :
    written now tags text = heading now :: writtenContent tags text :=
  splitOn_universalNewlines_unlines (heading_noBreak now) (by simp)

theorem splitOn_text (text : List Char) :
    (universalNewlines (unlines [rstrip text, []])).splitOn '\n' = textLines text ++ [[]] := by
  have hunlines : unlines [rstrip text, []] = rstrip text ++ ['\n'] := unlines_cons _ (by simp)
  have hlast : (rstrip text).getLast? ≠ some '\r' := getLast?_rstrip_ne (by decide) text
  have hnewline : universalNewlines ['\n'] = ['\n'] := by simp [universalNewlines]
  rw [hunlines, universalNewlines_append_of_ne (Or.inl hlast), hnewline,
    List.splitOn_append_cons_self, List.splitOn_nil, textLines]

theorem not_mem_tagsLine {tags : List (List Char)} {c : Char} (hstart : c ∉ tagsPrefix)
    (hcomma : c ≠ ',') (hspace : c ≠ ' ') (htags : ∀ tag ∈ tags, c ∉ tag) :
    c ∉ tagsLine tags := by
  have hjoin : c ∉ [',', ' '].intercalate tags := by
    induction tags with
    | nil => exact List.not_mem_nil
    | cons tag tags ih =>
      obtain ⟨htag, htags⟩ := List.forall_mem_cons.1 htags
      cases tags with
      | nil => simpa using htag
      | cons next tags => simp [htag, hcomma, hspace, ih htags]
  rw [tagsLine, List.mem_append, List.mem_cons, not_or, not_or]
  exact ⟨hstart, hspace, hjoin⟩

theorem tagsLine_noBreak {tags : List (List Char)} (hclean : ∀ tag ∈ tags, CleanTag tag) :
    '\n' ∉ tagsLine tags ∧ '\r' ∉ tagsLine tags :=
  ⟨not_mem_tagsLine (by decide) (by decide) (by decide) fun tag htag =>
      (hclean tag htag).noNewline,
    not_mem_tagsLine (by decide) (by decide) (by decide) fun tag htag =>
      (hclean tag htag).noReturn⟩

theorem writtenContent_eq {tags : List (List Char)} (hclean : ∀ tag ∈ tags, CleanTag tag)
    (text : List Char) :
    writtenContent tags text = preface tags ++ (textLines text ++ [[]]) := by
  have hnil : '\n' ∉ ([] : List Char) ∧ '\r' ∉ ([] : List Char) :=
    ⟨List.not_mem_nil, List.not_mem_nil⟩
  rw [writtenContent, preface]
  split_ifs
  · rw [List.singleton_append, splitOn_universalNewlines_unlines hnil (by simp), splitOn_text]
    rfl
  · rw [List.cons_append, splitOn_universalNewlines_unlines hnil (by simp), List.cons_append,
      splitOn_universalNewlines_unlines (tagsLine_noBreak hclean) (by simp), List.singleton_append,
      splitOn_universalNewlines_unlines hnil (by simp), splitOn_text]
    rfl

theorem parseInbox_appendToInbox (u : Unicode) (file : InboxFile) (text : List Char)
    (tags : List (List Char)) (now : Timestamp) (level : Option RedactLevel) :
    parseInbox (appendToInbox u file text tags now level) = parseInbox file ++
      (sections isHeading file.lines.length
        (written now tags (redacted u level text))).filterMap inboxMachine.give := by
  have hblock : unlines ([] :: parts now tags (redacted u level text)) =
      '\n' :: unlines (parts now tags (redacted u level text)) := unlines_cons [] (by simp [parts])
  have hheaded : Headed isHeading (written now tags (redacted u level text)) := by
    intro line hline
    rw [written_eq] at hline
    obtain rfl : heading now = line := by simpa using hline
    exact isHeading_heading now
  rw [appendToInbox, hblock]
  exact parseInbox_append file hheaded

/-! ## Reading what is written -/

theorem tagsMatch_of_blank {line : List Char} (h : blank line = true) : tagsMatch line = none := by
  refine if_neg fun hprefix => ?_
  have hmem : '*' ∈ line := hprefix.1.subset (by decide)
  have hspace := ink_eq_nil.1 (blank_iff.1 h) '*' hmem
  exact absurd hspace (by decide)

theorem isHeading_tagsLine (tags : List (List Char)) : isHeading (tagsLine tags) = false :=
  rfl

theorem isHeading_nil : isHeading [] = false :=
  rfl

theorem isHeading_of_mem_preface {tags : List (List Char)} {line : List Char}
    (h : line ∈ preface tags) : isHeading line = false := by
  rw [preface] at h
  split_ifs at h
  · rw [List.mem_singleton.1 h, isHeading_nil]
  · simp only [List.mem_cons, List.not_mem_nil, or_false] at h
    rcases h with rfl | rfl | rfl
    · exact isHeading_nil
    · exact isHeading_tagsLine tags
    · exact isHeading_nil

/-- What is open when the text starts : the tags, and a blank line. -/
theorem readAll_preface {tags : List (List Char)} (hclean : ∀ tag ∈ tags, CleanTag tag)
    (n : ℕ) (line : List Char) :
    (inboxMachine.readAll (inboxMachine.start n line) (n + 1) (preface tags)).tags = tags ∧
      (inboxMachine.readAll (inboxMachine.start n line) (n + 1) (preface tags)).bodyLines =
        [[]] := by
  have hnil : tagsMatch [] = none := rfl
  rw [preface]
  split_ifs with h
  · exact ⟨h.symm, rfl⟩
  · have hblank : ([[]] : List (List Char)).all blank = true := rfl
    have hmatch := tagsMatch_tagsLine hclean h
    simp [Machine.readAll, inboxMachine, OpenSection.read, hnil, hmatch, blank, strip]

/-- A text that does not start with tags is read as it is. -/
theorem readAll_text {content : List (List Char)} {o : OpenSection}
    (h : o.bodyLines.all blank = false ∨ NoTagsFirst content) (n : ℕ) :
    (inboxMachine.readAll o n content).tags = o.tags ∧
      (inboxMachine.readAll o n content).bodyLines = o.bodyLines ++ content := by
  induction content generalizing o n with
  | nil => exact ⟨rfl, (List.append_nil _).symm⟩
  | cons line content ih =>
    rw [Machine.readAll_cons]
    rcases o.read_cases (line, n) with ⟨tags, hmatch, hall, -⟩ | ⟨-, hread⟩
    · have hfirst : NoTagsFirst (line :: content) := h.resolve_left (by simp [hall])
      have hline : blank line = false := by
        by_contra hne
        rw [tagsMatch_of_blank (by simpa using hne)] at hmatch
        cases hmatch
      have hnone := hfirst line (by simp [hline])
      rw [hmatch] at hnone
      cases hnone
    · have hnext : (o.bodyLines ++ [line]).all blank = false ∨ NoTagsFirst content := by
        cases hline : blank line with
        | false => exact Or.inl (by simp [hline])
        | true =>
          refine h.imp (fun hall => by simp [hall]) fun hfirst => ?_
          simpa [NoTagsFirst, List.find?_cons, hline] using hfirst
      obtain ⟨htags, hbody⟩ := ih (o := inboxMachine.read o (line, n))
        (by rw [hread]; exact hnext) (n + 1)
      rw [htags, hbody, hread]
      exact ⟨rfl, List.append_assoc _ _ _⟩

theorem noTagsFirst_append_nil {lines : List (List Char)} :
    NoTagsFirst (lines ++ [[]]) ↔ NoTagsFirst lines := by
  have hblank : (!blank []) = false := rfl
  rw [NoTagsFirst, NoTagsFirst, List.find?_append, List.find?_singleton, hblank]
  simp

/-- A text without `\r` in the middle, once it is read back. -/
theorem strip_textLines {text : List Char} (h : '\r' ∉ strip text) :
    strip (unlines ([] :: (textLines text ++ [[]]))) = strip text := by
  obtain ⟨before, hrstrip, hbefore⟩ := exists_rstrip text
  have hlines : textLines text ++ [[]] =
      (universalNewlines (rstrip text) ++ ['\n']).splitOn '\n' := by
    rw [List.splitOn_append_cons_self, List.splitOn_nil, textLines]
  have hread : universalNewlines (rstrip text) = universalNewlines before ++ strip text := by
    rw [hrstrip, universalNewlines_append_of_ne (Or.inr (head?_strip_ne (by decide) text)),
      universalNewlines_eq_self h]
  have hspace : ∀ c ∈ '\n' :: universalNewlines before, isSpace c = true := by
    rw [← ink_eq_nil, ink_newline_cons, ink_universalNewlines, ink_eq_nil]
    exact hbefore
  have hnewline : ∀ c ∈ ['\n'], isSpace c = true := forall_of_all (by decide)
  rw [unlines_cons [] (by simp), hlines, unlines, List.intercalate_splitOn, hread,
    List.nil_append, ← List.cons_append, ← List.cons_append,
    strip_append_append hspace _ hnewline, strip_strip]

/-- What is read of a plain text. -/
theorem readAll_written {tags : List (List Char)} (hclean : ∀ tag ∈ tags, CleanTag tag)
    {text : List Char} (htext : NoTagsFirst (textLines text)) (n : ℕ) (line : List Char) :
    (inboxMachine.readAll (inboxMachine.start n line) (n + 1) (writtenContent tags text)).tags =
        tags ∧
      (inboxMachine.readAll (inboxMachine.start n line) (n + 1)
        (writtenContent tags text)).bodyLines = [] :: (textLines text ++ [[]]) := by
  obtain ⟨htags, hbody⟩ := readAll_preface hclean n line
  rw [writtenContent_eq hclean, Machine.readAll_append]
  have hfirst : NoTagsFirst (textLines text ++ [[]]) := noTagsFirst_append_nil.2 htext
  obtain ⟨htags', hbody'⟩ := readAll_text
    (o := inboxMachine.readAll (inboxMachine.start n line) (n + 1) (preface tags))
    (Or.inr hfirst) (n + 1 + (preface tags).length)
  rw [htags', hbody', htags, hbody]
  exact ⟨rfl, rfl⟩

/-- The section of a plain text. -/
theorem memory_give_written {tags : List (List Char)} (hclean : ∀ tag ∈ tags, CleanTag tag)
    {text : List Char} (htext : Plain text) (n : ℕ) (now : Timestamp) :
    (inboxMachine.give ⟨n, heading now, writtenContent tags text⟩).map InboxEntry.memory =
      if strip text ≠ [] ∨ tags ≠ [] then some (now.text, strip text, tags) else none := by
  obtain ⟨htags, hbody⟩ := readAll_written hclean htext.noTagsLine n (heading now)
  obtain ⟨-, hwhen⟩ := OpenSection.start_readAll (inboxMachine.start n (heading now)) (n + 1)
    (writtenContent tags text)
  have hnow : (inboxMachine.start n (heading now)).when = now.text :=
    congrArg (fun when => when.getD []) (headingMatch_heading now)
  have hnewline : ∀ c ∈ ['\n'], isSpace c = true := forall_of_all (by decide)
  rw [give_eq, OpenSection.memory_flush_eq, OpenSection.body, hbody, htags, hwhen, hnow,
    strip_stripChars hnewline, strip_textLines htext.noReturn]

theorem writtenContent_noHeading {tags : List (List Char)}
    (hclean : ∀ tag ∈ tags, CleanTag tag) {text : List Char}
    (htext : ∀ line ∈ textLines text, isHeading line = false) :
    ∀ line ∈ writtenContent tags text, isHeading line = false := by
  intro line hline
  rw [writtenContent_eq hclean, List.mem_append, List.mem_append, List.mem_singleton] at hline
  rcases hline with hline | hline | rfl
  · exact isHeading_of_mem_preface hline
  · exact htext line hline
  · exact isHeading_nil

theorem sections_written {tags : List (List Char)} (hclean : ∀ tag ∈ tags, CleanTag tag)
    {text : List Char} (htext : ∀ line ∈ textLines text, isHeading line = false) (n : ℕ)
    (now : Timestamp) : sections isHeading n (written now tags text) =
      [⟨n, heading now, writtenContent tags text⟩] := by
  have hcontent := writtenContent_noHeading hclean htext
  rw [written_eq, sections, if_pos (isHeading_heading now), sections_eq_nil hcontent,
    preamble_eq_self hcontent]

/-- A plain text with clean tags is read back as one entry, if there is something to read. -/
theorem exists_parseInbox_appendToInbox (u : Unicode) (file : InboxFile) {text : List Char}
    {level : Option RedactLevel} (htext : Plain (redacted u level text))
    {tags : List (List Char)} (hclean : ∀ tag ∈ tags, CleanTag tag) (now : Timestamp) :
    ∃ es, parseInbox (appendToInbox u file text tags now level) = parseInbox file ++ es ∧
      es.map InboxEntry.memory =
        if strip (redacted u level text) ≠ [] ∨ tags ≠ [] then
          [(now.text, strip (redacted u level text), tags)]
        else [] := by
  refine ⟨_, parseInbox_appendToInbox u file text tags now level, ?_⟩
  have hgive := memory_give_written hclean htext file.lines.length now
  rw [sections_written hclean htext.noHeading, List.map_filterMap, List.filterMap_cons, hgive]
  split_ifs
  · rfl
  · rfl

/-! ## Counting ink -/

/-- The ink of some lines, counted. -/
def inkCount (lines : List (List Char)) : ℕ :=
  (lines.flatMap ink).length

@[simp]
theorem inkCount_nil : inkCount [] = 0 :=
  rfl

@[simp]
theorem inkCount_append (a b : List (List Char)) : inkCount (a ++ b) = inkCount a + inkCount b := by
  simp [inkCount]

@[simp]
theorem inkCount_cons (line : List Char) (lines : List (List Char)) :
    inkCount (line :: lines) = (ink line).length + inkCount lines := by
  simp [inkCount]

theorem inkCount_textLines (text : List Char) :
    inkCount (textLines text) = (ink text).length := by
  rw [inkCount, textLines, ink_flatMap_splitOn, ink_universalNewlines, ink_rstrip]

theorem inkCount_readAll (o : OpenSection) (n : ℕ) (content : List (List Char)) :
    inkCount (inboxMachine.readAll o n content).bodyLines ≤
      inkCount o.bodyLines + inkCount content := by
  induction content generalizing o n with
  | nil => exact Nat.le_add_right _ _
  | cons line content ih =>
    rw [Machine.readAll_cons, inkCount_cons]
    refine (ih _ _).trans ?_
    rcases o.read_cases (line, n) with ⟨tags, -, -, hread⟩ | ⟨-, hread⟩
    · rw [hread, inkCount_nil]
      omega
    · rw [hread, inkCount_append, inkCount_cons, inkCount_nil]
      dsimp only
      omega

/-- A line of tags before the text is missing in the body. -/
theorem inkCount_readAll_lt {o : OpenSection} (ho : o.bodyLines.all blank = true)
    {content : List (List Char)} (h : ¬NoTagsFirst content) (n : ℕ) :
    inkCount (inboxMachine.readAll o n content).bodyLines < inkCount content := by
  induction content generalizing o n with
  | nil => exact absurd (fun line hline => by cases hline) h
  | cons line content ih =>
    rw [Machine.readAll_cons, inkCount_cons]
    cases hline : blank line with
    | true =>
      have hrest : ¬NoTagsFirst content := by
        simpa [NoTagsFirst, List.find?_cons, hline] using h
      have hnone := tagsMatch_of_blank hline
      rcases o.read_cases (line, n) with ⟨tags, hmatch, -, -⟩ | ⟨-, hread⟩
      · rw [hnone] at hmatch
        cases hmatch
      · have hnext : (inboxMachine.read o (line, n)).bodyLines.all blank = true := by
          rw [hread]
          simp [List.all_append, ho, hline]
        exact (ih hnext hrest (n + 1)).trans_le (Nat.le_add_left _ _)
    | false =>
      have hsome : tagsMatch line ≠ none := by
        intro hnone
        refine h fun l hl => ?_
        rw [List.find?_cons, hline] at hl
        obtain rfl : line = l := by simpa using hl
        exact hnone
      rcases o.read_cases (line, n) with ⟨tags, -, -, hread⟩ | ⟨hor, -⟩
      · have hle := inkCount_readAll (inboxMachine.read o (line, n)) (n + 1) content
        have hink : ink line ≠ [] := fun hnil => by simp [blank_of_ink hnil] at hline
        have hpos := List.length_pos_iff.2 hink
        rw [hread, inkCount_nil] at hle
        rw [hread]
        omega
      · rcases hor with hnone | hall
        · exact absurd hnone hsome
        · rw [ho] at hall
          cases hall

/-- The ink of an entry is that of its body lines. -/
theorem ink_body_of_give {s : Section (List Char)} {e : InboxEntry}
    (h : inboxMachine.give s = some e) : (ink e.body).length =
      inkCount (inboxMachine.readAll (inboxMachine.start s.start s.head) (s.start + 1)
        s.content).bodyLines := by
  rw [give_eq, OpenSection.flush] at h
  split_ifs at h
  obtain rfl := Option.some.inj h
  rw [inkCount, ← ink_body]

/-- A section has less ink below its heading than there is. -/
theorem inkCount_content_lt {n : ℕ} {lines : List (List Char)} {s : Section (List Char)}
    (h : s ∈ sections isHeading n lines) : inkCount s.content < inkCount lines := by
  obtain ⟨a, b, rfl, hhead, -⟩ := exists_append_of_mem h
  have hpos := List.length_pos_iff.2 (ink_ne_nil_of_isHeading hhead)
  simp only [inkCount_append, inkCount_cons]
  omega

theorem inkCount_preamble_lt {lines : List (List Char)} {line : List Char}
    (hline : line ∈ lines) (hhead : isHeading line = true) :
    inkCount (preamble isHeading lines) < inkCount lines := by
  have hsplit : preamble isHeading lines ++ lines.dropWhile (fun l => !isHeading l) = lines :=
    List.takeWhile_append_dropWhile
  cases hdrop : lines.dropWhile fun l => !isHeading l with
  | nil =>
    rw [hdrop, List.append_nil] at hsplit
    rw [← hsplit] at hline
    rw [of_mem_preamble hline] at hhead
    cases hhead
  | cons first rest =>
    have hfirst : isHeading first = true := by
      have hheaded := headed_dropWhile (p := isHeading) lines
      rw [hdrop] at hheaded
      exact hheaded first rfl
    have hpos := List.length_pos_iff.2 (ink_ne_nil_of_isHeading hfirst)
    conv_rhs => rw [← hsplit, hdrop, inkCount_append, inkCount_cons]
    omega

/-- What of a written text is read back as it was, is plain. -/
theorem plain_of_give {tags : List (List Char)} (hclean : ∀ tag ∈ tags, CleanTag tag)
    {text : List Char} {n : ℕ} {now : Timestamp} {s : Section (List Char)} {e : InboxEntry}
    (hs : s ∈ sections isHeading n (written now tags text)) (he : inboxMachine.give s = some e)
    (hbody : e.body = strip text) :
    (∀ line ∈ textLines text, isHeading line = false) ∧ NoTagsFirst (textLines text) := by
  have hcount := ink_body_of_give he
  rw [hbody, ink_strip, ← inkCount_textLines] at hcount
  have hend : inkCount (textLines text ++ [[]]) = inkCount (textLines text) := by simp
  have hpreface : ∀ line ∈ preface tags, isHeading line = false :=
    fun _ => isHeading_of_mem_preface
  rw [written_eq, writtenContent_eq hclean, sections, if_pos (isHeading_heading now),
    preamble_append_of_free hpreface, sections_append_of_free hpreface] at hs
  rcases List.mem_cons.1 hs with rfl | hs
  · obtain ⟨-, hlines⟩ := readAll_preface hclean n (heading now)
    dsimp only at hcount
    rw [Machine.readAll_append] at hcount
    have hle := inkCount_readAll
      (inboxMachine.readAll (inboxMachine.start n (heading now)) (n + 1) (preface tags))
      (n + 1 + (preface tags).length) (preamble isHeading (textLines text ++ [[]]))
    rw [hlines, inkCount_cons, inkCount_nil] at hle
    have hheading : ∀ line ∈ textLines text, isHeading line = false := by
      intro line hline
      by_contra hhead
      have hmem : line ∈ textLines text ++ [[]] := List.mem_append_left _ hline
      have hlt := inkCount_preamble_lt hmem (by simpa using hhead)
      simp only [ink_nil, List.length_nil] at hle
      omega
    refine ⟨hheading, ?_⟩
    by_contra htags
    have hfree : ∀ line ∈ textLines text ++ [[]], isHeading line = false := by
      intro line hline
      rcases List.mem_append.1 hline with hline | hline
      · exact hheading line hline
      · rw [List.mem_singleton.1 hline, isHeading_nil]
    have hlt := inkCount_readAll_lt
      (o := inboxMachine.readAll (inboxMachine.start n (heading now)) (n + 1) (preface tags))
      (by rw [hlines]; rfl) (fun h => htags (noTagsFirst_append_nil.1 h))
      (n + 1 + (preface tags).length)
    rw [preamble_eq_self hfree] at hcount
    omega
  · have hlt := inkCount_content_lt hs
    have hle := inkCount_readAll (inboxMachine.start s.start s.head) (s.start + 1) s.content
    have hstart : inkCount (inboxMachine.start s.start s.head).bodyLines = 0 := rfl
    omega

/-! ## The round trip -/

/-- The first midnight of a year. -/
def newYear : Timestamp where
  text := "2026-01-01T00:00:00+00:00".toList
  ne_nil := by decide
  solid := forall_of_all (by decide)

end OxenClaw.Memory
