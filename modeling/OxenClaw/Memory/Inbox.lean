import OxenClaw.Lib.Lines
import OxenClaw.Lib.Sections
import OxenClaw.Lib.Text
import OxenClaw.Memory.Privacy

/-!
# The inbox

The inbox is a Markdown file with one section an entry : a heading with the time, a line with the
tags if there are any, and the text. `append_to_inbox` writes a section behind the file,
`parse_inbox` reads the entries back, `remove_inbox_entry` drops the lines of one.

`parse_inbox` is a machine that opens a section at each heading, so what it reads is what the
sections of the file give, one after the other (`parseInbox_eq`). A section put behind the file
leaves the entries before it (`parseInbox_append`), and an entry that is removed leaves the others
(`parseInbox_removeInboxEntry`), at other lines.
-/

namespace OxenClaw.Memory

open Py Sections

/-- The inbox as it is on disk, or `none` where the file is missing. -/
abbrev InboxFile := Option (List Char)

/-- `read_text`, of a file that may be missing. -/
def InboxFile.read (file : InboxFile) : List Char :=
  (file.map universalNewlines).getD []

/-- The lines of the inbox. -/
def InboxFile.lines (file : InboxFile) : List (List Char) :=
  file.read.splitOn '\n'

/-- What `isoformat` gives : a text without white space. -/
structure Timestamp where
  text : List Char
  ne_nil : text ≠ []
  solid : ∀ c ∈ text, isSpace c = false

/-! ## Writing -/

/-- The text as it is written : `_redact`, where a level is set. -/
def redacted (u : Unicode) (level : Option RedactLevel) (text : List Char) : List Char :=
  match level with
  | none => text
  | some level => (redact u level text).1

def heading (now : Timestamp) : List Char :=
  "## ".toList ++ now.text

/-- What the line of the tags starts with. -/
def tagsPrefix : List Char :=
  "**tags:**".toList

def tagsLine (tags : List (List Char)) : List Char :=
  tagsPrefix ++ ' ' :: [',', ' '].intercalate tags

/-- The lines of a section behind its heading, up to the text. -/
def preface (tags : List (List Char)) : List (List Char) :=
  if tags = [] then [[]] else [[], tagsLine tags, []]

/-- `parts`, behind the empty text that makes the heading start a line. -/
def parts (now : Timestamp) (tags : List (List Char)) (text : List Char) : List (List Char) :=
  heading now :: preface tags ++ [rstrip text, []]

/-- `append_to_inbox`. -/
def appendToInbox (u : Unicode) (file : InboxFile) (text : List Char) (tags : List (List Char))
    (now : Timestamp) (level : Option RedactLevel) : InboxFile :=
  some (file.read ++ unlines ([] :: parts now tags (redacted u level text)))

/-! ## Reading -/

structure InboxEntry where
  when : List Char
  body : List Char
  tags : List (List Char)
  startLine : ℕ
  endLine : ℕ
deriving DecidableEq, Repr

/-- `not line.strip()`. -/
def blank (line : List Char) : Bool :=
  (strip line).isEmpty

/-- `_HEADING_RE.match(line)`, with its group stripped : two `#`, white space, and anything. -/
def headingMatch : List Char → Option (List Char)
  | '#' :: '#' :: c :: rest => if isSpace c ∧ rest ≠ [] then some (strip rest) else none
  | _ => none

def isHeading (line : List Char) : Bool :=
  (headingMatch line).isSome

/-- `_TAG_LINE_RE.match(line)`, with its group cut at the commas. -/
def tagsMatch (line : List Char) : Option (List (List Char)) :=
  if tagsPrefix <+: line ∧ tagsPrefix.length < line.length then
    some ((((strip (line.drop tagsPrefix.length)).splitOn ',').map strip).filter (· ≠ []))
  else none

/-- The variables of the loop of `parse_inbox`, where a section is open. -/
structure OpenSection where
  start : ℕ
  when : List Char
  tags : List (List Char) := []
  bodyLines : List (List Char) := []
  lastNonblank : ℕ

def OpenSection.read (o : OpenSection) (line : List Char × ℕ) : OpenSection :=
  match tagsMatch line.1, o.bodyLines.all blank with
  | some tags, true => { o with tags := tags, bodyLines := [], lastNonblank := line.2 }
  | _, _ =>
    { o with
      bodyLines := o.bodyLines ++ [line.1]
      lastNonblank := if blank line.1 then o.lastNonblank else line.2 }

def OpenSection.body (o : OpenSection) : List Char :=
  strip (stripChars ['\n'] (unlines o.bodyLines))

/-- `flush`. -/
def OpenSection.flush (o : OpenSection) : Option InboxEntry :=
  if o.body ≠ [] ∨ o.tags ≠ [] then
    some ⟨o.when, o.body, o.tags, o.start + 1, o.lastNonblank + 1⟩
  else none

/-- The loop of `parse_inbox`. -/
def inboxMachine : Machine (List Char) OpenSection InboxEntry where
  start i line := { start := i, when := (headingMatch line).getD [], lastNonblank := i }
  read := OpenSection.read
  close := OpenSection.flush

/-- `parse_inbox`. -/
def parseInbox (file : InboxFile) : List InboxEntry :=
  if strip file.read = [] then []
  else
    inboxMachine.finish ((file.lines.zipIdx 0).foldl (inboxMachine.step isHeading) ([], none))

/-! ## Removing -/

/-- `remove_inbox_entry` : whether the entry was there, and the file. -/
def removeInboxEntry (file : InboxFile) (entry : InboxEntry) : Bool × InboxFile :=
  if file = none then (false, file)
  else if entry.startLine < 1 ∨ entry.endLine < entry.startLine ∨
      file.lines.length < entry.startLine then (false, file)
  else
    let behind := file.lines.drop (min entry.endLine file.lines.length)
    (true, some (unlines (file.lines.take (entry.startLine - 1) ++ behind.dropWhile blank)))

/-! ## What is read -/

theorem blank_iff {line : List Char} : blank line = true ↔ ink line = [] := by
  rw [blank, List.isEmpty_iff, strip_eq_nil_iff]

theorem blank_of_ink {line : List Char} (h : ink line = []) : blank line = true :=
  blank_iff.2 h

theorem ink_ne_nil_of_isHeading {line : List Char} (h : isHeading line = true) :
    ink line ≠ [] := by
  unfold isHeading headingMatch at h
  split at h
  · intro hink
    have hspace := ink_eq_nil.1 hink '#' List.mem_cons_self
    exact absurd hspace (by decide)
  · simp at h

theorem blank_of_ne_heading {line : List Char} (h : blank line = true) :
    isHeading line = false := by
  by_contra hne
  exact ink_ne_nil_of_isHeading (by simpa using hne) (blank_iff.1 h)

theorem ink_eq_nil_of_mem {lines : List (List Char)} (h : lines.flatMap ink = [])
    {line : List Char} (hline : line ∈ lines) : ink line = [] :=
  List.flatMap_eq_nil_iff.1 h line hline

/-- What `parse_inbox` reads is what the sections of the file give. -/
theorem parseInbox_eq (file : InboxFile) :
    parseInbox file = (sections isHeading 0 file.lines).filterMap inboxMachine.give := by
  rw [parseInbox]
  split_ifs with h
  · have hink : file.lines.flatMap ink = [] := by
      rw [InboxFile.lines, ink_flatMap_splitOn]
      exact strip_eq_nil_iff.1 h
    rw [sections_eq_nil fun line hline =>
      blank_of_ne_heading (blank_of_ink (ink_eq_nil_of_mem hink hline))]
    rfl
  · exact inboxMachine.finish_run isHeading 0 file.lines

theorem InboxFile.not_mem_lines (file : InboxFile) {line : List Char} (h : line ∈ file.lines) :
    '\n' ∉ line ∧ '\r' ∉ line := by
  refine ⟨Lines.not_mem_of_mem_splitOn h, fun hr => ?_⟩
  have hread : '\r' ∈ file.read := Lines.subset_of_mem_splitOn h hr
  cases file with
  | none => exact absurd hread List.not_mem_nil
  | some raw => exact not_mem_universalNewlines raw hread

theorem read_inboxMachine : inboxMachine.read = OpenSection.read :=
  rfl

theorem close_inboxMachine : inboxMachine.close = OpenSection.flush :=
  rfl

/-- A line is the tags of the section, before there is text, or a line of its text. -/
theorem OpenSection.read_cases (o : OpenSection) (line : List Char × ℕ) :
    (∃ tags, tagsMatch line.1 = some tags ∧ o.bodyLines.all blank = true ∧
      inboxMachine.read o line =
        { o with tags := tags, bodyLines := [], lastNonblank := line.2 }) ∨
    ((tagsMatch line.1 = none ∨ o.bodyLines.all blank = false) ∧
      inboxMachine.read o line =
        { o with
          bodyLines := o.bodyLines ++ [line.1]
          lastNonblank := if blank line.1 then o.lastNonblank else line.2 }) := by
  rw [read_inboxMachine, OpenSection.read]
  cases tagsMatch line.1 with
  | none => exact Or.inr ⟨Or.inl rfl, rfl⟩
  | some tags =>
    cases o.bodyLines.all blank with
    | false => exact Or.inr ⟨Or.inr rfl, rfl⟩
    | true => exact Or.inl ⟨tags, rfl, rfl, rfl⟩

/-! ## Appending -/

theorem lines_append (file : InboxFile) (rest : List Char) :
    InboxFile.lines (some (file.read ++ '\n' :: rest)) =
      file.lines ++ (universalNewlines rest).splitOn '\n' := by
  have hread : '\r' ∉ file.read := by
    cases file with
    | none => exact List.not_mem_nil
    | some raw => exact not_mem_universalNewlines raw
  have hnewline : universalNewlines ('\n' :: rest) = '\n' :: universalNewlines rest := by
    simp [universalNewlines]
  rw [InboxFile.lines, InboxFile.read, Option.map_some, Option.getD_some,
    universalNewlines_append hread, hnewline, List.splitOn_append_cons_self, InboxFile.lines]

/-- What starts with a heading is read behind the entries of the file, and changes none. -/
theorem parseInbox_append (file : InboxFile) {rest : List Char}
    (hrest : Headed isHeading ((universalNewlines rest).splitOn '\n')) :
    parseInbox (some (file.read ++ '\n' :: rest)) = parseInbox file ++
      (sections isHeading file.lines.length ((universalNewlines rest).splitOn '\n')).filterMap
        inboxMachine.give := by
  rw [parseInbox_eq, parseInbox_eq, lines_append, sections_append 0 _ hrest,
    List.filterMap_append, Nat.zero_add]

/-! ## Removing -/

/-- Where the last line of a section that is not blank stands. -/
theorem exists_blank_end (o : OpenSection) {n : ℕ} (hn : o.lastNonblank + 1 = n)
    (content : List (List Char)) : ∃ front blanks, content = front ++ blanks ∧
      (∀ line ∈ blanks, blank line = true) ∧
        (inboxMachine.readAll o n content).lastNonblank + 1 = n + front.length := by
  induction content using List.reverseRecOn with
  | nil => exact ⟨[], [], rfl, fun _ h => absurd h List.not_mem_nil, hn⟩
  | append_singleton content line ih =>
    have hlast : ∀ o : OpenSection, o.lastNonblank = n + content.length →
        ∃ front blanks, content ++ [line] = front ++ blanks ∧
          (∀ line ∈ blanks, blank line = true) ∧ o.lastNonblank + 1 = n + front.length := by
      intro o ho
      exact ⟨content ++ [line], [], (List.append_nil _).symm,
        fun _ h => absurd h List.not_mem_nil, by simp [ho, Nat.add_assoc]⟩
    rw [Machine.readAll_append_singleton]
    rcases (inboxMachine.readAll o n content).read_cases (line, n + content.length) with
      ⟨tags, -, -, hread⟩ | ⟨-, hread⟩
    · exact hlast _ (congrArg OpenSection.lastNonblank hread)
    · cases hline : blank line with
      | false =>
        refine hlast _ ((congrArg OpenSection.lastNonblank hread).trans ?_)
        simp [hline]
      | true =>
        obtain ⟨front, blanks, hcontent, hblanks, hend⟩ := ih
        refine ⟨front, blanks ++ [line], by rw [hcontent, List.append_assoc], ?_, ?_⟩
        · intro l hl
          rcases List.mem_append.1 hl with hl | hl
          · exact hblanks l hl
          · rwa [List.mem_singleton.1 hl]
        · refine Eq.trans (congrArg (· + 1) (congrArg OpenSection.lastNonblank hread)) ?_
          simpa [hline] using hend

/-- What an entry says, wherever it stands. -/
def InboxEntry.memory (e : InboxEntry) : List Char × List Char × List (List Char) :=
  (e.when, e.body, e.tags)

/-- What an open section says, wherever it stands. -/
def OpenSection.memory (o : OpenSection) : List Char × List (List Char) × List (List Char) :=
  (o.when, o.bodyLines, o.tags)

theorem OpenSection.memory_read {o o' : OpenSection} (h : o.memory = o'.memory)
    (line : List Char) (i i' : ℕ) : (o.read (line, i)).memory = (o'.read (line, i')).memory := by
  simp only [OpenSection.memory, Prod.mk.injEq] at h
  obtain ⟨hwhen, hbody, htags⟩ := h
  rw [OpenSection.read, OpenSection.read, hbody]
  split <;> simp [OpenSection.memory, *]

theorem OpenSection.memory_readAll {o o' : OpenSection} (h : o.memory = o'.memory) (n n' : ℕ)
    (content : List (List Char)) :
    (inboxMachine.readAll o n content).memory = (inboxMachine.readAll o' n' content).memory := by
  induction content using List.reverseRecOn with
  | nil => exact h
  | append_singleton content line ih =>
    rw [Machine.readAll_append_singleton, Machine.readAll_append_singleton]
    exact OpenSection.memory_read ih line _ _

theorem OpenSection.memory_flush_eq (o : OpenSection) : o.flush.map InboxEntry.memory =
    if o.body ≠ [] ∨ o.tags ≠ [] then some (o.when, o.body, o.tags) else none := by
  rw [OpenSection.flush]
  split_ifs <;> rfl

theorem OpenSection.memory_flush {o o' : OpenSection} (h : o.memory = o'.memory) :
    o.flush.map InboxEntry.memory = o'.flush.map InboxEntry.memory := by
  simp only [OpenSection.memory, Prod.mk.injEq] at h
  obtain ⟨hwhen, hbody, htags⟩ := h
  have hbody' : o.body = o'.body := by rw [OpenSection.body, OpenSection.body, hbody]
  rw [OpenSection.memory_flush_eq, OpenSection.memory_flush_eq, hwhen, hbody', htags]

theorem give_eq (s : Section (List Char)) : inboxMachine.give s =
    (inboxMachine.readAll (inboxMachine.start s.start s.head) (s.start + 1) s.content).flush := by
  rw [Machine.give, close_inboxMachine]

/-- What a section says does not depend on where it stands. -/
theorem memory_give (n n' : ℕ) (head : List Char) (content : List (List Char)) :
    (inboxMachine.give ⟨n, head, content⟩).map InboxEntry.memory =
      (inboxMachine.give ⟨n', head, content⟩).map InboxEntry.memory := by
  have hstart : (inboxMachine.start n head).memory = (inboxMachine.start n' head).memory := rfl
  rw [give_eq, give_eq]
  exact OpenSection.memory_flush (OpenSection.memory_readAll hstart (n + 1) (n' + 1) content)

theorem memory_sections (n n' : ℕ) (lines : List (List Char)) :
    ((sections isHeading n lines).filterMap inboxMachine.give).map InboxEntry.memory =
      ((sections isHeading n' lines).filterMap inboxMachine.give).map InboxEntry.memory := by
  rw [List.map_filterMap, List.map_filterMap]
  induction lines generalizing n n' with
  | nil => rfl
  | cons line lines ih =>
    rw [sections, sections]
    split_ifs
    · rw [List.filterMap_cons, List.filterMap_cons, ih (n + 1) (n' + 1),
        memory_give n n' line (preamble isHeading lines)]
    · exact ih (n + 1) (n' + 1)

theorem lines_unlines {lines : List (List Char)}
    (h : ∀ line ∈ lines, '\n' ∉ line ∧ '\r' ∉ line) (hne : lines ≠ []) :
    InboxFile.lines (some (unlines lines)) = lines := by
  have hr : '\r' ∉ unlines lines := by
    intro hmem
    rcases Lines.mem_intercalate hmem with heq | ⟨line, hline, hc⟩
    · exact absurd heq (by decide)
    · exact (h line hline).2 hc
  rw [InboxFile.lines, InboxFile.read, Option.map_some, Option.getD_some,
    universalNewlines_eq_self hr]
  exact List.splitOn_intercalate '\n' (fun line hline => (h line hline).1) hne

theorem parseInbox_unlines {lines : List (List Char)}
    (h : ∀ line ∈ lines, '\n' ∉ line ∧ '\r' ∉ line) :
    parseInbox (some (unlines lines)) =
      (sections isHeading 0 lines).filterMap inboxMachine.give := by
  by_cases hne : lines = []
  · subst hne
    rfl
  · rw [parseInbox_eq, lines_unlines h hne]

/-- Where the section starts, and its time, stay. -/
theorem OpenSection.start_readAll (o : OpenSection) (n : ℕ) (content : List (List Char)) :
    (inboxMachine.readAll o n content).start = o.start ∧
      (inboxMachine.readAll o n content).when = o.when := by
  refine Machine.readAll_invariant
    (I := fun o' : OpenSection => o'.start = o.start ∧ o'.when = o.when) ?_ ⟨rfl, rfl⟩ n
  intro o' line _ i ho'
  rcases o'.read_cases (line, i) with ⟨tags, -, -, hread⟩ | ⟨-, hread⟩
  · rw [hread]
    exact ho'
  · rw [hread]
    exact ho'

/-- The lines an entry cites : its section, but for the blank lines at its end. -/
theorem exists_lines_of_give {s : Section (List Char)} {e : InboxEntry}
    (h : inboxMachine.give s = some e) : e.startLine = s.start + 1 ∧ ∃ front blanks,
      s.content = front ++ blanks ∧ (∀ line ∈ blanks, blank line = true) ∧
        e.endLine = s.start + 1 + front.length := by
  obtain ⟨front, blanks, hcontent, hblanks, hend⟩ := exists_blank_end
    (inboxMachine.start s.start s.head) (n := s.start + 1) rfl s.content
  obtain ⟨hstart, -⟩ := OpenSection.start_readAll (inboxMachine.start s.start s.head)
    (s.start + 1) s.content
  rw [give_eq, OpenSection.flush] at h
  split_ifs at h
  obtain rfl := Option.some.inj h
  exact ⟨congrArg (· + 1) hstart, front, blanks, hcontent, hblanks, hend⟩

theorem dropWhile_blank {blanks rest : List (List Char)}
    (hblanks : ∀ line ∈ blanks, blank line = true) (hrest : Headed isHeading rest) :
    (blanks ++ rest).dropWhile blank = rest := by
  rw [List.dropWhile_append_of_pos hblanks]
  cases rest with
  | nil => rfl
  | cons line rest =>
    refine List.dropWhile_cons_of_neg fun hblank => ?_
    simpa [blank_of_ne_heading hblank] using hrest line rfl

/-- An entry of the inbox that is removed leaves the others. -/
theorem parseInbox_removeInboxEntry {file : InboxFile} {e : InboxEntry}
    {before behind : List InboxEntry} (h : parseInbox file = before ++ e :: behind) :
    (removeInboxEntry file e).1 = true ∧ ∃ behind',
      parseInbox (removeInboxEntry file e).2 = before ++ behind' ∧
        behind'.map InboxEntry.memory = behind.map InboxEntry.memory := by
  have hfile : file ≠ none := by
    rintro rfl
    have hnil : ([] : List InboxEntry) = before ++ e :: behind := h
    simp at hnil
  rw [parseInbox_eq] at h
  obtain ⟨ss, s, ss', hsections, rfl, hs, rfl⟩ := Machine.exists_section h
  obtain ⟨a, b, hlines, hstart, -, -, hb, rfl, rfl⟩ := exists_split hsections
  obtain ⟨hfirst, front, blanks, hcontent, hblanks, hlast⟩ := exists_lines_of_give hs
  have hlength : file.lines.length = a.length + 1 + front.length + blanks.length + b.length := by
    rw [hlines, hcontent]
    simp only [List.length_append, List.length_cons]
    omega
  have htake : file.lines.take (e.startLine - 1) = a := by
    rw [hlines, List.append_assoc, hfirst, hstart]
    simp
  have hdrop : (file.lines.drop (min e.endLine file.lines.length)).dropWhile blank = b := by
    have hsplit : file.lines = (a ++ s.head :: front) ++ (blanks ++ b) := by
      rw [hlines, hcontent]
      simp
    have hcut : min e.endLine file.lines.length = (a ++ s.head :: front).length := by
      rw [List.length_append, List.length_cons]
      omega
    rw [hcut, hsplit, List.drop_left, dropWhile_blank hblanks hb]
  have hremove : removeInboxEntry file e = (true, some (unlines (a ++ b))) := by
    rw [removeInboxEntry, if_neg hfile, if_neg (by omega)]
    dsimp only
    rw [htake, hdrop]
  have hab : ∀ line ∈ a ++ b, '\n' ∉ line ∧ '\r' ∉ line := by
    intro line hline
    refine file.not_mem_lines (hlines ▸ ?_)
    rcases List.mem_append.1 hline with hline | hline
    · simp [hline]
    · simp [hline]
  rw [hremove]
  refine ⟨rfl, (sections isHeading a.length b).filterMap inboxMachine.give, ?_,
    memory_sections _ _ b⟩
  rw [parseInbox_unlines hab, sections_append 0 a hb, List.filterMap_append, Nat.zero_add]

/-- Behind the removal of an entry the others are there, in their order, with what they say. -/
theorem removeInboxEntry_frame {file : InboxFile} {e : InboxEntry} (h : e ∈ parseInbox file) :
    (removeInboxEntry file e).1 = true ∧
      (parseInbox (removeInboxEntry file e).2).map InboxEntry.memory =
        ((parseInbox file).erase e).map InboxEntry.memory := by
  obtain ⟨before, behind, hsplit, hbefore⟩ := List.eq_append_cons_of_mem h
  obtain ⟨hremoved, behind', hparse, hmemory⟩ := parseInbox_removeInboxEntry hsplit
  refine ⟨hremoved, ?_⟩
  rw [hparse, hsplit, List.erase_append_right _ hbefore, List.erase_cons_head, List.map_append,
    List.map_append, hmemory]

/-- Two entries, and a preamble that is none. -/
def twoEntries : InboxFile :=
  some "# Inbox\n\n## mon\n**tags:** a\n\ntea\n\n\n## tue\ncoffee".toList

theorem removeInboxEntry_frame_two :
    let e : InboxEntry := ⟨"mon".toList, "tea".toList, [['a']], 3, 6⟩
    e ∈ parseInbox twoEntries ∧ (removeInboxEntry twoEntries e).1 = true ∧
      (parseInbox (removeInboxEntry twoEntries e).2).map InboxEntry.memory =
        ((parseInbox twoEntries).erase e).map InboxEntry.memory := by
  have hmem : (⟨"mon".toList, "tea".toList, [['a']], 3, 6⟩ : InboxEntry) ∈
      parseInbox twoEntries := by decide +kernel
  exact ⟨hmem, removeInboxEntry_frame hmem⟩

end OxenClaw.Memory
