import OxenClaw.Lib.Assignments
import OxenClaw.Lib.Cuts

/-!
# The env file

`~/.oxenclaw/env` is read line by line, a value without the quotes around it. A variable is put in
by dropping the lines that assign it and appending one more, and it is read back with every other
variable as it was exactly if its value is of one line and its name has a character beside `_`
(`reads_persisted_iff`).
-/

namespace OxenClaw

/-- What Python knows of the letters and numbers beyond ASCII : none is white space. -/
structure Alphabet where
  isalpha : Char → Bool
  isalnum : Char → Bool
  isSpace_of_isalnum : ∀ c, isalnum c = true → Py.isSpace c = false

namespace Alphabet

variable (u : Alphabet) {c : Char}

/-- `c.isalpha()`. -/
def alpha (c : Char) : Bool :=
  if c.toNat < 128 then c.isAlpha else u.isalpha c

/-- `c.isalnum()`. -/
def alnum (c : Char) : Bool :=
  if c.toNat < 128 then c.isAlphanum else u.isalnum c

/-- A character that names can have. -/
def named (c : Char) : Bool :=
  u.alnum c || c == '_'

/-- The names a variable can have : a letter or `_`, then letters, digits and `_`. -/
def ValidName (key : List Char) : Prop :=
  (∃ c ∈ key.head?, u.alpha c = true ∨ c = '_') ∧ ∀ c ∈ key, u.named c = true

end Alphabet

/-- `"export "`. -/
def exportWord : List Char :=
  "export ".toList

/-- `line[len("export ") :].lstrip()` where the line starts with it. -/
def dropExport (line : List Char) : List Char :=
  if exportWord.isPrefixOf line then
    (line.drop exportWord.length).dropWhile Py.isSpace
  else line

/-- `body.split("=", 1)[0].strip()` of a line. -/
def assignedName (raw : List Char) : List Char :=
  let body := dropExport (Py.strip raw)
  match Py.partition ['='] body with
  | some (name, _) => Py.strip name
  | none => Py.strip body

/-- The line that is appended. -/
def exportLine (key value : List Char) : List Char :=
  exportWord ++ key ++ '=' :: '"' :: value ++ ['"']

/-- The text of a file, nothing where there is none. -/
def fileText (file : Option (List Char)) : List Char :=
  match file with
  | some content => Py.universalNewlines content
  | none => []

/-- The lines of a file that `persist_env_var` keeps. -/
def keptLines (file : Option (List Char)) (key : List Char) : List (List Char) :=
  (Py.splitlines (fileText file)).filter fun raw => assignedName raw ≠ key

/-- `persist_env_var` : what the file then holds. -/
def persistEnvVar (file : Option (List Char)) (key value : List Char) : List Char :=
  Py.unlines (keptLines file key ++ [exportLine key value]) ++ ['\n']

/-- `_strip_quotes`. -/
def stripQuotes (value : List Char) : List Char :=
  if 2 ≤ value.length ∧ value.head? = value.getLast? ∧
      (value.head? = some '"' ∨ value.head? = some '\'') then
    value.tail.dropLast
  else value

variable (u : Alphabet)

/-- `key.replace("_", "").isalnum()`. -/
def plainAlnum (key : List Char) : Bool :=
  let plain := key.filter (· ≠ '_')
  !plain.isEmpty && plain.all u.alnum

/-- One round of the loop of `parse_env_file` : the name and value, nothing where it goes on. -/
def parseLine (raw : List Char) : Option (List Char × List Char) :=
  let line := Py.strip raw
  if line = [] ∨ line.head? = some '#' then none
  else
    match Py.partition ['='] (dropExport line) with
    | none => none
    | some (name, value) =>
      let key := Py.strip name
      if key = [] ∨ ¬ (key.head?.any fun c => u.alpha c || c == '_') then none
      else if ¬ plainAlnum u key then none
      else some (key, stripQuotes (Py.strip value))

/-- `parse_env_file`. -/
def parseEnvFile (text : List Char) : Dict (List Char) (List Char) :=
  Assignments.assigned (parseLine u) (Py.splitlines text)

/-! ## Names -/

section

variable {u : Alphabet} {key value raw v : List Char} {c : Char}

theorem isSpace_of_named (h : u.named c = true) : Py.isSpace c = false := by
  rw [Alphabet.named, Bool.or_eq_true, Alphabet.alnum] at h
  rcases h with h | h
  · split_ifs at h
    · exact Py.isSpace_of_isAlphanum h
    · exact u.isSpace_of_isalnum c h
  · rw [beq_iff_eq.1 h]
    decide

theorem ne_equals_of_named (h : u.named c = true) : c ≠ '=' := by
  rintro rfl
  rw [Alphabet.named, Alphabet.alnum, if_pos (by decide)] at h
  exact absurd h (by decide)

theorem strip_name (h : u.ValidName key) : Py.strip key = key :=
  Py.strip_of_ends (fun c hc => isSpace_of_named (h.2 c (List.mem_of_mem_head? hc)))
    fun c hc => isSpace_of_named (h.2 c (List.mem_of_mem_getLast? hc))

theorem plainAlnum_iff (h : u.ValidName key) : plainAlnum u key = true ↔ ∃ c ∈ key, c ≠ '_' := by
  have hall : (key.filter (· ≠ '_')).all u.alnum = true := by
    rw [List.all_eq_true]
    intro c hc
    obtain ⟨hmem, hne⟩ := List.mem_filter.1 hc
    have hnamed := h.2 c hmem
    rw [Alphabet.named, Bool.or_eq_true, beq_iff_eq] at hnamed
    exact hnamed.resolve_right (by simpa using hne)
  rw [plainAlnum, hall, Bool.and_true, Bool.not_eq_true', List.isEmpty_eq_false_iff,
    ne_eq, List.filter_eq_nil_iff]
  push Not
  simp only [decide_eq_true_eq]

/-! ## One line -/

theorem assignedName_of_parseLine (h : parseLine u raw = some (key, v)) :
    assignedName raw = key := by
  rw [parseLine] at h
  split_ifs at h with hskip
  rw [assignedName]
  rcases hcut : Py.partition ['='] (dropExport (Py.strip raw)) with _ | ⟨name, value⟩
  · simp [hcut] at h
  · simp only [hcut] at h ⊢
    split_ifs at h with hname hplain
    cases h
    rfl

theorem dropExport_subset (line : List Char) : dropExport line ⊆ line := by
  rw [dropExport]
  split_ifs with hbegins
  · exact ((List.dropWhile_suffix Py.isSpace).trans (List.drop_suffix _ line)).subset
  · exact List.Subset.refl line

theorem stripQuotes_subset (value : List Char) : stripQuotes value ⊆ value := by
  rw [stripQuotes]
  split_ifs with hquoted
  · exact List.Subset.trans (List.dropLast_subset value.tail) (List.tail_subset value)
  · exact List.Subset.refl value

/-- A line gives a variable whose name has a letter or digit a value out of the line. -/
theorem plain_and_subset_of_parseLine (h : parseLine u raw = some (key, v)) :
    plainAlnum u key = true ∧ v ⊆ raw := by
  rw [parseLine] at h
  split_ifs at h with hskip
  rcases hcut : Py.partition ['='] (dropExport (Py.strip raw)) with _ | ⟨name, value⟩
  · simp [hcut] at h
  · simp only [hcut] at h
    split_ifs at h with hname hplain
    cases h
    refine ⟨by simpa using hplain, ?_⟩
    have hvalue : value ⊆ dropExport (Py.strip raw) := by
      rw [Py.partition_eq_some hcut]
      exact List.subset_append_right _ value
    calc stripQuotes (Py.strip value)
      _ ⊆ Py.strip value := stripQuotes_subset _
      _ ⊆ value := Py.strip_subset value
      _ ⊆ dropExport (Py.strip raw) := hvalue
      _ ⊆ Py.strip raw := dropExport_subset _
      _ ⊆ raw := Py.strip_subset raw

theorem stripQuotes_quoted (value : List Char) : stripQuotes ('"' :: value ++ ['"']) = value := by
  have hlast : ('"' :: value ++ ['"']).getLast? = some '"' := List.getLast?_concat
  rw [stripQuotes, if_pos]
  · rw [List.cons_append, List.tail_cons, List.dropLast_concat]
  · refine ⟨by simp, ?_, Or.inl rfl⟩
    rw [hlast]
    rfl

theorem dropExport_exportLine (h : u.ValidName key) (value : List Char) :
    dropExport (exportLine key value) = key ++ ['='] ++ ('"' :: value ++ ['"']) := by
  obtain ⟨c, hc, -⟩ := h.1
  obtain ⟨rest, hkey⟩ := List.head?_eq_some_iff.1 hc
  have hc : Py.isSpace c = false := by
    refine isSpace_of_named (h.2 c ?_)
    rw [hkey]
    exact List.mem_cons_self
  have hline : exportLine key value =
      exportWord ++ (key ++ ['='] ++ ('"' :: value ++ ['"'])) := by
    simp only [exportLine, List.append_assoc, List.cons_append, List.nil_append]
  have hbegins : exportWord.isPrefixOf
      (exportWord ++ (key ++ ['='] ++ ('"' :: value ++ ['"']))) = true :=
    List.isPrefixOf_iff_prefix.2 (List.prefix_append _ _)
  rw [dropExport, hline, if_pos hbegins, List.drop_left]
  refine Py.dropWhile_of_head fun d hd => ?_
  rw [hkey] at hd
  obtain rfl : c = d := Option.some.inj hd
  exact hc

/-- The appended line is read as it was meant. -/
theorem parseLine_exportLine (h : u.ValidName key) (hplain : ∃ c ∈ key, c ≠ '_')
    (value : List Char) : parseLine u (exportLine key value) = some (key, value) := by
  have hquote : Py.isSpace '"' = false := by decide
  have hline : exportLine key value =
      'e' :: ("xport ".toList ++ key ++ '=' :: '"' :: value) ++ ['"'] := by
    have hword : exportWord = 'e' :: "xport ".toList := by decide
    rw [exportLine, hword, List.cons_append, List.cons_append]
  have hstrip : Py.strip (exportLine key value) = exportLine key value := by
    rw [hline]
    exact Py.strip_between (by decide) hquote _
  have hcut : Py.partition ['='] (key ++ ['='] ++ ('"' :: value ++ ['"'])) =
      some (key, '"' :: value ++ ['"']) := by
    refine Py.partition_append (by simp) (Py.first_of_head (by simp) (fun hin => ?_) _)
    exact ne_equals_of_named (h.2 '=' (hin.subset (by simp))) rfl
  have hskip : ¬(exportLine key value = [] ∨ (exportLine key value).head? = some '#') := by
    rw [hline]
    simp
  obtain ⟨c, hc, hfirst⟩ := h.1
  have hname : ¬(key = [] ∨ ¬(key.head?.any fun c => u.alpha c || c == '_') = true) := by
    rw [not_or, not_not, Option.any_eq_true]
    refine ⟨fun hnil => ?_, c, hc, ?_⟩
    · rw [hnil] at hc
      cases hc
    · rwa [Bool.or_eq_true, beq_iff_eq]
  rw [parseLine]
  simp only [hstrip, if_neg hskip, dropExport_exportLine h, hcut, strip_name h, if_neg hname,
    (plainAlnum_iff h).2 hplain, not_true, if_false, Py.strip_between hquote hquote,
    stripQuotes_quoted]

/-! ## The file -/

/-- Lines that have no break of their own are found again. -/
theorem splitlines_persistEnvVar (h : u.ValidName key)
    (hvalue : ∀ c ∈ value, Py.isLineBreak c = false) (file : Option (List Char)) :
    Py.splitlines (fileText (some (persistEnvVar file key value))) =
      keptLines file key ++ [exportLine key value] := by
  have hspace {d : Char} (hd : Py.isSpace d = false) : Py.isLineBreak d = false := by
    rw [← Bool.not_eq_true] at hd ⊢
    exact fun hbreak => hd (Py.isSpace_of_isLineBreak hbreak)
  have hword : ∀ d ∈ exportWord, Py.isLineBreak d = false := Py.forall_of_all (by decide)
  have hlines : ∀ line ∈ keptLines file key ++ [exportLine key value], ∀ d ∈ line,
      Py.isLineBreak d = false := by
    intro line hline d hd
    rcases List.mem_append.1 hline with hkept | hlast
    · exact Py.isLineBreak_of_mem_splitlines (List.mem_filter.1 hkept).1 hd
    · rw [List.mem_singleton.1 hlast, exportLine] at hd
      simp only [List.mem_append, List.mem_cons, List.not_mem_nil, or_false] at hd
      rcases hd with ((hd | hd) | rfl | rfl | hd) | rfl
      · exact hword d hd
      · exact hspace (isSpace_of_named (h.2 d hd))
      · decide
      · decide
      · exact hvalue d hd
      · decide
  have hreturn : '\r' ∉ persistEnvVar file key value := by
    rw [persistEnvVar, List.mem_append, not_or]
    refine ⟨Py.not_mem_unlines (by decide) fun line hline hin => ?_, by decide⟩
    exact absurd (hlines line hline '\r' hin) (by decide)
  rw [fileText, Py.universalNewlines_eq_self hreturn, persistEnvVar,
    Py.splitlines_unlines_newline (by simp) hlines]

/-- A kept line is no matter to the variable, a dropped one to no other. -/
theorem get?_keptLines (file : Option (List Char)) {name : List Char} (hne : name ≠ key) :
    (Assignments.assigned (parseLine u) (keptLines file key)).get? name =
      (parseEnvFile u (fileText file)).get? name := by
  refine Assignments.get?_assigned_filter _ fun raw _ hdrop v hv => hne ?_
  rw [← assignedName_of_parseLine hv]
  simpa using hdrop

/-- The file is read back, with the other variables as they were, exactly if the value is of one
line and the name is not all `_`. -/
theorem reads_persisted_iff (u : Alphabet) {key : List Char} (hkey : u.ValidName key)
    (value : List Char) (file : Option (List Char)) :
    (∀ name, (parseEnvFile u (fileText (some (persistEnvVar file key value)))).get? name =
      if name = key then some value else (parseEnvFile u (fileText file)).get? name) ↔
    (∀ c ∈ value, Py.isLineBreak c = false) ∧ ∃ c ∈ key, c ≠ '_' := by
  constructor
  · intro h
    have hread := h key
    rw [if_pos rfl] at hread
    obtain ⟨raw, hraw, hline⟩ := Assignments.exists_of_get?_assigned hread
    obtain ⟨hplain, hsub⟩ := plain_and_subset_of_parseLine hline
    exact ⟨fun c hc => Py.isLineBreak_of_mem_splitlines hraw (hsub hc),
      (plainAlnum_iff hkey).1 hplain⟩
  · rintro ⟨hvalue, hplain⟩ name
    rw [parseEnvFile, splitlines_persistEnvVar hkey hvalue file, Assignments.get?_assigned_concat,
      parseLine_exportLine hkey hplain value]
    by_cases hname : name = key
    · rw [if_pos hname]
      exact if_pos hname
    · rw [if_neg hname]
      exact (if_neg hname).trans (get?_keptLines file hname)

/-- Letters and numbers of ASCII alone. -/
def asciiAlphabet : Alphabet where
  isalpha _ := false
  isalnum _ := false
  isSpace_of_isalnum _ h := absurd h Bool.false_ne_true

theorem reads_persisted_secret :
    (∀ name, (parseEnvFile asciiAlphabet (fileText (some (persistEnvVar
        (some "export A=\"1\"\nB='2'\n".toList) "A".toList "x=\"y\" ".toList)))).get? name =
      if name = "A".toList then some "x=\"y\" ".toList
      else (parseEnvFile asciiAlphabet
        (fileText (some "export A=\"1\"\nB='2'\n".toList))).get? name) ↔
    (∀ c ∈ "x=\"y\" ".toList, Py.isLineBreak c = false) ∧ ∃ c ∈ "A".toList, c ≠ '_' :=
  reads_persisted_iff asciiAlphabet
    ⟨⟨'A', by decide, Or.inl (by decide)⟩, Py.forall_of_all (by decide)⟩ _ _

/-- A value of two lines defines a variable of its own. -/
theorem persisted_defines_another :
    asciiAlphabet.ValidName "A".toList ∧
    ¬∀ name, (parseEnvFile asciiAlphabet
        (fileText (some (persistEnvVar none "A".toList "1\nB=2".toList)))).get? name =
      if name = "A".toList then some "1\nB=2".toList
      else (parseEnvFile asciiAlphabet (fileText none)).get? name := by
  refine ⟨⟨⟨'A', by decide, Or.inl (by decide)⟩, Py.forall_of_all (by decide)⟩, fun h => ?_⟩
  exact absurd (h "B".toList) (by decide +kernel)

end

end OxenClaw
