import OxenClaw.Lib.RegexSearch

/-!
# The command gate

`detect_command_threats` searches a command for a list of patterns. Those for `rm` read the words
from a command position on : wrappers in one order, `rm`, words of a dash and letters, a word with
an `r` among its first letters, and right behind it a target (`Removes`). What they find is exactly
that (`search_remove_iff`), so a recursive removal of `/` is refused outright exactly if it is
spelled so, or if the text holds something else that is refused (`hardline_iff`).
-/

namespace OxenClaw.CommandGate

open Regex Wording

inductive Verdict where
  | hardline
  | dangerous
  | ok
  deriving DecidableEq

/-! ## Parts of the patterns -/

def char (c : Char) : Regex :=
  set (· == c)

/-- `[^\s]`. -/
def nonSpace (c : Char) : Bool :=
  !Py.isSpace c

/-- `\s`. -/
def space : Regex :=
  set Py.isSpace

/-- `\s*`. -/
def spaces : Regex :=
  star space

/-- `.`. -/
def any : Regex :=
  set (· != '\n')

/-- `[a-zA-Z]`, to which `re.IGNORECASE` takes four characters beyond ASCII. -/
def isLetter (c : Char) : Bool :=
  c.isAlpha || ['\u0130', '\u0131', '\u017f', '\u212a'].contains c

/-- `[a-z0-9]`. -/
def letterOrDigit : Regex :=
  set fun c => isLetter c || c.isDigit

/-- One of some words. -/
def oneOf (names : List String) : Regex :=
  anyOf (names.map litIgnoreCase)

/-- `-[^\s]+`. -/
def flag : Regex :=
  seq (char '-') (plus (set nonSpace))

/-- `-[a-zA-Z]*`. -/
def dashLetters : Regex :=
  seq (char '-') (star (set isLetter))

/-- `-?[a-zA-Z]*r[a-zA-Z]*f?[^\s]*`. -/
def recursiveWord : Regex :=
  cat [opt (char '-'), star (set isLetter), litIgnoreCase "r", star (set isLetter),
    opt (litIgnoreCase "f"), star (set nonSpace)]

/-- The wrappers of `_CMDPOS` that are taken any number of times. -/
def plainWrappers : List String :=
  ["exec", "nohup", "setsid", "time"]

/-- `(?:r|$)`. -/
def orStop (r : Regex) : Pattern :=
  .alt (.plain r) .stop

/-- The start of `_CMDPOS`. -/
def commandStart : Pattern :=
  .alt .start (.plain (alt (set fun c => [';', '&', '|', '\n', '\x60'].contains c)
    (seq (char '$') (char '('))))

section

variable (u : Unicode)

/-- `\w+=\S*`. -/
def assignment : Regex :=
  seq (plus (set u.isWord)) (seq (char '=') (star (set nonSpace)))

def sudoPrefix : Regex :=
  opt (seq (word (litIgnoreCase "sudo")) (star (word flag)))

def envPrefix : Regex :=
  opt (seq (word (litIgnoreCase "env")) (star (word (assignment u))))

/-- `_CMDPOS`, then `r` and `tail`. -/
def atCommand (r : Regex) (tail : Pattern) : Pattern :=
  .seq commandStart (.seq (.plain (seq spaces (seq sudoPrefix (seq (envPrefix u)
    (star (word (oneOf plainWrappers))))))) (.seq (.plain (seq spaces r)) tail))

/-! ## The patterns -/

/-- `rm\s+(?:-[a-zA-Z]*\s+)*-?[a-zA-Z]*r[a-zA-Z]*f?[^\s]*\s+`. -/
def rmWords : Regex :=
  seq (word (litIgnoreCase "rm")) (seq (star (word dashLetters)) (word recursiveWord))

def rootTarget : Pattern :=
  .seq (.plain (char '/')) (orStop space)

/-- The directories of the second pattern. -/
def systemDirectories : List String :=
  ["etc", "var", "usr", "bin", "sbin", "boot", "lib", "lib64", "root", "home"]

def systemTarget : Pattern :=
  .seq (.plain (seq (char '/') (oneOf systemDirectories))) (orStop (alt (char '/') space))

def homeTarget : Pattern :=
  .seq (.plain (alt (char '~') (seq (char '$') (litIgnoreCase "HOME"))))
    (orStop (alt (char '/') space))

def rawDevices : Regex :=
  oneOf ["sd", "nvme", "hd", "mmcblk", "vd", "xvd"]

/-- The entries of `HARDLINE_PATTERNS` for `rm`. -/
def rmPatterns : List (Pattern × String) :=
  [(atCommand u rmWords rootTarget, "rm -rf of root filesystem"),
    (atCommand u rmWords systemTarget, "rm -rf of system directory"),
    (atCommand u rmWords homeTarget, "rm -rf of home directory")]

/-- The other entries of `HARDLINE_PATTERNS`. -/
def otherHardlinePatterns : List (Pattern × String) :=
  [(atCommand u (seq (litIgnoreCase "mkfs") (opt (seq (char '.') (plus letterOrDigit))))
      (.plain wordBoundary), "mkfs (format filesystem)"),
    (.plain (cat [wordBoundary, litIgnoreCase "dd", wordBoundary, star any, wordBoundary,
      litIgnoreCase "of=/dev/", rawDevices, star letterOrDigit]), "dd to raw block device"),
    (.plain (cat [char '>', spaces, litIgnoreCase "/dev/", rawDevices, star letterOrDigit,
      wordBoundary]), "redirect to raw block device"),
    (.plain (cat [lit ":()", spaces, char '\x7b', spaces, char ':', spaces, char '|', spaces,
      char ':', spaces, char '&', spaces, char '\x7d', spaces, char ';', spaces, char ':']),
      "fork bomb"),
    (atCommand u (cat [word (litIgnoreCase "kill"), star (word flag), lit "-1"])
      (.plain wordBoundary), "kill all processes"),
    (atCommand u (oneOf ["shutdown", "reboot", "halt", "poweroff"]) (.plain wordBoundary),
      "system shutdown/reboot"),
    (atCommand u (seq (word (litIgnoreCase "init")) (set fun c => c == '0' || c == '6'))
      (.plain wordBoundary), "init 0/6"),
    (atCommand u (seq (word (litIgnoreCase "systemctl"))
      (oneOf ["poweroff", "reboot", "halt", "kexec"])) (.plain wordBoundary),
      "systemctl poweroff/reboot"),
    (atCommand u (cat [word (litIgnoreCase "chmod"),
      star (word (seq (char '-') (star (set nonSpace)))),
      word (cat [opt (char '-'), star (set nonSpace), litIgnoreCase "R", star (set nonSpace)]),
      word (lit "777")]) rootTarget, "chmod -R 777 of root"),
    (.plain (cat [wordBoundary, oneOf ["curl", "wget"], wordBoundary,
      star (set fun c => c != '\n' && c != '|'), char '|', spaces, opt (litIgnoreCase "ba"),
      litIgnoreCase "sh", wordBoundary]), "curl|sh remote execution"),
    (.plain (cat [wordBoundary, word (litIgnoreCase "eval"),
      opt (set fun c => c == '"' || c == '\''), lit "$(", spaces, oneOf ["curl", "wget"],
      wordBoundary]), "eval $(curl ...) remote execution")]

/-- `HARDLINE_PATTERNS`. -/
def hardlinePatterns : List (Pattern × String) :=
  rmPatterns u ++ otherHardlinePatterns u

/-- `DANGEROUS_PATTERNS`. -/
def dangerousPatterns : List (Pattern × String) :=
  [(atCommand u (cat [word (litIgnoreCase "rm"), star (word dashLetters), opt (char '-'),
      star (set isLetter), litIgnoreCase "r", star (set isLetter), litIgnoreCase "f"])
      (.plain eps), "rm -rf of user path"),
    (atCommand u (cat [word (litIgnoreCase "rm"), star (word dashLetters),
      litIgnoreCase "--recursive"]) (.plain wordBoundary), "rm --recursive"),
    (.plain (cat [wordBoundary, word (litIgnoreCase "git"), litIgnoreCase "push", wordBoundary,
      star any, litIgnoreCase "--force", wordBoundary]), "git push --force"),
    (.seq (.plain (cat [wordBoundary, word (litIgnoreCase "git"), litIgnoreCase "push",
      wordBoundary, star any, space, litIgnoreCase "-f"])) (orStop space), "git push -f"),
    (.plain (cat [wordBoundary, word (litIgnoreCase "git"), word (litIgnoreCase "reset"),
      litIgnoreCase "--hard", wordBoundary]), "git reset --hard"),
    (.plain (cat [wordBoundary, word (litIgnoreCase "git"), word (litIgnoreCase "clean"),
      char '-', star (set nonSpace), litIgnoreCase "f"]), "git clean -f"),
    (.plain (cat [wordBoundary, word (lit "git"), word (lit "branch"), lit "-D", wordBoundary]),
      "git branch -D"),
    (atCommand u (cat [word (litIgnoreCase "dd"), star any, wordBoundary, litIgnoreCase "if="])
      (.plain eps), "dd disk copy"),
    (atCommand u (cat [word (litIgnoreCase "chmod"),
      star (word (seq (char '-') (star (set nonSpace)))), opt (char '-'), star (set nonSpace),
      litIgnoreCase "R"]) (.plain eps), "chmod -R (broad recursion)"),
    (atCommand u (seq (word (litIgnoreCase "npm")) (litIgnoreCase "publish"))
      (.plain wordBoundary), "npm publish"),
    (atCommand u (cat [word (litIgnoreCase "pip"), word (litIgnoreCase "install"),
      opt (seq (star any) space), litIgnoreCase "--user"]) (.plain wordBoundary),
      "pip install --user"),
    (.plain (cat [char '|', spaces, litIgnoreCase "sudo", wordBoundary]), "pipe into sudo"),
    (.plain (cat [lit ">>", spaces, opt (set fun c => c == '"' || c == '\''),
      opt (alt (char '~') (litIgnoreCase "$HOME")), opt (char '/'), char '.',
      oneOf ["bashrc", "zshrc", "profile", "bash_profile", "zshenv", "zprofile"], wordBoundary]),
      "append to shell rc file"),
    (.plain (cat [wordBoundary, word (litIgnoreCase "xargs"), star any, wordBoundary,
      litIgnoreCase "rm", wordBoundary]), "xargs with rm"),
    (.plain (cat [wordBoundary, litIgnoreCase "find", wordBoundary, star any,
      word (litIgnoreCase "-exec"), opt (cat [char '/', star (set nonSpace), char '/']),
      litIgnoreCase "rm", wordBoundary]), "find -exec rm"),
    (.plain (cat [wordBoundary, litIgnoreCase "find", wordBoundary, star any,
      litIgnoreCase "-delete", wordBoundary]), "find -delete")]

/-- The label of the first entry that is found. -/
def firstFound (patterns : List (Pattern × String)) (cmd : List Char) : Option String :=
  (patterns.find? fun e => e.1.search u cmd).map Prod.snd

/-- `detect_command_threats`. -/
def detectCommandThreats (cmd : List Char) : Verdict × Option String :=
  match firstFound u (hardlinePatterns u) cmd with
  | some label => (.hardline, some label)
  | none =>
    match firstFound u (dangerousPatterns u) cmd with
    | some label => (.dangerous, some label)
    | none => (.ok, none)

end

/-! ## What is refused as a removal -/

/-- A word spelled like a name, with any case of its letters. -/
def Spells (name : String) (w : List Char) : Prop :=
  List.Forall₂ (fun d c => sameLetter d c = true) name.toList w

/-- A flag of `sudo`. -/
def IsFlag (w : List Char) : Prop :=
  ∃ rest, w = '-' :: rest ∧ rest ≠ [] ∧ ∀ c ∈ rest, nonSpace c = true

/-- An assignment of `env`. -/
def IsAssignment (u : Unicode) (w : List Char) : Prop :=
  ∃ name value, w = name ++ '=' :: value ∧ (name ≠ [] ∧ ∀ c ∈ name, u.isWord c = true) ∧
    ∀ c ∈ value, nonSpace c = true

/-- A dash and letters. -/
def IsDashLetters (w : List Char) : Prop :=
  ∃ letters, w = '-' :: letters ∧ ∀ c ∈ letters, isLetter c = true

/-- An `r` behind letters, and behind a dash or not. -/
def HasR (w : List Char) : Prop :=
  ∃ dash letters c rest, w = dash ++ letters ++ c :: rest ∧ (dash = [] ∨ dash = ['-']) ∧
    (∀ d ∈ letters, isLetter d = true) ∧ sameLetter 'r' c = true ∧
    ∀ d ∈ rest, nonSpace d = true

/-- A path, or one beneath it. -/
def IsAtOrBeneath (path : List Char → Prop) (w : List Char) : Prop :=
  ∃ head rest, w = head ++ rest ∧ path head ∧ (rest = [] ∨ rest.head? = some '/')

def IsSystemDirectory (w : List Char) : Prop :=
  ∃ name, w = '/' :: name ∧ ∃ dir ∈ systemDirectories, Spells dir name

def IsHome (w : List Char) : Prop :=
  w = ['~'] ∨ ∃ name, w = '$' :: name ∧ Spells "HOME" name

/-- What the three patterns refuse to have removed. -/
def IsTarget (w : List Char) : Prop :=
  w = ['/'] ∨ IsAtOrBeneath IsSystemDirectory w ∨ IsAtOrBeneath IsHome w

/-- The wrappers that `_CMDPOS` reads : `sudo`, `env` and the others, in this order. -/
def IsWrapped (u : Unicode) (ws : List (List Char)) : Prop :=
  ∃ su env plain, ws = su ++ env ++ plain ∧
    (su = [] ∨ ∃ w flags, su = w :: flags ∧ Spells "sudo" w ∧ ∀ f ∈ flags, IsFlag f) ∧
    (env = [] ∨ ∃ w settings, env = w :: settings ∧ Spells "env" w ∧
      ∀ a ∈ settings, IsAssignment u a) ∧
    ∀ w ∈ plain, ∃ name ∈ plainWrappers, Spells name w

/-- `rm`, dashes with letters, and a word with an `r`. -/
def IsRecursiveRm (ws : List (List Char)) : Prop :=
  ∃ rm options word, ws = rm :: options ++ [word] ∧ Spells "rm" rm ∧
    (∀ o ∈ options, IsDashLetters o) ∧ HasR word

/-- The words from a command position on are read as a recursive removal of a target. -/
def Removes (u : Unicode) (ws : List (List Char)) : Prop :=
  ∃ wrappers rm target more, ws = wrappers ++ rm ++ target :: more ∧ IsWrapped u wrappers ∧
    IsRecursiveRm rm ∧ IsTarget target

/-- Where a command starts, and what the text has from there on. -/
def CommandStart (cmd t : List Char) : Prop :=
  t = cmd ∨ (∃ b c, cmd = b ++ c :: t ∧ [';', '&', '|', '\n', '\x60'].contains c = true) ∨
    ∃ b, cmd = b ++ '$' :: '(' :: t

/-! ## Words that the patterns read -/

section

variable {u : Unicode} {c : Char} {w m a b : List Char}

theorem isSpace_of_isWord (hu : ∀ c, u.isalnum c = true → Py.isSpace c = false)
    (h : u.isWord c = true) : Py.isSpace c = false := by
  rw [Unicode.isWord] at h
  split_ifs at h
  · rcases Bool.or_eq_true _ _ ▸ h with h | h
    · exact Py.isSpace_of_isAlphanum h
    · rw [beq_iff_eq.1 h]
      decide
  · exact hu c h

theorem isSpace_of_isLetter (h : isLetter c = true) : Py.isSpace c = false := by
  rcases Bool.or_eq_true _ _ ▸ h with h | h
  · refine Py.isSpace_of_isAlphanum ?_
    unfold Char.isAlphanum
    rw [h, Bool.true_or]
  · have hc := List.contains_iff_mem.1 h
    simp only [List.mem_cons, List.not_mem_nil, or_false] at hc
    rcases hc with rfl | rfl | rfl | rfl <;> decide

theorem toLower_of_isSpace (h : Py.isSpace c = true) : c.toLower = c := by
  unfold Char.toLower
  split
  · rename_i hupper
    have hisUpper : c.isUpper = true := by
      unfold Char.isUpper
      simpa only [Bool.and_eq_true, decide_eq_true_eq] using hupper
    have hnot : Py.isSpace c = false := by
      refine Py.isSpace_of_isAlphanum ?_
      unfold Char.isAlphanum Char.isAlpha
      rw [hisUpper, Bool.true_or, Bool.true_or]
    rw [h] at hnot
    cases hnot
  · rfl

/-- No space is taken for a character whose lower case is none. -/
theorem isSpace_of_sameLetter {d : Char} (hd : Py.isSpace d.toLower = false)
    (h : sameLetter d c = true) : Py.isSpace c = false := by
  by_contra hspace
  rw [Bool.not_eq_false] at hspace
  rw [sameLetter, Bool.or_eq_true, beq_iff_eq, List.any_eq_true] at h
  rcases h with h | ⟨e, he, h⟩
  · rw [h, toLower_of_isSpace hspace, hspace] at hd
    cases hd
  · simp only [List.mem_cons, List.not_mem_nil, or_false] at he
    simp only [Bool.or_eq_true, Bool.and_eq_true, beq_iff_eq] at h
    rcases h with ⟨-, rfl⟩ | ⟨hc, -⟩
    · rcases he with rfl | rfl | rfl | rfl <;> exact absurd hspace (by decide)
    · rw [toLower_of_isSpace hspace] at hc
      subst hc
      rcases he with rfl | rfl | rfl | rfl <;> exact absurd hspace (by decide)

/-- A name without spaces is spelled as a word. -/
theorem isWord_of_spells {name : String} (hne : name.toList ≠ [])
    (hname : name.toList.all (fun d => !Py.isSpace d.toLower) = true) (h : Spells name w) :
    IsWord Py.isSpace w := by
  rw [List.all_eq_true] at hname
  rw [Spells] at h
  refine ⟨fun hnil => ?_, fun c hc => ?_⟩
  · rw [hnil] at h
    exact hne (List.forall₂_nil_right_iff.1 h)
  · clear hne
    generalize name.toList = ds at h hname
    induction h with
    | nil => cases hc
    | @cons d e ds es hde _ ih =>
      obtain ⟨hd, hds⟩ := List.forall_mem_cons.1 hname
      rcases List.mem_cons.1 hc with rfl | hc
      · exact isSpace_of_sameLetter (by simpa using hd) hde
      · exact ih hc hds

theorem reads_char (d : Char) : Reads u (char d) (· = [d]) := by
  refine (Reads.set _).congr fun m => ?_
  constructor
  · rintro ⟨e, rfl, he⟩
    rw [beq_iff_eq.1 he]
  · rintro rfl
    exact ⟨d, rfl, beq_self_eq_true d⟩

/-- A character, and what another expression reads. -/
theorem reads_char_seq (d : Char) {r : Regex} {P : List Char → Prop} (hr : Reads u r P) :
    Reads u (seq (char d) r) fun m => ∃ b, m = d :: b ∧ P b := by
  refine ((reads_char d).seq hr).congr fun m => ?_
  constructor
  · rintro ⟨_, b, rfl, rfl, hb⟩
    exact ⟨b, rfl, hb⟩
  · rintro ⟨b, rfl, hb⟩
    exact ⟨[d], b, rfl, rfl, hb⟩

theorem reads_oneOf (names : List String) :
    Reads u (oneOf names) fun m => ∃ name ∈ names, Spells name m :=
  Reads.anyOf Reads.litIgnoreCase

theorem reads_flag : Reads u flag IsFlag :=
  reads_char_seq '-' (Reads.plus_set nonSpace)

theorem reads_dashLetters : Reads u dashLetters IsDashLetters :=
  reads_char_seq '-' (Reads.star_set isLetter)

theorem reads_assignment : Reads u (assignment u) (IsAssignment u) := by
  refine ((Reads.plus_set u.isWord).seq (reads_char_seq '=' (Reads.star_set nonSpace))).congr
    fun m => ?_
  constructor
  · rintro ⟨name, _, rfl, hname, value, rfl, hvalue⟩
    exact ⟨name, value, rfl, hname, hvalue⟩
  · rintro ⟨name, value, rfl, hname, hvalue⟩
    exact ⟨name, _, rfl, hname, value, rfl, hvalue⟩

theorem nonSpace_of_isLetter (h : isLetter c = true) : nonSpace c = true := by
  rw [nonSpace, isSpace_of_isLetter h]
  rfl

theorem spells_singleton (name : String) {d : Char} (hname : name.toList = [d]) :
    Spells name w ↔ ∃ c, w = [c] ∧ sameLetter d c = true := by
  rw [Spells, hname]
  constructor
  · rintro (_ | ⟨hc, hnil⟩)
    cases hnil
    exact ⟨_, rfl, hc⟩
  · rintro ⟨c, rfl, hc⟩
    exact .cons hc .nil

theorem reads_recursiveWord : Reads u recursiveWord HasR := by
  refine ((reads_char '-').opt.seq ((Reads.star_set isLetter).seq ((Reads.litIgnoreCase "r").seq
    ((Reads.star_set isLetter).seq ((Reads.litIgnoreCase "f").opt.seq
      ((Reads.star_set nonSpace).seq Reads.eps)))))).congr fun m => ?_
  constructor
  · rintro ⟨dash, _, rfl, hdash, letters, _, rfl, hletters, r, _, rfl, hr, more, _, rfl, hmore, f,
      _, rfl, hf, rest, _, rfl, hrest, rfl⟩
    obtain ⟨c, rfl, hc⟩ := (spells_singleton "r" rfl).1 hr
    refine ⟨dash, letters, c, more ++ (f ++ (rest ++ [])), by simp, hdash, hletters, hc, ?_⟩
    intro d hd
    simp only [List.mem_append, List.not_mem_nil, or_false] at hd
    rcases hd with hd | hd | hd
    · exact nonSpace_of_isLetter (hmore d hd)
    · rcases hf with rfl | hf
      · cases hd
      · obtain ⟨e, rfl, he⟩ := (spells_singleton "f" rfl).1 hf
        rw [List.mem_singleton.1 hd, nonSpace, isSpace_of_sameLetter (by decide) he]
        rfl
    · exact hrest d hd
  · rintro ⟨dash, letters, c, rest, rfl, hdash, hletters, hc, hrest⟩
    exact ⟨dash, letters ++ ([c] ++ ([] ++ ([] ++ (rest ++ [])))), by simp, hdash, letters, _, rfl,
      hletters, [c], _, rfl, (spells_singleton "r" rfl).2 ⟨c, rfl, hc⟩, [], _, rfl, by simp, [],
      _, rfl, Or.inl rfl, rest, [], rfl, hrest, rfl⟩

/-! ## They are words -/

theorem isSpace_of_nonSpace (h : nonSpace c = true) : Py.isSpace c = false := by
  simpa [nonSpace] using h

theorem isWord_cons (hc : Py.isSpace c = false) (hw : ∀ d ∈ w, Py.isSpace d = false) :
    IsWord Py.isSpace (c :: w) :=
  ⟨List.cons_ne_nil c w, List.forall_mem_cons.2 ⟨hc, hw⟩⟩

theorem IsFlag.isWord (h : IsFlag w) : IsWord Py.isSpace w := by
  obtain ⟨rest, rfl, -, hrest⟩ := h
  exact isWord_cons (by decide) fun c hc => isSpace_of_nonSpace (hrest c hc)

theorem IsAssignment.isWord (hu : ∀ c, u.isalnum c = true → Py.isSpace c = false)
    (h : IsAssignment u w) : IsWord Py.isSpace w := by
  obtain ⟨name, value, rfl, ⟨-, hname⟩, hvalue⟩ := h
  refine ⟨by simp, fun c hc => ?_⟩
  rcases List.mem_append.1 hc with hc | hc
  · exact isSpace_of_isWord hu (hname c hc)
  · rcases List.mem_cons.1 hc with rfl | hc
    · decide
    · exact isSpace_of_nonSpace (hvalue c hc)

theorem IsDashLetters.isWord (h : IsDashLetters w) : IsWord Py.isSpace w := by
  obtain ⟨letters, rfl, hletters⟩ := h
  exact isWord_cons (by decide) fun c hc => isSpace_of_isLetter (hletters c hc)

theorem HasR.isWord (h : HasR w) : IsWord Py.isSpace w := by
  obtain ⟨dash, letters, c, rest, rfl, hdash, hletters, hc, hrest⟩ := h
  refine ⟨by simp, fun d hd => ?_⟩
  simp only [List.mem_append, List.mem_cons] at hd
  rcases hd with (hd | hd) | rfl | hd
  · rcases hdash with rfl | rfl
    · cases hd
    · rw [List.mem_singleton.1 hd]
      decide
  · exact isSpace_of_isLetter (hletters d hd)
  · exact isSpace_of_sameLetter (by decide) hc
  · exact isSpace_of_nonSpace (hrest d hd)

/-- One of some names without spaces. -/
theorem isWord_of_oneOf {names : List String}
    (hnames : names.all (fun n => !n.toList.isEmpty &&
      n.toList.all fun d => !Py.isSpace d.toLower) = true)
    (h : ∃ name ∈ names, Spells name w) : IsWord Py.isSpace w := by
  obtain ⟨name, hmem, hname⟩ := h
  have hall := List.all_eq_true.1 hnames name hmem
  rw [Bool.and_eq_true, Bool.not_eq_true', List.isEmpty_eq_false_iff] at hall
  exact isWord_of_spells hall.1 hall.2 hname

/-! ## The words before the target -/

theorem readsWords_wrappers (hu : ∀ c, u.isalnum c = true → Py.isSpace c = false) :
    ReadsWords u (seq sudoPrefix (seq (envPrefix u) (star (word (oneOf plainWrappers)))))
      (IsWrapped u) := by
  have hsudo := ((ReadsWords.word (Reads.litIgnoreCase (u := u) "sudo") fun w hw =>
    isWord_of_spells (by decide) (by decide) hw).seq
      (.star_word reads_flag fun w hw => hw.isWord)).opt
  have henv := ((ReadsWords.word (Reads.litIgnoreCase (u := u) "env") fun w hw =>
    isWord_of_spells (by decide) (by decide) hw).seq
      (.star_word reads_assignment fun w hw => hw.isWord hu)).opt
  have hplain := ReadsWords.star_word (reads_oneOf (u := u) plainWrappers) fun w hw =>
    isWord_of_oneOf (by decide) hw
  refine (hsudo.seq (henv.seq hplain)).congr fun ws => ?_
  constructor
  · rintro ⟨su, _, rfl, hsu, env, plain, rfl, henv, hplain⟩
    refine ⟨su, env, plain, by rw [List.append_assoc], ?_, ?_, hplain⟩
    · refine hsu.imp_right ?_
      rintro ⟨_, flags, rfl, ⟨w, rfl, hw⟩, hflags⟩
      exact ⟨w, flags, rfl, hw, hflags⟩
    · refine henv.imp_right ?_
      rintro ⟨_, settings, rfl, ⟨w, rfl, hw⟩, hsettings⟩
      exact ⟨w, settings, rfl, hw, hsettings⟩
  · rintro ⟨su, env, plain, rfl, hsu, henv, hplain⟩
    refine ⟨su, env ++ plain, by rw [List.append_assoc], ?_, env, plain, rfl, ?_, hplain⟩
    · refine hsu.imp_right ?_
      rintro ⟨w, flags, rfl, hw, hflags⟩
      exact ⟨[w], flags, rfl, ⟨w, rfl, hw⟩, hflags⟩
    · refine henv.imp_right ?_
      rintro ⟨w, settings, rfl, hw, hsettings⟩
      exact ⟨[w], settings, rfl, ⟨w, rfl, hw⟩, hsettings⟩

theorem readsWords_rmWords : ReadsWords u rmWords IsRecursiveRm := by
  refine ((ReadsWords.word (Reads.litIgnoreCase (u := u) "rm") fun w hw =>
    isWord_of_spells (by decide) (by decide) hw).seq
      ((ReadsWords.star_word reads_dashLetters fun w hw => hw.isWord).seq
        (.word reads_recursiveWord fun w hw => hw.isWord))).congr fun ws => ?_
  constructor
  · rintro ⟨_, _, rfl, ⟨rm, rfl, hrm⟩, options, _, rfl, hoptions, word, rfl, hword⟩
    exact ⟨rm, options, word, rfl, hrm, hoptions, hword⟩
  · rintro ⟨rm, options, word, rfl, hrm, hoptions, hword⟩
    exact ⟨[rm], options ++ [word], rfl, ⟨rm, rfl, hrm⟩, options, [word], rfl, hoptions, word, rfl,
      hword⟩

/-! ## The target, and the place where the command starts -/

/-- What the end of a target pattern matches begins with a space or a character of `q`, if it is
not the end of the text. -/
theorem matches_target {body r : Regex} {P : List Char → Prop} {q : Char → Bool}
    (hbody : Reads u body P) (hr : Reads u r fun m => ∃ c, m = [c] ∧ (q c || Py.isSpace c) = true)
    (b rest : List Char) :
    (∃ m a, rest = m ++ a ∧ Pattern.Matches u (.seq (.plain body) (orStop r)) b m a) ↔
      ∃ head t, rest = head ++ t ∧ P head ∧
        (AtCut Py.isSpace t ∨ ∃ c ∈ t.head?, q c = true) := by
  simp only [Pattern.matches_seq, orStop, Pattern.matches_alt, Pattern.matches_plain hbody,
    Pattern.matches_plain hr, Pattern.matches_stop]
  constructor
  · rintro ⟨_, a, rfl, head, y, rfl, hhead, ⟨c, rfl, hc⟩ | ⟨rfl, ha⟩⟩
    · refine ⟨head, c :: a, by simp, hhead, ?_⟩
      rcases Bool.or_eq_true _ _ ▸ hc with hc | hc
      · exact Or.inr ⟨c, rfl, hc⟩
      · exact Or.inl (Or.inr ⟨c, rfl, hc⟩)
    · refine ⟨head, a, by simp, hhead, Or.inl ?_⟩
      rcases ha with rfl | rfl
      · exact Or.inl rfl
      · exact Or.inr ⟨'\n', rfl, by decide⟩
  · rintro ⟨head, t, rfl, hhead, ht⟩
    rcases t with _ | ⟨c, t⟩
    · exact ⟨head, [], rfl, head, [], by simp, hhead, Or.inr ⟨rfl, Or.inl rfl⟩⟩
    · refine ⟨head ++ [c], t, by simp, head, [c], rfl, hhead, Or.inl ⟨c, rfl, ?_⟩⟩
      rw [Bool.or_eq_true]
      rcases ht with (hnil | ⟨d, hd, hspace⟩) | ⟨d, hd, hq⟩
      · cases hnil
      · exact Or.inr (by rwa [Option.some.inj hd])
      · exact Or.inl (by rwa [Option.some.inj hd])

/-- A text that starts with a word. -/
def StartsWith (T : List Char → Prop) (t : List Char) : Prop :=
  ∃ w t', t = w ++ t' ∧ IsWord Py.isSpace w ∧ AtCut Py.isSpace t' ∧ T w

/-- A path that a slash may follow is the start of a word. -/
theorem startsWith_atOrBeneath_iff {P : List Char → Prop} (hP : ∀ h, P h → IsWord Py.isSpace h)
    {rest : List Char} : StartsWith (IsAtOrBeneath P) rest ↔ ∃ head t, rest = head ++ t ∧ P head ∧
      (AtCut Py.isSpace t ∨ ∃ c ∈ t.head?, (c == '/') = true) := by
  constructor
  · rintro ⟨_, t, rfl, hword, hcut, head, more, rfl, hhead, rfl | hmore⟩
    · exact ⟨head, t, by rw [List.append_nil], hhead, Or.inl hcut⟩
    · obtain ⟨more, rfl⟩ := List.head?_eq_some_iff.1 hmore
      exact ⟨head, '/' :: more ++ t, by rw [List.append_assoc], hhead, Or.inr ⟨'/', rfl, rfl⟩⟩
  · rintro ⟨head, t, rfl, hhead, hcut | ⟨c, hc, hslash⟩⟩
    · exact ⟨head, t, rfl, hP head hhead, hcut, head, [], by rw [List.append_nil], hhead,
        Or.inl rfl⟩
    · -- the word goes on to the next space
      obtain ⟨t, rfl⟩ := List.head?_eq_some_iff.1 hc
      rw [beq_iff_eq] at hslash
      subst hslash
      have hsplit : t = t.takeWhile nonSpace ++ t.dropWhile nonSpace :=
        List.takeWhile_append_dropWhile.symm
      refine ⟨head ++ '/' :: t.takeWhile nonSpace, t.dropWhile nonSpace, ?_, ⟨by simp, ?_⟩, ?_,
        head, '/' :: t.takeWhile nonSpace, rfl, hhead, Or.inr rfl⟩
      · rw [List.append_assoc, List.cons_append, ← hsplit]
      · intro d hd
        rcases List.mem_append.1 hd with hd | hd
        · exact (hP head hhead).2 d hd
        · rcases List.mem_cons.1 hd with rfl | hd
          · decide
          · exact isSpace_of_nonSpace (List.mem_takeWhile_imp hd)
      · have hhead := List.head?_dropWhile_not nonSpace t
        rcases hcs : t.dropWhile nonSpace with _ | ⟨d, cs⟩
        · exact Or.inl rfl
        · rw [hcs] at hhead
          exact Or.inr ⟨d, rfl, by simpa [nonSpace] using hhead⟩

theorem rootTarget_iff (b rest : List Char) :
    (∃ m a, rest = m ++ a ∧ rootTarget.Matches u b m a) ↔ StartsWith (· = ['/']) rest := by
  have hspace : Reads u space fun m => ∃ c, m = [c] ∧ (false || Py.isSpace c) = true :=
    Reads.set Py.isSpace
  rw [rootTarget, matches_target (q := fun _ => false) (reads_char '/') hspace]
  constructor
  · rintro ⟨_, t, rfl, rfl, hcut | ⟨c, -, hc⟩⟩
    · exact ⟨['/'], t, rfl, ⟨by simp, Py.forall_of_all (by decide)⟩, hcut, rfl⟩
    · cases hc
  · rintro ⟨_, t, rfl, -, hcut, rfl⟩
    exact ⟨['/'], t, rfl, rfl, Or.inl hcut⟩

theorem reads_slashOrSpace : Reads u (alt (char '/') space) fun m =>
    ∃ c, m = [c] ∧ (c == '/' || Py.isSpace c) = true := by
  refine ((reads_char '/').alt (Reads.set Py.isSpace)).congr fun m => ?_
  constructor
  · rintro (rfl | ⟨c, rfl, hc⟩)
    · exact ⟨'/', rfl, rfl⟩
    · exact ⟨c, rfl, by rw [hc, Bool.or_true]⟩
  · rintro ⟨c, rfl, hc⟩
    rcases Bool.or_eq_true _ _ ▸ hc with hc | hc
    · rw [beq_iff_eq.1 hc]
      exact Or.inl rfl
    · exact Or.inr ⟨c, rfl, hc⟩

theorem systemTarget_iff (b rest : List Char) :
    (∃ m a, rest = m ++ a ∧ systemTarget.Matches u b m a) ↔
      StartsWith (IsAtOrBeneath IsSystemDirectory) rest := by
  have hbody : Reads u (seq (char '/') (oneOf systemDirectories)) IsSystemDirectory :=
    reads_char_seq '/' (reads_oneOf systemDirectories)
  rw [systemTarget, matches_target hbody reads_slashOrSpace, startsWith_atOrBeneath_iff]
  rintro _ ⟨name, rfl, hname⟩
  exact isWord_cons (by decide) (isWord_of_oneOf (by decide) hname).2

theorem homeTarget_iff (b rest : List Char) :
    (∃ m a, rest = m ++ a ∧ homeTarget.Matches u b m a) ↔
      StartsWith (IsAtOrBeneath IsHome) rest := by
  have hbody : Reads u (alt (char '~') (seq (char '$') (litIgnoreCase "HOME"))) IsHome :=
    (reads_char '~').alt (reads_char_seq '$' (Reads.litIgnoreCase "HOME"))
  rw [homeTarget, matches_target hbody reads_slashOrSpace, startsWith_atOrBeneath_iff]
  rintro _ (rfl | ⟨name, rfl, hname⟩)
  · exact isWord_cons (by decide) (by simp)
  · exact isWord_cons (by decide) (isWord_of_spells (by decide) (by decide) hname).2

theorem commandStart_iff {cmd t : List Char} : CommandStart cmd t ↔
    ∃ b x, cmd = b ++ x ++ t ∧ commandStart.Matches u b x t := by
  have hopening := (Reads.set (u := u) fun c => [';', '&', '|', '\n', '\x60'].contains c).alt
    (reads_char_seq '$' (reads_char '('))
  simp only [commandStart, Pattern.matches_alt, Pattern.matches_start,
    Pattern.matches_plain hopening, CommandStart]
  constructor
  · rintro (rfl | ⟨b, c, rfl, hc⟩ | ⟨b, rfl⟩)
    · exact ⟨[], [], rfl, Or.inl ⟨rfl, rfl⟩⟩
    · exact ⟨b, [c], by simp, Or.inr (Or.inl ⟨c, rfl, hc⟩)⟩
    · exact ⟨b, ['$', '('], by simp, Or.inr (Or.inr ⟨['('], rfl, rfl⟩)⟩
  · rintro ⟨b, x, rfl, ⟨rfl, rfl⟩ | ⟨c, rfl, hc⟩ | ⟨_, rfl, rfl⟩⟩
    · exact Or.inl rfl
    · exact Or.inr (Or.inl ⟨b, c, by simp, hc⟩)
    · exact Or.inr (Or.inr ⟨b, by simp⟩)

/-- A pattern for commands is found where the words from a command position on are as it reads
them. -/
theorem search_atCommand_iff (hu : ∀ c, u.isalnum c = true → Py.isSpace c = false) {r : Regex}
    {tail : Pattern} {Q : List (List Char) → Prop} {T : List Char → Prop} (hr : ReadsWords u r Q)
    (htail : ∀ b rest, (∃ m a, rest = m ++ a ∧ tail.Matches u b m a) ↔ StartsWith T rest)
    {cmd : List Char} : (atCommand u r tail).search u cmd = true ↔ ∃ t, CommandStart cmd t ∧
      ∃ wrappers ws target more, words Py.isSpace t = wrappers ++ ws ++ target :: more ∧
        IsWrapped u wrappers ∧ Q ws ∧ T target := by
  have hwrappers := (readsWords_wrappers hu).led
  simp only [Pattern.search_iff, atCommand, Pattern.matches_seq, commandStart_iff (u := u), spaces,
    space, Pattern.matches_plain hwrappers, Pattern.matches_plain hr.led]
  constructor
  · rintro ⟨b, _, a, rfl, x, _, rfl, hstart, y, _, rfl, ⟨wrappers, hwrapped, hy⟩, z, rest, rfl,
      ⟨ws, hws, hz⟩, htarget⟩
    obtain ⟨target, t', hrest, hword, hcut, hT⟩ := (htail _ (rest ++ a)).1 ⟨rest, a, rfl, htarget⟩
    refine ⟨y ++ (z ++ rest) ++ a, ⟨b, x, by simp only [List.append_assoc], hstart⟩, wrappers, ws,
      target, words Py.isSpace t', ?_, hwrapped, hws, hT⟩
    rw [List.append_assoc, List.append_assoc, words_of_led hy, words_of_led hz, hrest,
      words_append hword hcut, List.append_assoc]
  · rintro ⟨t, ⟨b, x, rfl, hstart⟩, wrappers, ws, target, more, hwords, hwrapped, hws, hT⟩
    obtain ⟨m, t', rfl, hled, hword, hcut, -⟩ := exists_led hwords
    obtain ⟨y, z, rfl, hy, hz⟩ := led_append_iff.1 hled
    obtain ⟨rest, a, hrest, htarget⟩ :=
      (htail (b ++ x ++ y ++ z) (target ++ t')).2 ⟨target, t', rfl, hword, hcut, hT⟩
    refine ⟨b, x ++ (y ++ (z ++ rest)), a, ?_, x, _, rfl, ?_, y, _, rfl, ⟨wrappers, hwrapped, hy⟩,
      z, rest, rfl, ⟨ws, hws, hz⟩, htarget⟩
    · simp only [List.append_assoc, hrest]
    · have htext : y ++ (z ++ rest) ++ a = y ++ z ++ target ++ t' := by
        simp only [List.append_assoc, hrest]
      rwa [htext]

/-- The first three patterns find a command that removes a target. -/
theorem search_remove_iff (hu : ∀ c, u.isalnum c = true → Py.isSpace c = false) {cmd : List Char} :
    (∃ e ∈ rmPatterns u, e.1.search u cmd = true) ↔
      ∃ t, CommandStart cmd t ∧ Removes u (words Py.isSpace t) := by
  simp only [rmPatterns, List.exists_mem_cons_iff, List.not_mem_nil, false_and, exists_false,
    or_false, search_atCommand_iff hu readsWords_rmWords rootTarget_iff,
    search_atCommand_iff hu readsWords_rmWords systemTarget_iff,
    search_atCommand_iff hu readsWords_rmWords homeTarget_iff]
  constructor
  · rintro (⟨t, ht, wrappers, rm, target, more, hwords, hwrapped, hrm, htarget⟩ |
      ⟨t, ht, wrappers, rm, target, more, hwords, hwrapped, hrm, htarget⟩ |
      ⟨t, ht, wrappers, rm, target, more, hwords, hwrapped, hrm, htarget⟩)
    · exact ⟨t, ht, wrappers, rm, target, more, hwords, hwrapped, hrm, Or.inl htarget⟩
    · exact ⟨t, ht, wrappers, rm, target, more, hwords, hwrapped, hrm, Or.inr (Or.inl htarget)⟩
    · exact ⟨t, ht, wrappers, rm, target, more, hwords, hwrapped, hrm, Or.inr (Or.inr htarget)⟩
  · rintro ⟨t, ht, wrappers, rm, target, more, hwords, hwrapped, hrm, htarget | htarget | htarget⟩
    · exact Or.inl ⟨t, ht, wrappers, rm, target, more, hwords, hwrapped, hrm, htarget⟩
    · exact Or.inr (Or.inl ⟨t, ht, wrappers, rm, target, more, hwords, hwrapped, hrm, htarget⟩)
    · exact Or.inr (Or.inr ⟨t, ht, wrappers, rm, target, more, hwords, hwrapped, hrm, htarget⟩)

theorem isSome_firstFound {patterns : List (Pattern × String)} {cmd : List Char} :
    (firstFound u patterns cmd).isSome = true ↔ ∃ e ∈ patterns, e.1.search u cmd = true := by
  rw [firstFound, Option.isSome_map, List.find?_isSome]

theorem hardline_iff_search {cmd : List Char} : (detectCommandThreats u cmd).1 = .hardline ↔
    ∃ e ∈ hardlinePatterns u, e.1.search u cmd = true := by
  rw [← isSome_firstFound, detectCommandThreats]
  rcases firstFound u (hardlinePatterns u) cmd with _ | label
  · rcases firstFound u (dangerousPatterns u) cmd with _ | label <;> simp
  · simp

end

/-! ## Recursive removals of `/` -/

/-- The wrappers that the gate lists. -/
inductive Wrapper where
  | withSudo (flags : List (List Char))
  | withEnv (settings : List (List Char))
  | plain (name : String)

namespace Wrapper

def words : Wrapper → List (List Char)
  | withSudo flags => "sudo".toList :: flags
  | withEnv settings => "env".toList :: settings
  | plain name => [name.toList]

def Ok (u : Unicode) : Wrapper → Prop
  | withSudo flags => ∀ f ∈ flags, IsFlag f
  | withEnv settings => ∀ a ∈ settings, IsAssignment u a
  | plain name => name ∈ plainWrappers

end Wrapper

/-- What the shell cuts words at. -/
def isBlank (c : Char) : Bool :=
  c == ' ' || c == '\t'

/-- An operator that ends a simple command, or a redirection. -/
def isOperator (c : Char) : Bool :=
  [';', '&', '|', '\n', '\x60', ')', '<', '>'].contains c

def isOption (a : List Char) : Bool :=
  a.head? = some '-' && 2 ≤ a.length

/-- The options among the arguments of `rm`, which may stand behind operands. -/
def options (args : List (List Char)) : List (List Char) :=
  (args.takeWhile (· ≠ ['-', '-'])).filter isOption

/-- The operands. Behind `--` every argument is one. -/
def operands (args : List (List Char)) : List (List Char) :=
  (args.takeWhile (· ≠ ['-', '-'])).filter (!isOption ·) ++
    (args.dropWhile (· ≠ ['-', '-'])).tail

/-- `--recursive`, which may be cut short, or a bundle of short options with `-r` or `-R`. -/
def isRecursive (a : List Char) : Bool :=
  ("--r".toList.isPrefixOf a && a.isPrefixOf "--recursive".toList) ||
    (a[1]? ≠ some '-' && (a.contains 'r' || a.contains 'R'))

/-- A text with a recursive removal of `/` at a command position. -/
structure RootRemoval (u : Unicode) where
  before : List Char
  command : List Char
  after : List Char
  start : CommandStart (before ++ command ++ after) (command ++ after)
  ends : ∀ c ∈ after.head?, isOperator c = true
  wrappers : List Wrapper
  args : List (List Char)
  words_eq : words isBlank command = wrappers.flatMap Wrapper.words ++ "rm".toList :: args
  wrappers_ok : ∀ w ∈ wrappers, w.Ok u
  recursive : ∃ a ∈ options args, isRecursive a = true
  root : ['/'] ∈ operands args

namespace RootRemoval

variable {u : Unicode} (c : RootRemoval u)

def text : List Char :=
  c.before ++ c.command ++ c.after

/-- The words that the patterns see from the start of the command on. -/
def seen : List (List Char) :=
  words Py.isSpace (c.command ++ c.after)

/-- Another place of the text is read as a removal, or one of the other patterns is found. -/
def RefusedOtherwise : Prop :=
  (∃ t, CommandStart c.text t ∧ t ≠ c.command ++ c.after ∧ Removes u (words Py.isSpace t)) ∨
    ∃ e ∈ otherHardlinePatterns u, e.1.search u c.text = true

/-- A recursive removal of `/` is refused outright exactly if its words are spelled as the patterns
read them, or something else in the text is refused. -/
theorem hardline_iff (hu : ∀ c, u.isalnum c = true → Py.isSpace c = false) (c : RootRemoval u) :
    (detectCommandThreats u c.text).1 = .hardline ↔ Removes u c.seen ∨ c.RefusedOtherwise := by
  rw [hardline_iff_search, hardlinePatterns]
  simp only [List.mem_append, or_and_right, exists_or, search_remove_iff hu]
  constructor
  · rintro (⟨t, ht, hremoves⟩ | hother)
    · by_cases heq : t = c.command ++ c.after
      · rw [heq] at hremoves
        exact Or.inl hremoves
      · exact Or.inr (Or.inl ⟨t, ht, heq, hremoves⟩)
    · exact Or.inr (Or.inr hother)
  · rintro (hremoves | ⟨t, ht, -, hremoves⟩ | hother)
    · exact Or.inl ⟨_, c.start, hremoves⟩
    · exact Or.inl ⟨t, ht, hremoves⟩
    · exact Or.inr hother

end RootRemoval

/-- `sudo -n rm -rf /`, with a command before and one behind. -/
def wrappedRemoval : RootRemoval Unicode.ascii where
  before := "ls;".toList
  command := " sudo -n rm -rf / ".toList
  after := "|| true".toList
  start := Or.inr (Or.inl ⟨"ls".toList, ';', by decide, by decide⟩)
  ends c hc := by
    obtain rfl : '|' = c := by simpa using hc
    decide
  wrappers := [.withSudo ["-n".toList]]
  args := ["-rf".toList, "/".toList]
  words_eq := by decide
  wrappers_ok := by
    intro w hw
    rw [List.mem_singleton.1 hw]
    intro f hf
    rw [List.mem_singleton.1 hf]
    exact ⟨['n'], by decide, by simp, Py.forall_of_all (by decide)⟩
  recursive := ⟨"-rf".toList, by decide, by decide⟩
  root := by decide

/-- `rm -r -f /`. -/
def separateFlags : RootRemoval Unicode.ascii where
  before := []
  command := "rm -r -f /".toList
  after := []
  start := Or.inl rfl
  ends := by simp
  wrappers := []
  args := ["-r".toList, "-f".toList, "/".toList]
  words_eq := by decide
  wrappers_ok := by simp
  recursive := ⟨"-r".toList, by decide, by decide⟩
  root := by decide

theorem hardline_iff_wrappedRemoval :
    (detectCommandThreats Unicode.ascii wrappedRemoval.text).1 = .hardline ↔
      Removes Unicode.ascii wrappedRemoval.seen ∨ wrappedRemoval.RefusedOtherwise :=
  RootRemoval.hardline_iff (fun _ h => absurd h Bool.false_ne_true) wrappedRemoval

/-- It passes as harmless. -/
theorem separateFlags_passes :
    detectCommandThreats Unicode.ascii separateFlags.text = (.ok, none) := by
  decide +kernel

end OxenClaw.CommandGate
