import OxenClaw.Lib.Python
import OxenClaw.Lib.QuotedWords
import OxenClaw.Lib.Traverse

/-!
# The shell whitelist

`isAutoApprovable` cuts a command at every `|`, reads each segment with `shlex.split` and
looks up what it begins with. The shell reads the whole command by its own rules.

Where every segment is read, no quote is open at a `|`, so the shell cuts there too
(`lex_segments`). It runs one pipeline unless there is an `&` outside of quotes, which
is not among the characters refused (`pipeline_iff`). What it runs begins as `shlex` reads
it, if the text is plain (`shellCommands_of_plain`).
-/

namespace OxenClaw.Approvals

open Words

/-! ## The gate -/

/-- What `_DANGEROUS_METACHARS` finds. -/
def dangerousMetachars : List String :=
  [";", "||", "&&", ">", "<", "`", "$(", "\\\n", "\n"]

def hasDangerousMetachars (command : String) : Bool :=
  dangerousMetachars.any fun sub => Py.contains sub command

/-- The leading binary and the two-word prefix. -/
def leads : List String → List String
  | [] => []
  | [first] => [first]
  | first :: second :: _ => [first, s!"{first} {second}"]

/-- `_segment_first_match`. -/
def segmentFirstMatch (tokens whitelist : List String) : Bool :=
  (leads tokens).any (· ∈ whitelist)

/-- `shlex.split`, `none` when it raises. -/
def shlexSplit (s : List Char) : Option (List String) :=
  (Rules.shlex.lex s).map fun tokens => (words tokens).map String.ofList

/-- `[s.strip() for s in command.split("|")]` -/
def segments (command : String) : List (List Char) :=
  (command.toList.splitOn '|').map Py.strip

/-- `is_auto_approvable`. -/
def isAutoApprovable (command : String) (whitelist : List String) : Bool :=
  if Py.strip command.toList = [] then false
  else if hasDangerousMetachars command then false
  else if ¬(segments command).all (· ≠ []) then false
  else (segments command).all fun seg =>
    match shlexSplit seg with
    | none => false
    | some tokens => segmentFirstMatch tokens whitelist

/-- The tokens of the segments, `none` where the command is refused whatever the whitelist. -/
def segmentTokens (command : String) : Option (List (List String)) :=
  if Py.strip command.toList = [] then none
  else if hasDangerousMetachars command then none
  else if ¬(segments command).all (· ≠ []) then none
  else (segments command).mapM shlexSplit

/-! ## The shell -/

/-- The words of each command the shell runs, if it reads one pipeline. -/
def shellCommands (command : String) : Option (List (List String)) :=
  (pipeline command.toList).map (List.map (List.map String.ofList))

/-- The command is one pipeline, and each command of it begins with a whitelisted name. -/
def RunsWhitelisted (command : String) (whitelist : List String) : Prop :=
  ∃ commands, shellCommands command = some commands ∧
    ∀ ws ∈ commands, ∃ lead ∈ leads ws, lead ∈ whitelist

/-- There is an `&` outside of quotes. -/
def hasUnquotedAmpersand (command : String) : Bool :=
  (Rules.posix.lex command.toList).any (Token.control '&' ∈ ·)

/-- The shell reads one pipeline, and each of its commands has the leads of a segment. -/
structure AgreesWithShell (command : String) : Prop where
  ampersand : hasUnquotedAmpersand command = false
  leads : ∀ tss commands, segmentTokens command = some tss →
    shellCommands command = some commands →
    ∀ ws ∈ commands, ∃ ts ∈ tss, leads ts ⊆ leads ws

/-- Its only space is blanks and tabs, and no dollar sign has a backslash before it. -/
structure PlainText (command : String) : Prop where
  space : ∀ c ∈ command.toList, Py.isSpace c = true → c = ' ' ∨ c = '\t'
  dollar : ¬['\\', '$'] <:+: command.toList

/-! ## What the gate looks at -/

/-- The gate looks at the leads of the segments alone. -/
theorem isAutoApprovable_iff {command : String} {whitelist : List String} :
    isAutoApprovable command whitelist = true ↔ ∃ tss, segmentTokens command = some tss ∧
      ∀ ts ∈ tss, ∃ lead ∈ leads ts, lead ∈ whitelist := by
  have hmatch : ∀ tokens, segmentFirstMatch tokens whitelist = true ↔
      ∃ lead ∈ leads tokens, lead ∈ whitelist := fun tokens => by
    simp [segmentFirstMatch]
  have hseg : ∀ seg : List Char, (match shlexSplit seg with
      | none => false
      | some tokens => segmentFirstMatch tokens whitelist) =
      (shlexSplit seg).any (segmentFirstMatch · whitelist) := fun seg => by
    cases shlexSplit seg <;> rfl
  unfold isAutoApprovable segmentTokens
  split_ifs
  · simp
  · simp
  · simp only [hseg, Traverse.all_any_iff, hmatch]
  · simp

/-- A refused character is not there. -/
theorem not_mem_of_not_dangerous {command : String} (h : hasDangerousMetachars command = false)
    (sub : String) {c : Char} (hsub : sub ∈ dangerousMetachars) (hc : sub.toList = [c]) :
    c ∉ command.toList := by
  intro hmem
  have hnone := List.any_eq_false.1 h sub hsub
  rw [Py.contains, hc, decide_eq_true_eq, List.singleton_infix_iff] at hnone
  exact hnone hmem

/-- The tokens `shlex` has for a segment that is not stripped yet. -/
def shlexTokens (seg : List Char) : List String :=
  (shlexSplit (Py.strip seg)).getD []

/-- What is known of a command that is not refused outright. -/
structure Looked (command : String) (tss : List (List String)) : Prop where
  semicolon : ';' ∉ command.toList
  newline : '\n' ∉ command.toList
  backtick : Char.ofNat 96 ∉ command.toList
  nonempty : ∀ seg ∈ command.toList.splitOn '|', Py.strip seg ≠ []
  split : ∀ seg ∈ command.toList.splitOn '|',
    shlexSplit (Py.strip seg) = some (shlexTokens seg)
  tokens : tss = (command.toList.splitOn '|').map shlexTokens

theorem looked_of_segmentTokens {command : String} {tss : List (List String)}
    (h : segmentTokens command = some tss) : Looked command tss := by
  unfold segmentTokens at h
  split_ifs at h with hblank hdangerous hempty
  · rw [Bool.not_eq_true] at hdangerous
    obtain ⟨hsome, htokens⟩ := Traverse.getD_of_mapM [] h
    rw [segments, List.map_map] at htokens
    refine ⟨not_mem_of_not_dangerous hdangerous ";" (by decide) rfl,
      not_mem_of_not_dangerous hdangerous "\n" (by decide) rfl,
      not_mem_of_not_dangerous hdangerous "`" (by decide) rfl, fun seg hseg => ?_,
      fun seg hseg => hsome _ (List.mem_map_of_mem hseg), htokens⟩
    have hall := List.all_eq_true.1 hempty (Py.strip seg) (List.mem_map_of_mem hseg)
    simpa using hall

/-! ## What the shell makes of the segments -/

theorem infix_intercalate {α : Type*} (sep : List α) {seg : List α} : ∀ {segs : List (List α)},
    seg ∈ segs → seg <:+: sep.intercalate segs
  | [s], h => by
    rw [List.mem_singleton.1 h, List.intercalate_singleton]
  | s :: s' :: segs, h => by
    rw [List.intercalate_cons_cons, List.append_assoc]
    rcases List.mem_cons.1 h with rfl | h
    · exact (List.prefix_append _ _).isInfix
    · have hrest := infix_intercalate sep h
      exact hrest.trans ((List.suffix_append _ _).trans (List.suffix_append _ _)).isInfix

theorem not_mem_of_mem_splitOn {α : Type*} [DecidableEq α] {a : α} : ∀ {cs seg : List α},
    seg ∈ cs.splitOn a → a ∉ seg
  | [], seg, h => by
    obtain rfl := List.mem_singleton.1 (List.splitOn_nil a ▸ h)
    exact List.not_mem_nil
  | c :: cs, seg, h => by
    obtain ⟨s, ss, hsplit⟩ := List.exists_cons_of_ne_nil (List.splitOn_ne_nil a cs)
    have hrest : ∀ s' ∈ s :: ss, a ∉ s' := fun s' hs' => not_mem_of_mem_splitOn (hsplit ▸ hs')
    rw [List.splitOn_cons_eq_if_modifyHead, hsplit] at h
    split_ifs at h with hc
    · rcases List.mem_cons.1 h with rfl | h
      · exact List.not_mem_nil
      · exact hrest seg h
    · rw [List.modifyHead_cons] at h
      rcases List.mem_cons.1 h with rfl | h
      · intro hmem
        rcases List.mem_cons.1 hmem with rfl | hmem
        · exact hc (beq_self_eq_true _)
        · exact hrest s List.mem_cons_self hmem
      · exact hrest seg (List.mem_cons_of_mem _ h)

theorem foldl_step_of_space : ∀ {cs : List Char}, (∀ c ∈ cs, Py.isSpace c = true) →
    cs.foldl Shape.step .out = .out
  | [], _ => rfl
  | c :: cs, h => by
    have hstep : Shape.step .out c = .out := by
      have hc := h c List.mem_cons_self
      rw [Shape.step, if_neg, if_neg, if_neg] <;> rintro rfl <;> revert hc <;> decide
    rw [List.foldl_cons, hstep]
    exact foldl_step_of_space fun d hd => h d (List.mem_cons_of_mem _ hd)

/-- Space around a text opens no quote. -/
theorem isSome_lex_of_strip {seg : List Char} (h : (Rules.shlex.lex (Py.strip seg)).isSome = true) :
    (Rules.posix.lex seg).isSome = true := by
  obtain ⟨before, after, hseg, hbefore, hafter⟩ := Py.exists_append_strip seg
  rw [Rules.isSome_lex_iff] at h ⊢
  rw [hseg, List.foldl_append, List.foldl_append, foldl_step_of_space hbefore, h,
    foldl_step_of_space hafter]

/-- The tokens the shell has for a segment. -/
def shellTokens (seg : List Char) : List Token :=
  (Rules.posix.lex seg).getD []

section
variable {command : String} {tss : List (List String)} {seg : List Char}

theorem isSome_lex_shlex (h : Looked command tss) (hseg : seg ∈ command.toList.splitOn '|') :
    (Rules.shlex.lex (Py.strip seg)).isSome = true := by
  have hsplit := h.split seg hseg
  rw [shlexSplit] at hsplit
  obtain ⟨ts, hts, -⟩ := Option.map_eq_some_iff.1 hsplit
  rw [hts, Option.isSome_some]

theorem lex_segment (h : Looked command tss) (hseg : seg ∈ command.toList.splitOn '|') :
    Rules.posix.lex seg = some (shellTokens seg) := by
  have hsome := isSome_lex_of_strip (isSome_lex_shlex h hseg)
  obtain ⟨ts, hts⟩ := Option.isSome_iff_exists.1 hsome
  rw [shellTokens, hts, Option.getD_some]

/-- The shell reads the command as its segments, each by itself. -/
theorem lex_segments (h : Looked command tss) : Rules.posix.lex command.toList =
    some ([Token.control '|'].intercalate ((command.toList.splitOn '|').map shellTokens)) := by
  have hread := Rules.lex_intercalate (r := Rules.posix) (c := '|') (by decide) (by decide)
    shellTokens (List.splitOn_ne_nil _ _) fun seg hseg => lex_segment h hseg
  rwa [List.intercalate_splitOn] at hread

theorem isSpace_of_blank {c : Char} (h : Rules.posix.blank c = true) : Py.isSpace c = true := by
  have hc : c = ' ' ∨ c = '\t' := by simpa [Rules.posix] using h
  rcases hc with rfl | rfl <;> decide

theorem infix_of_mem_splitOn (hseg : seg ∈ command.toList.splitOn '|') :
    seg <:+: command.toList := by
  have hsplit := infix_intercalate ['|'] hseg
  rwa [List.intercalate_splitOn] at hsplit

theorem isSpace_of_shlex_blank {c : Char} (h : Rules.shlex.blank c = true) :
    Py.isSpace c = true := by
  have hc : c = ' ' ∨ c = '\t' ∨ c = '\r' ∨ c = '\n' := by simpa [Rules.shlex, or_assoc] using h
  rcases hc with rfl | rfl | rfl | rfl <;> decide

/-- A segment has characters that are neither blank nor a continuation, and has tokens. -/
theorem shellTokens_ne_nil (h : Looked command tss) (hseg : seg ∈ command.toList.splitOn '|') :
    shellTokens seg ≠ [] := by
  have hpart := infix_of_mem_splitOn hseg
  obtain ⟨before, after, hstrip, -, -⟩ := Py.exists_append_strip seg
  obtain ⟨c, hc, hspace⟩ := Py.exists_mem_strip (h.nonempty seg hseg)
  have hmem : c ∈ seg := by
    rw [hstrip]
    simp [hc]
  have hblank : Rules.posix.blank c = false := by
    by_contra hblank
    rw [Bool.not_eq_false] at hblank
    rw [isSpace_of_blank hblank] at hspace
    cases hspace
  refine Rules.lex_ne_nil (fun d hd => ?_) (lex_segment h hseg) hmem hblank
  have hne : d ≠ '\n' := by
    rintro rfl
    exact h.newline (hpart.mem hd)
  simpa [Rules.posix] using hne

/-- Without an unquoted `&`, a segment is words alone. -/
theorem control_not_mem_shellTokens (h : Looked command tss)
    (hamp : hasUnquotedAmpersand command = false) (hseg : seg ∈ command.toList.splitOn '|')
    (c : Char) : .control c ∉ shellTokens seg := by
  intro hc
  have hpart := infix_of_mem_splitOn hseg
  obtain ⟨hmem, hcontrol⟩ := Rules.control_of_mem_lex (lex_segment h hseg) hc
  have hcases : c = ';' ∨ c = '&' ∨ c = '|' ∨ c = '\n' := by
    simpa [Rules.posix, or_assoc] using hcontrol
  rcases hcases with rfl | rfl | rfl | rfl
  · exact h.semicolon (hpart.mem hmem)
  · have hall := infix_intercalate [Token.control '|']
      (List.mem_map_of_mem (f := shellTokens) hseg)
    rw [hasUnquotedAmpersand, lex_segments h, Option.any_some, decide_eq_false_iff_not] at hamp
    exact hamp (hall.mem hc)
  · exact not_mem_of_mem_splitOn hseg hmem
  · exact h.newline (hpart.mem hmem)

/-- The words the shell has for a segment. -/
def shellWords (seg : List Char) : List Word :=
  words (shellTokens seg)

/-- Without an unquoted `&`, the shell runs the segments. -/
theorem pipeline_of_looked (h : Looked command tss)
    (hamp : hasUnquotedAmpersand command = false) :
    pipeline command.toList = some ((command.toList.splitOn '|').map shellWords) := by
  have hwords : ∀ seg ∈ command.toList.splitOn '|',
      (shellWords seg).map Token.word = shellTokens seg := fun seg hseg =>
    map_word_words (control_not_mem_shellTokens h hamp hseg)
  have htokens : (command.toList.splitOn '|').map shellTokens =
      ((command.toList.splitOn '|').map shellWords).map (List.map .word) := by
    rw [List.map_map]
    exact List.map_congr_left fun seg hseg => (hwords seg hseg).symm
  rw [pipeline, lex_segments h, Option.bind_some, htokens, commands_intercalate]
  · simp
  · intro ws hws hnil
    obtain ⟨seg, hseg, rfl⟩ := List.mem_map.1 hws
    refine shellTokens_ne_nil h hseg ?_
    rw [← hwords seg hseg, hnil, List.map_nil]

/-- A command that is looked at is one pipeline exactly without an unquoted `&`. -/
theorem pipeline_iff (h : Looked command tss) :
    (∃ found, shellCommands command = some found) ↔ hasUnquotedAmpersand command = false := by
  constructor
  · rintro ⟨found, hfound⟩
    obtain ⟨wss, hwss, -⟩ := Option.map_eq_some_iff.1 hfound
    rw [pipeline, lex_segments h, Option.bind_some] at hwss
    rw [hasUnquotedAmpersand, lex_segments h, Option.any_some, decide_eq_false_iff_not]
    intro hamp
    exact absurd (eq_pipe_of_commands hwss hamp) (by decide)
  · intro hamp
    rw [shellCommands, pipeline_of_looked h hamp]
    exact ⟨_, rfl⟩

/-! ## Plain text -/

/-- The blanks differ in space that is neither a blank nor a tab. -/
theorem blank_eq_of_plain {c : Char} (h : Py.isSpace c = true → c = ' ' ∨ c = '\t') :
    Rules.shlex.blank c = Rules.posix.blank c := by
  have hreturn : c ≠ '\r' := by
    rintro rfl
    revert h
    decide
  have hnewline : c ≠ '\n' := by
    rintro rfl
    revert h
    decide
  simp [Rules.shlex, Rules.posix, hreturn, hnewline]

/-- In plain text both read a segment alike. -/
theorem shlexTokens_of_plain (h : Looked command tss) (hplain : PlainText command)
    (hamp : hasUnquotedAmpersand command = false) (hseg : seg ∈ command.toList.splitOn '|') :
    shlexTokens seg = (shellWords seg).map String.ofList := by
  have hpart := infix_of_mem_splitOn hseg
  have hshlex := isSome_lex_shlex h hseg
  have hread := lex_segment h hseg
  have hcontrols := control_not_mem_shellTokens h hamp hseg
  obtain ⟨before, after, hstrip, hbefore, hafter⟩ := Py.exists_append_strip seg
  have hcore : Py.strip seg <:+: command.toList :=
    List.IsInfix.trans ⟨before, after, hstrip.symm⟩ hpart
  have hblanks : ∀ c ∈ seg, Py.isSpace c = true → Rules.posix.blank c = true := by
    intro c hc hspace
    rcases hplain.space c (hpart.mem hc) hspace with rfl | rfl <;> decide
  have hb : ∀ c ∈ before, Rules.posix.blank c = true := fun c hc =>
    hblanks c (by rw [hstrip]; simp [hc]) (hbefore c hc)
  have ha : ∀ c ∈ after, Rules.posix.blank c = true := fun c hc =>
    hblanks c (by rw [hstrip]; simp [hc]) (hafter c hc)
  -- the shell reads the stripped segment as it reads the whole one
  have hlex : Rules.posix.lex (Py.strip seg) = some (shellTokens seg) := by
    rw [Rules.isSome_lex_iff, ← Rules.isSome_lex_iff Rules.posix] at hshlex
    obtain ⟨ts, hts⟩ := Option.isSome_iff_exists.1 hshlex
    have hwhole : Rules.posix.lex seg = some ts := by
      conv_lhs => rw [hstrip, List.append_assoc]
      rw [Rules.lex_blanks_append hb, Rules.lex_append_blanks ha hts]
    rw [hts, ← hwhole, hread]
  have hlex' : Rules.shlex.lex (Py.strip seg) = some (shellTokens seg) := by
    refine Rules.lex_eq_of_agree (fun _ => rfl) (fun c hc => ?_) (fun c hc => ?_)
      (fun c hc => ?_) hlex hcontrols
    · exact blank_eq_of_plain fun hspace => hplain.space c (hcore.mem hc) hspace
    · have hne : c ≠ '\n' := by
        rintro rfl
        exact h.newline (hcore.mem hc)
      simpa [Rules.posix, Rules.shlex] using hne
    · have hdollar : c ≠ '$' := by
        rintro rfl
        exact hplain.dollar (hc.trans hcore)
      have hbacktick : c.toNat ≠ 96 := by
        intro hc96
        have hmem : c ∈ command.toList := (hc.trans hcore).mem (by simp)
        have hchar : c = Char.ofNat 96 := by rw [← hc96, Char.ofNat_toNat]
        exact h.backtick (hchar ▸ hmem)
      simp [Rules.posix, Rules.shlex, hdollar, hbacktick]
  rw [shlexTokens, shlexSplit, hlex']
  rfl

/-- What the shell runs of plain text are the segments as `shlex` reads them. -/
theorem shellCommands_of_plain (h : segmentTokens command = some tss) (hplain : PlainText command)
    (hamp : hasUnquotedAmpersand command = false) : shellCommands command = some tss := by
  have hlooked := looked_of_segmentTokens h
  rw [shellCommands, pipeline_of_looked hlooked hamp, Option.map_some, List.map_map,
    hlooked.tokens]
  refine congrArg some (List.map_congr_left fun seg hseg => ?_)
  exact (shlexTokens_of_plain hlooked hplain hamp hseg).symm

/-- A segment has a token. -/
theorem leads_ne_nil (h : segmentTokens command = some tss) {ts : List String} (hts : ts ∈ tss) :
    leads ts ≠ [] := by
  have hlooked := looked_of_segmentTokens h
  rw [hlooked.tokens] at hts
  obtain ⟨seg, hseg, rfl⟩ := List.mem_map.1 hts
  obtain ⟨read, hread⟩ := Option.isSome_iff_exists.1 (isSome_lex_shlex hlooked hseg)
  obtain ⟨c, hc, hspace⟩ := Py.exists_mem_strip (hlooked.nonempty seg hseg)
  have hblank : Rules.shlex.blank c = false := by
    by_contra hblank
    rw [Bool.not_eq_false] at hblank
    rw [isSpace_of_shlex_blank hblank] at hspace
    cases hspace
  have hwords : (words read).map Token.word = read := map_word_words fun c hcontrol => by
    cases (Rules.control_of_mem_lex hread hcontrol).2
  have hnil : words read ≠ [] := fun hnil =>
    Rules.lex_ne_nil (fun _ _ => rfl) hread hc hblank (by rw [← hwords, hnil, List.map_nil])
  obtain ⟨w, ws, hw⟩ := List.exists_cons_of_ne_nil hnil
  rw [shlexTokens, shlexSplit, hread, Option.map_some, Option.getD_some, hw, List.map_cons]
  cases ws <;> exact List.cons_ne_nil _ _

end

/-! ## When the gate is sound -/

/-- A gate that lets a command through for the leads of its segments is sound for every
whitelist exactly when each command run has all leads of some segment. -/
theorem whitelists_iff {tss wss : List (List String)} :
    (∀ whitelist : List String, (∀ ts ∈ tss, ∃ lead ∈ leads ts, lead ∈ whitelist) →
        ∀ ws ∈ wss, ∃ lead ∈ leads ws, lead ∈ whitelist) ↔
      ∀ ws ∈ wss, ∃ ts ∈ tss, leads ts ⊆ leads ws := by
  constructor
  · intro h ws hws
    by_contra hnone
    push Not at hnone
    -- the leads that the command does not have are a whitelist
    obtain ⟨lead, hlead, hmem⟩ := h ((tss.flatMap leads).filter (· ∉ leads ws))
      (fun ts hts => by
        obtain ⟨lead, hlead, hnot⟩ : ∃ lead ∈ leads ts, lead ∉ leads ws := by
          by_contra hall
          push Not at hall
          exact hnone ts hts hall
        refine ⟨lead, hlead, List.mem_filter.2 ⟨List.mem_flatMap.2 ⟨ts, hts, hlead⟩, ?_⟩⟩
        simpa using hnot) ws hws
    have hnot := (List.mem_filter.1 hmem).2
    rw [decide_eq_true_eq] at hnot
    exact hnot hlead
  · intro h whitelist hgate ws hws
    obtain ⟨ts, hts, hsub⟩ := h ws hws
    obtain ⟨lead, hlead, hmem⟩ := hgate ts hts
    exact ⟨lead, hsub hlead, hmem⟩

/-- For every whitelist what the gate lets through is one pipeline of whitelisted commands,
exactly when the command is refused whatever the whitelist or the shell agrees with `shlex`
about it. Plain text without an unquoted `&` is always read alike. -/
theorem isAutoApprovable_sound_iff (command : String) :
    ((∀ whitelist, isAutoApprovable command whitelist = true →
          RunsWhitelisted command whitelist) ↔
        segmentTokens command = none ∨ AgreesWithShell command) ∧
      (PlainText command → hasUnquotedAmpersand command = false →
        ∀ whitelist, isAutoApprovable command whitelist = true →
          RunsWhitelisted command whitelist) := by
  refine ⟨?_, fun hplain hamp whitelist happroved => ?_⟩
  · rcases htokens : segmentTokens command with _ | tss
    · refine iff_of_true (fun whitelist happroved => ?_) (Or.inl rfl)
      obtain ⟨tss, htss, -⟩ := isAutoApprovable_iff.1 happroved
      rw [htokens] at htss
      cases htss
    have hlooked := looked_of_segmentTokens htokens
    have hgate : ∀ whitelist, isAutoApprovable command whitelist = true ↔
        ∀ ts ∈ tss, ∃ lead ∈ leads ts, lead ∈ whitelist := fun whitelist => by
      rw [isAutoApprovable_iff, htokens]
      simp
    have hne : ∀ ts ∈ tss, leads ts ≠ [] := fun ts hts => leads_ne_nil htokens hts
    constructor
    · intro hsound
      have hall := hsound (tss.flatMap leads) ((hgate _).2 fun ts hts => by
        obtain ⟨lead, hlead⟩ := List.exists_mem_of_ne_nil _ (hne ts hts)
        exact ⟨lead, hlead, List.mem_flatMap.2 ⟨ts, hts, hlead⟩⟩)
      obtain ⟨wss, hwss, -⟩ := hall
      have hleads := whitelists_iff.1 fun whitelist happroved => by
        obtain ⟨wss', hwss', hall⟩ := hsound whitelist ((hgate whitelist).2 happroved)
        obtain rfl : wss' = wss := Option.some.inj (hwss'.symm.trans hwss)
        exact hall
      refine Or.inr ⟨(pipeline_iff hlooked).1 ⟨wss, hwss⟩, fun tss' wss' htss' hwss' => ?_⟩
      obtain rfl : tss = tss' := Option.some.inj (htokens.symm.trans htss')
      obtain rfl : wss = wss' := Option.some.inj (hwss.symm.trans hwss')
      exact hleads
    · rintro (hnone | hagrees) whitelist happroved
      · cases hnone
      · obtain ⟨wss, hwss⟩ := (pipeline_iff hlooked).2 hagrees.ampersand
        exact ⟨wss, hwss, whitelists_iff.2 (hagrees.leads tss wss htokens hwss) whitelist
          ((hgate whitelist).1 happroved)⟩
  · obtain ⟨tss, htss, hall⟩ := isAutoApprovable_iff.1 happroved
    exact ⟨tss, shellCommands_of_plain htss hplain hamp, hall⟩

/-- A command in the background and one that is not whitelisted. -/
theorem isAutoApprovable_not_sound :
    ¬∀ (command : String) (whitelist : List String), isAutoApprovable command whitelist = true →
      RunsWhitelisted command whitelist := by
  intro h
  obtain ⟨found, hfound, -⟩ := h "ls & rm -rf /" ["ls"] (by decide)
  have hnone : shellCommands "ls & rm -rf /" = none := by decide
  rw [hnone] at hfound
  cases hfound

/-- A pipe of two whitelisted commands. -/
theorem isAutoApprovable_sound_iff_pipe :
    RunsWhitelisted "yf quote AAPL | jq '.price'" ["yf", "jq"] :=
  (isAutoApprovable_sound_iff "yf quote AAPL | jq '.price'").2
    ⟨Py.forall_of_all (by decide), by decide⟩ (by decide) ["yf", "jq"] (by decide)

end OxenClaw.Approvals
