import Mathlib.Data.List.Infix

/-!
# Words with quotes

Text is cut into words at blanks and at control characters, unless they are quoted : by a
backslash, by single quotes, or by double quotes, between which a backslash is literal
unless it stands before one of a few characters. What counts as which is given by `Rules`.
`Rules.posix` are those of the shell, `Rules.shlex` those of `shlex.split`.

A lexer reads character by character (`Rules.step`), so what is read of two texts one after
the other comes of reading the first (`Rules.scan_append`). Where quotes open and close is
the same under all rules (`Rules.isSome_lex_iff`), and two lexers that agree on the characters of a
text read the same words (`Rules.lex_eq_of_agree`).
-/

namespace Words

abbrev Word := List Char

/-- A word without its quotes, or a control character. Of an operator of two characters each
is a token. -/
inductive Token where
  | word (text : Word)
  | control (c : Char)
  deriving DecidableEq

/-- Where the lexer is, with the word read so far. -/
inductive State where
  | out (word : Option Word)
  | escape (word : Option Word)
  | single (word : Word)
  | double (word : Word)
  | doubleEscape (word : Word)

/-- The characters a lexer takes specially. -/
structure Rules where
  blank : Char → Bool
  control : Char → Bool
  /-- Between double quotes, what a backslash is removed before. -/
  escapable : Char → Bool
  /-- What a backslash is removed with, outside of single quotes. -/
  continues : Char → Bool
  plain : ∀ c, blank c = true ∨ control c = true → c ≠ '\\' ∧ c ≠ '\'' ∧ c ≠ '"'

/-- The word read so far is complete. -/
def flush : Option Word → List Token
  | none => []
  | some w => [.word w]

namespace Rules

variable (r : Rules)

/-- The next state and the tokens completed. -/
def step : State → Char → State × List Token
  | .out w, c =>
    if r.blank c then (.out none, flush w)
    else if r.control c then (.out none, flush w ++ [.control c])
    else if c = '\\' then (.escape w, [])
    else if c = '\'' then (.single (w.getD []), [])
    else if c = '"' then (.double (w.getD []), [])
    else (.out (some (w.getD [] ++ [c])), [])
  | .escape w, c =>
    if r.continues c then (.out w, []) else (.out (some (w.getD [] ++ [c])), [])
  | .single w, c => if c = '\'' then (.out (some w), []) else (.single (w ++ [c]), [])
  | .double w, c =>
    if c = '"' then (.out (some w), [])
    else if c = '\\' then (.doubleEscape w, [])
    else (.double (w ++ [c]), [])
  | .doubleEscape w, c =>
    if r.continues c then (.double w, [])
    else if r.escapable c then (.double (w ++ [c]), [])
    else (.double (w ++ ['\\', c]), [])

def scan : State → List Char → State × List Token
  | s, [] => (s, [])
  | s, c :: cs => ((scan (r.step s c).1 cs).1, (r.step s c).2 ++ (scan (r.step s c).1 cs).2)

/-- The last word, if no quote is open. -/
def finish : State → Option (List Token)
  | .out w => some (flush w)
  | _ => none

/-- The tokens of a text. -/
def lex (cs : List Char) : Option (List Token) :=
  (finish (r.scan (.out none) cs).1).map fun last => (r.scan (.out none) cs).2 ++ last

/-- The control operators are `;`, `&`, `&&`, `|`, `||` and newline. -/
def posix : Rules where
  blank c := c = ' ' || c = '\t'
  control c := c = ';' || c = '&' || c = '|' || c = '\n'
  escapable c := c = '$' || c.toNat = 96 || c = '"' || c = '\\'
  continues c := c = '\n'
  plain c hc := by
    refine ⟨?_, ?_, ?_⟩ <;> rintro rfl <;> revert hc <;> decide

/-- `shlex.split`, in POSIX mode and without comments. -/
def shlex : Rules where
  blank c := c = ' ' || c = '\t' || c = '\r' || c = '\n'
  control _ := false
  escapable c := c = '"' || c = '\\'
  continues _ := false
  plain c hc := by
    refine ⟨?_, ?_, ?_⟩ <;> rintro rfl <;> revert hc <;> decide

end Rules

/-! ## Reading on -/

namespace Rules

variable {r : Rules} {s : State} {cs ds : List Char} {ts : List Token}

theorem scan_append (s : State) : ∀ cs ds : List Char, r.scan s (cs ++ ds) =
    ((r.scan (r.scan s cs).1 ds).1, (r.scan s cs).2 ++ (r.scan (r.scan s cs).1 ds).2)
  | [], ds => rfl
  | c :: cs, ds => by
    simp only [List.cons_append, scan, scan_append _ cs ds, List.append_assoc]

/-- What is read ended outside of quotes. -/
theorem lex_eq_some (h : r.lex cs = some ts) :
    ∃ w read, r.scan (.out none) cs = (.out w, read) ∧ ts = read ++ flush w := by
  rcases hscan : r.scan (.out none) cs with ⟨s, read⟩
  rw [lex, hscan] at h
  obtain ⟨last, hlast, rfl⟩ := Option.map_eq_some_iff.1 h
  cases s with
  | out w =>
    obtain rfl := Option.some.inj hlast
    exact ⟨w, read, rfl, rfl⟩
  | escape w => cases hlast
  | single w => cases hlast
  | double w => cases hlast
  | doubleEscape w => cases hlast

/-- A control character ends what was read, and reading starts anew. -/
theorem lex_append_control (h : r.lex cs = some ts) {c : Char} (hblank : r.blank c = false)
    (hc : r.control c = true) (ds : List Char) :
    r.lex (cs ++ c :: ds) = (r.lex ds).map fun us => ts ++ .control c :: us := by
  obtain ⟨w, read, hscan, rfl⟩ := lex_eq_some h
  have hstep : r.step (.out w) c = (.out none, flush w ++ [.control c]) := by
    simp [step, hblank, hc]
  simp only [lex, scan_append, hscan, scan, hstep, Option.map_map, Function.comp_def,
    List.append_assoc, List.cons_append, List.nil_append]

theorem lex_blanks_append {b : List Char} (hb : ∀ c ∈ b, r.blank c = true) (cs : List Char) :
    r.lex (b ++ cs) = r.lex cs := by
  have hscan : r.scan (.out none) b = (.out none, []) := by
    induction b with
    | nil => rfl
    | cons c b ih =>
      have hstep : r.step (.out none) c = (.out none, []) := by
        simp [step, flush, hb c List.mem_cons_self]
      simp only [scan, hstep, ih fun d hd => hb d (List.mem_cons_of_mem _ hd), List.append_nil]
  simp only [lex, scan_append, hscan, List.nil_append]

theorem lex_append_blanks {b : List Char} (hb : ∀ c ∈ b, r.blank c = true)
    (h : r.lex cs = some ts) : r.lex (cs ++ b) = some ts := by
  obtain ⟨w, read, hscan, rfl⟩ := lex_eq_some h
  have hend : ∀ {b : List Char} {w : Option Word}, (∀ c ∈ b, r.blank c = true) →
      ∃ w', (r.scan (.out w) b).1 = .out w' ∧ (r.scan (.out w) b).2 ++ flush w' = flush w := by
    intro b
    induction b with
    | nil => exact fun {w} _ => ⟨w, rfl, rfl⟩
    | cons c b ih =>
      intro w hb
      have hstep : r.step (.out w) c = (.out none, flush w) := by
        simp [step, hb c List.mem_cons_self]
      obtain ⟨w', hw', htokens⟩ := ih (w := none) fun d hd => hb d (List.mem_cons_of_mem _ hd)
      refine ⟨w', by simp only [scan, hstep, hw'], ?_⟩
      simp only [scan, hstep, List.append_assoc, htokens]
      exact List.append_nil _
  obtain ⟨w', hw', htokens⟩ := hend (w := w) hb
  simp only [lex, scan_append, hscan, hw', finish, Option.map_some, List.append_assoc, htokens]

end Rules

/-! ## Where quotes are open -/

/-- A state without its word. -/
inductive Shape where
  | out
  | escape
  | single
  | double
  | doubleEscape
  deriving DecidableEq

def State.shape : State → Shape
  | .out _ => .out
  | .escape _ => .escape
  | .single _ => .single
  | .double _ => .double
  | .doubleEscape _ => .doubleEscape

def Shape.step : Shape → Char → Shape
  | .out, c =>
    if c = '\\' then .escape
    else if c = '\'' then .single
    else if c = '"' then .double
    else .out
  | .escape, _ => .out
  | .single, c => if c = '\'' then .out else .single
  | .double, c => if c = '"' then .out else if c = '\\' then .doubleEscape else .double
  | .doubleEscape, _ => .double

namespace Rules

variable {r : Rules} {s : State} {cs : List Char} {ts : List Token}

/-- The quotes are the same under all rules. -/
theorem shape_step (r : Rules) (s : State) (c : Char) :
    (r.step s c).1.shape = s.shape.step c := by
  cases s with
  | out w =>
    by_cases hspecial : r.blank c = true ∨ r.control c = true
    · obtain ⟨hescape, hsingle, hdouble⟩ := r.plain c hspecial
      have hstep : (r.step (.out w) c).1 = .out none := by
        rcases hspecial with hblank | hcontrol
        · simp only [step, hblank, if_true]
        · simp only [step, hcontrol, if_true]
          split_ifs <;> rfl
      rw [hstep, State.shape, State.shape, Shape.step, if_neg hescape, if_neg hsingle,
        if_neg hdouble]
    · obtain ⟨hblank, hcontrol⟩ := not_or.1 hspecial
      simp only [step, State.shape, Shape.step, if_neg hblank, if_neg hcontrol]
      split_ifs <;> rfl
  | escape w =>
    simp only [step, State.shape, Shape.step]
    split_ifs <;> rfl
  | single w =>
    simp only [step, State.shape, Shape.step]
    split_ifs <;> rfl
  | double w =>
    simp only [step, State.shape, Shape.step]
    split_ifs <;> rfl
  | doubleEscape w =>
    simp only [step, State.shape, Shape.step]
    split_ifs <;> rfl

theorem shape_scan (r : Rules) : ∀ (s : State) (cs : List Char),
    (r.scan s cs).1.shape = cs.foldl Shape.step s.shape
  | s, [] => rfl
  | s, c :: cs => by
    rw [scan, shape_scan r _ cs, shape_step, List.foldl_cons]

/-- A text is read exactly when its quotes are closed. -/
theorem isSome_lex_iff (r : Rules) (cs : List Char) :
    (r.lex cs).isSome = true ↔ cs.foldl Shape.step .out = .out := by
  have hshape := shape_scan r (.out none) cs
  rw [lex, Option.isSome_map, ← show State.shape (.out none) = .out from rfl, ← hshape]
  rcases (r.scan (.out none) cs).1 with w | w | w | w | w <;> simp [finish, State.shape]

end Rules

/-! ## Words that are there -/

/-- A word or a quote was begun. -/
def State.Begun (s : State) : Prop :=
  s ≠ .out none

namespace Rules

variable {r : Rules} {s : State} {cs : List Char} {ts : List Token}

theorem begun_step {c : Char} (hc : r.continues c = false) (h : s.Begun ∨ r.blank c = false) :
    (r.step s c).2 ≠ [] ∨ (r.step s c).1.Begun := by
  cases s with
  | out w =>
    simp only [step]
    split_ifs with hblank
    · rcases w with _ | w
      · rcases h with h | h
        · exact absurd rfl h
        · rw [h] at hblank
          cases hblank
      · exact Or.inl (by simp [flush])
    · exact Or.inl (by simp)
    all_goals exact Or.inr nofun
  | escape w =>
    rw [step, hc]
    exact Or.inr nofun
  | single w =>
    simp only [step]
    split_ifs <;> exact Or.inr nofun
  | double w =>
    simp only [step]
    split_ifs <;> exact Or.inr nofun
  | doubleEscape w =>
    simp only [step]
    split_ifs <;> exact Or.inr nofun

theorem begun_scan : ∀ {s : State} {cs : List Char}, (∀ c ∈ cs, r.continues c = false) →
    (s.Begun ∨ ∃ c ∈ cs, r.blank c = false) →
    (r.scan s cs).2 ≠ [] ∨ (r.scan s cs).1.Begun
  | s, [], _, h => by
    rcases h with h | ⟨c, hc, -⟩
    · exact Or.inr h
    · cases hc
  | s, c :: cs, hcont, h => by
    have hrest := fun hs => begun_scan (s := (r.step s c).1)
      (fun d hd => hcont d (List.mem_cons_of_mem _ hd)) hs
    have hnow := fun hs => begun_step (s := s) (hcont c List.mem_cons_self) hs
    have hafter : (r.step s c).1.Begun ∨ (∃ d ∈ cs, r.blank d = false) →
        (r.scan s (c :: cs)).2 ≠ [] ∨ (r.scan s (c :: cs)).1.Begun := fun hs =>
      (hrest hs).imp_left fun hne hnil => hne (List.append_eq_nil_iff.1 hnil).2
    have hfirst : s.Begun ∨ r.blank c = false →
        (r.scan s (c :: cs)).2 ≠ [] ∨ (r.scan s (c :: cs)).1.Begun := fun hs => by
      rcases hnow hs with hne | hbegun
      · exact Or.inl fun hnil => hne (List.append_eq_nil_iff.1 hnil).1
      · exact hafter (Or.inl hbegun)
    rcases h with h | ⟨d, hd, hblank⟩
    · exact hfirst (Or.inl h)
    · rcases List.mem_cons.1 hd with rfl | hd
      · exact hfirst (Or.inr hblank)
      · exact hafter (Or.inr ⟨d, hd, hblank⟩)

/-- Text that is not all blank has a token. -/
theorem lex_ne_nil (hcont : ∀ c ∈ cs, r.continues c = false) (h : r.lex cs = some ts) {c : Char}
    (hc : c ∈ cs) (hblank : r.blank c = false) : ts ≠ [] := by
  obtain ⟨w, read, hscan, rfl⟩ := lex_eq_some h
  have hbegun := begun_scan (s := .out none) hcont (Or.inr ⟨c, hc, hblank⟩)
  rw [hscan] at hbegun
  rcases hbegun with hread | hw
  · exact fun hnil => hread (List.append_eq_nil_iff.1 hnil).1
  · rcases w with _ | w
    · exact absurd rfl hw
    · simp [flush]

/-- A control token was read from a control character. -/
theorem control_of_mem_scan {c : Char} : ∀ {s : State} {cs : List Char},
    .control c ∈ (r.scan s cs).2 → c ∈ cs ∧ r.control c = true
  | _, [], h => by cases h
  | s, d :: cs, h => by
    rcases List.mem_append.1 h with h | h
    · have hflush : ∀ w : Option Word, Token.control c ∉ flush w := fun w => by
        cases w <;> simp [flush]
      have hd : c = d ∧ r.control d = true := by
        cases s with
        | out w =>
          simp only [step] at h
          split_ifs at h with hblank hcontrol <;> simp [hflush] at h
          exact ⟨h, hcontrol⟩
        | escape w =>
          simp only [step] at h
          split_ifs at h <;> cases h
        | single w =>
          simp only [step] at h
          split_ifs at h <;> cases h
        | double w =>
          simp only [step] at h
          split_ifs at h <;> cases h
        | doubleEscape w =>
          simp only [step] at h
          split_ifs at h <;> cases h
      rw [hd.1]
      exact ⟨List.mem_cons_self, hd.2⟩
    · exact (control_of_mem_scan h).imp_left (List.mem_cons_of_mem _)

theorem control_of_mem_lex {c : Char} (h : r.lex cs = some ts) (hc : .control c ∈ ts) :
    c ∈ cs ∧ r.control c = true := by
  obtain ⟨w, read, hscan, rfl⟩ := lex_eq_some h
  rcases List.mem_append.1 hc with hc | hc
  · refine control_of_mem_scan (s := .out none) ?_
    rw [hscan]
    exact hc
  · rcases w with _ | w <;> simp [flush] at hc

end Rules

/-! ## Lexers that agree -/

namespace Rules

variable {r r' : Rules} {cs : List Char} {ts : List Token}

/-- Both lexers take a character the same way, after the state. -/
structure AgreeAt (r r' : Rules) (s : State) (c : Char) : Prop where
  blank : r.blank c = r'.blank c
  continues : r.continues c = r'.continues c
  escapable : s.shape = .doubleEscape → r.escapable c = r'.escapable c

/-- A lexer without controls takes the same step as one that meets none. -/
theorem step_eq_of_agreeAt (hcontrol : ∀ c, r.control c = false) {s : State} {c : Char}
    (h : AgreeAt r r' s c) (hmeets : ∀ d, .control d ∉ (r'.step s c).2) :
    r.step s c = r'.step s c := by
  cases s with
  | out w =>
    by_cases hblank : r'.blank c = true
    · simp only [step, h.blank, hblank, if_true]
    · have hc : r'.control c = false := by
        by_contra hc
        rw [Bool.not_eq_false] at hc
        refine hmeets c ?_
        simp [step, hblank, hc]
      simp only [step, h.blank, hcontrol c, hc]
  | escape w => simp only [step, h.continues]
  | single w => rfl
  | double w => rfl
  | doubleEscape w => simp only [step, h.continues, h.escapable rfl]

/-- After a backslash between double quotes the next character is the one it stands
before. -/
theorem shape_eq_doubleEscape {s : State} {c : Char} (r : Rules)
    (h : (r.step s c).1.shape = .doubleEscape) : c = '\\' := by
  rw [shape_step] at h
  cases hs : s.shape with
  | out =>
    simp only [hs, Shape.step] at h
    split_ifs at h
  | escape =>
    rw [hs] at h
    cases h
  | single =>
    simp only [hs, Shape.step] at h
    split_ifs at h
  | double =>
    simp only [hs, Shape.step] at h
    split_ifs at h with hquote hescape
    exact hescape
  | doubleEscape =>
    rw [hs] at h
    cases h

theorem scan_eq_of_agree (hcontrol : ∀ c, r.control c = false) :
    ∀ {s : State} {cs : List Char}, (∀ c ∈ cs, r.blank c = r'.blank c) →
      (∀ c ∈ cs, r.continues c = r'.continues c) →
      (∀ c, ['\\', c] <:+: cs → r.escapable c = r'.escapable c) →
      (s.shape = .doubleEscape → ∀ c ∈ cs.head?, r.escapable c = r'.escapable c) →
      (∀ d, .control d ∉ (r'.scan s cs).2) → r.scan s cs = r'.scan s cs
  | _, [], _, _, _, _, _ => rfl
  | s, c :: cs, hblank, hcont, hesc, hhead, hmeets => by
    have hagree : AgreeAt r r' s c :=
      ⟨hblank c List.mem_cons_self, hcont c List.mem_cons_self, fun hs => hhead hs c rfl⟩
    have hstep := step_eq_of_agreeAt hcontrol hagree fun d hd =>
      hmeets d (List.mem_append_left _ hd)
    have hnext : (r'.step s c).1.shape = .doubleEscape →
        ∀ d ∈ cs.head?, r.escapable d = r'.escapable d := by
      intro hs d hd
      obtain rfl := shape_eq_doubleEscape r' hs
      obtain ⟨rest, rfl⟩ : ∃ rest, cs = d :: rest := by
        cases cs with
        | nil => cases hd
        | cons e rest =>
          obtain rfl := Option.some.inj hd
          exact ⟨rest, rfl⟩
      exact hesc d ⟨[], rest, rfl⟩
    have hrest := scan_eq_of_agree hcontrol (s := (r'.step s c).1)
      (fun d hd => hblank d (List.mem_cons_of_mem _ hd))
      (fun d hd => hcont d (List.mem_cons_of_mem _ hd))
      (fun d hd => hesc d (hd.trans (List.suffix_cons c cs).isInfix)) hnext
      fun d hd => hmeets d (List.mem_append_right _ hd)
    simp only [scan, hstep, hrest]

/-- A lexer without controls reads what one that meets none reads, if they agree about
blanks, continuations and what a backslash stands before. -/
theorem lex_eq_of_agree (hcontrol : ∀ c, r.control c = false)
    (hblank : ∀ c ∈ cs, r.blank c = r'.blank c) (hcont : ∀ c ∈ cs, r.continues c = r'.continues c)
    (hesc : ∀ c, ['\\', c] <:+: cs → r.escapable c = r'.escapable c) (h : r'.lex cs = some ts)
    (hmeets : ∀ d, .control d ∉ ts) : r.lex cs = some ts := by
  obtain ⟨w, read, hscan, rfl⟩ := lex_eq_some h
  have heq := scan_eq_of_agree hcontrol (s := .out none) hblank hcont hesc nofun fun d hd =>
    hmeets d (List.mem_append_left _ (by rwa [hscan] at hd))
  rw [lex, heq, hscan]
  rfl

end Rules

/-! ## Words alone -/

/-- The words of the tokens. -/
def words (ts : List Token) : List Word :=
  ts.filterMap fun
    | .word w => some w
    | .control _ => none

@[simp] theorem words_map_word (ws : List Word) : words (ws.map .word) = ws := by
  simp [words, List.filterMap_map]

/-- Tokens without controls are their words. -/
theorem map_word_words : ∀ {ts : List Token}, (∀ c, .control c ∉ ts) → (words ts).map .word = ts
  | [], _ => rfl
  | .word w :: ts, h => by
    have ih := map_word_words fun c hc => h c (List.mem_cons_of_mem _ hc)
    rw [show words (.word w :: ts) = w :: words ts from rfl, List.map_cons, ih]
  | .control c :: ts, h => absurd List.mem_cons_self (h c)

/-! ## Pipelines -/

/-- The words of each command, if the commands are joined by `|` alone and none is empty. -/
def commands : List Word → List Token → Option (List (List Word))
  | current, [] => if current = [] then none else some [current]
  | current, .word w :: ts => commands (current ++ [w]) ts
  | current, .control c :: ts =>
    if c = '|' ∧ current ≠ [] then (commands [] ts).map (current :: ·) else none

/-- The commands of a shell command line that is one pipeline. -/
def pipeline (cs : List Char) : Option (List (List Word)) :=
  (Rules.posix.lex cs).bind (commands [])

theorem commands_words_append : ∀ (ws current : List Word) (ts : List Token),
    commands current (ws.map .word ++ ts) = commands (current ++ ws) ts
  | [], current, ts => by rw [List.map_nil, List.nil_append, List.append_nil]
  | w :: ws, current, ts => by
    rw [List.map_cons, List.cons_append, commands, commands_words_append ws, List.append_assoc,
      List.singleton_append]

/-- A pipeline has no other control. -/
theorem eq_pipe_of_commands {c : Char} : ∀ {current : List Word} {ts : List Token}
    {found : List (List Word)}, commands current ts = some found → .control c ∈ ts → c = '|'
  | _, [], _, _, hc => by cases hc
  | current, .word w :: ts, found, h, hc => by
    have hrest : commands (current ++ [w]) ts = some found := h
    exact eq_pipe_of_commands hrest ((List.mem_cons.1 hc).resolve_left nofun)
  | current, .control d :: ts, found, h, hc => by
    rw [commands] at h
    split_ifs at h with hd
    obtain ⟨rest, hrest, -⟩ := Option.map_eq_some_iff.1 h
    rcases List.mem_cons.1 hc with hcd | hc
    · rw [Token.control.inj hcd]
      exact hd.1
    · exact eq_pipe_of_commands hrest hc

/-- Commands that are not empty, joined by pipes. -/
theorem commands_intercalate : ∀ {wss : List (List Word)}, wss ≠ [] → (∀ ws ∈ wss, ws ≠ []) →
    commands [] ([.control '|'].intercalate (wss.map (List.map .word))) = some wss
  | [ws], _, hws => by
    have h := commands_words_append ws [] []
    rw [List.append_nil, List.nil_append] at h
    rw [List.map_singleton, List.intercalate_singleton, h, commands,
      if_neg (hws ws List.mem_cons_self)]
  | ws :: ws' :: wss, _, hws => by
    have ih := commands_intercalate (List.cons_ne_nil ws' wss)
      fun us hus => hws us (List.mem_cons_of_mem _ hus)
    rw [List.map_cons] at ih
    rw [List.map_cons, List.map_cons, List.intercalate_cons_cons, List.append_assoc,
      commands_words_append, List.nil_append, List.singleton_append, commands,
      if_pos ⟨rfl, hws ws List.mem_cons_self⟩, ih, Option.map_some]

/-- Texts joined by a control character are read one by one. -/
theorem Rules.lex_intercalate {r : Rules} {c : Char} (hblank : r.blank c = false)
    (hc : r.control c = true) (read : List Char → List Token) : ∀ {css : List (List Char)},
      css ≠ [] → (∀ cs ∈ css, r.lex cs = some (read cs)) →
      r.lex ([c].intercalate css) = some ([.control c].intercalate (css.map read))
  | [cs], _, h => by
    rw [List.map_singleton, List.intercalate_singleton, List.intercalate_singleton,
      h cs List.mem_cons_self]
  | cs :: cs' :: css, _, h => by
    have ih := lex_intercalate hblank hc read (List.cons_ne_nil cs' css)
      fun ds hds => h ds (List.mem_cons_of_mem _ hds)
    rw [List.map_cons] at ih
    rw [List.map_cons, List.map_cons, List.intercalate_cons_cons, List.intercalate_cons_cons,
      List.append_assoc, List.singleton_append, lex_append_control (h cs List.mem_cons_self)
        hblank hc, ih, Option.map_some, List.append_assoc, List.singleton_append]

end Words
