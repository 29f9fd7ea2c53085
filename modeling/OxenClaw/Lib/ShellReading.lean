import Mathlib.Data.List.Infix

/-!
# How a shell reads a command line

A shell reads character by character, and every character has a role (`State.step`) : it is a
blank, an operator, a quote, a literal character of a word, part of an expansion, or of a comment.
Quotes, command substitutions, parameter and arithmetic expansions nest, so what is open is a list of
frames. A parenthesis closes the innermost command, and the document that follows `<<` is not read
on. Which words are reserved words, assignments or numbers of a redirection is said of whole words,
after they are read.

`Context` says what a character without a meaning of its own would be, and `inert` which texts
keep theirs when `shlex.quote` has quoted them and they stand there : they are read as literal
characters in one word, and what follows them as what follows such a character
(`read_quote`, `inert_of_read`).
-/

namespace Shell

/-- How a literal character is quoted. -/
inductive Quoting where
  | bare
  | single
  | double
  deriving DecidableEq

inductive Role where
  | blank
  | operator
  | quote
  | literal (quoting : Quoting)
  /-- Between double quotes, what the backslash before it is removed from. -/
  | escaped
  /-- A part of an expansion, or a character of a pattern. -/
  | active
  | comment
  deriving DecidableEq

/-- What is open. A command may be in a word, or in a comment. -/
inductive Frame where
  | command (begun : Bool)
  | single
  | double
  | comment
  | braces (quoted : Bool)
  | arithmetic
  | backquotes
  | document
  deriving DecidableEq

/-- What was read last, where the next character depends on it. -/
inductive Pending where
  | none
  | escape
  | dollar
  | name
  | opened
  | less
  deriving DecidableEq

/-- The open frames, the innermost first, and whether a document is to follow. -/
structure State where
  frames : List Frame := [.command false]
  pending : Pending := .none
  document : Bool := false
  deriving DecidableEq

def backquote : Char := Char.ofNat 96

/-- What is in such a frame is an operand of an expansion, or a document. -/
def Frame.isOperand : Frame → Bool
  | .braces _ | .arithmetic | .backquotes | .document => true
  | _ => false

namespace State

def isOperand (s : State) : Bool :=
  s.frames.any Frame.isOperand

/-- An expansion that begins here is between double quotes. -/
def isQuoted (s : State) : Bool :=
  match s.frames with
  | .double :: _ => true
  | .braces quoted :: _ => quoted
  | _ => false

/-- In a command. -/
def takeCommand (begun : Bool) (fs : List Frame) (document : Bool) (c : Char) : State × Role :=
  if c = ' ' ∨ c = '\t' then (⟨.command false :: fs, .none, document⟩, .blank)
  else if c = '\n' then
    (⟨if document then .document :: .command false :: fs else .command false :: fs, .none, false⟩,
      .operator)
  else if c = ';' ∨ c = '&' ∨ c = '|' ∨ c = '>' then
    (⟨.command false :: fs, .none, document⟩, .operator)
  else if c = '<' then (⟨.command false :: fs, .less, document⟩, .operator)
  else if c = '(' then (⟨.command false :: .command false :: fs, .none, document⟩, .operator)
  else if c = ')' then
    (⟨if fs = [] then [.command false] else fs, .none, document⟩, .operator)
  else if c = '\\' then (⟨.command begun :: fs, .escape, document⟩, .quote)
  else if c = '\'' then (⟨.single :: .command true :: fs, .none, document⟩, .quote)
  else if c = '"' then (⟨.double :: .command true :: fs, .none, document⟩, .quote)
  else if c = '#' ∧ begun = false then (⟨.comment :: fs, .none, document⟩, .comment)
  else if c = '$' then (⟨.command true :: fs, .dollar, document⟩, .active)
  else if c = backquote then (⟨.backquotes :: .command true :: fs, .none, document⟩, .active)
  else if c = '*' ∨ c = '?' ∨ c = '[' ∨ c = '~' then
    (⟨.command true :: fs, .none, document⟩, .active)
  else (⟨.command true :: fs, .none, document⟩, .literal .bare)

def takeSingle (fs : List Frame) (document : Bool) (c : Char) : State × Role :=
  if c = '\'' then (⟨fs, .none, document⟩, .quote)
  else (⟨.single :: fs, .none, document⟩, .literal .single)

def takeDouble (fs : List Frame) (document : Bool) (c : Char) : State × Role :=
  if c = '"' then (⟨fs, .none, document⟩, .quote)
  else if c = '\\' then (⟨.double :: fs, .escape, document⟩, .literal .double)
  else if c = '$' then (⟨.double :: fs, .dollar, document⟩, .active)
  else if c = backquote then (⟨.backquotes :: .double :: fs, .none, document⟩, .active)
  else (⟨.double :: fs, .none, document⟩, .literal .double)

/-- In `${`, to the brace that closes it. -/
def takeBraces (quoted : Bool) (fs : List Frame) (document : Bool) (c : Char) : State × Role :=
  if c = '}' then (⟨fs, .none, document⟩, .active)
  else if c = '\\' then (⟨.braces quoted :: fs, .escape, document⟩, .active)
  else if c = '\'' ∧ quoted = false then (⟨.single :: .braces quoted :: fs, .none, document⟩, .active)
  else if c = '"' then (⟨.double :: .braces quoted :: fs, .none, document⟩, .active)
  else if c = '$' then (⟨.braces quoted :: fs, .dollar, document⟩, .active)
  else if c = backquote then (⟨.backquotes :: .braces quoted :: fs, .none, document⟩, .active)
  else (⟨.braces quoted :: fs, .none, document⟩, .active)

/-- In `$((`, one frame a parenthesis. -/
def takeArithmetic (fs : List Frame) (document : Bool) (c : Char) : State × Role :=
  if c = '(' then (⟨.arithmetic :: .arithmetic :: fs, .none, document⟩, .active)
  else if c = ')' then (⟨fs, .none, document⟩, .active)
  else if c = '$' then (⟨.arithmetic :: fs, .dollar, document⟩, .active)
  else if c = backquote then (⟨.backquotes :: .arithmetic :: fs, .none, document⟩, .active)
  else (⟨.arithmetic :: fs, .none, document⟩, .active)

def takeBackquotes (fs : List Frame) (document : Bool) (c : Char) : State × Role :=
  if c = backquote then (⟨fs, .none, document⟩, .active)
  else if c = '\\' then (⟨.backquotes :: fs, .escape, document⟩, .active)
  else (⟨.backquotes :: fs, .none, document⟩, .active)

/-- A character before which nothing is pending. -/
def take (s : State) (c : Char) : State × Role :=
  match s.frames with
  | [] => ({ s with pending := .none }, .active)
  | .command begun :: fs => takeCommand begun fs s.document c
  | .single :: fs => takeSingle fs s.document c
  | .double :: fs => takeDouble fs s.document c
  | .comment :: fs =>
    if c = '\n' then takeCommand false fs s.document c
    else (⟨.comment :: fs, .none, s.document⟩, .comment)
  | .braces quoted :: fs => takeBraces quoted fs s.document c
  | .arithmetic :: fs => takeArithmetic fs s.document c
  | .backquotes :: fs => takeBackquotes fs s.document c
  | .document :: fs => (⟨.document :: fs, .none, s.document⟩, .active)

/-- A character after a backslash. -/
def takeEscaped (s : State) (c : Char) : State × Role :=
  match s.frames with
  | .command begun :: fs =>
    if c = '\n' then (⟨.command begun :: fs, .none, s.document⟩, .quote)
    else (⟨.command true :: fs, .none, s.document⟩, .literal .bare)
  | .double :: fs =>
    (⟨.double :: fs, .none, s.document⟩,
      if c = '$' ∨ c = backquote ∨ c = '"' ∨ c = '\\' ∨ c = '\n' then .escaped
      else .literal .double)
  | fs => (⟨fs, .none, s.document⟩, .active)

def isNameStart (c : Char) : Bool :=
  c.isAlpha || c = '_'

def isNameChar (c : Char) : Bool :=
  c.isAlphanum || c = '_'

/-- A character after `$`. -/
def takeDollar (s : State) (c : Char) : State × Role :=
  if isNameStart c then ({ s with pending := .name }, .active)
  else if c.isDigit ∨ c ∈ ['@', '*', '#', '?', '-', '$', '!'] then
    ({ s with pending := .none }, .active)
  else if c = '(' then
    ({ s with frames := .command false :: s.frames, pending := .opened }, .operator)
  else if c = '{' then
    ({ s with frames := .braces s.isQuoted :: s.frames, pending := .none }, .active)
  else s.take c

/-- The next state and the role of a character. -/
def step (s : State) (c : Char) : State × Role :=
  let r := match s.pending with
    | .none => s.take c
    | .escape => s.takeEscaped c
    | .dollar => s.takeDollar c
    | .name => if isNameChar c then (s, .active) else s.take c
    | .opened =>
      if c = '(' then
        ({ s with frames := .arithmetic :: .arithmetic :: s.frames.tail, pending := .none }, .active)
      else s.take c
    | .less =>
      if c = '<' then ({ s with pending := .none, document := true }, .operator) else s.take c
  (r.1, if s.isOperand then .active else r.2)

/-- The state after a text, and the roles of its characters. -/
def read : State → List Char → State × List Role
  | s, [] => (s, [])
  | s, c :: cs => ((read (s.step c).1 cs).1, (s.step c).2 :: (read (s.step c).1 cs).2)

end State

/-- A character without a meaning of its own. -/
def harmless : Char := 'x'

/-- What a harmless character would be. -/
inductive Context where
  | bare
  | escaped
  | single
  | double
  | comment
  | operand
  deriving DecidableEq

def State.context (s : State) : Context :=
  if s.isOperand then .operand
  else
    match s.pending, s.frames with
    | .none, .command _ :: _ | .less, .command _ :: _ | .opened, .command _ :: _ => .bare
    | .escape, .command _ :: _ => .escaped
    | .none, .single :: _ => .single
    | .none, .double :: _ | .escape, .double :: _ => .double
    | .none, .comment :: _ => .comment
    | _, _ => .operand

/-! ## Quoting a text -/

/-- The characters that `shlex.quote` leaves as they are. -/
def isSafe (c : Char) : Bool :=
  c.isAlphanum || c ∈ ['_', '@', '%', '+', '=', ':', ',', '.', '/', '-']

/-- A text that needs no quotes. -/
def isPlain (v : List Char) : Bool :=
  !v.isEmpty && v.all isSafe

/-- A quote is put between double quotes. -/
def quoteChar (c : Char) : List Char :=
  if c = '\'' then ['\'', '"', '\'', '"', '\''] else [c]

/-- `shlex.quote`. -/
def quote (v : List Char) : List Char :=
  if isPlain v then v else '\'' :: v.flatMap quoteChar ++ ['\'']

def spelledChar (c : Char) : List Role :=
  if c = '\'' then [.quote, .quote, .literal .double, .quote, .quote] else [.literal .single]

/-- What the characters of a quoted text are meant to be. -/
def spelled (v : List Char) : List Role :=
  if isPlain v then v.map fun _ => .literal .bare
  else .quote :: v.flatMap spelledChar ++ [.quote]

/-- What the characters of a quoted text have to be, not to be interpreted. -/
def Context.roles (ctx : Context) (v : List Char) : List Role :=
  match ctx with
  | .bare | .escaped => spelled v
  | .single => (quote v).map fun _ => .literal .single
  | .double => (quote v).map fun _ => .literal .double
  | .comment => (quote v).map fun _ => .comment
  | .operand => (quote v).map fun _ => .active

/-- The character has a meaning between double quotes, after a backslash or not. -/
def isSpecial (escaped : Bool) (c : Char) : Bool :=
  c ∈ ['$', backquote, '"'] || (escaped && c ∈ ['\\', '\n'])

/-- A backslash stands at the end, that nothing has been removed from. -/
def endsEscaped (escaped : Bool) (v : List Char) : Bool :=
  v.foldl (fun escaped c => !escaped && c = '\\') escaped

/-- No character of the text has. -/
def isQuiet : Bool → List Char → Bool
  | _, [] => true
  | escaped, c :: v => !isSpecial escaped c && isQuiet (!escaped && c = '\\') v

/-- Quoted and put there, the text is not interpreted. -/
def Context.inert (ctx : Context) (v : List Char) : Bool :=
  match ctx with
  | .bare => true
  | .escaped | .single => isPlain v
  | .double => isPlain v || (!v.contains '\'' && isQuiet false v)
  | .comment => !v.contains '\n'
  | .operand => false

/-! ## Reading on -/

theorem State.read_append (s : State) (cs ds : List Char) : s.read (cs ++ ds) =
    (((s.read cs).1.read ds).1, (s.read cs).2 ++ ((s.read cs).1.read ds).2) := by
  induction cs generalizing s with
  | nil => rfl
  | cons c cs ih => simp only [List.cons_append, State.read, ih]

theorem State.length_read (s : State) (cs : List Char) : (s.read cs).2.length = cs.length := by
  induction cs generalizing s with
  | nil => rfl
  | cons c cs ih => simp only [State.read, List.length_cons, ih]

theorem isSafe_ne {c d : Char} (hc : isSafe c = true) (hd : isSafe d = false) : c ≠ d := by
  rintro rfl
  rw [hc] at hd
  cases hd

theorem forall_ne_of_isSafe {c : Char} {ds : List Char} (hc : isSafe c = true)
    (hds : ds.all (fun d => !isSafe d) = true) : ∀ d ∈ ds, c ≠ d := by
  intro d hd
  exact isSafe_ne hc (by simpa using List.all_eq_true.1 hds d hd)

section

variable {fs : List Frame} {document begun : Bool} {c : Char} {v : List Char}

theorem step_command (hfs : fs.any Frame.isOperand = false) (c : Char) :
    State.step ⟨.command begun :: fs, .none, document⟩ c =
      State.takeCommand begun fs document c := by
  simp [State.step, State.take, State.isOperand, Frame.isOperand, hfs]

/-- Where only a parenthesis or a second `<` would be taken specially. -/
theorem step_command_pending (hfs : fs.any Frame.isOperand = false) {p : Pending}
    (hp : p = .none ∨ p = .less ∨ p = .opened) (hless : c ≠ '<') (hopen : c ≠ '(') :
    State.step ⟨.command begun :: fs, p, document⟩ c =
      State.takeCommand begun fs document c := by
  rcases hp with rfl | rfl | rfl <;>
    simp [State.step, State.take, State.isOperand, Frame.isOperand, hfs, hless, hopen]

theorem step_escaped (hfs : fs.any Frame.isOperand = false) (c : Char) :
    State.step ⟨.command begun :: fs, .escape, document⟩ c =
      if c = '\n' then (⟨.command begun :: fs, .none, document⟩, .quote)
      else (⟨.command true :: fs, .none, document⟩, .literal .bare) := by
  simp [State.step, State.takeEscaped, State.isOperand, Frame.isOperand, hfs]

theorem step_single (hfs : fs.any Frame.isOperand = false) (c : Char) :
    State.step ⟨.single :: fs, .none, document⟩ c = State.takeSingle fs document c := by
  simp [State.step, State.take, State.isOperand, Frame.isOperand, hfs]

theorem step_double (hfs : fs.any Frame.isOperand = false) (c : Char) :
    State.step ⟨.double :: fs, .none, document⟩ c = State.takeDouble fs document c := by
  simp [State.step, State.take, State.isOperand, Frame.isOperand, hfs]

theorem step_double_escape (hfs : fs.any Frame.isOperand = false) (c : Char) :
    State.step ⟨.double :: fs, .escape, document⟩ c = (⟨.double :: fs, .none, document⟩,
      if c = '$' ∨ c = backquote ∨ c = '"' ∨ c = '\\' ∨ c = '\n' then .escaped
      else .literal .double) := by
  simp [State.step, State.takeEscaped, State.isOperand, Frame.isOperand, hfs]

theorem takeCommand_safe (hc : isSafe c = true) : State.takeCommand begun fs document c =
    (⟨.command true :: fs, .none, document⟩, .literal .bare) := by
  have hne : ∀ d ∈ [' ', '\t', '\n', ';', '&', '|', '>', '<', '(', ')', '\\', '\'', '"', '#', '$',
      backquote, '*', '?', '[', '~'], c ≠ d :=
    forall_ne_of_isSafe hc (by decide)
  simp only [List.forall_mem_cons] at hne
  simp [State.takeCommand, hne]

/-! ## Out of quotes -/

/-- A text that needs no quotes goes on with the word. -/
theorem read_safe (hfs : fs.any Frame.isOperand = false) (hv : ∀ c ∈ v, isSafe c = true) :
    State.read ⟨.command true :: fs, .none, document⟩ v =
      (⟨.command true :: fs, .none, document⟩, v.map fun _ => .literal .bare) := by
  induction v with
  | nil => rfl
  | cons c v ih =>
    have hstep : State.step ⟨.command true :: fs, .none, document⟩ c =
        (⟨.command true :: fs, .none, document⟩, .literal .bare) :=
      (step_command hfs c).trans (takeCommand_safe (hv c List.mem_cons_self))
    simp only [State.read, hstep, ih fun d hd => hv d (List.mem_cons_of_mem _ hd), List.map_cons]

/-- The rest of a text between single quotes. -/
theorem read_quoted (hfs : fs.any Frame.isOperand = false) (v : List Char) :
    State.read ⟨.single :: .command true :: fs, .none, document⟩ (v.flatMap quoteChar ++ ['\'']) =
      (⟨.command true :: fs, .none, document⟩, v.flatMap spelledChar ++ [.quote]) := by
  have hcommand : (Frame.command true :: fs).any Frame.isOperand = false := hfs
  have hclose : State.step ⟨.single :: .command true :: fs, .none, document⟩ '\'' =
      (⟨.command true :: fs, .none, document⟩, .quote) := step_single hcommand _
  induction v with
  | nil => simp only [List.flatMap_nil, List.nil_append, State.read, hclose]
  | cons c v ih =>
    rw [List.flatMap_cons, List.flatMap_cons, List.append_assoc, List.append_assoc,
      State.read_append]
    have hchar : State.read ⟨.single :: .command true :: fs, .none, document⟩ (quoteChar c) =
        (⟨.single :: .command true :: fs, .none, document⟩, spelledChar c) := by
      by_cases hc : c = '\''
      · have hdouble : (Frame.double :: .command true :: fs).any Frame.isOperand = false := hfs
        have hopen : State.step ⟨.command true :: fs, .none, document⟩ '"' =
            (⟨.double :: .command true :: fs, .none, document⟩, .quote) := step_command hfs _
        have hquote : State.step ⟨.double :: .command true :: fs, .none, document⟩ '\'' =
            (⟨.double :: .command true :: fs, .none, document⟩, .literal .double) :=
          step_double hcommand _
        have hend : State.step ⟨.double :: .command true :: fs, .none, document⟩ '"' =
            (⟨.command true :: fs, .none, document⟩, .quote) := step_double hcommand _
        have hagain : State.step ⟨.command true :: fs, .none, document⟩ '\'' =
            (⟨.single :: .command true :: fs, .none, document⟩, .quote) := step_command hfs _
        simp only [quoteChar, spelledChar, if_pos hc, State.read, hclose, hopen, hquote, hend,
          hagain]
      · have hstep : State.step ⟨.single :: .command true :: fs, .none, document⟩ c =
            (⟨.single :: .command true :: fs, .none, document⟩, .literal .single) := by
          rw [step_single hcommand, State.takeSingle, if_neg hc]
        simp only [quoteChar, spelledChar, if_neg hc, State.read, hstep]
    rw [hchar, ih]

/-! ## In quotes, and in a comment -/

theorem read_single (hfs : fs.any Frame.isOperand = false) (hv : ∀ c ∈ v, c ≠ '\'') :
    State.read ⟨.single :: fs, .none, document⟩ v =
      (⟨.single :: fs, .none, document⟩, v.map fun _ => .literal .single) := by
  induction v with
  | nil => rfl
  | cons c v ih =>
    have hstep : State.step ⟨.single :: fs, .none, document⟩ c =
        (⟨.single :: fs, .none, document⟩, .literal .single) := by
      rw [step_single hfs, State.takeSingle, if_neg (hv c List.mem_cons_self)]
    simp only [State.read, hstep, ih fun d hd => hv d (List.mem_cons_of_mem _ hd), List.map_cons]

/-- Between double quotes, after a backslash or not. -/
def doubleState (fs : List Frame) (document escaped : Bool) : State :=
  ⟨.double :: fs, if escaped then .escape else .none, document⟩

theorem step_doubleState_of_quiet (hfs : fs.any Frame.isOperand = false) {escaped : Bool}
    (hc : isSpecial escaped c = false) : (doubleState fs document escaped).step c =
      (doubleState fs document (!escaped && c = '\\'), .literal .double) := by
  simp only [isSpecial, Bool.or_eq_false_iff, decide_eq_false_iff_not, List.mem_cons,
    List.not_mem_nil, or_false, not_or] at hc
  obtain ⟨⟨hdollar, hback, hdouble⟩, hescape⟩ := hc
  cases escaped with
  | true =>
    have hnot : c ≠ '\\' ∧ c ≠ '\n' := by simpa using hescape
    refine (step_double_escape hfs c).trans ?_
    rw [if_neg (by simp [hdollar, hback, hdouble, hnot])]
    rfl
  | false =>
    refine (step_double hfs c).trans ?_
    rw [State.takeDouble, if_neg hdouble]
    by_cases hbackslash : c = '\\'
    · rw [if_pos hbackslash, hbackslash]
      rfl
    · rw [if_neg hbackslash, if_neg hdollar, if_neg hback]
      simp [doubleState, hbackslash]

theorem step_doubleState_of_special (hfs : fs.any Frame.isOperand = false) {escaped : Bool}
    (hc : isSpecial escaped c = true) :
    ((doubleState fs document escaped).step c).2 ≠ .literal .double := by
  simp only [isSpecial, Bool.or_eq_true, Bool.and_eq_true, decide_eq_true_eq, List.mem_cons,
    List.not_mem_nil, or_false] at hc
  cases escaped with
  | true =>
    have hcond : c = '$' ∨ c = backquote ∨ c = '"' ∨ c = '\\' ∨ c = '\n' := by tauto
    rw [doubleState, if_pos rfl, step_double_escape hfs, if_pos hcond]
    nofun
  | false =>
    rw [doubleState, if_neg nofun, step_double hfs]
    obtain rfl | rfl | rfl : c = '$' ∨ c = backquote ∨ c = '"' := by simpa using hc
    all_goals
      intro hrole
      cases hrole

/-- A quiet text between double quotes. -/
theorem read_double (hfs : fs.any Frame.isOperand = false) {escaped : Bool}
    (hv : isQuiet escaped v = true) : (doubleState fs document escaped).read v =
      (doubleState fs document (endsEscaped escaped v), v.map fun _ => .literal .double) := by
  induction v generalizing escaped with
  | nil => rfl
  | cons c v ih =>
    obtain ⟨hc, hv⟩ := Bool.and_eq_true_iff.1 hv
    simp only [State.read, step_doubleState_of_quiet hfs (by simpa using hc), ih hv, List.map_cons,
      endsEscaped, List.foldl_cons]

/-- Only a quiet text is all literal there. -/
theorem isQuiet_of_read (hfs : fs.any Frame.isOperand = false) {escaped : Bool}
    (hroles : ((doubleState fs document escaped).read v).2 = v.map fun _ => .literal .double) :
    isQuiet escaped v = true := by
  induction v generalizing escaped with
  | nil => rfl
  | cons c v ih =>
    obtain ⟨hrole, hrest⟩ := List.cons.inj hroles
    have hc : isSpecial escaped c = false := by
      by_contra hc
      exact step_doubleState_of_special hfs (by simpa using hc) hrole
    rw [step_doubleState_of_quiet hfs hc] at hrest
    rw [isQuiet, hc, ih hrest]
    rfl

theorem step_comment (hfs : fs.any Frame.isOperand = false) (c : Char) :
    State.step ⟨.comment :: fs, .none, document⟩ c =
      if c = '\n' then State.takeCommand false fs document c
      else (⟨.comment :: fs, .none, document⟩, .comment) := by
  simp [State.step, State.take, State.isOperand, Frame.isOperand, hfs]

/-- A comment goes to the end of the line. -/
theorem read_comment (hfs : fs.any Frame.isOperand = false) (hv : '\n' ∉ v) :
    State.read ⟨.comment :: fs, .none, document⟩ v =
      (⟨.comment :: fs, .none, document⟩, v.map fun _ => .comment) := by
  induction v with
  | nil => rfl
  | cons c v ih =>
    obtain ⟨hc, hv⟩ := not_or.1 (mt List.mem_cons.2 hv)
    simp only [State.read, step_comment hfs, if_neg (Ne.symm hc), ih hv, List.map_cons]

theorem notMem_of_read_comment (hfs : fs.any Frame.isOperand = false)
    (hroles : (State.read ⟨.comment :: fs, .none, document⟩ v).2 = v.map fun _ => .comment) :
    '\n' ∉ v := by
  induction v with
  | nil => exact List.not_mem_nil
  | cons c v ih =>
    obtain ⟨hrole, hrest⟩ := List.cons.inj hroles
    rw [step_comment hfs] at hrole hrest
    by_cases hc : c = '\n'
    · rw [if_pos hc, hc] at hrole
      cases hrole
    · rw [if_neg hc] at hrest
      exact List.not_mem_cons_of_ne_of_not_mem (Ne.symm hc) (ih hrest)

end

/-! ## A quoted text -/

/-- The states a harmless character is literal in, or of a comment. -/
inductive Stands : State → Context → Prop where
  | bare {fs begun p document} (hfs : fs.any Frame.isOperand = false)
    (hp : p = .none ∨ p = .less ∨ p = .opened) : Stands ⟨.command begun :: fs, p, document⟩ .bare
  | escaped {fs begun document} (hfs : fs.any Frame.isOperand = false) :
    Stands ⟨.command begun :: fs, .escape, document⟩ .escaped
  | single {fs document} (hfs : fs.any Frame.isOperand = false) :
    Stands ⟨.single :: fs, .none, document⟩ .single
  | double {fs document} (hfs : fs.any Frame.isOperand = false) (escaped : Bool) :
    Stands (doubleState fs document escaped) .double
  | comment {fs document} (hfs : fs.any Frame.isOperand = false) :
    Stands ⟨.comment :: fs, .none, document⟩ .comment

theorem stands_context {s : State} (h : s.context ≠ .operand) : Stands s s.context := by
  by_cases hs : s.isOperand = true
  · exact absurd (if_pos hs) h
  rw [State.context, if_neg hs] at h ⊢
  obtain ⟨_ | ⟨f, fs⟩, p, document⟩ := s
  · cases p <;> exact absurd rfl h
  obtain ⟨-, hfs⟩ : Frame.isOperand f = false ∧ fs.any Frame.isOperand = false := by
    simpa [State.isOperand] using hs
  cases f with
  | command begun =>
    cases p with
    | none => exact .bare hfs (by simp)
    | less => exact .bare hfs (by simp)
    | opened => exact .bare hfs (by simp)
    | escape => exact .escaped hfs
    | dollar => exact absurd rfl h
    | name => exact absurd rfl h
  | single =>
    cases p with
    | none => exact .single hfs
    | _ => exact absurd rfl h
  | double =>
    cases p with
    | none => exact .double hfs false
    | escape => exact .double hfs true
    | _ => exact absurd rfl h
  | comment =>
    cases p with
    | none => exact .comment hfs
    | _ => exact absurd rfl h
  | _ => cases p <;> exact absurd rfl h

theorem isQuiet_append (escaped : Bool) (v w : List Char) : isQuiet escaped (v ++ w) =
    (isQuiet escaped v && isQuiet (endsEscaped escaped v) w) := by
  induction v generalizing escaped with
  | nil => rfl
  | cons c v ih => simp only [List.cons_append, isQuiet, ih, endsEscaped, List.foldl_cons,
      Bool.and_assoc]

theorem isSpecial_of_isSafe {c : Char} (hc : isSafe c = true) (escaped : Bool) :
    isSpecial escaped c = false := by
  have hne : ∀ d ∈ ['$', backquote, '"', '\\', '\n'], c ≠ d :=
    forall_ne_of_isSafe hc (by decide)
  simp only [List.forall_mem_cons] at hne
  simp [isSpecial, hne]

theorem isQuiet_of_isSafe {v : List Char} (hv : ∀ c ∈ v, isSafe c = true) (escaped : Bool) :
    isQuiet escaped v = true := by
  induction v generalizing escaped with
  | nil => rfl
  | cons c v ih =>
    obtain ⟨hc, hv⟩ := List.forall_mem_cons.1 hv
    rw [isQuiet, isSpecial_of_isSafe hc, ih hv]
    rfl

theorem notMem_of_isQuiet {v : List Char} {escaped : Bool} (hv : isQuiet escaped v = true) :
    '"' ∉ v := by
  induction v generalizing escaped with
  | nil => exact List.not_mem_nil
  | cons c v ih =>
    obtain ⟨hc, hv⟩ := Bool.and_eq_true_iff.1 hv
    refine List.not_mem_cons_of_ne_of_not_mem ?_ (ih hv)
    rintro rfl
    simp [isSpecial] at hc

theorem isPlain_iff {v : List Char} :
    isPlain v = true ↔ v ≠ [] ∧ ∀ c ∈ v, isSafe c = true := by
  simp [isPlain]

theorem quote_ne_nil (v : List Char) : quote v ≠ [] := by
  by_cases hplain : isPlain v = true
  · rw [quote, if_pos hplain]
    exact (isPlain_iff.1 hplain).1
  · rw [quote, if_neg hplain]
    exact List.cons_ne_nil _ _

theorem mem_quote_of_mem {v : List Char} {c : Char} (h : c ∈ v) : c ∈ quote v := by
  by_cases hplain : isPlain v = true
  · rwa [quote, if_pos hplain]
  · rw [quote, if_neg hplain]
    refine List.mem_append_left _ (List.mem_cons_of_mem _ (List.mem_flatMap.2 ⟨c, h, ?_⟩))
    by_cases hc : c = '\'' <;> simp [quoteChar, hc]

/-- Nothing but quotes is added. -/
theorem mem_of_mem_quote {v : List Char} {c : Char} (h : c ∈ quote v) :
    c ∈ v ∨ c = '\'' ∨ c = '"' := by
  by_cases hplain : isPlain v = true
  · rw [quote, if_pos hplain] at h
    exact .inl h
  · rw [quote, if_neg hplain] at h
    rcases List.mem_append.1 h with h | h
    · rcases List.mem_cons.1 h with h | h
      · exact .inr (.inl h)
      · obtain ⟨d, hd, h⟩ := List.mem_flatMap.1 h
        by_cases hquote : d = '\'' <;> simp [quoteChar, hquote] at h
        · tauto
        · exact .inl (h ▸ hd)
    · exact .inr (.inl (List.mem_singleton.1 h))

/-- Without quotes of its own a text is put between quotes. -/
theorem quote_of_notMem {v : List Char} (hplain : ¬isPlain v = true) (hv : '\'' ∉ v) :
    quote v = '\'' :: (v ++ ['\'']) := by
  have hchars : v.flatMap quoteChar = v := by
    have hchar : ∀ c ∈ v, quoteChar c = [c] := by
      intro c hc
      rw [quoteChar, if_neg]
      rintro rfl
      exact hv hc
    rw [List.flatMap_congr hchar, List.flatMap_singleton']
  rw [quote, if_neg hplain, hchars, List.cons_append]

/-- A quoted text does not end in a backslash. -/
theorem endsEscaped_quote (escaped : Bool) (v : List Char) :
    endsEscaped escaped (quote v) = false := by
  obtain ⟨w, c, hquote, hc⟩ : ∃ w c, quote v = w ++ [c] ∧ c ≠ '\\' := by
    by_cases hplain : isPlain v = true
    · obtain ⟨hne, hv⟩ := isPlain_iff.1 hplain
      refine ⟨v.dropLast, v.getLast hne, ?_, isSafe_ne (hv _ (List.getLast_mem hne)) (by decide)⟩
      rw [quote, if_pos hplain, List.dropLast_append_getLast]
    · exact ⟨_, '\'', by rw [quote, if_neg hplain], by decide⟩
  rw [endsEscaped, hquote, List.foldl_append]
  simp [hc]

/-- What `inert` says between double quotes. -/
theorem isQuiet_quote_iff {v : List Char} (escaped : Bool) :
    isQuiet escaped (quote v) = true ↔ Context.double.inert v = true := by
  by_cases hplain : isPlain v = true
  · have hquiet := isQuiet_of_isSafe (isPlain_iff.1 hplain).2 escaped
    simp [quote, hplain, hquiet, Context.inert]
  · by_cases hv : '\'' ∈ v
    · have hdouble : '"' ∈ quote v := by
        rw [quote, if_neg hplain]
        refine List.mem_append_left _ (List.mem_cons_of_mem _ (List.mem_flatMap.2 ⟨_, hv, ?_⟩))
        simp [quoteChar]
      refine iff_of_false (fun h => notMem_of_isQuiet h hdouble) ?_
      simp [Context.inert, hplain, hv]
    · have hend : ∀ escaped, isQuiet escaped ['\''] = true := by decide
      have hopen : isSpecial escaped '\'' = false := by cases escaped <;> rfl
      rw [quote_of_notMem hplain hv, isQuiet, hopen, isQuiet_append, hend]
      simp [Context.inert, hplain, hv]

/-- Where there are no quotes, a quoted text goes on with the word. -/
theorem read_quote_bare {fs : List Frame} {document begun : Bool} {p : Pending} {v : List Char}
    (hfs : fs.any Frame.isOperand = false) (hp : p = .none ∨ p = .less ∨ p = .opened) :
    State.read ⟨.command begun :: fs, p, document⟩ (quote v) =
      (⟨.command true :: fs, .none, document⟩, spelled v) := by
  by_cases hplain : isPlain v = true
  · rw [quote, spelled, if_pos hplain, if_pos hplain]
    obtain ⟨hne, hv⟩ := isPlain_iff.1 hplain
    obtain ⟨c, v, rfl⟩ := List.exists_cons_of_ne_nil hne
    obtain ⟨hc, hv⟩ := List.forall_mem_cons.1 hv
    have hstep : State.step ⟨.command begun :: fs, p, document⟩ c =
        (⟨.command true :: fs, .none, document⟩, .literal .bare) := by
      rw [step_command_pending hfs hp (isSafe_ne hc (by decide)) (isSafe_ne hc (by decide)),
        takeCommand_safe hc]
    simp only [State.read, hstep, read_safe hfs hv, List.map_cons]
  · rw [quote, spelled, if_neg hplain, if_neg hplain]
    have hopen : State.step ⟨.command begun :: fs, p, document⟩ '\'' =
        (⟨.single :: .command true :: fs, .none, document⟩, .quote) :=
      step_command_pending hfs hp (by decide) (by decide)
    rw [List.cons_append, State.read, hopen, read_quoted hfs, List.cons_append]

/-- A text that is inert where it stands. -/
theorem Stands.read_quote {s : State} {ctx : Context} {v : List Char} (h : Stands s ctx)
    (hv : ctx.inert v = true) : s.read (quote v) = ((s.step harmless).1, ctx.roles v) := by
  have hharmless : isSafe harmless = true := by decide
  cases h with
  | bare hfs hp =>
    rw [read_quote_bare hfs hp, step_command_pending hfs hp (by decide) (by decide),
      takeCommand_safe hharmless]
    rfl
  | escaped hfs =>
    have hplain : isPlain v = true := hv
    rw [Context.roles, quote, spelled, if_pos hplain, if_pos hplain]
    obtain ⟨hne, hsafe⟩ := isPlain_iff.1 hplain
    obtain ⟨c, v, rfl⟩ := List.exists_cons_of_ne_nil hne
    obtain ⟨hc, hsafe⟩ := List.forall_mem_cons.1 hsafe
    simp only [State.read, step_escaped hfs, if_neg (isSafe_ne hc (d := '\n') (by decide)),
      if_neg (isSafe_ne hharmless (d := '\n') (by decide)), read_safe hfs hsafe, List.map_cons]
  | single hfs =>
    have hplain : isPlain v = true := hv
    have hne : ∀ c ∈ v, c ≠ '\'' := fun c hc =>
      isSafe_ne ((isPlain_iff.1 hplain).2 c hc) (by decide)
    rw [Context.roles, quote, if_pos hplain, read_single hfs hne, step_single hfs]
    rfl
  | double hfs escaped =>
    have hquiet := (isQuiet_quote_iff escaped).2 hv
    rw [read_double hfs hquiet, endsEscaped_quote, Context.roles,
      step_doubleState_of_quiet hfs (isSpecial_of_isSafe hharmless _)]
    simp [harmless]
  | comment hfs =>
    have hnewline : '\n' ∉ quote v := by
      intro h
      rcases mem_of_mem_quote h with h | h | h
      · simp [Context.inert, h] at hv
      · cases h
      · cases h
    rw [read_comment hfs hnewline, step_comment hfs]
    rfl

/-- Only such a text is read so. -/
theorem Stands.inert_of_read {s : State} {ctx : Context} {v : List Char} (h : Stands s ctx)
    (hroles : (s.read (quote v)).2 = ctx.roles v) : ctx.inert v = true := by
  cases h with
  | bare hfs hp => rfl
  | escaped hfs =>
    by_contra hnot
    have hplain : ¬isPlain v = true := hnot
    rw [Context.roles, quote, spelled, if_neg hplain, if_neg hplain] at hroles
    have hrole := (List.cons.inj hroles).1
    rw [step_escaped hfs] at hrole
    cases hrole
  | single hfs =>
    by_contra hnot
    have hplain : ¬isPlain v = true := hnot
    rw [Context.roles, quote, if_neg hplain] at hroles
    have hrole := (List.cons.inj hroles).1
    rw [step_single hfs] at hrole
    cases hrole
  | double hfs escaped => exact (isQuiet_quote_iff escaped).1 (isQuiet_of_read hfs hroles)
  | comment hfs =>
    have hnewline := notMem_of_read_comment hfs hroles
    simpa [Context.inert] using fun h => hnewline (mem_quote_of_mem h)

theorem read_quote {s : State} {v : List Char} (h : s.context.inert v = true) :
    s.read (quote v) = ((s.step harmless).1, s.context.roles v) := by
  refine (stands_context fun hoperand => ?_).read_quote h
  rw [hoperand] at h
  cases h

theorem inert_of_read {s : State} {v : List Char} (hs : s.context ≠ .operand)
    (hroles : (s.read (quote v)).2 = s.context.roles v) : s.context.inert v = true :=
  (stands_context hs).inert_of_read hroles

/-- The literal characters of a text with roles. -/
def literals (cs : List Char) (rs : List Role) : List Char :=
  (cs.zip rs).filterMap fun e =>
    match e.2 with
    | .literal _ => some e.1
    | _ => none

theorem literals_append {cs cs' : List Char} {rs rs' : List Role} (h : cs.length = rs.length) :
    literals (cs ++ cs') (rs ++ rs') = literals cs rs ++ literals cs' rs' := by
  rw [literals, List.zip_append h, List.filterMap_append]
  rfl

theorem length_spelledChar (c : Char) : (spelledChar c).length = (quoteChar c).length := by
  by_cases hc : c = '\'' <;> simp [spelledChar, quoteChar, hc]

theorem length_flatMap_spelledChar (v : List Char) :
    (v.flatMap spelledChar).length = (v.flatMap quoteChar).length := by
  simp [List.length_flatMap, length_spelledChar]

/-- Out of quotes, what is literal of a quoted text is the text. -/
theorem literals_spelled (v : List Char) : literals (quote v) (spelled v) = v := by
  have hchars : literals (v.flatMap quoteChar) (v.flatMap spelledChar) = v := by
    induction v with
    | nil => rfl
    | cons c v ih =>
      have hchar : literals (quoteChar c) (spelledChar c) = [c] := by
        by_cases hc : c = '\'' <;> simp [quoteChar, spelledChar, hc, literals]
      rw [List.flatMap_cons, List.flatMap_cons, literals_append (length_spelledChar c).symm, hchar,
        ih, List.singleton_append]
  by_cases hplain : isPlain v = true
  · rw [quote, spelled, if_pos hplain, if_pos hplain]
    clear hchars hplain
    induction v with
    | nil => rfl
    | cons c v ih => exact congrArg (c :: ·) ih
  · have hlength := length_flatMap_spelledChar v
    rw [quote, spelled, if_neg hplain, if_neg hplain]
    refine (literals_append (by simpa using hlength.symm)).trans ?_
    exact (List.append_nil _).trans hchars

theorem Context.length_roles (ctx : Context) (v : List Char) :
    (ctx.roles v).length = (quote v).length := by
  have hspelled : (spelled v).length = (quote v).length := by
    by_cases hplain : isPlain v = true
    · rw [spelled, quote, if_pos hplain, if_pos hplain, List.length_map]
    · have hlength := length_flatMap_spelledChar v
      rw [spelled, quote, if_neg hplain, if_neg hplain]
      simpa using hlength
  cases ctx <;> simp [Context.roles, hspelled]

end Shell
