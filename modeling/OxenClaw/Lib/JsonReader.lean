import Mathlib.Data.List.Forall2
import OxenClaw.Lib.JsonValue

/-!
# Reading JSON character by character

`json.loads` as a machine : what is open around the place of reading (`Frame`), what may come
next (`Mode`), and one step for each character. What the values are is left to the reader
(`JsonReader`) : its `obj` gets every member in order and may refuse them, its `atom` the text
of a number or of a constant.

The character after the end of a number or constant decides, so the text of an atom is the
longest run of the characters atoms have. Readers whose parts are related read related values
(`loads_related`).
-/

/-- How the parts of a document become values. -/
structure JsonReader (α : Type*) where
  atom : List Char → Option α
  str : CodePoints → α
  arr : List α → α
  obj : List (CodePoints × α) → Option α

namespace JsonReader

/-- The white space between tokens. -/
def isBlank (c : Char) : Bool :=
  c = ' ' || c = '\t' || c = '\n' || c = '\r'

/-- The characters of numbers and constants. -/
def isAtomChar (c : Char) : Bool :=
  c.isAlphanum || c = '+' || c = '-' || c = '.'

/-- An escape that has begun in a literal. -/
inductive Escape where
  | plain
  | backslash
  /-- `k` digits, of value `n`. -/
  | hex (k n : ℕ)

/-- An array or object that is open. -/
inductive Frame (α : Type*) where
  | arr (items : List α)
  /-- The key is that of the member being read, and empty between members. -/
  | obj (fields : List (CodePoints × α)) (key : CodePoints)

/-- What may come next. -/
inductive Mode (α : Type*) where
  | value
  /-- The first item of an array, or its end. -/
  | item
  /-- The first key of an object, or its end. -/
  | firstKey
  | key
  | colon
  /-- A value has ended inside a frame. -/
  | after
  /-- The document has ended. -/
  | done (v : α)
  | str (isKey : Bool) (escape : Escape) (text : CodePoints)
  | atom (text : List Char)

/-- A place of reading. The innermost frame is first. -/
structure State (α : Type*) where
  frames : List (Frame α) := []
  mode : Mode α := .value

variable {α β : Type*}

/-- A value has ended. -/
def put (frames : List (Frame α)) (v : α) : State α :=
  match frames with
  | [] => { mode := .done v }
  | .arr items :: fs => { frames := .arr (items ++ [v]) :: fs, mode := .after }
  | .obj fields key :: fs => { frames := .obj (fields ++ [(key, v)]) [] :: fs, mode := .after }

/-- A value begins. -/
def openValue (frames : List (Frame α)) (c : Char) : Option (State α) :=
  if c = '"' then some { frames, mode := .str false .plain [] }
  else if c = '\x7b' then some { frames := .obj [] [] :: frames, mode := .firstKey }
  else if c = '[' then some { frames := .arr [] :: frames, mode := .item }
  else if isAtomChar c then some { frames, mode := .atom [c] }
  else none

/-- The innermost frame is closed by its own bracket. -/
def close (R : JsonReader α) (frames : List (Frame α)) (c : Char) : Option (State α) :=
  match frames with
  | [] => none
  | .arr items :: fs => if c = ']' then some (put fs (R.arr items)) else none
  | .obj fields _ :: fs => if c = '\x7d' then (R.obj fields).map (put fs) else none

/-- What follows the comma in a frame. -/
def Frame.afterComma : Frame α → Mode α
  | .arr _ => .value
  | .obj _ _ => .key

/-- A character after a value. -/
def next (R : JsonReader α) (s : State α) (c : Char) : Option (State α) :=
  if isBlank c then some s
  else if c = ',' then s.frames.head?.map fun f => { frames := s.frames, mode := f.afterComma }
  else R.close s.frames c

/-- The character an escape of one letter stands for. -/
def unescape (c : Char) : Option ℕ :=
  if c = '"' || c = '\\' || c = '/' then some c.toNat
  else if c = 'b' then some 8
  else if c = 'f' then some 12
  else if c = 'n' then some 10
  else if c = 'r' then some 13
  else if c = 't' then some 9
  else none

def hexDigit (c : Char) : Option ℕ :=
  if '0' ≤ c ∧ c ≤ '9' then some (c.toNat - 48)
  else if 'a' ≤ c ∧ c ≤ 'f' then some (c.toNat - 87)
  else if 'A' ≤ c ∧ c ≤ 'F' then some (c.toNat - 55)
  else none

/-- A code unit of an escape : a low surrogate joins the high one before it. -/
def addUnit (text : CodePoints) (n : ℕ) : CodePoints :=
  match text.getLast? with
  | none => [n]
  | some h =>
    if 0xD800 ≤ h ∧ h < 0xDC00 ∧ 0xDC00 ≤ n ∧ n < 0xE000 then
      text.dropLast ++ [0x10000 + (h - 0xD800) * 0x400 + (n - 0xDC00)]
    else text ++ [n]

/-- A literal has ended. -/
def endStr (R : JsonReader α) (frames : List (Frame α)) (isKey : Bool) (text : CodePoints) :
    Option (State α) :=
  if isKey then
    match frames with
    | .obj fields _ :: fs => some { frames := .obj fields text :: fs, mode := .colon }
    | _ => none
  else some (put frames (R.str text))

/-- A character of a literal. -/
def readStr (R : JsonReader α) (frames : List (Frame α)) (isKey : Bool) (text : CodePoints)
    (c : Char) : Escape → Option (State α)
  | .plain =>
    if c = '"' then R.endStr frames isKey text
    else if c = '\\' then some { frames, mode := .str isKey .backslash text }
    else if c.toNat < 0x20 then none
    else some { frames, mode := .str isKey .plain (text ++ [c.toNat]) }
  | .backslash =>
    if c = 'u' then some { frames, mode := .str isKey (.hex 0 0) text }
    else (unescape c).map fun n => { frames, mode := .str isKey .plain (text ++ [n]) }
  | .hex k n =>
    (hexDigit c).map fun d =>
      if k = 3 then { frames, mode := .str isKey .plain (addUnit text (n * 16 + d)) }
      else { frames, mode := .str isKey (.hex (k + 1) (n * 16 + d)) text }

/-- One character. -/
def step (R : JsonReader α) (s : State α) (c : Char) : Option (State α) :=
  match s.mode with
  | .value => if isBlank c then some s else openValue s.frames c
  | .item =>
    if isBlank c then some s
    else if c = ']' then R.close s.frames c
    else openValue s.frames c
  | .firstKey =>
    if isBlank c then some s
    else if c = '\x7d' then R.close s.frames c
    else if c = '"' then some { s with mode := .str true .plain [] }
    else none
  | .key =>
    if isBlank c then some s
    else if c = '"' then some { s with mode := .str true .plain [] }
    else none
  | .colon =>
    if isBlank c then some s else if c = ':' then some { s with mode := .value } else none
  | .after => R.next s c
  | .done _ => R.next s c
  | .str isKey escape text => R.readStr s.frames isKey text c escape
  | .atom text =>
    if isAtomChar c then some { s with mode := .atom (text ++ [c]) }
    else (R.atom text).bind fun v => R.next (put s.frames v) c

/-- The value of a text that ends here. -/
def finish (R : JsonReader α) (s : State α) : Option α :=
  match s.frames, s.mode with
  | [], .done v => some v
  | [], .atom text => R.atom text
  | _, _ => none

/-- What a text makes of a place of reading. -/
def run (R : JsonReader α) (s : State α) (text : List Char) : Option (State α) :=
  text.foldlM R.step s

/-- What the rest of a text makes the document. -/
def readFrom (R : JsonReader α) (s : State α) (text : List Char) : Option α :=
  (R.run s text).bind R.finish

/-- `json.loads`. -/
def loads (R : JsonReader α) (text : List Char) : Option α :=
  R.readFrom {} text

variable (R : JsonReader α)

@[simp] theorem readFrom_nil (s : State α) : R.readFrom s [] = R.finish s := rfl

theorem readFrom_cons (s : State α) (c : Char) (text : List Char) :
    R.readFrom s (c :: text) = (R.step s c).bind fun s' => R.readFrom s' text := by
  rw [readFrom, run, List.foldlM_cons]
  rcases R.step s c with _ | s' <;> rfl

theorem readFrom_append (s : State α) (before text : List Char) :
    R.readFrom s (before ++ text) = (R.run s before).bind fun s' => R.readFrom s' text := by
  rw [readFrom, run, List.foldlM_append]
  rcases h : before.foldlM R.step s with _ | s'
  · rw [run, h]
    rfl
  · rw [run, h]
    rfl

/-! ## Inside a literal, and outside -/

/-- The place of reading is inside a literal. -/
def Mode.quoted : Mode α → Bool
  | .str _ _ _ => true
  | _ => false

/-- The escape of a place of reading. -/
def Mode.escape : Mode α → Escape
  | .str _ escape _ => escape
  | _ => .plain

/-- An escape begins in a literal only. -/
theorem escape_of_not_quoted {m : Mode α} (h : m.quoted = false) : m.escape = .plain := by
  rcases m with _ | _ | _ | _ | _ | _ | _ | _ | _
  case str => cases h
  all_goals rfl

@[simp] theorem quoted_put (frames : List (Frame α)) (v : α) :
    (put frames v).mode.quoted = false := by
  rcases frames with _ | ⟨_ | _, _⟩ <;> rfl

@[simp] theorem quoted_afterComma (f : Frame α) : f.afterComma.quoted = false := by
  rcases f with _ | _ <;> rfl

/-- A literal is only left by a quote. -/
theorem quoted_of_readStr {R : JsonReader α} {frames : List (Frame α)} {isKey : Bool}
    {text : CodePoints} {c : Char} {escape : Escape} {s : State α} (hc : c ≠ '"')
    (h : R.readStr frames isKey text c escape = some s) : s.mode.quoted = true := by
  rcases escape with _ | _ | ⟨k, n⟩
  · rw [readStr, if_neg hc] at h
    split_ifs at h
    all_goals exact Option.some.inj h ▸ rfl
  · rw [readStr] at h
    split_ifs at h
    · exact Option.some.inj h ▸ rfl
    · obtain ⟨m, -, rfl⟩ := Option.map_eq_some_iff.1 h
      rfl
  · obtain ⟨d, -, rfl⟩ := Option.map_eq_some_iff.1 h
    split_ifs <;> rfl

/-- A text that ends in a literal has no value. -/
theorem readFrom_quoted {s : State α} (hs : s.mode.quoted = true) {text : List Char}
    (htext : '"' ∉ text) : R.readFrom s text = none := by
  induction text generalizing s with
  | nil =>
    obtain ⟨frames, mode⟩ := s
    rcases frames with _ | _ <;> rcases mode with _ | _ | _ | _ | _ | _ | _ | _ | _ <;>
      first | rfl | cases hs
  | cons c text ih =>
    obtain ⟨hc, htext⟩ := not_or.1 (mt List.mem_cons.2 htext)
    rw [readFrom_cons]
    rcases hstep : R.step s c with _ | s'
    · rfl
    · obtain ⟨frames, mode⟩ := s
      rcases mode with _ | _ | _ | _ | _ | _ | _ | ⟨isKey, escape, lit⟩ | _
      case str => exact ih (quoted_of_readStr (Ne.symm hc) hstep) htext
      all_goals cases hs

/-- The characters a document has outside its literals. -/
def isToken (c : Char) : Bool :=
  isBlank c || isAtomChar c || c = '"' || c = '\x7b' || c = '\x7d' || c = '[' || c = ']' ||
    c = ',' || c = ':'

theorem isAlphanum_iff (c : Char) : c.isAlphanum = true ↔
    (('A' ≤ c ∧ c ≤ 'Z') ∨ ('a' ≤ c ∧ c ≤ 'z')) ∨ ('0' ≤ c ∧ c ≤ '9') := by
  change ((decide ('A' ≤ c ∧ c ≤ 'Z') || (decide ('a' ≤ c) && decide (c ≤ 'z'))) ||
    (decide ('0' ≤ c) && decide (c ≤ '9'))) = true ↔ _
  simp only [Bool.or_eq_true, Bool.and_eq_true, decide_eq_true_eq]

theorem toNat_lt_of_isToken {c : Char} (h : isToken c = true) : c.toNat < 128 := by
  have hle {d : Char} (hc : c ≤ d) (hd : d.toNat < 128) : c.toNat < 128 :=
    lt_of_le_of_lt (UInt32.le_iff_toNat_le.1 hc) hd
  simp only [isToken, isBlank, isAtomChar, isAlphanum_iff, Bool.or_eq_true, decide_eq_true_eq,
    or_assoc] at h
  rcases h with h | h | h | h | h | h | h | h | h | h | h | h | h | h | h | h | h
  all_goals first | (rw [h]; decide) | exact hle h.2 (by decide)

theorem openValue_of_not_isToken {c : Char} (hc : isToken c = false) (frames : List (Frame α)) :
    openValue frames c = none := by
  simp only [isToken, Bool.or_eq_false_iff, decide_eq_false_iff_not] at hc
  simp [openValue, hc]

theorem close_of_not_isToken {c : Char} (hc : isToken c = false) (frames : List (Frame α)) :
    R.close frames c = none := by
  simp only [isToken, Bool.or_eq_false_iff, decide_eq_false_iff_not] at hc
  rcases frames with _ | ⟨_ | _, _⟩ <;> simp [close, hc]

/-- No other character is read outside a literal. -/
theorem step_of_not_isToken {s : State α} {c : Char} (hs : s.mode.quoted = false)
    (hc : isToken c = false) : R.step s c = none := by
  have hopen := openValue_of_not_isToken hc s.frames
  have hnext (s' : State α) : R.next s' c = none := by
    have hclose := R.close_of_not_isToken hc s'.frames
    simp only [isToken, Bool.or_eq_false_iff, decide_eq_false_iff_not] at hc
    simp [next, hc, hclose]
  simp only [isToken, Bool.or_eq_false_iff, decide_eq_false_iff_not] at hc
  unfold step
  rcases hmode : s.mode with _ | _ | _ | _ | _ | _ | _ | _ | _
  case str => simp [hmode, Mode.quoted] at hs
  all_goals simp [hc, hopen, hnext]

/-- White space after a value, or before one, is skipped. -/
theorem readFrom_blank {s : State α} {c : Char} {text : List Char} (hs : s.mode.quoted = false)
    (hc : isBlank c = true) (htext : ∀ d ∈ text.head?, isAtomChar d = false) :
    R.readFrom s (c :: text) = R.readFrom s text := by
  obtain ⟨frames, mode⟩ := s
  have hnext (s' : State α) : R.next s' c = some s' := if_pos hc
  have hatom : isAtomChar c = false := by
    simp only [isBlank, Bool.or_eq_true, decide_eq_true_eq] at hc
    rcases hc with ((rfl | rfl) | rfl) | rfl <;> rfl
  rw [readFrom_cons]
  rcases mode with _ | _ | _ | _ | _ | _ | _ | _ | t
  case str => cases hs
  case atom =>
    rw [step]
    simp only [hatom, Bool.false_eq_true, ↓reduceIte, hnext]
    rcases text with _ | ⟨d, text⟩
    · rcases frames with _ | ⟨_ | _, _⟩
      all_goals rcases h : R.atom t with _ | v <;> simp [finish, put, h]
    · have hd : isAtomChar d = false := htext d rfl
      rw [readFrom_cons, step]
      rcases h : R.atom t with _ | v
      · simp [hd, h]
      · have hput : R.step (put frames v) d = R.next (put frames v) d := by
          rcases frames with _ | ⟨_ | _, _⟩ <;> rfl
        simp [hd, h, readFrom_cons, hput]
  all_goals simp [step, hc, hnext]

/-! ## Closing brackets -/

/-- The bracket that closes a frame. -/
def Frame.closer : Frame α → Char
  | .arr _ => ']'
  | .obj _ _ => '\x7d'

/-- The brackets that are missing. -/
def closers (s : State α) : List Char :=
  s.frames.map Frame.closer

@[simp] theorem closers_put (frames : List (Frame α)) (v : α) :
    closers (put frames v) = frames.map Frame.closer := by
  rcases frames with _ | ⟨_ | _, _⟩ <;> rfl

/-- An array or an object. -/
def Encloses (R : JsonReader α) (v : α) : Prop :=
  (∃ items, v = R.arr items) ∨ ∃ fields, R.obj fields = some v

theorem closers_of_close {frames : List (Frame α)} {c : Char} {s : State α}
    (h : R.close frames c = some s) :
    frames.map Frame.closer = c :: closers s ∧ ∃ fs v, s = put fs v ∧ R.Encloses v := by
  rcases frames with _ | ⟨items | ⟨fields, key⟩, fs⟩
  · cases h
  · rw [close] at h
    split_ifs at h with hc
    obtain rfl := Option.some.inj h
    exact ⟨by rw [closers_put, hc]; rfl, fs, _, rfl, Or.inl ⟨items, rfl⟩⟩
  · rw [close] at h
    split_ifs at h with hc
    obtain ⟨v, hv, rfl⟩ := Option.map_eq_some_iff.1 h
    exact ⟨by rw [closers_put, hc]; rfl, fs, v, rfl, Or.inr ⟨fields, hv⟩⟩

/-- A closing bracket closes the innermost frame. -/
theorem closers_of_step {s s' : State α} {c : Char} (hs : s.mode.quoted = false)
    (hc : c = ']' ∨ c = '\x7d') (h : R.step s c = some s') :
    closers s = c :: closers s' ∧ ∃ fs v, s' = put fs v ∧ R.Encloses v := by
  have hopen (frames : List (Frame α)) : openValue frames c = none := by
    rcases hc with rfl | rfl <;> rfl
  have hatom : isAtomChar c = false := by rcases hc with rfl | rfl <;> rfl
  have hnext (s₀ : State α) : R.next s₀ c = R.close s₀.frames c := by
    rcases hc with rfl | rfl <;> rfl
  have hblank : isBlank c = false := by rcases hc with rfl | rfl <;> rfl
  have hother : c ≠ '"' ∧ c ≠ ':' := by rcases hc with rfl | rfl <;> decide
  obtain ⟨frames, mode⟩ := s
  rcases mode with _ | _ | _ | _ | _ | _ | _ | _ | t
  case str => cases hs
  case atom =>
    rw [step] at h
    simp only [hatom, Bool.false_eq_true, ↓reduceIte] at h
    obtain ⟨v, -, hv⟩ := Option.bind_eq_some_iff.1 h
    rw [hnext] at hv
    obtain ⟨heq, hput⟩ := R.closers_of_close hv
    exact ⟨(closers_put frames v).symm.trans heq, hput⟩
  case after => exact R.closers_of_close ((hnext _).symm.trans h)
  case done => exact R.closers_of_close ((hnext _).symm.trans h)
  case item =>
    simp only [step, hblank, hopen, Bool.false_eq_true, ↓reduceIte] at h
    split_ifs at h
    exact R.closers_of_close h
  case firstKey =>
    simp only [step, hblank, hother.1, Bool.false_eq_true, ↓reduceIte] at h
    split_ifs at h
    exact R.closers_of_close h
  all_goals simp [step, hblank, hopen, hother.1, hother.2] at h

/-- The brackets that are missing after a character outside the literals. -/
def closersAfter (c : Char) (missing : List Char) : List Char :=
  if c = '\x7b' then '\x7d' :: missing
  else if c = '[' then ']' :: missing
  else if c = ']' ∨ c = '\x7d' then missing.tail
  else missing

theorem closers_of_openValue {frames : List (Frame α)} {c : Char} {s : State α}
    (h : openValue frames c = some s) :
    closers s = closersAfter c (frames.map Frame.closer) ∧ s.mode.escape = .plain ∧
      s.mode.quoted = decide (c = '"') := by
  unfold openValue at h
  split_ifs at h with hquote hcurly hsquare hatom
  all_goals obtain rfl := Option.some.inj h
  · rw [hquote]
    exact ⟨rfl, rfl, rfl⟩
  · rw [hcurly]
    exact ⟨rfl, rfl, rfl⟩
  · rw [hsquare]
    exact ⟨rfl, rfl, rfl⟩
  · have hsame : closersAfter c (frames.map Frame.closer) = frames.map Frame.closer := by
      unfold closersAfter
      rw [if_neg hcurly, if_neg hsquare, if_neg]
      rintro (rfl | rfl) <;> cases hatom
    exact ⟨hsame.symm, rfl, (decide_eq_false hquote).symm⟩

/-- What a character outside the literals does. -/
theorem closers_of_step_unquoted {s s' : State α} {c : Char} (hs : s.mode.quoted = false)
    (h : R.step s c = some s') : closers s' = closersAfter c (closers s) ∧
      s'.mode.escape = .plain ∧ s'.mode.quoted = decide (c = '"') := by
  by_cases hcloser : c = ']' ∨ c = '\x7d'
  · obtain ⟨heq, fs, v, rfl, -⟩ := R.closers_of_step hs hcloser h
    refine ⟨?_, escape_of_not_quoted (quoted_put fs v), ?_⟩
    · rw [heq]
      rcases hcloser with rfl | rfl <;> rfl
    · rw [quoted_put]
      rcases hcloser with rfl | rfl <;> rfl
  · have hclose (frames : List (Frame α)) : R.close frames c = none := by
      rcases frames with _ | ⟨_ | _, _⟩
      · rfl
      · exact if_neg fun hc => hcloser (Or.inl hc)
      · exact if_neg fun hc => hcloser (Or.inr hc)
    have hsame (hc : isBlank c = true ∨ c = ',' ∨ c = ':' ∨ isAtomChar c = true) :
        closersAfter c = id ∧ decide (c = '"') = false := by
      have hne : c ≠ '\x7b' ∧ c ≠ '[' ∧ c ≠ '"' := by
        refine ⟨?_, ?_, ?_⟩ <;> rintro rfl <;> revert hc <;> decide
      refine ⟨funext fun missing => ?_, decide_eq_false hne.2.2⟩
      rw [closersAfter, if_neg hne.1, if_neg hne.2.1, if_neg hcloser, id]
    have hkey (frames : List (Frame α)) (hc : c = '"') :
        closers ({ frames, mode := .str true .plain [] } : State α) =
          closersAfter c (frames.map Frame.closer) ∧ Escape.plain = .plain ∧
            true = decide (c = '"') := by
      rw [hc]
      exact ⟨rfl, rfl, rfl⟩
    have hnext {s s' : State α} (hs : s.mode.quoted = false) (h : R.next s c = some s') :
        closers s' = closersAfter c (closers s) ∧ s'.mode.escape = .plain ∧
          s'.mode.quoted = decide (c = '"') := by
      unfold next at h
      rw [hclose] at h
      split_ifs at h with hblank hc
      · obtain rfl := Option.some.inj h
        obtain ⟨hafter, hquote⟩ := hsame (Or.inl hblank)
        rw [hafter, hquote]
        exact ⟨rfl, escape_of_not_quoted hs, hs⟩
      · obtain ⟨f, -, rfl⟩ := Option.map_eq_some_iff.1 h
        obtain ⟨hafter, hquote⟩ := hsame (Or.inr (Or.inl hc))
        rw [hafter, hquote]
        exact ⟨rfl, escape_of_not_quoted (quoted_afterComma f), quoted_afterComma f⟩
    have hblank (hb : isBlank c = true) : closers s = closersAfter c (closers s) ∧
        s.mode.escape = .plain ∧ s.mode.quoted = decide (c = '"') := by
      obtain ⟨hafter, hquote⟩ := hsame (Or.inl hb)
      rw [hafter, hquote]
      exact ⟨rfl, escape_of_not_quoted hs, hs⟩
    obtain ⟨frames, mode⟩ := s
    rcases mode with _ | _ | _ | _ | _ | _ | _ | _ | text
    case str => cases hs
    case after => exact hnext hs h
    case done => exact hnext hs h
    case atom =>
      simp only [step] at h
      split_ifs at h with hatom
      · obtain rfl := Option.some.inj h
        obtain ⟨hafter, hquote⟩ := hsame (Or.inr (Or.inr (Or.inr hatom)))
        rw [hafter, hquote]
        exact ⟨rfl, rfl, rfl⟩
      · obtain ⟨v, -, hv⟩ := Option.bind_eq_some_iff.1 h
        have hput := hnext (quoted_put frames v) hv
        rwa [closers_put] at hput
    case value =>
      simp only [step] at h
      split_ifs at h with hb
      · exact Option.some.inj h ▸ hblank hb
      · exact closers_of_openValue h
    case item =>
      simp only [step, hclose] at h
      split_ifs at h with hb
      · exact Option.some.inj h ▸ hblank hb
      · exact closers_of_openValue h
    case firstKey =>
      simp only [step, hclose] at h
      split_ifs at h with hb hc hq
      · exact Option.some.inj h ▸ hblank hb
      · exact Option.some.inj h ▸ hkey frames hq
    case key =>
      simp only [step] at h
      split_ifs at h with hb hq
      · exact Option.some.inj h ▸ hblank hb
      · exact Option.some.inj h ▸ hkey frames hq
    case colon =>
      simp only [step] at h
      split_ifs at h with hb hc
      · exact Option.some.inj h ▸ hblank hb
      · obtain rfl := Option.some.inj h
        obtain ⟨hafter, hquote⟩ := hsame (Or.inr (Or.inr (Or.inl hc)))
        rw [hafter, hquote]
        exact ⟨rfl, rfl, rfl⟩

/-- What a character of a literal does. -/
theorem closers_of_readStr {frames : List (Frame α)} {isKey : Bool} {text : CodePoints} {c : Char}
    {escape : Escape} {s : State α} (h : R.readStr frames isKey text c escape = some s) :
    closers s = frames.map Frame.closer ∧
      match escape with
      | .plain =>
        if c = '"' then s.mode.quoted = false
        else s.mode.quoted = true ∧ s.mode.escape = if c = '\\' then .backslash else .plain
      | _ => s.mode.quoted = true ∧ s.mode.escape ≠ .backslash := by
  rcases escape with _ | _ | ⟨k, n⟩
  · rw [readStr] at h
    simp only
    split_ifs at h ⊢ with hquote hslash
    · rcases isKey with _ | _
      · obtain rfl := Option.some.inj h
        exact ⟨closers_put _ _, quoted_put _ _⟩
      · rcases frames with _ | ⟨_ | ⟨fields, key⟩, fs⟩
        · cases h
        · cases h
        · obtain rfl := Option.some.inj h
          exact ⟨rfl, rfl⟩
    · obtain rfl := Option.some.inj h
      exact ⟨rfl, rfl, rfl⟩
    · obtain rfl := Option.some.inj h
      exact ⟨rfl, rfl, rfl⟩
  · rw [readStr] at h
    split_ifs at h
    · obtain rfl := Option.some.inj h
      exact ⟨rfl, rfl, nofun⟩
    · obtain ⟨m, -, rfl⟩ := Option.map_eq_some_iff.1 h
      exact ⟨rfl, rfl, nofun⟩
  · obtain ⟨d, -, rfl⟩ := Option.map_eq_some_iff.1 h
    split_ifs
    · exact ⟨rfl, rfl, nofun⟩
    · exact ⟨rfl, rfl, nofun⟩

/-- Only the missing brackets, innermost first, complete a document. -/
theorem eq_closers_of_readFrom {s : State α} {text : List Char} {v : α}
    (hs : s.mode.quoted = false) (htext : ∀ c ∈ text, c = ']' ∨ c = '\x7d')
    (h : R.readFrom s text = some v) : text = closers s := by
  induction text generalizing s with
  | nil =>
    obtain ⟨_ | _, mode⟩ := s
    · rfl
    · cases h
  | cons c text ih =>
    rw [readFrom_cons] at h
    obtain ⟨s', hstep, hrest⟩ := Option.bind_eq_some_iff.1 h
    obtain ⟨heq, fs, w, rfl, -⟩ := R.closers_of_step hs (htext c List.mem_cons_self) hstep
    rw [heq, ← ih (quoted_put fs w) (fun d hd => htext d (List.mem_cons_of_mem c hd)) hrest]

theorem finish_of_closers {s : State α} (hs : closers s ≠ []) : R.finish s = none := by
  obtain ⟨_ | _, mode⟩ := s
  · exact absurd rfl hs
  · rfl

/-- What is read inside a frame, or has been, is an array or an object. -/
theorem encloses_of_readFrom {s : State α} {text : List Char} {v : α}
    (hs : closers s ≠ [] ∨ ∃ w, s = put [] w ∧ R.Encloses w) (h : R.readFrom s text = some v) :
    R.Encloses v := by
  induction text generalizing s with
  | nil =>
    rcases hs with hs | ⟨w, rfl, hw⟩
    · rw [readFrom_nil, finish_of_closers R hs] at h
      cases h
    · obtain rfl := Option.some.inj h
      exact hw
  | cons c text ih =>
    rw [readFrom_cons] at h
    obtain ⟨s', hstep, hrest⟩ := Option.bind_eq_some_iff.1 h
    refine ih ?_ hrest
    rcases hs with hs | ⟨w, rfl, hw⟩
    · rcases hquoted : s.mode.quoted with _ | _
      · by_cases hc : c = ']' ∨ c = '\x7d'
        · obtain ⟨-, fs, w, rfl, hw⟩ := R.closers_of_step hquoted hc hstep
          rcases fs with _ | ⟨f, fs⟩
          · exact Or.inr ⟨w, rfl, hw⟩
          · exact Or.inl (by simp)
        · have hafter := (R.closers_of_step_unquoted hquoted hstep).1
          refine Or.inl ?_
          rw [hafter, closersAfter]
          split_ifs
          · exact List.cons_ne_nil _ _
          · exact List.cons_ne_nil _ _
          · exact hs
      · obtain ⟨frames, mode⟩ := s
        rcases mode with _ | _ | _ | _ | _ | _ | _ | ⟨isKey, escape, lit⟩ | _
        case str =>
          refine Or.inl ?_
          rw [(R.closers_of_readStr hstep).1]
          exact hs
        all_goals cases hquoted
    · have hnext : R.next (put [] w) c = some s' := hstep
      unfold next at hnext
      split_ifs at hnext
      · exact Or.inr ⟨w, (Option.some.inj hnext).symm, hw⟩
      · cases hnext
      · cases hnext

/-- A value that is in no frame has been read, or is an atom. -/
def Ended (s : State α) : Prop :=
  s.frames = [] ∧ ((∃ v, s.mode = .done v) ∨ ∃ text, s.mode = .atom text)

theorem ended_of_finish {s : State α} {v : α} (h : R.finish s = some v) : Ended s := by
  obtain ⟨_ | _, mode⟩ := s
  · rcases mode with _ | _ | _ | _ | _ | _ | v | _ | text
    case done => exact ⟨rfl, Or.inl ⟨v, rfl⟩⟩
    case atom => exact ⟨rfl, Or.inr ⟨text, rfl⟩⟩
    all_goals cases h
  · cases h

theorem ended_of_step {s s' : State α} {c : Char} (hs : Ended s) (h : R.step s c = some s') :
    Ended s' := by
  obtain ⟨frames, mode⟩ := s
  obtain ⟨rfl, hmode⟩ : frames = [] ∧ _ := hs
  have hnext {v : α} {s' : State α} (h : R.next (put [] v) c = some s') : Ended s' := by
    unfold next at h
    split_ifs at h
    · exact Option.some.inj h ▸ ⟨rfl, Or.inl ⟨v, rfl⟩⟩
    · cases h
    · cases h
  rcases hmode with ⟨v, rfl⟩ | ⟨text, rfl⟩
  · exact hnext h
  · simp only [step] at h
    split_ifs at h
    · exact Option.some.inj h ▸ ⟨rfl, Or.inr ⟨_, rfl⟩⟩
    · obtain ⟨v, -, hv⟩ := Option.bind_eq_some_iff.1 h
      exact hnext hv

/-- No closing bracket follows then. -/
theorem ne_closer_of_ended {s : State α} {text : List Char} {v : α} (hs : Ended s)
    (h : R.readFrom s text = some v) : ∀ c ∈ text, c ≠ ']' ∧ c ≠ '\x7d' := by
  induction text generalizing s with
  | nil => exact fun c hc => by cases hc
  | cons c text ih =>
    rw [readFrom_cons] at h
    obtain ⟨s', hstep, hrest⟩ := Option.bind_eq_some_iff.1 h
    have hquoted : s.mode.quoted = false := by
      rcases hs.2 with ⟨_, hmode⟩ | ⟨_, hmode⟩ <;> rw [hmode] <;> rfl
    have hclosers : closers s = [] := by rw [closers, hs.1, List.map_nil]
    have hc : c ≠ ']' ∧ c ≠ '\x7d' := by
      refine ⟨?_, ?_⟩
      all_goals
        rintro rfl
        have heq := (R.closers_of_step hquoted (by simp) hstep).1
        rw [hclosers] at heq
        cases heq
    intro d hd
    rcases List.mem_cons.1 hd with rfl | hd
    · exact hc
    · exact ih (R.ended_of_step hs hstep) hrest d hd

/-- A part of a document that ends in a closing bracket is no document. -/
theorem loads_eq_none_of_prefix {before rest : List Char} {v : α}
    (h : R.loads (before ++ rest) = some v) (hrest : '\x7d' ∈ rest) : R.loads before = none := by
  rw [loads, readFrom_append] at h
  obtain ⟨s, hrun, hv⟩ := Option.bind_eq_some_iff.1 h
  rcases hu : R.loads before with _ | u
  · rfl
  · rw [loads, readFrom, hrun, Option.bind_some] at hu
    exact absurd rfl (R.ne_closer_of_ended (R.ended_of_finish hu) hv _ hrest).2

/-! ## Related readers -/

/-- Members with the same keys and related values. -/
def SameMember (rel : α → β → Prop) (p : CodePoints × α) (q : CodePoints × β) : Prop :=
  p.1 = q.1 ∧ rel p.2 q.2

/-- The parts of a document become related values. -/
structure Related (R : JsonReader α) (R' : JsonReader β) (rel : α → β → Prop) : Prop where
  atom : ∀ text v, R.atom text = some v → ∃ w, R'.atom text = some w ∧ rel v w
  str : ∀ text, rel (R.str text) (R'.str text)
  arr : ∀ vs ws, List.Forall₂ rel vs ws → rel (R.arr vs) (R'.arr ws)
  obj : ∀ ps qs v, List.Forall₂ (SameMember rel) ps qs → R.obj ps = some v →
    ∃ w, R'.obj qs = some w ∧ rel v w

/-- Frames of the same kind with related values. -/
inductive FrameRel (rel : α → β → Prop) : Frame α → Frame β → Prop
  | arr {vs ws} : List.Forall₂ rel vs ws → FrameRel rel (.arr vs) (.arr ws)
  | obj {ps qs key} : List.Forall₂ (SameMember rel) ps qs →
      FrameRel rel (.obj ps key) (.obj qs key)

/-- The same place in the two documents. -/
inductive ModeRel (rel : α → β → Prop) : Mode α → Mode β → Prop
  | value : ModeRel rel .value .value
  | item : ModeRel rel .item .item
  | firstKey : ModeRel rel .firstKey .firstKey
  | key : ModeRel rel .key .key
  | colon : ModeRel rel .colon .colon
  | after : ModeRel rel .after .after
  | done {v w} : rel v w → ModeRel rel (.done v) (.done w)
  | str {isKey escape text} : ModeRel rel (.str isKey escape text) (.str isKey escape text)
  | atom {text} : ModeRel rel (.atom text) (.atom text)

/-- Places of reading that differ in related values only. -/
structure StateRel (rel : α → β → Prop) (s : State α) (t : State β) : Prop where
  frames : List.Forall₂ (FrameRel rel) s.frames t.frames
  mode : ModeRel rel s.mode t.mode

/-- Where the first reader goes on, the other does. -/
def Follows (rel : α → β → Prop) (o : Option (State α)) (o' : Option (State β)) : Prop :=
  ∀ s, o = some s → ∃ t, o' = some t ∧ StateRel rel s t

section Related

variable {R : JsonReader α} {R' : JsonReader β} {rel : α → β → Prop}

theorem follows_none (o' : Option (State β)) : Follows rel none o' := by
  intro s h
  cases h

theorem follows_some {s : State α} {t : State β} (h : StateRel rel s t) :
    Follows rel (some s) (some t) := by
  rintro s₀ ⟨⟩
  exact ⟨t, rfl, h⟩

theorem put_related {fs : List (Frame α)} {gs : List (Frame β)} {v : α} {w : β}
    (hframes : List.Forall₂ (FrameRel rel) fs gs) (h : rel v w) :
    StateRel rel (put fs v) (put gs w) := by
  rcases hframes with _ | ⟨hf | hf, hframes⟩
  · exact ⟨.nil, .done h⟩
  · exact ⟨.cons (.arr (List.rel_append hf (.cons h .nil))) hframes, .after⟩
  · exact ⟨.cons (.obj (List.rel_append hf (.cons ⟨rfl, h⟩ .nil))) hframes, .after⟩

theorem openValue_related {fs : List (Frame α)} {gs : List (Frame β)}
    (hframes : List.Forall₂ (FrameRel rel) fs gs) (c : Char) :
    Follows rel (openValue fs c) (openValue gs c) := by
  unfold openValue
  split_ifs
  · exact follows_some ⟨hframes, .str⟩
  · exact follows_some ⟨.cons (.obj .nil) hframes, .firstKey⟩
  · exact follows_some ⟨.cons (.arr .nil) hframes, .item⟩
  · exact follows_some ⟨hframes, .atom⟩
  · exact follows_none _

theorem close_related (hR : Related R R' rel) {fs : List (Frame α)} {gs : List (Frame β)}
    (hframes : List.Forall₂ (FrameRel rel) fs gs) (c : Char) :
    Follows rel (R.close fs c) (R'.close gs c) := by
  rcases hframes with _ | ⟨hf | hf, hframes⟩
  · exact follows_none _
  · simp only [close]
    split_ifs
    · exact follows_some (put_related hframes (hR.arr _ _ hf))
    · exact follows_none _
  · simp only [close]
    split_ifs
    · intro s h
      obtain ⟨v, hv, rfl⟩ := Option.map_eq_some_iff.1 h
      obtain ⟨w, hw, hrel⟩ := hR.obj _ _ v hf hv
      exact ⟨_, by rw [hw]; rfl, put_related hframes hrel⟩
    · exact follows_none _

theorem next_related (hR : Related R R' rel) {s : State α} {t : State β}
    (h : StateRel rel s t) (c : Char) : Follows rel (R.next s c) (R'.next t c) := by
  obtain ⟨fs, mode⟩ := s
  obtain ⟨gs, mode'⟩ := t
  have hframes : List.Forall₂ (FrameRel rel) fs gs := h.frames
  unfold next
  split_ifs
  · exact follows_some h
  · rcases hframes with _ | ⟨hf, hframes⟩
    · exact follows_none _
    · refine follows_some ⟨.cons hf hframes, ?_⟩
      rcases hf with _ | _
      · exact .value
      · exact .key
  · exact close_related hR hframes c

theorem readStr_related (hR : Related R R' rel) {fs : List (Frame α)} {gs : List (Frame β)}
    (hframes : List.Forall₂ (FrameRel rel) fs gs) (isKey : Bool) (text : CodePoints) (c : Char)
    (escape : Escape) :
    Follows rel (R.readStr fs isKey text c escape) (R'.readStr gs isKey text c escape) := by
  rcases escape with _ | _ | ⟨k, n⟩
  · simp only [readStr]
    split_ifs
    · rcases isKey with _ | _
      · exact follows_some (put_related hframes (hR.str text))
      · rcases hframes with _ | ⟨hf | hf, hframes⟩
        · exact follows_none _
        · exact follows_none _
        · exact follows_some ⟨.cons (.obj hf) hframes, .colon⟩
    · exact follows_some ⟨hframes, .str⟩
    · exact follows_none _
    · exact follows_some ⟨hframes, .str⟩
  · simp only [readStr]
    split_ifs
    · exact follows_some ⟨hframes, .str⟩
    · intro s h
      obtain ⟨m, hm, rfl⟩ := Option.map_eq_some_iff.1 h
      exact ⟨_, by rw [hm]; rfl, hframes, .str⟩
  · intro s h
    obtain ⟨d, hd, rfl⟩ := Option.map_eq_some_iff.1 h
    refine ⟨_, by rw [readStr, hd]; rfl, ?_⟩
    split_ifs
    · exact ⟨hframes, .str⟩
    · exact ⟨hframes, .str⟩

theorem step_related (hR : Related R R' rel) {s : State α} {t : State β}
    (h : StateRel rel s t) (c : Char) : Follows rel (R.step s c) (R'.step t c) := by
  obtain ⟨fs, mode⟩ := s
  obtain ⟨gs, mode'⟩ := t
  have hframes : List.Forall₂ (FrameRel rel) fs gs := h.frames
  rcases hmode : h.mode with _ | _ | _ | _ | _ | _ | hv | _ | _
  case after => exact next_related hR h c
  case done => exact next_related hR h c
  case str => exact readStr_related hR hframes _ _ c _
  case atom text =>
    simp only [step]
    split_ifs
    · exact follows_some ⟨hframes, .atom⟩
    · intro s hs
      obtain ⟨v, hv, hnext⟩ := Option.bind_eq_some_iff.1 hs
      obtain ⟨w, hw, hrel⟩ := hR.atom text v hv
      obtain ⟨t, ht, hst⟩ := next_related hR (put_related hframes hrel) c s hnext
      exact ⟨t, by rw [hw]; exact ht, hst⟩
  all_goals
    simp only [step]
    split_ifs
  · exact follows_some h
  · exact openValue_related hframes c
  · exact follows_some h
  · exact close_related hR hframes c
  · exact openValue_related hframes c
  · exact follows_some h
  · exact close_related hR hframes c
  · exact follows_some ⟨hframes, .str⟩
  · exact follows_none _
  · exact follows_some h
  · exact follows_some ⟨hframes, .str⟩
  · exact follows_none _
  · exact follows_some h
  · exact follows_some ⟨hframes, .value⟩
  · exact follows_none _

theorem readFrom_related (hR : Related R R' rel) {s : State α} {t : State β}
    (h : StateRel rel s t) {text : List Char} {v : α} (hv : R.readFrom s text = some v) :
    ∃ w, R'.readFrom t text = some w ∧ rel v w := by
  induction text generalizing s t with
  | nil =>
    obtain ⟨fs, mode⟩ := s
    obtain ⟨gs, mode'⟩ := t
    have hframes : List.Forall₂ (FrameRel rel) fs gs := h.frames
    rw [readFrom_nil] at hv ⊢
    rcases hframes with _ | _
    · rcases h.mode with _ | _ | _ | _ | _ | _ | hdone | _ | _
      case done =>
        obtain rfl := Option.some.inj hv
        exact ⟨_, rfl, hdone⟩
      case atom text => exact hR.atom text v hv
      all_goals cases hv
    · cases hv
  | cons c text ih =>
    rw [readFrom_cons] at hv ⊢
    obtain ⟨s', hs', hrest⟩ := Option.bind_eq_some_iff.1 hv
    obtain ⟨t', ht', hst⟩ := step_related hR h c s' hs'
    rw [ht', Option.bind_some]
    exact ih hst hrest

/-- Related readers read related values. -/
theorem loads_related (hR : Related R R' rel) {text : List Char} {v : α}
    (hv : R.loads text = some v) : ∃ w, R'.loads text = some w ∧ rel v w :=
  readFrom_related hR ⟨.nil, .value⟩ hv

end Related

end JsonReader
