import Mathlib.Algebra.BigOperators.Group.List.Basic
import Mathlib.Algebra.Ring.Nat
import OxenClaw.Lib.JsonReader

/-!
# Counting marks in a document

Some characters are marked, with a weight each : commas, and characters that only literals have.
A value shows how many marks its document has (`eq_markCount_of_loads`) : those of its texts, and
a comma between two items. In a document a marked character is never part of an escape
(`marksPlain_of_loads`), so marks can be taken out or changed one by one.
-/

namespace JsonReader

/-- Weights of characters. The comma may have one, and no other character of the syntax. -/
structure Marked (mark : ℕ → ℕ) : Prop where
  token : ∀ c, isToken c = true → c ≠ ',' → mark c.toNat = 0
  backslash : mark '\\'.toNat = 0
  unescape : ∀ c n, unescape c = some n → mark n = 0
  high : ∀ n, 0xD800 ≤ n → mark n = 0

/-- What a character does to an escape, and its marks. -/
def Escape.read (mark : ℕ → ℕ) : Escape → Char → Escape × ℕ
  | .plain, c => if c = '\\' then (.backslash, 0) else (.plain, mark c.toNat)
  | .backslash, c => if c = 'u' then (.hex 0 0, 0) else (.plain, 0)
  | .hex k n, c =>
    let n := n * 16 + (hexDigit c).getD 0
    if k = 3 then (.plain, mark n) else (.hex (k + 1) n, 0)

/-- The marks of a text, written out or escaped. -/
def markCount (mark : ℕ → ℕ) : Escape → List Char → ℕ
  | _, [] => 0
  | e, c :: cs => (e.read mark c).2 + markCount mark (e.read mark c).1 cs

/-- No marked character is part of an escape. -/
def MarksPlain (mark : ℕ → ℕ) : Escape → List Char → Prop
  | _, [] => True
  | e, c :: cs => (mark c.toNat ≠ 0 → e = .plain) ∧ MarksPlain mark (e.read mark c).1 cs

/-- The marks of a `str`. -/
def textMarks (mark : ℕ → ℕ) (text : CodePoints) : ℕ :=
  (text.map mark).sum

/-- The marks of items, each with a comma. -/
def itemMarks (mark : ℕ → ℕ) (items : List ℕ) : ℕ :=
  (items.map (· + mark ','.toNat)).sum

/-- The marks of members, each with a comma. -/
def fieldMarks (mark : ℕ → ℕ) (fields : List (CodePoints × ℕ)) : ℕ :=
  (fields.map fun p => textMarks mark p.1 + p.2 + mark ','.toNat).sum

/-- The marks of a document, from those of its parts. -/
def marksReader (mark : ℕ → ℕ) : JsonReader ℕ where
  atom _ := some 0
  str := textMarks mark
  arr items := itemMarks mark items - mark ','.toNat
  obj fields := some (fieldMarks mark fields - mark ','.toNat)

/-! ## Marks of a place of reading -/

/-- The key of the member being read is the innermost frame's. -/
def Mode.pending {α : Type*} : Mode α → Bool
  | .value | .item | .colon | .str false _ _ | .atom _ => true
  | _ => false

/-- A value has just ended. -/
def Mode.ended {α : Type*} : Mode α → Bool
  | .after | .done _ => true
  | _ => false

/-- Nothing has been read in the innermost frame. -/
def Mode.first {α : Type*} : Mode α → Bool
  | .item | .firstKey => true
  | _ => false

def Frame.marks (mark : ℕ → ℕ) : Frame ℕ → ℕ
  | .arr items => itemMarks mark items
  | .obj fields _ => fieldMarks mark fields

def Frame.keyMarks (mark : ℕ → ℕ) : Frame ℕ → ℕ
  | .arr _ => 0
  | .obj _ key => textMarks mark key

/-- The marks of the frames around a value. -/
def framesMarks (mark : ℕ → ℕ) (frames : List (Frame ℕ)) : ℕ :=
  (frames.map fun f => f.marks mark + f.keyMarks mark).sum

/-- The marks read so far, and a comma if a value has just ended in a frame. -/
def State.marks (mark : ℕ → ℕ) (s : State ℕ) : ℕ :=
  (match s.frames with
    | [] => 0
    | f :: fs =>
      f.marks mark + (if s.mode.pending then f.keyMarks mark else 0) + framesMarks mark fs) +
  match s.frames, s.mode with
    | [], .done v => v
    | _, .str _ _ text => textMarks mark text
    | _, _ => 0

/-- That comma. -/
def State.comma (mark : ℕ → ℕ) (s : State ℕ) : ℕ :=
  match s.frames with
  | [] => 0
  | _ :: _ => if s.mode.ended then mark ','.toNat else 0

/-- A frame in which a value has ended has an item, and a new one has none. -/
def State.Filled (mark : ℕ → ℕ) (s : State ℕ) : Prop :=
  ∀ f ∈ s.frames.head?, (s.mode.ended = true → mark ','.toNat ≤ f.marks mark) ∧
    (s.mode.first = true → f.marks mark = 0)

/-- What reading a character changes. -/
structure Reads (mark : ℕ → ℕ) (s : State ℕ) (c : Char) (s' : State ℕ) : Prop where
  marks : s'.marks mark + s.comma mark =
    s.marks mark + (s.mode.escape.read mark c).2 + s'.comma mark
  escape : s'.mode.escape = (s.mode.escape.read mark c).1
  plain : mark c.toNat ≠ 0 → s.mode.escape = .plain
  filled : s'.Filled mark

variable {mark : ℕ → ℕ}

@[simp] theorem itemMarks_append (xs ys : List ℕ) :
    itemMarks mark (xs ++ ys) = itemMarks mark xs + itemMarks mark ys := by
  simp [itemMarks]

@[simp] theorem itemMarks_nil : itemMarks mark [] = 0 := rfl

@[simp] theorem itemMarks_singleton (x : ℕ) :
    itemMarks mark [x] = x + mark ','.toNat := by
  simp [itemMarks]

@[simp] theorem fieldMarks_append (ps qs : List (CodePoints × ℕ)) :
    fieldMarks mark (ps ++ qs) = fieldMarks mark ps + fieldMarks mark qs := by
  simp [fieldMarks]

@[simp] theorem fieldMarks_nil : fieldMarks mark [] = 0 := rfl

@[simp] theorem fieldMarks_singleton (key : CodePoints) (x : ℕ) :
    fieldMarks mark [(key, x)] = textMarks mark key + x + mark ','.toNat := by
  simp [fieldMarks]

@[simp] theorem textMarks_nil : textMarks mark [] = 0 := rfl

@[simp] theorem textMarks_append (s t : CodePoints) :
    textMarks mark (s ++ t) = textMarks mark s + textMarks mark t := by
  simp [textMarks]

@[simp] theorem textMarks_singleton (n : ℕ) : textMarks mark [n] = mark n := by
  simp [textMarks]

@[simp] theorem framesMarks_nil : framesMarks mark [] = 0 := rfl

@[simp] theorem framesMarks_cons (f : Frame ℕ) (fs : List (Frame ℕ)) :
    framesMarks mark (f :: fs) = f.marks mark + f.keyMarks mark + framesMarks mark fs := rfl

/-- A code unit above the marks. -/
theorem textMarks_addUnit (h : Marked mark) (text : CodePoints) (n : ℕ) :
    textMarks mark (addUnit text n) = textMarks mark text + mark n := by
  unfold addUnit
  rcases hlast : text.getLast? with _ | last
  · rw [List.getLast?_eq_none_iff.1 hlast]
    simp
  · obtain ⟨before, rfl⟩ := List.getLast?_eq_some_iff.1 hlast
    simp only
    split_ifs with hpair
    · rw [List.dropLast_concat, textMarks_append, textMarks_append, textMarks_singleton,
        textMarks_singleton, h.high _ (by omega), h.high last hpair.1, h.high n (by omega)]
    · rw [textMarks_append, textMarks_singleton]

/-- A value that ends adds its marks, and a comma where it is in a frame. -/
theorem marks_put (frames : List (Frame ℕ)) (v : ℕ) :
    (put frames v).marks mark = framesMarks mark frames + v + (put frames v).comma mark := by
  rcases frames with _ | ⟨items | ⟨fields, key⟩, fs⟩
  · simp [put, State.marks, State.comma]
  · simp only [put, State.marks, State.comma, Mode.pending, Mode.ended, Frame.marks,
      Frame.keyMarks, itemMarks_append, itemMarks_singleton, framesMarks_cons, Bool.false_eq_true, ↓reduceIte]
    omega
  · simp only [put, State.marks, State.comma, Mode.pending, Mode.ended, Frame.marks,
      Frame.keyMarks, fieldMarks_append, fieldMarks_singleton, framesMarks_cons, Bool.false_eq_true, ↓reduceIte]
    omega

theorem escape_put (frames : List (Frame ℕ)) (v : ℕ) :
    (put frames v).mode.escape = .plain := by
  rcases frames with _ | ⟨_ | _, _⟩ <;> rfl

theorem filled_put (frames : List (Frame ℕ)) (v : ℕ) : (put frames v).Filled mark := by
  rcases frames with _ | ⟨items | ⟨fields, key⟩, fs⟩
  · rintro f ⟨⟩
  · rintro f ⟨⟩
    refine ⟨fun _ => ?_, fun h => by cases h⟩
    simp only [Frame.marks, itemMarks_append, itemMarks_singleton]
    omega
  · rintro f ⟨⟩
    refine ⟨fun _ => ?_, fun h => by cases h⟩
    simp only [Frame.marks, fieldMarks_append, fieldMarks_singleton]
    omega

/-- Where no value has just ended and no frame is new, nothing is asked of the frames. -/
theorem filled_of_mode {s : State ℕ} (hended : s.mode.ended = false) (hfirst : s.mode.first = false) :
    s.Filled mark :=
  fun _ _ => ⟨fun h => by simp [hended] at h, fun h => by simp [hfirst] at h⟩

theorem comma_of_mode {s : State ℕ} (h : s.mode.ended = false) : s.comma mark = 0 := by
  obtain ⟨_ | _, mode⟩ := s
  · rfl
  · exact if_neg (by rw [h]; exact Bool.false_ne_true)

/-- The marks of a place of reading whose mode has none. -/
theorem marks_of_frames (frames : List (Frame ℕ)) {mode : Mode ℕ} (hmode : mode.pending = true)
    (hquoted : mode.quoted = false) :
    ({ frames, mode } : State ℕ).marks mark = framesMarks mark frames := by
  rcases mode with _ | _ | _ | _ | _ | _ | _ | ⟨_ | _, _, _⟩ | _
  case str.false => cases hquoted
  case str.true => cases hquoted
  all_goals first
    | exact absurd hmode Bool.false_ne_true
    | rcases frames with _ | _ <;> simp [State.marks, Mode.pending]

/-- A value begins with none of its own. -/
theorem reads_openValue {frames : List (Frame ℕ)} {c : Char} {s : State ℕ}
    (h : openValue frames c = some s) : s.marks mark = framesMarks mark frames ∧
      s.mode.ended = false ∧ s.mode.escape = .plain ∧ s.Filled mark := by
  unfold openValue at h
  split_ifs at h
  all_goals obtain rfl := Option.some.inj h
  · refine ⟨?_, rfl, rfl, filled_of_mode rfl rfl⟩
    rcases frames with _ | _ <;> simp [State.marks, Mode.pending]
  · refine ⟨by simp [State.marks, Mode.pending, Frame.marks], rfl, rfl, ?_⟩
    rintro f ⟨⟩
    exact ⟨nofun, fun _ => rfl⟩
  · refine ⟨by simp [State.marks, Mode.pending, Frame.marks, Frame.keyMarks], rfl, rfl, ?_⟩
    rintro f ⟨⟩
    exact ⟨nofun, fun _ => rfl⟩
  · exact ⟨marks_of_frames frames rfl rfl, rfl, rfl, filled_of_mode rfl rfl⟩

/-- A closed frame is a value with the marks of its items and of the commas between them. -/
theorem reads_close {frames : List (Frame ℕ)} {c : Char} {s : State ℕ}
    (h : (marksReader mark).close frames c = some s) :
    ∃ f fs, frames = f :: fs ∧ c = f.closer ∧ s = put fs (f.marks mark - mark ','.toNat) := by
  rcases frames with _ | ⟨items | ⟨fields, key⟩, fs⟩
  · cases h
  · rw [close] at h
    split_ifs at h with hc
    exact ⟨_, _, rfl, hc, (Option.some.inj h).symm⟩
  · rw [close] at h
    split_ifs at h with hc
    exact ⟨_, _, rfl, hc, (Option.some.inj h).symm⟩

theorem read_plain (h : Marked mark) (c : Char) :
    (Escape.read mark .plain c).2 = mark c.toNat := by
  simp only [Escape.read]
  split_ifs with hc
  · rw [hc, h.backslash]
  · rfl

/-- Outside a literal a character leaves no escape. -/
theorem read_token {c : Char} (hc : isToken c = true) :
    (Escape.read mark .plain c).1 = .plain := by
  refine congrArg Prod.fst (if_neg ?_)
  rintro rfl
  cases hc

/-- A character outside literals, where the marks and the comma are as they should. -/
theorem reads_of_token (h : Marked mark) {s s' : State ℕ} {c : Char} (hc : isToken c = true)
    (hs : s.mode.quoted = false) (hescape : s'.mode.escape = .plain) (hfilled : s'.Filled mark)
    (hmarks : s'.marks mark + s.comma mark = s.marks mark + mark c.toNat + s'.comma mark) :
    Reads mark s c s' := by
  have hplain : s.mode.escape = .plain := by
    obtain ⟨frames, mode⟩ := s
    rcases mode with _ | _ | _ | _ | _ | _ | _ | _ | _ <;> first | rfl | cases hs
  exact ⟨by rw [hplain, read_plain h, hmarks], by rw [hplain, read_token hc, hescape],
    fun _ => hplain, hfilled⟩

/-- A character after a value. -/
theorem reads_next (h : Marked mark) {s s' : State ℕ} {c : Char} (hs : s.Filled mark)
    (hended : s.mode.ended = true) (hstep : (marksReader mark).next s c = some s') :
    Reads mark s c s' := by
  have hquoted : s.mode.quoted = false := by
    obtain ⟨frames, mode⟩ := s
    rcases mode with _ | _ | _ | _ | _ | _ | _ | _ | _ <;> first | rfl | cases hended
  have hcomma (f : Frame ℕ) (fs) (hf : s.frames = f :: fs) : s.comma mark = mark ','.toNat := by
    simp [State.comma, hf, hended]
  have hmarks (f : Frame ℕ) (fs) (hf : s.frames = f :: fs) :
      s.marks mark = f.marks mark + framesMarks mark fs := by
    obtain ⟨frames, mode⟩ := s
    obtain rfl : frames = f :: fs := hf
    rcases mode with _ | _ | _ | _ | _ | _ | _ | _ | _ <;>
      first | (cases hended; done) | simp [State.marks, Mode.pending]
  unfold next at hstep
  split_ifs at hstep with hblank hc
  · obtain rfl := Option.some.inj hstep
    have htoken : isToken c = true := by simp [isToken, hblank]
    refine reads_of_token h htoken hquoted ?_ hs ?_
    · obtain ⟨frames, mode⟩ := s
      rcases mode with _ | _ | _ | _ | _ | _ | _ | _ | _ <;> first | rfl | cases hended
    · rw [h.token c htoken (by rintro rfl; cases hblank), add_zero]
  · obtain ⟨f, hf, rfl⟩ := Option.map_eq_some_iff.1 hstep
    obtain ⟨frames, mode⟩ := s
    obtain ⟨fs, rfl⟩ : ∃ fs, frames = f :: fs := by
      rcases frames with _ | ⟨f₀, fs⟩
      · cases hf
      · exact ⟨fs, by rw [Option.some.inj hf]⟩
    refine reads_of_token h (by rw [hc]; rfl) hquoted ?_ (filled_of_mode ?_ ?_) ?_
    · rcases f with _ | _ <;> rfl
    · rcases f with _ | _ <;> rfl
    · rcases f with _ | _ <;> rfl
    · rw [hcomma f fs rfl, hmarks f fs rfl, hc]
      rcases f with items | ⟨fields, key⟩
      · simp [State.marks, State.comma, Frame.afterComma, Mode.pending, Mode.ended,
          Frame.keyMarks, Frame.marks]
      · simp [State.marks, State.comma, Frame.afterComma, Mode.pending, Mode.ended,
          Frame.marks]
  · obtain ⟨f, fs, hf, hcloser, rfl⟩ := reads_close hstep
    have hitems : mark ','.toNat ≤ f.marks mark := (hs f (by rw [hf]; rfl)).1 hended
    have htoken : isToken c = true := by
      rw [hcloser]
      rcases f with _ | _ <;> rfl
    refine reads_of_token h htoken hquoted (escape_put _ _) (filled_put _ _) ?_
    rw [marks_put, hcomma f fs hf, hmarks f fs hf, h.token c htoken hc]
    omega

/-- The marks of a place in a literal. -/
theorem marks_str (frames : List (Frame ℕ)) (isKey : Bool) (escape : Escape) (text : CodePoints) :
    ({ frames, mode := .str isKey escape text } : State ℕ).marks mark =
      ({ frames, mode := .str isKey .plain [] } : State ℕ).marks mark + textMarks mark text := by
  rcases frames with _ | _ <;> rcases isKey with _ | _ <;> simp [State.marks, Mode.pending]

theorem mark_of_unescape (h : Marked mark) {c : Char} {n : ℕ} (hn : unescape c = some n) :
    mark c.toNat = 0 := by
  have hletter (htoken : isToken c = true) (hc : c ≠ ',') : mark c.toNat = 0 := h.token c htoken hc
  unfold unescape at hn
  split_ifs at hn with hself hb hf hn' hr ht
  · exact h.unescape c _ (by rw [unescape, if_pos hself])
  · exact hletter (by rw [hb]; rfl) (by rw [hb]; decide)
  · exact hletter (by rw [hf]; rfl) (by rw [hf]; decide)
  · exact hletter (by rw [hn']; rfl) (by rw [hn']; decide)
  · exact hletter (by rw [hr]; rfl) (by rw [hr]; decide)
  · exact hletter (by rw [ht]; rfl) (by rw [ht]; decide)

theorem isAtomChar_of_hexDigit {c : Char} {d : ℕ} (h : hexDigit c = some d) :
    isAtomChar c = true := by
  have hle {a b d : Char} (hab : a ≤ b) (hb : b ≤ d) : a ≤ d := Char.le_trans hab hb
  have hdigit : c.isAlphanum = true := by
    unfold hexDigit at h
    rw [isAlphanum_iff]
    split_ifs at h with h₁ h₂ h₃
    · exact Or.inr h₁
    · exact Or.inl (Or.inr ⟨h₂.1, hle h₂.2 (by decide : 'f' ≤ 'z')⟩)
    · exact Or.inl (Or.inl ⟨h₃.1, hle h₃.2 (by decide : 'F' ≤ 'Z')⟩)
  simp [isAtomChar, hdigit]

theorem mark_of_hexDigit (h : Marked mark) {c : Char} {d : ℕ} (hd : hexDigit c = some d) :
    mark c.toNat = 0 := by
  have hatom := isAtomChar_of_hexDigit hd
  refine h.token c (by simp [isToken, hatom]) ?_
  rintro rfl
  cases hatom

/-- A character of a literal. -/
theorem reads_readStr (h : Marked mark) {frames : List (Frame ℕ)} {isKey : Bool}
    {text : CodePoints} {c : Char} {escape : Escape} {s' : State ℕ}
    (hstep : (marksReader mark).readStr frames isKey text c escape = some s') :
    Reads mark { frames, mode := .str isKey escape text } c s' := by
  have hcomma (escape : Escape) (text : CodePoints) :
      ({ frames, mode := .str isKey escape text } : State ℕ).comma mark = 0 := comma_of_mode rfl
  have hstay {escape escape' : Escape} {text text' : CodePoints} {n : ℕ}
      (hread : escape.read mark c = (escape', n)) (hplain : mark c.toNat ≠ 0 → escape = .plain)
      (htext : textMarks mark text' = textMarks mark text + n) :
      Reads mark { frames, mode := .str isKey escape text } c
        { frames, mode := .str isKey escape' text' } := by
    refine ⟨?_, ?_, hplain, filled_of_mode rfl rfl⟩
    · rw [hcomma, hcomma, marks_str _ _ _ text', marks_str _ _ _ text, htext]
      simp only [Mode.escape, hread]
      omega
    · simp only [Mode.escape, hread]
  rcases escape with _ | _ | ⟨k, n⟩
  · rw [readStr] at hstep
    split_ifs at hstep with hquote hslash
    · have hc : mark c.toNat = 0 := h.token c (by rw [hquote]; rfl) (by rw [hquote]; decide)
      have hread : Escape.read mark .plain c = (.plain, 0) := by
        rw [Escape.read, if_neg (by rw [hquote]; decide), hc]
      rcases isKey with _ | _
      · obtain rfl := Option.some.inj hstep
        refine ⟨?_, ?_, fun _ => rfl, filled_put _ _⟩
        · rw [hcomma, marks_put, marks_str]
          simp only [Mode.escape, hread, marksReader]
          rw [show ({ frames, mode := .str false .plain [] } : State ℕ).marks mark =
            framesMarks mark frames by rcases frames with _ | _ <;> simp [State.marks, Mode.pending]]
          omega
        · rw [escape_put]
          simp only [Mode.escape, hread]
      · rcases frames with _ | ⟨_ | ⟨fields, key⟩, fs⟩
        · cases hstep
        · cases hstep
        · obtain rfl := Option.some.inj hstep
          refine ⟨?_, ?_, fun _ => rfl, filled_of_mode rfl rfl⟩
          · simp [hread, State.marks, State.comma, Mode.escape, Mode.pending, Mode.ended,
              Frame.marks, Frame.keyMarks]
            omega
          · simp only [Mode.escape, hread]
    · obtain rfl := Option.some.inj hstep
      exact hstay (if_pos hslash) (fun _ => rfl) rfl
    · obtain rfl := Option.some.inj hstep
      exact hstay (if_neg hslash) (fun _ => rfl) (by rw [textMarks_append, textMarks_singleton])
  · rw [readStr] at hstep
    split_ifs at hstep with hu
    · obtain rfl := Option.some.inj hstep
      exact hstay (if_pos hu) (fun hc => absurd (h.token c (by rw [hu]; rfl)
        (by rw [hu]; decide)) hc) rfl
    · obtain ⟨m, hm, rfl⟩ := Option.map_eq_some_iff.1 hstep
      refine hstay (if_neg hu) (fun hc => absurd (mark_of_unescape h hm) hc) ?_
      rw [textMarks_append, textMarks_singleton, h.unescape c m hm]
  · obtain ⟨d, hd, rfl⟩ := Option.map_eq_some_iff.1 hstep
    have hc : mark c.toNat = 0 := mark_of_hexDigit h hd
    split_ifs with hk
    · exact hstay (by simp [Escape.read, hk, hd]) (fun hne => absurd hc hne)
        (textMarks_addUnit h _ _)
    · have hread : Escape.read mark (.hex k n) c = (.hex (k + 1) (n * 16 + d), 0) := by
        simp [Escape.read, hk, hd]
      exact hstay hread (fun hne => absurd hc hne) rfl

/-- Every character adds its marks. -/
theorem reads_step (h : Marked mark) {s s' : State ℕ} {c : Char} (hs : s.Filled mark)
    (hstep : (marksReader mark).step s c = some s') : Reads mark s c s' := by
  rcases hquoted : s.mode.quoted with _ | _
  swap
  · obtain ⟨frames, mode⟩ := s
    rcases mode with _ | _ | _ | _ | _ | _ | _ | ⟨isKey, escape, text⟩ | _
    case str => exact reads_readStr h hstep
    all_goals cases hquoted
  have htoken : isToken c = true := by
    rcases hc : isToken c with _ | _
    · rw [step_of_not_isToken _ hquoted hc] at hstep
      cases hstep
    · rfl
  have hzero (hc : c ≠ ',') : mark c.toNat = 0 := h.token c htoken hc
  have hskip (hblank : isBlank c = true) (hescape : s.mode.escape = .plain) : Reads mark s c s := by
    refine reads_of_token h htoken hquoted hescape hs ?_
    rw [hzero (by rintro rfl; cases hblank), add_zero]
  obtain ⟨frames, mode⟩ := s
  have hopen {s'} (hmode : ({ frames, mode } : State ℕ).mode.pending = true)
      (hended : mode.ended = false) (ho : openValue frames c = some s') :
      Reads mark { frames, mode } c s' := by
    have hread : s'.marks mark = framesMarks mark frames ∧ _ := reads_openValue ho
    obtain ⟨hmarks, hended', hescape, hfilled⟩ := hread
    refine reads_of_token h htoken hquoted hescape hfilled ?_
    rw [hmarks, marks_of_frames frames hmode hquoted, comma_of_mode hended', comma_of_mode hended,
      hzero (by rintro rfl; cases ho)]
  have hclose {s'} (hmode : mode.first = true) (hkey : mode.pending = true → c = ']')
      (ho : (marksReader mark).close frames c = some s') : Reads mark { frames, mode } c s' := by
    obtain ⟨f, fs, rfl, hcloser, rfl⟩ := reads_close ho
    have hnone : f.marks mark = 0 := (hs f rfl).2 hmode
    have hkey' : (if mode.pending then f.keyMarks mark else 0) = 0 := by
      split_ifs with hp
      · rcases f with _ | _
        · rfl
        · cases hcloser.symm.trans (hkey hp)
      · rfl
    have hended : mode.ended = false := by
      rcases mode with _ | _ | _ | _ | _ | _ | _ | _ | _ <;> first | rfl | cases hmode
    have hmarks : ({ frames := f :: fs, mode } : State ℕ).marks mark = framesMarks mark fs := by
      rcases mode with _ | _ | _ | _ | _ | _ | _ | _ | _ <;>
        first
        | (cases hmode; done)
        | simp only [State.marks, hnone, hkey', zero_add, add_zero]
    refine reads_of_token h htoken hquoted (escape_put _ _) (filled_put _ _) ?_
    have hcomma : ({ frames := f :: fs, mode } : State ℕ).comma mark = 0 := comma_of_mode hended
    rw [marks_put, hcomma, hmarks, hnone, hzero (by rw [hcloser]; rcases f with _ | _ <;> simp [Frame.closer])]
    omega
  have hkey (hpending : mode.pending = false) (hended : mode.ended = false)
      (hescape : mode.escape = .plain) (hc : c ≠ ',') :
      Reads mark { frames, mode } c { frames, mode := .str true .plain [] } := by
    refine reads_of_token h htoken hquoted rfl (filled_of_mode rfl rfl) ?_
    have hcomma : ({ frames, mode } : State ℕ).comma mark = 0 := comma_of_mode hended
    rw [hcomma, hzero hc, comma_of_mode rfl]
    rcases mode with _ | _ | _ | _ | _ | _ | _ | _ | _ <;>
      first
      | (cases hpending; done)
      | (cases hended; done)
      | (cases hquoted; done)
      | rcases frames with _ | _ <;> simp [State.marks, Mode.pending]
  rcases mode with _ | _ | _ | _ | _ | _ | v | _ | text
  case str => cases hquoted
  case after => exact reads_next h hs rfl hstep
  case done => exact reads_next h hs rfl hstep
  case value =>
    simp only [step] at hstep
    split_ifs at hstep with hblank
    · exact Option.some.inj hstep ▸ hskip hblank rfl
    · exact hopen rfl rfl hstep
  case item =>
    simp only [step] at hstep
    split_ifs at hstep with hblank hc
    · exact Option.some.inj hstep ▸ hskip hblank rfl
    · exact hclose rfl (fun _ => hc) hstep
    · exact hopen rfl rfl hstep
  case firstKey =>
    simp only [step] at hstep
    split_ifs at hstep with hblank hc hq
    · exact Option.some.inj hstep ▸ hskip hblank rfl
    · exact hclose rfl (fun hp => by cases hp) hstep
    · exact Option.some.inj hstep ▸ hkey rfl rfl rfl (by rw [hq]; decide)
  case key =>
    simp only [step] at hstep
    split_ifs at hstep with hblank hq
    · exact Option.some.inj hstep ▸ hskip hblank rfl
    · exact Option.some.inj hstep ▸ hkey rfl rfl rfl (by rw [hq]; decide)
  case colon =>
    simp only [step] at hstep
    split_ifs at hstep with hblank hc
    · exact Option.some.inj hstep ▸ hskip hblank rfl
    · obtain rfl := Option.some.inj hstep
      refine reads_of_token h htoken hquoted rfl (filled_of_mode rfl rfl) ?_
      rw [hzero (by rw [hc]; decide), comma_of_mode rfl, comma_of_mode rfl,
        marks_of_frames frames rfl rfl, marks_of_frames frames rfl rfl]
  case atom =>
    simp only [step] at hstep
    split_ifs at hstep with hatom
    · obtain rfl := Option.some.inj hstep
      refine reads_of_token h htoken hquoted rfl (filled_of_mode rfl rfl) ?_
      rw [hzero (by rintro rfl; cases hatom), comma_of_mode rfl, comma_of_mode rfl,
        marks_of_frames frames rfl rfl, marks_of_frames frames rfl rfl]
    · obtain ⟨v, hv, hnext⟩ := Option.bind_eq_some_iff.1 hstep
      obtain rfl : v = 0 := (Option.some.inj hv).symm
      have hended : (put frames 0).mode.ended = true := by
        rcases frames with _ | ⟨_ | _, _⟩ <;> rfl
      have hreads := reads_next h (filled_put frames 0) hended hnext
      have hcomma : ({ frames, mode := .atom text } : State ℕ).comma mark = 0 := comma_of_mode rfl
      have hmarks : ({ frames, mode := .atom text } : State ℕ).marks mark =
          framesMarks mark frames := marks_of_frames frames rfl rfl
      refine reads_of_token h htoken rfl ?_ hreads.filled ?_
      · rw [hreads.escape, escape_put, read_token htoken]
      · have heq := hreads.marks
        rw [marks_put, escape_put, read_plain h] at heq
        rw [hcomma, hmarks]
        omega

/-- What a text adds to the marks of a place of reading. -/
theorem readFrom_marks (h : Marked mark) {s : State ℕ} {text : List Char} {n : ℕ}
    (hs : s.Filled mark) (hn : (marksReader mark).readFrom s text = some n) :
    n + s.comma mark = s.marks mark + markCount mark s.mode.escape text ∧
      MarksPlain mark s.mode.escape text := by
  induction text generalizing s with
  | nil =>
    refine ⟨?_, trivial⟩
    obtain ⟨_ | ⟨f, fs⟩, mode⟩ := s
    · rcases mode with _ | _ | _ | _ | _ | _ | _ | _ | text
      case done => simpa [State.marks, State.comma, markCount] using (Option.some.inj hn).symm
      case atom => simpa [State.marks, State.comma, markCount] using (Option.some.inj hn).symm
      all_goals cases hn
    · cases hn
  | cons c text ih =>
    rw [readFrom_cons] at hn
    obtain ⟨s', hstep, hrest⟩ := Option.bind_eq_some_iff.1 hn
    have hreads := reads_step h hs hstep
    obtain ⟨hcount, hplain⟩ := ih hreads.filled hrest
    rw [hreads.escape] at hcount hplain
    have hmarks := hreads.marks
    refine ⟨?_, hreads.plain, hplain⟩
    rw [markCount]
    omega

/-- The marks of a document are those of its text, and none is part of an escape. -/
theorem loads_marks (h : Marked mark) {text : List Char} {n : ℕ}
    (hn : (marksReader mark).loads text = some n) :
    n = markCount mark .plain text ∧ MarksPlain mark .plain text := by
  have hread := readFrom_marks h (s := {}) (by rintro f ⟨⟩) hn
  exact ⟨by simpa [State.marks, State.comma, Mode.escape] using hread.1, hread.2⟩

theorem MarksPlain.of_append {e : Escape} {s t : List Char} (h : MarksPlain mark e (s ++ t)) :
    MarksPlain mark e s := by
  induction s generalizing e with
  | nil => trivial
  | cons c s ih => exact ⟨h.1, ih h.2⟩

/-! ## Fewer marks -/

/-- Marked characters are taken out, or replaced by characters of less weight. -/
inductive Lowered (mark : ℕ → ℕ) : List Char → List Char → Prop
  | nil : Lowered mark [] []
  | keep {c s t} : Lowered mark s t → Lowered mark (c :: s) (c :: t)
  | drop {c s t} : mark c.toNat ≠ 0 → Lowered mark s t → Lowered mark (c :: s) t
  | lower {c d s t} : mark d.toNat < mark c.toNat → d ≠ '\\' → Lowered mark s t →
      Lowered mark (c :: s) (d :: t)

/-- Where no marked character is part of an escape, there are fewer marks then. -/
theorem Lowered.markCount_lt (h : Marked mark) {s t : List Char} (hst : Lowered mark s t) :
    ∀ {e : Escape}, MarksPlain mark e s → MarksPlain mark e t ∧
      (t = s ∨ markCount mark e t < markCount mark e s) := by
  have hread (c : Char) (hc : mark c.toNat ≠ 0) :
      Escape.read mark .plain c = (.plain, mark c.toNat) := by
    refine if_neg ?_
    rintro rfl
    exact hc h.backslash
  induction hst with
  | nil => exact fun hs => ⟨hs, Or.inl rfl⟩
  | keep _ ih =>
    intro e hs
    obtain ⟨hplain, hcount⟩ := ih hs.2
    refine ⟨⟨hs.1, hplain⟩, hcount.imp (fun heq => by rw [heq]) fun hlt => ?_⟩
    rw [markCount, markCount]
    omega
  | @drop c s t hc _ ih =>
    intro e hs
    obtain rfl := hs.1 hc
    have hrest : MarksPlain mark .plain s := by
      have htail := hs.2
      rwa [hread _ hc] at htail
    obtain ⟨hplain, hcount⟩ := ih hrest
    refine ⟨hplain, Or.inr ?_⟩
    rw [markCount, hread _ hc]
    simp only
    rcases hcount with rfl | hlt <;> omega
  | @lower c d s t hlt hd _ ih =>
    intro e hs
    have hc : mark c.toNat ≠ 0 := by omega
    obtain rfl := hs.1 hc
    have hrest : MarksPlain mark .plain s := by
      have htail := hs.2
      rwa [hread _ hc] at htail
    obtain ⟨hplain, hcount⟩ := ih hrest
    have hreadd : Escape.read mark .plain d = (.plain, mark d.toNat) := if_neg hd
    refine ⟨⟨fun _ => rfl, by rw [hreadd]; exact hplain⟩, Or.inr ?_⟩
    rw [markCount, markCount, hread _ hc, hreadd]
    simp only
    rcases hcount with rfl | hlt' <;> omega

end JsonReader
