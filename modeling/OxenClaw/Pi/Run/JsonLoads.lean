import Mathlib.Algebra.Order.BigOperators.Group.List
import Mathlib.Algebra.Order.Group.Nat
import OxenClaw.Lib.Dict
import OxenClaw.Lib.JsonMarks
import OxenClaw.Pi.Messages

/-!
# `json.loads`

The reader whose values are `Json`. A `dict` keeps the last value of a key. The value of a
numeral with a fraction or an exponent, and of `NaN` and the infinities, is a parameter. A
`String` has no lone surrogates, and one that an escape makes is read as U+FFFD; the limits of the
interpreter on nesting and digits are left out.

`distinctReader` reads only documents without a repeated key. The marks of a value are those
of such a document, and at most those of any other document with that value
(`markCount_le_of_jsonLoads`).
-/

namespace OxenClaw

/-- The characters of a numeral after its sign. -/
def digitsValue (ds : List Char) : ℕ :=
  ds.foldl (fun n c => n * 10 + (c.toNat - 48)) 0

/-- A fraction and an exponent, or one of them. -/
def isFraction (t : List Char) : Bool :=
  let exponent : List Char :=
    if t.head? = some '.' then t.tail.dropWhile Char.isDigit else t
  let digits : List Char :=
    if exponent.tail.head? = some '+' || exponent.tail.head? = some '-' then exponent.tail.tail
    else exponent.tail
  (t.head? ≠ some '.' || t.tail.head?.any Char.isDigit) &&
    (exponent = [] ||
      (exponent.head? = some 'e' || exponent.head? = some 'E') && digits ≠ [] &&
        digits.all Char.isDigit)

/-- A number. -/
def numeral (float : List Char → ℚ) (t : List Char) : Option Json :=
  let unsigned := if t.head? = some '-' then t.tail else t
  let digits := unsigned.takeWhile Char.isDigit
  let rest := unsigned.dropWhile Char.isDigit
  if digits = [] || (digits.head? = some '0' && digits ≠ ['0']) then none
  else if rest = [] then
    some (.int (if t.head? = some '-' then -(digitsValue digits : ℤ) else digitsValue digits))
  else if isFraction rest then some (.float (float t))
  else none

/-- A number or a constant. -/
def jsonAtom (float : List Char → ℚ) (t : List Char) : Option Json :=
  if t = "null".toList then some .null
  else if t = "true".toList then some (.bool true)
  else if t = "false".toList then some (.bool false)
  else if t = "NaN".toList || t = "Infinity".toList || t = "-Infinity".toList then
    some (.float (float t))
  else numeral float t

/-- A code point as a character. -/
def charOf (n : ℕ) : Char :=
  if n.isValidChar then Char.ofNat n else Char.ofNat 0xFFFD

/-- The text of code points. -/
def textOf (s : CodePoints) : String :=
  String.ofList (s.map charOf)

/-- A member under its key. -/
def memberOf (p : CodePoints × Json) : String × Json :=
  (textOf p.1, p.2)

/-- The reader of `json.loads`. -/
def jsonReader (float : List Char → ℚ) : JsonReader Json where
  atom := jsonAtom float
  str s := .str (textOf s)
  arr := .arr
  obj ps := some (.obj (Dict.ofList (ps.map memberOf)))

/-- `json.loads` of a `str`. -/
def jsonLoads (float : List Char → ℚ) (text : String) : Option Json :=
  (jsonReader float).loads text.toList

/-- The reader that refuses a repeated key. -/
def distinctReader (float : List Char → ℚ) : JsonReader Json where
  atom := jsonAtom float
  str s := .str (textOf s)
  arr := .arr
  obj ps := if ((ps.map memberOf).map Prod.fst).Nodup then some (.obj (ps.map memberOf)) else none

/-- The text is a serialisation of the value : its members have the keys of the value, each
once. -/
def Serialises (float : List Char → ℚ) (text : List Char) (v : Json) : Prop :=
  (distinctReader float).loads text = some v

variable {float : List Char → ℚ}

/-- A document without repeated keys has one reading. -/
theorem jsonLoads_of_serialises {text : List Char} {v : Json} (h : Serialises float text v) :
    (jsonReader float).loads text = some v := by
  have hsame (ps qs : List (CodePoints × Json))
      (hpq : List.Forall₂ (JsonReader.SameMember Eq) ps qs) : ps = qs := by
    refine List.forall₂_eq_eq_eq ▸ hpq.imp fun p q hpq => ?_
    exact Prod.ext hpq.1 hpq.2
  have hrelated : JsonReader.Related (distinctReader float) (jsonReader float) Eq := by
    refine ⟨fun text v hv => ⟨v, hv, rfl⟩, fun _ => rfl, fun vs ws hvs => ?_,
      fun ps qs v hps hv => ?_⟩
    · rw [List.forall₂_eq_eq_eq] at hvs
      rw [hvs]
      rfl
    · obtain rfl := hsame ps qs hps
      refine ⟨v, ?_, rfl⟩
      simp only [distinctReader] at hv
      split_ifs at hv with hnodup
      rw [← Option.some.inj hv]
      exact congrArg (fun d => some (Json.obj d)) (Dict.ofList_of_nodup hnodup)
  obtain ⟨w, hw, rfl⟩ := JsonReader.loads_related hrelated h
  exact hw

/-! ## Marks of values -/

/-- The marks of a `str`. -/
def stringMarks (mark : ℕ → ℕ) (s : String) : ℕ :=
  (s.toList.map fun c => mark c.toNat).sum

mutual

/-- The marks of a value : those of its texts, and the commas between its items. -/
def Json.marks (mark : ℕ → ℕ) : Json → ℕ
  | .str s => stringMarks mark s
  | .arr xs => Json.itemMarks mark xs - mark ','.toNat
  | .obj fields => Json.fieldMarks mark fields - mark ','.toNat
  | _ => 0

def Json.itemMarks (mark : ℕ → ℕ) : List Json → ℕ
  | [] => 0
  | v :: vs => v.marks mark + mark ','.toNat + Json.itemMarks mark vs

def Json.fieldMarks (mark : ℕ → ℕ) : List (String × Json) → ℕ
  | [] => 0
  | (key, v) :: fields =>
    stringMarks mark key + v.marks mark + mark ','.toNat + Json.fieldMarks mark fields

end

section Marks

variable {mark : ℕ → ℕ}

theorem stringMarks_textOf (h : JsonReader.Marked mark) (s : CodePoints) :
    stringMarks mark (textOf s) = JsonReader.textMarks mark s := by
  have hchar (n : ℕ) : mark (charOf n).toNat = mark n := by
    unfold charOf
    split_ifs with hn
    · rw [Char.ofNat, dif_pos hn]
      rfl
    · rw [h.high n (by unfold Nat.isValidChar at hn; omega), h.high _ (by decide)]
  simp only [stringMarks, textOf, String.toList_ofList, List.map_map, JsonReader.textMarks]
  exact congrArg List.sum (List.map_congr_left fun n _ => hchar n)

theorem marks_jsonAtom {t : List Char} {v : Json} (h : jsonAtom float t = some v) :
    v.marks mark = 0 := by
  unfold jsonAtom numeral at h
  simp only at h
  split_ifs at h
  all_goals
    obtain rfl := Option.some.inj h
    simp [Json.marks]

theorem fieldMarks_set_le (d : List (String × Json)) (key : String) (v : Json) :
    Json.fieldMarks mark (Dict.set d key v) ≤
      Json.fieldMarks mark d + (stringMarks mark key + v.marks mark + mark ','.toNat) := by
  induction d with
  | nil => simp [Dict.set, Json.fieldMarks]
  | cons e d ih =>
    obtain ⟨k, w⟩ := e
    rw [Dict.set]
    split_ifs with hk
    · rw [hk]
      simp only [Json.fieldMarks]
      omega
    · simp only [Json.fieldMarks]
      omega

theorem fieldMarks_append (ps qs : List (String × Json)) :
    Json.fieldMarks mark (ps ++ qs) = Json.fieldMarks mark ps + Json.fieldMarks mark qs := by
  induction ps with
  | nil => simp [Json.fieldMarks]
  | cons p ps ih =>
    obtain ⟨k, w⟩ := p
    simp only [List.cons_append, Json.fieldMarks, ih]
    omega

/-- A repeated key only loses marks. -/
theorem fieldMarks_ofList_le (ps : List (String × Json)) :
    Json.fieldMarks mark (Dict.ofList ps) ≤ Json.fieldMarks mark ps := by
  induction ps using List.reverseRecOn with
  | nil => exact le_refl _
  | append_singleton ps p ih =>
    obtain ⟨key, v⟩ := p
    rw [Dict.ofList, List.foldl_append, List.foldl_cons, List.foldl_nil, fieldMarks_append]
    refine (fieldMarks_set_le _ key v).trans ?_
    exact (Nat.add_le_add_right ih _).trans_eq (by simp [Json.fieldMarks])

theorem itemMarks_eq (vs : List Json) :
    Json.itemMarks mark vs = JsonReader.itemMarks mark (vs.map (Json.marks mark)) := by
  induction vs with
  | nil => rfl
  | cons v vs ih => simp [Json.itemMarks, JsonReader.itemMarks, ih]

theorem fieldMarks_eq (h : JsonReader.Marked mark) (ps : List (CodePoints × Json)) :
    Json.fieldMarks mark (ps.map memberOf) =
      JsonReader.fieldMarks mark (ps.map fun p => (p.1, p.2.marks mark)) := by
  induction ps with
  | nil => rfl
  | cons p ps ih =>
    simp [Json.fieldMarks, JsonReader.fieldMarks, memberOf, stringMarks_textOf h, ih]

/-- A document without repeated keys has the marks of its value. -/
theorem markCount_of_serialises (h : JsonReader.Marked mark) {text : List Char} {v : Json}
    (hv : Serialises float text v) : JsonReader.markCount mark .plain text = v.marks mark ∧
      JsonReader.MarksPlain mark .plain text := by
  have hrelated : JsonReader.Related (distinctReader float) (JsonReader.marksReader mark)
      fun v n => v.marks mark = n := by
    refine ⟨fun text v hv => ⟨0, rfl, marks_jsonAtom hv⟩, stringMarks_textOf h,
      fun vs ns hvs => ?_, fun ps qs v hps hv => ?_⟩
    · obtain rfl : vs.map (Json.marks mark) = ns := by
        rwa [← List.forall₂_eq_eq_eq, List.forall₂_map_left_iff]
      simp only [distinctReader, Json.marks, itemMarks_eq]
      rfl
    · obtain rfl : ps.map (fun p => (p.1, p.2.marks mark)) = qs := by
        rw [← List.forall₂_eq_eq_eq, List.forall₂_map_left_iff]
        exact hps.imp fun p q hpq => Prod.ext hpq.1 hpq.2
      simp only [distinctReader] at hv
      split_ifs at hv
      obtain rfl := Option.some.inj hv
      exact ⟨_, rfl, by rw [Json.marks, fieldMarks_eq h]⟩
  obtain ⟨n, hn, heq⟩ := JsonReader.loads_related hrelated hv
  obtain ⟨hcount, hplain⟩ := JsonReader.loads_marks h hn
  exact ⟨hcount.symm.trans heq.symm, hplain⟩

/-- Any document has at least the marks of its value. -/
theorem marks_le_markCount (h : JsonReader.Marked mark) {text : List Char} {v : Json}
    (hv : (jsonReader float).loads text = some v) :
    v.marks mark ≤ JsonReader.markCount mark .plain text := by
  have hrelated : JsonReader.Related (jsonReader float) (JsonReader.marksReader mark)
      fun v n => v.marks mark ≤ n := by
    refine ⟨fun text v hv => ⟨0, rfl, (marks_jsonAtom hv).le⟩, fun s => (stringMarks_textOf h s).le,
      fun vs ns hvs => ?_, fun ps qs v hps hv => ?_⟩
    · simp only [jsonReader, Json.marks, itemMarks_eq]
      refine Nat.sub_le_sub_right (List.Forall₂.sum_le_sum ?_) _
      rw [List.map_map, List.forall₂_map_left_iff, List.forall₂_map_right_iff]
      exact hvs.imp fun v n hle => Nat.add_le_add_right hle _
    · obtain rfl := Option.some.inj hv
      refine ⟨_, rfl, ?_⟩
      simp only [Json.marks]
      refine Nat.sub_le_sub_right ((fieldMarks_ofList_le _).trans ?_) _
      rw [fieldMarks_eq h]
      refine List.Forall₂.sum_le_sum ?_
      rw [List.map_map, List.forall₂_map_left_iff, List.forall₂_map_right_iff]
      refine hps.imp fun p q hpq => ?_
      simp only [Function.comp_apply, hpq.1]
      exact Nat.add_le_add_right (Nat.add_le_add_left hpq.2 _) _
  obtain ⟨n, hn, hle⟩ := JsonReader.loads_related hrelated hv
  exact hle.trans_eq (JsonReader.loads_marks h hn).1

end Marks

end OxenClaw
