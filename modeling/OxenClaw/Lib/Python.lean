import Mathlib.Data.List.DropRight
import Mathlib.Data.List.Infix
import Mathlib.Data.Rat.Floor

/-!
# Python built-ins

The built-ins of the language that the models use and Lean spells differently.
-/

namespace Py

/-- `int(x)` of a number : rounds towards zero. -/
def int (x : ℚ) : ℤ :=
  if 0 ≤ x then ⌊x⌋ else ⌈x⌉

/-- `str.isspace` of one character, which is also what `\s` matches. -/
def isSpace (c : Char) : Bool :=
  let n := c.toNat
  (9 ≤ n && n ≤ 13) || (28 ≤ n && n ≤ 32) || n == 0x85 || n == 0xA0 || n == 0x1680 ||
    (0x2000 ≤ n && n ≤ 0x200A) || n == 0x2028 || n == 0x2029 || n == 0x202F || n == 0x205F ||
    n == 0x3000

/-- `s.strip()`. -/
def strip (s : List Char) : List Char :=
  (s.dropWhile isSpace).rdropWhile isSpace

/-- `s.rstrip()`. -/
def rstrip (s : List Char) : List Char :=
  s.rdropWhile isSpace

/-- `s.strip()` on a string. -/
def stripString (s : String) : String :=
  String.ofList (strip s.toList)

/-- `sub in s`. -/
def contains (sub s : String) : Bool :=
  decide (sub.toList <:+: s.toList)

/-- What stands before and after the first `sep`, as `str.partition` cuts. -/
def partition (sep : List Char) : List Char → Option (List Char × List Char)
  | [] => none
  | c :: cs =>
    if sep.isPrefixOf (c :: cs) then some ([], (c :: cs).drop sep.length)
    else (partition sep cs).map fun p => (c :: p.1, p.2)

/-- Where the slice `l[i:]` of a list of length `n` starts. -/
def sliceStart (n : ℕ) (i : ℤ) : ℕ :=
  if 0 ≤ i then i.toNat else n - (-i).toNat

/-- `l[i:]`. -/
def sliceFrom {α : Type*} (l : List α) (i : ℤ) : List α :=
  l.drop (sliceStart l.length i)

/-- `l[:i]`. -/
def sliceTo {α : Type*} (l : List α) (i : ℤ) : List α :=
  l.take (sliceStart l.length i)

/-- A property of every character of a text, checked one by one. -/
theorem forall_of_all {p : Char → Prop} [DecidablePred p] {s : List Char}
    (h : s.all (fun c => decide (p c)) = true) : ∀ c ∈ s, p c := by
  simpa using h

theorem isSpace_of_isAlphanum {c : Char} (h : c.isAlphanum = true) : isSpace c = false := by
  have hrange : ((65 ≤ c.toNat ∧ c.toNat ≤ 90) ∨ (97 ≤ c.toNat ∧ c.toNat ≤ 122)) ∨
      (48 ≤ c.toNat ∧ c.toNat ≤ 57) := by
    unfold Char.isAlphanum Char.isAlpha Char.isUpper Char.isLower Char.isDigit at h
    simpa [UInt32.le_iff_toNat_le] using h
  simp only [isSpace, Bool.or_eq_false_iff, Bool.and_eq_false_iff, decide_eq_false_iff_not,
    beq_eq_false_iff_ne]
  omega

/-- What `strip` takes away is space on both sides. -/
theorem exists_append_strip (s : List Char) : ∃ before after, s = before ++ strip s ++ after ∧
    (∀ c ∈ before, isSpace c = true) ∧ ∀ c ∈ after, isSpace c = true := by
  refine ⟨s.takeWhile isSpace, (s.dropWhile isSpace).rtakeWhile isSpace, ?_,
    fun c => List.mem_takeWhile_imp, fun c => List.mem_rtakeWhile_imp⟩
  rw [strip, List.append_assoc, List.rdropWhile_append_rtakeWhile, List.takeWhile_append_dropWhile]

/-- What `strip` leaves is not all space. -/
theorem exists_mem_strip {s : List Char} (h : strip s ≠ []) : ∃ c ∈ strip s, isSpace c = false := by
  have hlast := List.rdropWhile_last_not isSpace (s.dropWhile isSpace) h
  exact ⟨_, List.getLast_mem h, Bool.not_eq_true _ ▸ hlast⟩

theorem contains_append_left {sub a : String} (h : contains sub a = true) (b : String) :
    contains sub (a ++ b) = true := by
  have hinfix : sub.toList <:+: a.toList := of_decide_eq_true h
  refine decide_eq_true ?_
  rw [String.toList_append]
  exact hinfix.trans (List.prefix_append _ _).isInfix

theorem contains_append_right {sub b : String} (a : String) (h : contains sub b = true) :
    contains sub (a ++ b) = true := by
  have hinfix : sub.toList <:+: b.toList := of_decide_eq_true h
  refine decide_eq_true ?_
  rw [String.toList_append]
  exact hinfix.trans (List.suffix_append _ _).isInfix

end Py
