import Mathlib.Data.Rat.Defs

/-!
# JSON values of a wire

A Python `str` is the list of its code points. The escapes of JSON can put a lone surrogate into
one, and such a text has no encoding in UTF-8 (`Encodable`).
-/

/-- A `str`, by its code points. -/
abbrev CodePoints := List ℕ

namespace CodePoints

/-- A literal of the source. -/
def lit (s : String) : CodePoints :=
  s.toList.map Char.toNat

/-- `s.encode("utf-8")` does not raise : no code point is a surrogate. -/
def Encodable (s : CodePoints) : Prop :=
  ∀ c ∈ s, c < 0xD800 ∨ 0xE000 ≤ c

instance (s : CodePoints) : Decidable s.Encodable :=
  inferInstanceAs (Decidable (∀ c ∈ s, _))

theorem encodable_lit (s : String) : (lit s).Encodable := by
  intro c hc
  obtain ⟨a, -, rfl⟩ := List.mem_map.1 hc
  have hvalid := a.valid
  simp only [Char.toNat, UInt32.isValidChar, Nat.isValidChar] at hvalid ⊢
  omega

end CodePoints

/-- What `json.loads` gives. A `dict` is the list of its items. -/
inductive JsonValue where
  | null
  | bool (b : Bool)
  | int (n : ℤ)
  | float (x : ℚ)
  | str (s : CodePoints)
  | arr (xs : List JsonValue)
  | obj (fields : List (CodePoints × JsonValue))

namespace JsonValue

/-- `bool(v)`. -/
def truthy : JsonValue → Bool
  | .null => false
  | .bool b => b
  | .int n => n ≠ 0
  | .float x => x ≠ 0
  | .str s => !s.isEmpty
  | .arr xs => !xs.isEmpty
  | .obj fields => !fields.isEmpty

/-- `v is None`. -/
def isNull : JsonValue → Bool
  | .null => true
  | _ => false

mutual

/-- `json.dumps(v, ensure_ascii=False).encode("utf-8")` does not raise. -/
def encodable : JsonValue → Bool
  | .str s => s.Encodable
  | .arr xs => encodableItems xs
  | .obj fields => encodableFields fields
  | _ => true

def encodableItems : List JsonValue → Bool
  | [] => true
  | x :: xs => x.encodable && encodableItems xs

def encodableFields : List (CodePoints × JsonValue) → Bool
  | [] => true
  | (k, v) :: fields => decide k.Encodable && v.encodable && encodableFields fields

end

end JsonValue
