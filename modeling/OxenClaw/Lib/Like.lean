import OxenClaw.Lib.Glob

/-!
# SQL's `LIKE`

`text LIKE pattern` of SQLite : `%` stands for any run of characters, `_` for one, and a letter of
ASCII for itself in either case. A pattern between two `%` is found where a part of the text is
like it (`like_contains`).
-/

namespace Sqlite

/-- What a character of a pattern stands for. -/
def likePiece (c : Char) : Glob.Piece :=
  if c = '%' then .star else if c = '_' then .any else .literal c.toLower

/-- `text LIKE pattern`. -/
def like (pattern text : List Char) : Bool :=
  Glob.matchesText (pattern.map likePiece) (text.map Char.toLower)

variable {p q s : List Char} {c : Char}

theorem matchesText_literal : Glob.matchesText [.literal c] s = true ↔ s = [c] :=
  Glob.matchesText_literals (p := [c])

theorem like_append : like (p ++ q) s = true ↔
    ∃ a b, s = a ++ b ∧ like p a = true ∧ like q b = true := by
  rw [like, List.map_append, Glob.matchesText_append]
  constructor
  · rintro ⟨a', b', hs, ha, hb⟩
    obtain ⟨a, b, rfl, rfl, rfl⟩ := List.map_eq_append_iff.1 hs
    exact ⟨a, b, rfl, ha, hb⟩
  · rintro ⟨a, b, rfl, ha, hb⟩
    exact ⟨a.map Char.toLower, b.map Char.toLower, List.map_append, ha, hb⟩

theorem like_percent (s : List Char) : like ['%'] s = true :=
  Glob.matchesText_star.2 ⟨_, [], (List.append_nil _).symm, rfl⟩

/-- Only a capital changes, into a small letter. -/
theorem toLower_eq_or_isLower (c : Char) : c.toLower = c ∨ c.toLower.isLower = true := by
  by_cases h : c.val ≥ 'A'.val ∧ c.val ≤ 'Z'.val
  · right
    have hlo : 65 ≤ c.val.toNat := UInt32.le_iff_toNat_le.1 h.1
    have hhi : c.val.toNat ≤ 90 := UInt32.le_iff_toNat_le.1 h.2
    have hval : c.toLower.val.toNat = c.val.toNat + 32 := by
      unfold Char.toLower
      rw [dif_pos h, UInt32.toNat_add]
      exact Nat.mod_eq_of_lt (show c.val.toNat + 32 < 2 ^ 32 by omega)
    unfold Char.isLower
    rw [Bool.and_eq_true, decide_eq_true_eq, decide_eq_true_eq, ge_iff_le,
      UInt32.le_iff_toNat_le, UInt32.le_iff_toNat_le, hval]
    exact ⟨Nat.add_le_add_right hlo 32, Nat.add_le_add_right hhi 32⟩
  · exact .inl (dif_neg h)

/-- A character that is neither a wildcard nor a letter stands for itself. -/
theorem like_singleton (hpercent : c ≠ '%') (hany : c ≠ '_') (hsmall : c.toLower.isLower = false) :
    like [c] s = true ↔ s = [c] := by
  have hc : c.toLower = c := (toLower_eq_or_isLower c).resolve_right (by simp [hsmall])
  have hpiece : likePiece c = .literal c.toLower := by
    rw [likePiece, if_neg hpercent, if_neg hany]
  rw [like, List.map_singleton, hpiece, matchesText_literal]
  constructor
  · intro hs
    obtain ⟨d, rfl, hd⟩ := List.map_eq_singleton_iff.1 hs
    rcases toLower_eq_or_isLower d with hself | hlower
    · rw [← hself, hd, hc]
    · rw [hd, hsmall] at hlower
      cases hlower
  · rintro rfl
    rfl

/-- A text is like itself. -/
theorem like_self (p : List Char) : like p p = true := by
  induction p with
  | nil => rfl
  | cons c p ih =>
    rw [← List.singleton_append, like_append]
    refine ⟨[c], p, rfl, ?_, ih⟩
    by_cases hpercent : c = '%'
    · exact hpercent ▸ like_percent _
    · rw [like, List.map_singleton, List.map_singleton, likePiece, if_neg hpercent]
      split_ifs
      · rfl
      · exact matchesText_literal.2 rfl

/-- A pattern between two `%` is found in a text. -/
theorem like_contains : like ('%' :: (p ++ ['%'])) s = true ↔ ∃ x, x <:+: s ∧ like p x = true := by
  rw [← List.singleton_append, like_append]
  simp only [like_append, like_percent, true_and, and_true]
  constructor
  · rintro ⟨a, -, rfl, x, b, rfl, hx⟩
    exact ⟨x, ⟨a, b, List.append_assoc ..⟩, hx⟩
  · rintro ⟨x, ⟨a, b, rfl⟩, hx⟩
    exact ⟨a, x ++ b, List.append_assoc .., x, b, rfl, hx⟩

end Sqlite
