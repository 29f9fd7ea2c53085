import Mathlib.Data.List.Infix

/-!
# Shell-style patterns

`fnmatch.fnmatchcase` : a pattern is translated to pieces (`Glob.translate`) that must
match the whole name (`Glob.matchesText`). `*` stands for any run of characters, `?` for one,
`[seq]` and `[!seq]` for one inside or outside a set of ranges. A bracket that is never
closed is literal, a set whose ranges are all empty matches nothing, and its negation
anything.

A pattern without special characters matches itself alone (`fnmatchcase_literal`), and
`*` matches every name (`fnmatchcase_star`).
-/

namespace Glob

/-- One piece of a translated pattern. -/
inductive Piece where
  | star
  | any
  | never
  | literal (c : Char)
  | set (negated : Bool) (ranges : List (Char × Char))

/-- Whether a piece other than `*` accepts the character. -/
def Piece.accepts : Piece → Char → Bool
  | .star, _ => false
  | .any, _ => true
  | .never, _ => false
  | .literal a, c => a = c
  | .set negated ranges, c => negated != ranges.any fun r => r.1 ≤ c && c ≤ r.2

/-- The pieces match the whole text. -/
def matchesText : List Piece → List Char → Bool
  | [], s => s.isEmpty
  | .star :: ps, s => s.tails.any (matchesText ps)
  | _ :: _, [] => false
  | p :: ps, c :: cs => p.accepts c && matchesText ps cs

/-- A `*` takes any part at the front. -/
theorem matchesText_star {ps : List Piece} {s : List Char} :
    matchesText (.star :: ps) s = true ↔ ∃ a b, s = a ++ b ∧ matchesText ps b = true := by
  rw [matchesText, List.any_eq_true]
  constructor
  · rintro ⟨b, hb, hmatch⟩
    obtain ⟨a, rfl⟩ := (List.mem_tails _ _).1 hb
    exact ⟨a, b, rfl, hmatch⟩
  · rintro ⟨a, b, rfl, hmatch⟩
    exact ⟨b, (List.mem_tails _ _).2 (List.suffix_append a b), hmatch⟩

/-- Any other piece takes one character. -/
theorem matchesText_cons_of_ne_star {p : Piece} (hp : p ≠ .star) {ps : List Piece}
    {s : List Char} : matchesText (p :: ps) s = true ↔
      ∃ c cs, s = c :: cs ∧ p.accepts c = true ∧ matchesText ps cs = true := by
  rcases s with _ | ⟨c, cs⟩
  · rcases p <;> simp_all [matchesText]
  · rcases p <;> simp_all [matchesText]

theorem matchesText_append {ps qs : List Piece} {s : List Char} :
    matchesText (ps ++ qs) s = true ↔
      ∃ a b, s = a ++ b ∧ matchesText ps a = true ∧ matchesText qs b = true := by
  induction ps generalizing s with
  | nil =>
    rw [List.nil_append]
    constructor
    · exact fun h => ⟨[], s, rfl, rfl, h⟩
    · rintro ⟨a, b, rfl, ha, hb⟩
      rwa [List.isEmpty_iff.1 ha]
  | cons p ps ih =>
    rw [List.cons_append]
    by_cases hp : p = .star
    · subst hp
      rw [matchesText_star]
      constructor
      · rintro ⟨a, b, rfl, h⟩
        obtain ⟨b₁, b₂, rfl, h₁, h₂⟩ := ih.1 h
        exact ⟨a ++ b₁, b₂, (List.append_assoc ..).symm, matchesText_star.2 ⟨a, b₁, rfl, h₁⟩, h₂⟩
      · rintro ⟨a, b, rfl, ha, hb⟩
        obtain ⟨a₁, a₂, rfl, h₂⟩ := matchesText_star.1 ha
        exact ⟨a₁, a₂ ++ b, List.append_assoc .., ih.2 ⟨a₂, b, rfl, h₂, hb⟩⟩
    · rw [matchesText_cons_of_ne_star hp]
      constructor
      · rintro ⟨c, cs, rfl, hc, h⟩
        obtain ⟨a, b, rfl, ha, hb⟩ := ih.1 h
        exact ⟨c :: a, b, rfl, (matchesText_cons_of_ne_star hp).2 ⟨c, a, rfl, hc, ha⟩, hb⟩
      · rintro ⟨a, b, rfl, ha, hb⟩
        obtain ⟨c, cs, rfl, hc, hcs⟩ := (matchesText_cons_of_ne_star hp).1 ha
        exact ⟨c, cs ++ b, rfl, hc, ih.2 ⟨cs, b, rfl, hcs, hb⟩⟩

/-! ## Bracket expressions -/

/-- The text between the brackets and what follows, after an opening bracket. A `]` that
comes first, or right after `!`, is part of the set. -/
def bracket (s : List Char) : Option (List Char × List Char) :=
  let (head, rest) := match s with
    | '!' :: ']' :: t => (['!', ']'], t)
    | '!' :: t => (['!'], t)
    | ']' :: t => ([']'], t)
    | t => ([], t)
  match rest.dropWhile (· ≠ ']') with
  | [] => none
  | _ :: after => some (head ++ rest.takeWhile (· ≠ ']'), after)

/-- Cut at the hyphens that make a range; the next `skip` characters are not cut at. -/
def chunks : ℕ → List Char → List Char → List (List Char)
  | _, cur, [] => [cur]
  | skip + 1, cur, c :: cs => chunks skip (cur ++ [c]) cs
  | 0, cur, c :: cs => if c = '-' then cur :: chunks 2 [] cs else chunks 0 (cur ++ [c]) cs

/-- A hyphen at the end is literal. -/
def closeChunks : List (List Char) → List (List Char)
  | [] => []
  | [c] => [c]
  | [c, []] => [c ++ ['-']]
  | c :: cs => c :: closeChunks cs

/-- Ranges that run backwards are left out, from the last to the first. -/
def dropEmptyRanges : List (List Char) → List (List Char)
  | [] => []
  | c :: cs =>
    match dropEmptyRanges cs with
    | [] => [c]
    | d :: ds =>
      match c.getLast?, d.head? with
      | some lo, some hi => if hi < lo then (c.dropLast ++ d.tail) :: ds else c :: d :: ds
      | _, _ => c :: d :: ds

/-- The ranges of the chunks, a single character being a range of its own. -/
def ranges : List Char → List (List Char) → List (Char × Char)
  | c, [] => c.map fun a => (a, a)
  | c, d :: ds =>
    (c.dropLast.map fun a => (a, a)) ++
      (match c.getLast?, d.head? with
        | some lo, some hi => [(lo, hi)]
        | none, some hi => [('-', '-'), (hi, hi)]
        | _, none => []) ++
      ranges d.tail ds

/-- The piece for the text between two brackets. -/
def bracketPiece (stuff : List Char) : Piece :=
  let parts :=
    if '-' ∈ stuff then
      dropEmptyRanges (closeChunks (chunks (if stuff.head? = some '!' then 2 else 1) [] stuff))
    else [stuff]
  match parts with
  | [] => .never
  | [[]] => .never
  | [['!']] => .any
  | ('!' :: c) :: cs => .set true (ranges c cs)
  | c :: cs => .set false (ranges c cs)

/-! ## Translation -/

/-- `fnmatch.translate`, for patterns of at most `fuel` characters. -/
def translateWith : ℕ → List Char → List Piece
  | 0, _ => []
  | _, [] => []
  | fuel + 1, c :: cs =>
    if c = '*' then .star :: translateWith fuel cs
    else if c = '?' then .any :: translateWith fuel cs
    else if c = '[' then
      match bracket cs with
      | none => .literal '[' :: translateWith fuel cs
      | some (stuff, after) => bracketPiece stuff :: translateWith fuel after
    else .literal c :: translateWith fuel cs

def translate (pattern : List Char) : List Piece :=
  translateWith pattern.length pattern

end Glob

/-- `fnmatch.fnmatchcase`. -/
def fnmatchcase (name pattern : String) : Bool :=
  Glob.matchesText (Glob.translate pattern.toList) name.toList

namespace Glob

/-- Literal pieces match their own text. -/
theorem matchesText_literals : ∀ {p s : List Char},
    matchesText (p.map .literal) s = true ↔ s = p
  | [], s => by simp [matchesText]
  | _ :: _, [] => by simp [matchesText]
  | a :: p, c :: cs => by
    have ih := matchesText_literals (p := p) (s := cs)
    simp only [List.map_cons, matchesText, Bool.and_eq_true, ih, Piece.accepts,
      decide_eq_true_eq, List.cons.injEq, eq_comm (a := a)]

theorem translateWith_literals : ∀ {fuel : ℕ} {p : List Char}, p.length ≤ fuel →
    (∀ c ∈ p, c ≠ '*' ∧ c ≠ '?' ∧ c ≠ '[') → translateWith fuel p = p.map .literal
  | 0, [], _, _ => rfl
  | 0, _ :: _, h, _ => by simp at h
  | _ + 1, [], _, _ => rfl
  | fuel + 1, c :: cs, h, hp => by
    obtain ⟨hstar, hany, hopen⟩ := hp c List.mem_cons_self
    have ih := translateWith_literals (Nat.le_of_succ_le_succ h)
      fun d hd => hp d (List.mem_cons_of_mem _ hd)
    rw [translateWith, if_neg hstar, if_neg hany, if_neg hopen, ih, List.map_cons]

end Glob

/-- A pattern without special characters matches itself alone. -/
theorem fnmatchcase_literal {name pattern : String}
    (h : ∀ c ∈ pattern.toList, c ≠ '*' ∧ c ≠ '?' ∧ c ≠ '[') :
    fnmatchcase name pattern = true ↔ name = pattern := by
  rw [fnmatchcase, Glob.translate, Glob.translateWith_literals (Nat.le_refl _) h, Glob.matchesText_literals,
    String.toList_inj]

/-- `*` matches every name. -/
theorem fnmatchcase_star (name : String) : fnmatchcase name "*" = true := by
  have htail : [] ∈ name.toList.tails := (List.mem_tails _ _).2 List.nil_suffix
  exact List.any_eq_true.2 ⟨[], htail, rfl⟩
