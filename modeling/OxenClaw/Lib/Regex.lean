import OxenClaw.Lib.Python

/-!
# Regular expressions of Python's `re`

A pattern matches from a position by trying its alternatives in order and giving a greedy
repetition as much as it can. `Regex.ends` has the positions where it may stop, the preferred
one first; a match takes the first. `Regex.finditer` goes on behind each match, for patterns
that match no empty text.

What `re` knows of characters beyond ASCII is a table (`Unicode`).
-/

/-- What Python knows of the characters beyond ASCII. -/
structure Unicode where
  isalnum : Char → Bool
  /-- The value of a decimal digit. -/
  decimal : Char → Option ℕ

namespace Unicode

/-- `\w`. -/
def isWord (u : Unicode) (c : Char) : Bool :=
  if c.toNat < 128 then c.isAlphanum || c == '_' else u.isalnum c

/-- `int(c)` of what `\d` matches. -/
def digit (u : Unicode) (c : Char) : Option ℕ :=
  if c.toNat < 128 then if c.isDigit then some (c.toNat - 48) else none else u.decimal c

/-- `\d`. -/
def isDigit (u : Unicode) (c : Char) : Bool :=
  (u.digit c).isSome

/-- A table without entries. -/
def ascii : Unicode :=
  ⟨fun _ => false, fun _ => none⟩

/-- A letter of ASCII is a word character. -/
theorem isWord_of_isLower_toLower {u : Unicode} {c : Char} (h : c.toLower.isLower = true) :
    u.isWord c = true := by
  have hascii : c.toNat < 128 ∧ c.isAlphanum = true := by
    unfold Char.toLower at h
    split at h
    · rename_i hupper
      have hisUpper : c.isUpper = true := by
        unfold Char.isUpper
        simpa only [Bool.and_eq_true, decide_eq_true_eq] using hupper
      refine ⟨(UInt32.le_iff_toNat_le.1 hupper.2).trans_lt (by decide), ?_⟩
      unfold Char.isAlphanum Char.isAlpha
      rw [hisUpper, Bool.true_or, Bool.true_or]
    · have hle : c.val ≤ 'z'.val := by
        unfold Char.isLower at h
        simp only [Bool.and_eq_true, decide_eq_true_eq] at h
        exact h.2
      refine ⟨(UInt32.le_iff_toNat_le.1 hle).trans_lt (by decide), ?_⟩
      unfold Char.isAlphanum Char.isAlpha
      rw [h, Bool.or_true, Bool.true_or]
  rw [isWord, if_pos hascii.1, hascii.2, Bool.true_or]

end Unicode

inductive Regex where
  | eps
  /-- One character of a set. -/
  | set (p : Char → Bool)
  /-- `\b`. -/
  | wordBoundary
  | seq (r s : Regex)
  | alt (r s : Regex)
  /-- `r{min,max}`, greedy. -/
  | rep (r : Regex) (min : ℕ) (max : Option ℕ)

namespace Regex

/-- The characters of a text, one by one. -/
def lit (text : String) : Regex :=
  text.toList.foldr (fun c r => seq (set (· == c)) r) eps

/-- Whether `(?i)` takes one character for another : the letters of ASCII, and the four
characters beyond it that `re` folds to one. -/
def sameLetter (c d : Char) : Bool :=
  c.toLower == d.toLower ||
    [('i', '\u0130'), ('i', '\u0131'), ('s', '\u017f'), ('k', '\u212a')].any fun e =>
      (c.toLower == e.1 && d == e.2) || (d.toLower == e.1 && c == e.2)

/-- The characters of a text, under `(?i)`. -/
def litIgnoreCase (text : String) : Regex :=
  text.toList.foldr (fun c r => seq (set (sameLetter c)) r) eps

/-- One pattern after another. -/
def cat (rs : List Regex) : Regex :=
  rs.foldr seq eps

/-- `r|s|..`. -/
def anyOf (rs : List Regex) : Regex :=
  rs.foldr alt (set fun _ => false)

/-- `r*`. -/
def star (r : Regex) : Regex :=
  rep r 0 none

/-- `r+`. -/
def plus (r : Regex) : Regex :=
  rep r 1 none

/-- `r?`. -/
def opt (r : Regex) : Regex :=
  rep r 0 (some 1)

/-- `n` times. -/
def times (f : ℕ → List ℕ) : ℕ → ℕ → List ℕ
  | 0, i => [i]
  | n + 1, i => (f i).flatMap (times f n)

/-- Up to `n` times, as often as possible first, each time with some progress. -/
def upTo (f : ℕ → List ℕ) : ℕ → ℕ → List ℕ
  | 0, i => [i]
  | n + 1, i => ((f i).filter (i < ·)).flatMap (upTo f n) ++ [i]

variable (u : Unicode) (text : List Char)

/-- Whether a word character stands at a position. -/
def wordAt (i : ℕ) : Bool :=
  text[i]?.any u.isWord

/-- Where a match from a position may end, the preferred end first. -/
def ends : Regex → ℕ → List ℕ
  | eps, i => [i]
  | set p, i => if text[i]?.any p then [i + 1] else []
  | wordBoundary, i =>
    if (i != 0 && wordAt u text (i - 1)) != wordAt u text i then [i] else []
  | seq r s, i => (ends r i).flatMap (ends s)
  | alt r s, i => ends r i ++ ends s i
  | rep r min max, i =>
    (times (ends r) min i).flatMap (upTo (ends r) (max.getD (min + text.length) - min))

/-- The matches from a position on, in at most `n` attempts. -/
def findFrom (r : Regex) : (n i : ℕ) → List (ℕ × ℕ)
  | 0, _ => []
  | n + 1, i =>
    match (ends u text r i).head? with
    | none => findFrom r n (i + 1)
    | some j => if i < j then (i, j) :: findFrom r n j else findFrom r n (i + 1)

/-- The spans of `re.finditer(r, text)`. -/
def finditer (r : Regex) : List (ℕ × ℕ) :=
  findFrom u text r text.length 0

variable {u text}

/-- Ends that are not before their start, nor behind both the start and `m`. -/
def Forward (m : ℕ) (f : ℕ → List ℕ) : Prop :=
  ∀ i, ∀ j ∈ f i, i ≤ j ∧ j ≤ max i m

namespace Forward

variable {m : ℕ} {f g : ℕ → List ℕ}

theorem here : Forward m fun i => [i] := by
  intro i j hj
  rw [List.mem_singleton.1 hj]
  exact ⟨le_rfl, le_max_left _ _⟩

theorem andThen (hf : Forward m f) (hg : Forward m g) : Forward m fun i => (f i).flatMap g := by
  intro i j hj
  obtain ⟨k, hk, hj⟩ := List.mem_flatMap.1 hj
  have hik := hf i k hk
  have hkj := hg k j hj
  omega

theorem orElse (hf : Forward m f) (hg : Forward m g) : Forward m fun i => f i ++ g i :=
  fun i j hj => (List.mem_append.1 hj).elim (hf i j) (hg i j)

theorem times (hf : Forward m f) (n : ℕ) : Forward m (times f n) := by
  induction n with
  | zero => exact here
  | succ n ih => exact hf.andThen ih

theorem upTo (hf : Forward m f) (n : ℕ) : Forward m (upTo f n) := by
  induction n with
  | zero => exact here
  | succ n ih =>
    have hfilter : Forward m fun i => (f i).filter (i < ·) := fun i j hj =>
      hf i j (List.mem_of_mem_filter hj)
    exact (hfilter.andThen ih).orElse here

end Forward

theorem forward_ends (r : Regex) : Forward text.length (ends u text r) := by
  induction r with
  | eps => exact Forward.here
  | set p =>
    intro i j hj
    rw [ends] at hj
    split_ifs at hj with hset
    · obtain ⟨c, hc, -⟩ := (Option.any_eq_true _ _).1 hset
      have hlt := (List.getElem?_eq_some_iff.1 hc).1
      rw [List.mem_singleton.1 hj]
      omega
    · exact absurd hj List.not_mem_nil
  | wordBoundary =>
    intro i j hj
    rw [ends] at hj
    split_ifs at hj with hword
    · exact Forward.here i j hj
    · exact absurd hj List.not_mem_nil
  | seq r s ihr ihs => exact ihr.andThen ihs
  | alt r s ihr ihs => exact ihr.orElse ihs
  | rep r min max ih => exact (ih.times min).andThen (ih.upTo _)

theorem mem_findFrom {r : Regex} {m : ℕ × ℕ} {n i : ℕ} (h : m ∈ findFrom u text r n i) :
    m.1 < m.2 ∧ m.2 ≤ text.length := by
  induction n generalizing i with
  | zero => exact absurd h List.not_mem_nil
  | succ n ih =>
    rw [findFrom] at h
    split at h
    · exact ih h
    · rename_i j hj
      split_ifs at h with hlt
      · rcases List.mem_cons.1 h with rfl | h
        · have hle := (forward_ends r i j (List.mem_of_mem_head? hj)).2
          exact ⟨hlt, by omega⟩
        · exact ih h
      · exact ih h

theorem le_of_mem_findFrom {r : Regex} {m : ℕ × ℕ} {n i : ℕ} (h : m ∈ findFrom u text r n i) :
    i ≤ m.1 := by
  induction n generalizing i with
  | zero => exact absurd h List.not_mem_nil
  | succ n ih =>
    rw [findFrom] at h
    split at h
    · exact (Nat.le_succ i).trans (ih h)
    · split_ifs at h with hlt
      · rcases List.mem_cons.1 h with rfl | h
        · exact le_rfl
        · exact hlt.le.trans (ih h)
      · exact (Nat.le_succ i).trans (ih h)

/-- What `finditer` finds is not empty, and inside the text. -/
theorem mem_finditer {r : Regex} {m : ℕ × ℕ} (h : m ∈ finditer u text r) :
    m.1 < m.2 ∧ m.2 ≤ text.length :=
  mem_findFrom h

/-! ## What a pattern reads -/

variable (u) in
/-- A match is a text with a property, whatever stands before and behind it. -/
def Reads (r : Regex) (P : List Char → Prop) : Prop :=
  ∀ text i j, j ∈ ends u text r i ↔ ∃ m, m <+: text.drop i ∧ j = i + m.length ∧ P m

namespace Reads

variable {r s : Regex} {P Q : List Char → Prop}

theorem congr (h : Reads u r P) (hPQ : ∀ m, P m ↔ Q m) : Reads u r Q := by
  intro text i j
  simp only [h text i j, hPQ]

theorem append_prefix_drop {a b l : List Char} {i : ℕ} :
    a ++ b <+: l.drop i ↔ a <+: l.drop i ∧ b <+: l.drop (i + a.length) := by
  rw [← List.drop_drop]
  constructor
  · rintro ⟨t, ht⟩
    rw [← ht, List.append_assoc]
    exact ⟨List.prefix_append _ _, by rw [List.drop_left]; exact List.prefix_append _ _⟩
  · rintro ⟨⟨t, ht⟩, hb⟩
    rw [← ht, List.drop_left] at hb
    rw [← ht]
    exact (List.prefix_append_right_inj a).2 hb

theorem singleton_prefix_drop {c : Char} {l : List Char} {i : ℕ} :
    [c] <+: l.drop i ↔ l[i]? = some c := by
  rw [← List.head?_drop]
  rcases l.drop i with _ | ⟨d, t⟩
  · simp
  · simp [eq_comm]

protected theorem eps : Reads u eps (· = []) := by
  intro text i j
  simp [ends]

protected theorem set (p : Char → Bool) : Reads u (set p) fun m => ∃ c, m = [c] ∧ p c = true := by
  intro text i j
  rw [ends]
  constructor
  · intro hj
    split_ifs at hj with hany
    · obtain ⟨c, hc, hp⟩ := (Option.any_eq_true _ _).1 hany
      exact ⟨[c], singleton_prefix_drop.2 hc, List.mem_singleton.1 hj, c, rfl, hp⟩
    · exact absurd hj List.not_mem_nil
  · rintro ⟨m, hm, rfl, c, rfl, hp⟩
    rw [if_pos ((Option.any_eq_true _ _).2 ⟨c, singleton_prefix_drop.1 hm, hp⟩)]
    exact List.mem_singleton_self _

protected theorem seq (hr : Reads u r P) (hs : Reads u s Q) :
    Reads u (seq r s) fun m => ∃ a b, m = a ++ b ∧ P a ∧ Q b := by
  intro text i j
  rw [ends, List.mem_flatMap]
  constructor
  · rintro ⟨k, hk, hj⟩
    obtain ⟨a, ha, rfl, hP⟩ := (hr text i k).1 hk
    obtain ⟨b, hb, rfl, hQ⟩ := (hs text _ j).1 hj
    refine ⟨a ++ b, append_prefix_drop.2 ⟨ha, hb⟩, ?_, a, b, rfl, hP, hQ⟩
    rw [List.length_append, Nat.add_assoc]
  · rintro ⟨m, hm, rfl, a, b, rfl, hP, hQ⟩
    obtain ⟨ha, hb⟩ := append_prefix_drop.1 hm
    refine ⟨i + a.length, (hr text i _).2 ⟨a, ha, rfl, hP⟩, (hs text _ _).2 ⟨b, hb, ?_, hQ⟩⟩
    rw [List.length_append, Nat.add_assoc]

protected theorem alt (hr : Reads u r P) (hs : Reads u s Q) :
    Reads u (alt r s) fun m => P m ∨ Q m := by
  intro text i j
  rw [ends, List.mem_append, hr text i j, hs text i j]
  constructor
  · rintro (⟨m, hm, hj, hP⟩ | ⟨m, hm, hj, hQ⟩)
    · exact ⟨m, hm, hj, Or.inl hP⟩
    · exact ⟨m, hm, hj, Or.inr hQ⟩
  · rintro ⟨m, hm, hj, hP | hQ⟩
    · exact Or.inl ⟨m, hm, hj, hP⟩
    · exact Or.inr ⟨m, hm, hj, hQ⟩

protected theorem anyOf {ι : Type*} {xs : List ι} {f : ι → Regex} {R : ι → List Char → Prop}
    (h : ∀ x, Reads u (f x) (R x)) : Reads u (anyOf (xs.map f)) fun m => ∃ x ∈ xs, R x m := by
  induction xs with
  | nil => exact (Reads.set _).congr fun m => by simp
  | cons x xs ih => exact ((h x).alt ih).congr fun m => by simp

protected theorem opt (hr : Reads u r P) : Reads u (opt r) fun m => m = [] ∨ P m := by
  intro text i j
  have hends : ends u text (opt r) i =
      ((ends u text r i).filter (i < ·)).flatMap (fun k => [k]) ++ [i] := by
    simp [opt, ends, times, upTo]
  rw [hends, List.mem_append, List.mem_singleton]
  constructor
  · rintro (hj | rfl)
    · obtain ⟨k, hk, hj⟩ := List.mem_flatMap.1 hj
      obtain ⟨m, hm, hkm, hP⟩ := (hr text i k).1 (List.mem_of_mem_filter hk)
      exact ⟨m, hm, (List.mem_singleton.1 hj).trans hkm, Or.inr hP⟩
    · exact ⟨[], List.nil_prefix, rfl, Or.inl rfl⟩
  · rintro ⟨m, hm, rfl, hnil | hP⟩
    · exact Or.inr (by rw [hnil]; rfl)
    · rcases eq_or_ne m [] with hnil | hne
      · exact Or.inr (by rw [hnil]; rfl)
      · have hpos := List.length_pos_iff.2 hne
        refine Or.inl (List.mem_flatMap.2 ⟨_, List.mem_filter.2 ⟨(hr text i _).2 ⟨m, hm, rfl, hP⟩,
          ?_⟩, List.mem_singleton_self _⟩)
        exact decide_eq_true (by omega)

theorem mem_upTo_set {p : Char → Bool} {text : List Char} {n i j : ℕ} :
    j ∈ upTo (ends u text (set p)) n i ↔
      ∃ m, m <+: text.drop i ∧ j = i + m.length ∧ (∀ c ∈ m, p c = true) ∧ m.length ≤ n := by
  induction n generalizing i with
  | zero =>
    rw [upTo, List.mem_singleton]
    constructor
    · rintro rfl
      exact ⟨[], List.nil_prefix, rfl, by simp, le_rfl⟩
    · rintro ⟨m, -, rfl, -, hlen⟩
      omega
  | succ n ih =>
    rw [upTo, List.mem_append, List.mem_singleton, List.mem_flatMap]
    constructor
    · rintro (⟨k, hk, hj⟩ | rfl)
      · obtain ⟨-, hc, rfl, c, rfl, hp⟩ := (Reads.set p text i k).1 (List.mem_of_mem_filter hk)
        obtain ⟨m, hm, rfl, hall, hlen⟩ := ih.1 hj
        refine ⟨c :: m, append_prefix_drop.2 ⟨hc, hm⟩, ?_, List.forall_mem_cons.2 ⟨hp, hall⟩, ?_⟩
        · simp only [List.length_cons, List.length_nil]
          omega
        · rw [List.length_cons]
          omega
      · exact ⟨[], List.nil_prefix, rfl, by simp, Nat.zero_le _⟩
    · rintro ⟨m, hm, rfl, hall, hlen⟩
      rcases m with _ | ⟨c, m⟩
      · exact Or.inr rfl
      · obtain ⟨hp, hall⟩ := List.forall_mem_cons.1 hall
        obtain ⟨hc, hm⟩ := (append_prefix_drop (a := [c])).1 hm
        have hmem := (Reads.set (u := u) p text i (i + 1)).2 ⟨[c], hc, rfl, c, rfl, hp⟩
        refine Or.inl ⟨i + 1, List.mem_filter.2 ⟨hmem, decide_eq_true (Nat.lt_succ_self i)⟩,
          ih.2 ⟨m, hm, ?_, hall, ?_⟩⟩
        · rw [List.length_cons]
          omega
        · rw [List.length_cons] at hlen
          omega

theorem star_set (p : Char → Bool) : Reads u (star (set p)) fun m => ∀ c ∈ m, p c = true := by
  intro text i j
  rw [star, ends, times, List.flatMap_singleton, mem_upTo_set]
  constructor
  · rintro ⟨m, hm, hj, hall, -⟩
    exact ⟨m, hm, hj, hall⟩
  · rintro ⟨m, hm, hj, hall⟩
    have hlen := hm.length_le
    rw [List.length_drop] at hlen
    exact ⟨m, hm, hj, hall, by simp only [Option.getD_none]; omega⟩

theorem litIgnoreCase (name : String) : Reads u (litIgnoreCase name)
    fun m => List.Forall₂ (fun d c => sameLetter d c = true) name.toList m := by
  unfold Regex.litIgnoreCase
  induction name.toList with
  | nil => exact Reads.eps.congr fun m => List.forall₂_nil_left_iff.symm
  | cons d ds ih =>
    refine ((Reads.set (sameLetter d)).seq ih).congr fun m => ?_
    constructor
    · rintro ⟨-, b, rfl, ⟨c, rfl, hc⟩, hb⟩
      exact .cons hc hb
    · rintro (_ | ⟨hc, hb⟩)
      exact ⟨[_], _, rfl, ⟨_, rfl, hc⟩, hb⟩

theorem getElem?_before {a l : List Char} {i : ℕ} (ha : a <+: l.drop i) (hne : a ≠ []) :
    l[i + a.length - 1]? = a.getLast? := by
  obtain ⟨t, ht⟩ := ha
  have hpos := List.length_pos_iff.2 hne
  have hi : i + a.length - 1 = i + (a.length - 1) := by omega
  rw [hi, ← List.getElem?_drop, ← ht, List.getElem?_append_left (by omega),
    List.getLast?_eq_getElem?]

/-- A word boundary between two patterns that read something. -/
theorem wordBoundary (hr : Reads u r P) (hs : Reads u s Q) (hP : ∀ m, P m → m ≠ [])
    (hQ : ∀ m, Q m → m ≠ []) : Reads u (seq r (seq wordBoundary s)) fun m => ∃ a b, m = a ++ b ∧
      P a ∧ Q b ∧ a.getLast?.any u.isWord ≠ b.head?.any u.isWord := by
  intro text i j
  have hedge : ∀ {a b}, a <+: text.drop i → b <+: text.drop (i + a.length) → a ≠ [] → b ≠ [] →
      (((i + a.length != 0 && wordAt u text (i + a.length - 1)) != wordAt u text (i + a.length)) =
        true ↔ a.getLast?.any u.isWord ≠ b.head?.any u.isWord) := by
    intro a b ha hb hane hbne
    have hpos := List.length_pos_iff.2 hane
    have hnot : (i + a.length != 0) = true := bne_iff_ne.2 (by omega)
    obtain ⟨c, b, rfl⟩ := List.exists_cons_of_ne_nil hbne
    have hc := singleton_prefix_drop.1 ((List.prefix_append [c] b).trans hb)
    rw [hnot, Bool.true_and, wordAt, wordAt, getElem?_before ha hane, hc, bne_iff_ne]
    rfl
  rw [ends, List.mem_flatMap]
  constructor
  · rintro ⟨k, hk, hj⟩
    obtain ⟨a, ha, rfl, haP⟩ := (hr text i k).1 hk
    rw [ends, List.mem_flatMap] at hj
    obtain ⟨k, hk, hj⟩ := hj
    rw [ends] at hk
    split_ifs at hk with hword
    · rw [List.mem_singleton] at hk
      subst hk
      obtain ⟨b, hb, rfl, hbQ⟩ := (hs text _ j).1 hj
      refine ⟨a ++ b, append_prefix_drop.2 ⟨ha, hb⟩, ?_, a, b, rfl, haP, hbQ, ?_⟩
      · rw [List.length_append, Nat.add_assoc]
      · exact (hedge ha hb (hP a haP) (hQ b hbQ)).1 hword
    · exact absurd hk List.not_mem_nil
  · rintro ⟨m, hm, rfl, a, b, rfl, haP, hbQ, hword⟩
    obtain ⟨ha, hb⟩ := append_prefix_drop.1 hm
    refine ⟨i + a.length, (hr text i _).2 ⟨a, ha, rfl, haP⟩, ?_⟩
    rw [ends, List.mem_flatMap]
    refine ⟨i + a.length, ?_, (hs text _ _).2 ⟨b, hb, ?_, hbQ⟩⟩
    · rw [ends, if_pos ((hedge ha hb (hP a haP) (hQ b hbQ)).2 hword)]
      exact List.mem_singleton_self _
    · rw [List.length_append, Nat.add_assoc]

end Reads

end Regex
