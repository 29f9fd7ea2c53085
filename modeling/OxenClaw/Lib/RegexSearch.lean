import OxenClaw.Lib.Regex
import OxenClaw.Lib.Wording

/-!
# Searching for patterns with anchors

A `Pattern` is put together from regular expressions and the anchors `^` and `$`, and `re.search`
finds it if it matches from some position. `Matches` is a match with what stands before and behind
it, so a pattern is found where a text is cut into three such parts (`search_iff`).

Expressions that read words, each with a gap behind it, are read word by word (`ReadsWords`).
-/

namespace Regex

open Wording

variable {u : Unicode} {r s : Regex} {P Q : List Char → Prop}

/-! ## Repetitions -/

namespace Reads

theorem mem_upTo (hr : Reads u r P) {text : List Char} {n i j : ℕ} :
    j ∈ upTo (ends u text r) n i ↔ ∃ ms : List (List Char), ms.flatten <+: text.drop i ∧
      j = i + ms.flatten.length ∧ (∀ m ∈ ms, m ≠ [] ∧ P m) ∧ ms.length ≤ n := by
  induction n generalizing i with
  | zero =>
    rw [upTo, List.mem_singleton]
    constructor
    · rintro rfl
      exact ⟨[], List.nil_prefix, rfl, by simp, le_rfl⟩
    · rintro ⟨ms, -, rfl, -, hlen⟩
      rw [List.length_eq_zero_iff.1 (Nat.le_zero.1 hlen)]
      rfl
  | succ n ih =>
    rw [upTo, List.mem_append, List.mem_singleton, List.mem_flatMap]
    constructor
    · rintro (⟨k, hk, hj⟩ | rfl)
      · obtain ⟨hk, hlt⟩ := List.mem_filter.1 hk
        obtain ⟨m, hm, rfl, hP⟩ := (hr text i k).1 hk
        obtain ⟨ms, hms, rfl, hall, hlen⟩ := ih.1 hj
        have hne : m ≠ [] := by
          rintro rfl
          simp at hlt
        refine ⟨m :: ms, ?_, ?_, List.forall_mem_cons.2 ⟨⟨hne, hP⟩, hall⟩, ?_⟩
        · rw [List.flatten_cons]
          exact append_prefix_drop.2 ⟨hm, hms⟩
        · rw [List.flatten_cons, List.length_append, Nat.add_assoc]
        · exact Nat.succ_le_succ hlen
      · exact ⟨[], List.nil_prefix, rfl, by simp, Nat.zero_le _⟩
    · rintro ⟨ms, hms, rfl, hall, hlen⟩
      rcases ms with _ | ⟨m, ms⟩
      · exact Or.inr rfl
      · obtain ⟨⟨hne, hP⟩, hall⟩ := List.forall_mem_cons.1 hall
        rw [List.flatten_cons] at hms
        obtain ⟨hm, hms⟩ := append_prefix_drop.1 hms
        have hpos := List.length_pos_iff.2 hne
        refine Or.inl ⟨i + m.length, List.mem_filter.2 ⟨(hr text i _).2 ⟨m, hm, rfl, hP⟩, ?_⟩,
          ih.2 ⟨ms, hms, ?_, hall, Nat.le_of_succ_le_succ hlen⟩⟩
        · exact decide_eq_true (by omega)
        · rw [List.flatten_cons, List.length_append, Nat.add_assoc]

theorem length_le_flatten {ms : List (List Char)} (h : ∀ m ∈ ms, m ≠ []) :
    ms.length ≤ ms.flatten.length := by
  induction ms with
  | nil => exact le_rfl
  | cons m ms ih =>
    obtain ⟨hm, hms⟩ := List.forall_mem_cons.1 h
    have hpos := List.length_pos_iff.2 hm
    have hrest := ih hms
    rw [List.flatten_cons, List.length_append, List.length_cons]
    omega

theorem star (hr : Reads u r P) :
    Reads u (star r) fun m => ∃ ms : List (List Char), m = ms.flatten ∧ ∀ x ∈ ms, P x := by
  intro text i j
  rw [Regex.star, ends, times, List.flatMap_singleton, hr.mem_upTo]
  constructor
  · rintro ⟨ms, hms, hj, hall, -⟩
    exact ⟨_, hms, hj, ms, rfl, fun x hx => (hall x hx).2⟩
  · rintro ⟨m, hm, hj, ms, rfl, hall⟩
    have hflat : (ms.filter (· ≠ [])).flatten = ms.flatten := List.flatten_filter_ne_nil
    refine ⟨ms.filter (· ≠ []), by rwa [hflat], by rwa [hflat], fun x hx => ?_, ?_⟩
    · obtain ⟨hx, hne⟩ := List.mem_filter.1 hx
      exact ⟨of_decide_eq_true hne, hall x hx⟩
    · have hle : (ms.filter (· ≠ [])).length ≤ (ms.filter (· ≠ [])).flatten.length :=
        length_le_flatten fun x hx => of_decide_eq_true (List.mem_filter.1 hx).2
      have hbegins := hm.length_le
      rw [List.length_drop] at hbegins
      rw [hflat] at hle
      simp only [Option.getD_none]
      omega

theorem plus_set (p : Char → Bool) :
    Reads u (Regex.plus (set p)) fun m => m ≠ [] ∧ ∀ c ∈ m, p c = true := by
  have hends : ∀ text i, ends u text (Regex.plus (set p)) i =
      ends u text (seq (set p) (Regex.star (set p))) i := by
    intro text i
    simp [Regex.plus, Regex.star, ends, times]
  intro text i j
  rw [hends, ((Reads.set p).seq (star_set p)) text i j]
  constructor
  · rintro ⟨m, hm, hj, a, b, rfl, ⟨c, rfl, hc⟩, hb⟩
    exact ⟨_, hm, hj, by simp, List.forall_mem_cons.2 ⟨hc, hb⟩⟩
  · rintro ⟨m, hm, hj, hne, hall⟩
    obtain ⟨c, m, rfl⟩ := List.exists_cons_of_ne_nil hne
    obtain ⟨hc, hm'⟩ := List.forall_mem_cons.1 hall
    exact ⟨_, hm, hj, [c], m, rfl, ⟨c, rfl, hc⟩, hm'⟩

end Reads

/-! ## Expressions that read words -/

/-- `r\s+`. -/
def word (r : Regex) : Regex :=
  seq r (plus (set Py.isSpace))

variable (u) in
/-- A match is words with a property, each with a gap behind it. -/
def ReadsWords (r : Regex) (Q : List (List Char) → Prop) : Prop :=
  Reads u r fun m => ∃ ws, Q ws ∧ Spelled Py.isSpace ws m

namespace ReadsWords

variable {Q R : List (List Char) → Prop} {P : List Char → Prop}

theorem congr (h : ReadsWords u r Q) (hQR : ∀ ws, Q ws ↔ R ws) : ReadsWords u r R :=
  Reads.congr h fun m => by simp only [hQR]

protected theorem eps : ReadsWords u eps (· = []) := by
  refine Reads.eps.congr fun m => ?_
  constructor
  · rintro rfl
    exact ⟨[], rfl, .nil⟩
  · rintro ⟨ws, rfl, h⟩
    rcases h
    rfl

protected theorem seq (hr : ReadsWords u r Q) (hs : ReadsWords u s R) :
    ReadsWords u (seq r s) fun ws => ∃ a b, ws = a ++ b ∧ Q a ∧ R b := by
  refine (Reads.seq hr hs).congr fun m => ?_
  constructor
  · rintro ⟨x, y, rfl, ⟨a, ha, hx⟩, b, hb, hy⟩
    exact ⟨a ++ b, ⟨a, b, rfl, ha, hb⟩, hx.append hy⟩
  · rintro ⟨ws, ⟨a, b, rfl, ha, hb⟩, h⟩
    obtain ⟨x, y, rfl, hx, hy⟩ := spelled_append_iff.1 h
    exact ⟨x, y, rfl, ⟨a, ha, hx⟩, b, hb, hy⟩

protected theorem opt (hr : ReadsWords u r Q) :
    ReadsWords u (opt r) fun ws => ws = [] ∨ Q ws := by
  refine (Reads.opt hr).congr fun m => ?_
  constructor
  · rintro (rfl | ⟨ws, hws, h⟩)
    · exact ⟨[], Or.inl rfl, .nil⟩
    · exact ⟨ws, Or.inr hws, h⟩
  · rintro ⟨ws, rfl | hws, h⟩
    · rcases h
      exact Or.inl rfl
    · exact Or.inr ⟨ws, hws, h⟩

/-- One word. -/
protected theorem word (hr : Reads u r P) (hP : ∀ w, P w → IsWord Py.isSpace w) :
    ReadsWords u (word r) fun ws => ∃ w, ws = [w] ∧ P w := by
  refine (hr.seq (Reads.plus_set Py.isSpace)).congr fun m => ?_
  constructor
  · rintro ⟨w, gap, rfl, hw, hne, hgap⟩
    refine ⟨[w], ⟨w, rfl, hw⟩, ?_⟩
    have h := Spelled.cons (hP w hw) hne hgap .nil
    rwa [List.append_nil] at h
  · rintro ⟨ws, ⟨w, rfl, hw⟩, h⟩
    rcases h with _ | ⟨-, hne, hgap, hnil⟩
    rcases hnil
    exact ⟨w, _, List.append_nil _, hw, hne, hgap⟩

/-- Any number of words. -/
theorem star_word (hr : Reads u r P) (hP : ∀ w, P w → IsWord Py.isSpace w) :
    ReadsWords u (star (Regex.word r)) fun ws => ∀ w ∈ ws, P w := by
  refine (ReadsWords.word hr hP).star.congr fun m => ?_
  constructor
  · rintro ⟨ms, rfl, hms⟩
    induction ms with
    | nil => exact ⟨[], by simp, .nil⟩
    | cons x ms ih =>
      obtain ⟨⟨ws, ⟨w, rfl, hw⟩, hx⟩, hrest⟩ := List.forall_mem_cons.1 hms
      obtain ⟨ws, hws, h⟩ := ih hrest
      exact ⟨w :: ws, List.forall_mem_cons.2 ⟨hw, hws⟩, hx.append h⟩
  · rintro ⟨ws, hws, h⟩
    induction h with
    | nil => exact ⟨[], rfl, by simp⟩
    | @cons w gap ws m hw hne hgap h ih =>
      obtain ⟨hPw, hrest⟩ := List.forall_mem_cons.1 hws
      obtain ⟨ms, rfl, hms⟩ := ih hrest
      refine ⟨(w ++ gap) :: ms, rfl, List.forall_mem_cons.2 ⟨⟨[w], ⟨w, rfl, hPw⟩, ?_⟩, hms⟩⟩
      have hone := Spelled.cons hw hne hgap .nil
      rwa [List.append_nil] at hone

/-- Words behind a gap. -/
theorem led (hr : ReadsWords u r Q) : Reads u (Regex.seq (star (set Py.isSpace)) r) fun m =>
    ∃ ws, Q ws ∧ Led Py.isSpace ws m := by
  refine ((Reads.star_set Py.isSpace).seq hr).congr fun m => ?_
  constructor
  · rintro ⟨gap, m', rfl, hgap, ws, hws, h⟩
    exact ⟨ws, hws, gap, m', rfl, hgap, h⟩
  · rintro ⟨ws, hws, gap, m', rfl, hgap, h⟩
    exact ⟨gap, m', rfl, hgap, ws, hws, h⟩

end ReadsWords

variable (u) in
/-- `re.fullmatch(r, text)` matches. -/
def fullmatch (text : List Char) (r : Regex) : Bool :=
  (ends u text r 0).contains text.length

theorem fullmatch_iff {r : Regex} {P : List Char → Prop} (hr : Reads u r P) {text : List Char} :
    r.fullmatch u text = true ↔ P text := by
  rw [fullmatch, List.contains_iff_mem, hr text 0]
  constructor
  · rintro ⟨m, hm, hlen, hP⟩
    rw [Nat.zero_add] at hlen
    rwa [hm.eq_of_length hlen.symm] at hP
  · exact fun hP => ⟨text, List.prefix_rfl, (Nat.zero_add _).symm, hP⟩

end Regex

/-! ## Anchors -/

inductive Pattern where
  | plain (r : Regex)
  /-- `^`. -/
  | start
  /-- `$`. -/
  | stop
  | seq (p q : Pattern)
  | alt (p q : Pattern)

namespace Pattern

open Regex

variable (u : Unicode)

/-- Where a match from a position may end, the preferred end first. -/
def ends (text : List Char) : Pattern → ℕ → List ℕ
  | plain r, i => Regex.ends u text r i
  | start, i => if i = 0 then [i] else []
  | stop, i => if text.drop i = [] ∨ text.drop i = ['\n'] then [i] else []
  | seq p q, i => (ends text p i).flatMap (ends text q)
  | alt p q, i => ends text p i ++ ends text q i

/-- `p.search(text)` finds something. -/
def search (text : List Char) (p : Pattern) : Bool :=
  (List.range (text.length + 1)).any fun i => !(p.ends u text i).isEmpty

/-- The pattern matches a text between two others. -/
def Matches (p : Pattern) (before m after : List Char) : Prop :=
  before.length + m.length ∈ p.ends u (before ++ m ++ after) before.length

variable {u} {p q : Pattern} {b m a text : List Char}

theorem forward_ends (p : Pattern) : Forward text.length (p.ends u text) := by
  induction p with
  | plain r => exact Regex.forward_ends r
  | start =>
    intro i j hj
    rw [ends] at hj
    split_ifs at hj with hi
    · exact Forward.here i j hj
    · exact absurd hj List.not_mem_nil
  | stop =>
    intro i j hj
    rw [ends] at hj
    split_ifs at hj with hi
    · exact Forward.here i j hj
    · exact absurd hj List.not_mem_nil
  | seq p q ihp ihq => exact ihp.andThen ihq
  | alt p q ihp ihq => exact ihp.orElse ihq

theorem matches_plain {r : Regex} {P : List Char → Prop} (hr : Reads u r P) :
    Matches u (plain r) b m a ↔ P m := by
  have hdrop : (b ++ m ++ a).drop b.length = m ++ a := by
    rw [List.append_assoc, List.drop_left]
  rw [Matches, ends, hr, hdrop]
  constructor
  · rintro ⟨m', hm', hlen, hP⟩
    have hlen : m'.length = m.length := by omega
    have hbegins := List.prefix_of_prefix_length_le hm' (List.prefix_append m a) hlen.le
    rwa [hbegins.eq_of_length hlen] at hP
  · exact fun hP => ⟨m, List.prefix_append m a, rfl, hP⟩

theorem matches_start : Matches u start b m a ↔ b = [] ∧ m = [] := by
  rw [Matches, ends]
  split_ifs with hb
  · rw [List.length_eq_zero_iff] at hb
    subst hb
    simp
  · rw [List.length_eq_zero_iff] at hb
    simp [hb]

theorem matches_stop : Matches u stop b m a ↔ m = [] ∧ (a = [] ∨ a = ['\n']) := by
  have hdrop : (b ++ m ++ a).drop b.length = m ++ a := by
    rw [List.append_assoc, List.drop_left]
  rw [Matches, ends, hdrop]
  split_ifs with hend
  · rw [List.mem_singleton, Nat.add_eq_left, List.length_eq_zero_iff]
    constructor
    · rintro rfl
      exact ⟨rfl, hend⟩
    · exact And.left
  · refine iff_of_false List.not_mem_nil ?_
    rintro ⟨rfl, ha⟩
    exact hend ha

theorem matches_alt : Matches u (alt p q) b m a ↔ Matches u p b m a ∨ Matches u q b m a := by
  rw [Matches, ends, List.mem_append, Matches, Matches]

theorem matches_seq : Matches u (seq p q) b m a ↔
    ∃ x y, m = x ++ y ∧ Matches u p b x (y ++ a) ∧ Matches u q (b ++ x) y a := by
  rw [Matches, ends, List.mem_flatMap]
  constructor
  · rintro ⟨k, hk, hj⟩
    have hkb := forward_ends p _ k hk
    have hkj := forward_ends q _ _ hj
    obtain ⟨n, rfl⟩ := Nat.exists_eq_add_of_le hkb.1
    have hn : n ≤ m.length := by
      simp only [List.length_append] at hkb hkj
      omega
    have hx : (m.take n).length = n := List.length_take_of_le hn
    refine ⟨m.take n, m.drop n, (List.take_append_drop n m).symm, ?_, ?_⟩
    · rw [Matches, hx, List.append_assoc, ← List.append_assoc (m.take n), List.take_append_drop,
        ← List.append_assoc]
      exact hk
    · rw [Matches, List.append_assoc b, List.take_append_drop, List.length_append, hx,
        List.length_drop]
      have hlen : b.length + n + (m.length - n) = b.length + m.length := by omega
      rwa [hlen]
  · rintro ⟨x, y, rfl, hx, hy⟩
    refine ⟨b.length + x.length, ?_, ?_⟩
    · rw [Matches] at hx
      simpa only [List.append_assoc] using hx
    · rw [Matches] at hy
      simpa only [List.append_assoc, List.length_append, Nat.add_assoc] using hy

/-- A pattern is found where the text is cut around a match. -/
theorem search_iff : p.search u text = true ↔ ∃ b m a, text = b ++ m ++ a ∧ Matches u p b m a := by
  rw [search, List.any_eq_true]
  constructor
  · rintro ⟨i, hi, hne⟩
    rw [List.mem_range] at hi
    obtain ⟨j, hj⟩ := List.exists_mem_of_ne_nil (p.ends u text i) (by simpa using hne)
    have hij := forward_ends p i j hj
    obtain ⟨n, rfl⟩ := Nat.exists_eq_add_of_le hij.1
    have hcut : text = text.take i ++ (text.drop i).take n ++ (text.drop i).drop n := by
      rw [List.append_assoc, List.take_append_drop, List.take_append_drop]
    have hb : (text.take i).length = i := List.length_take_of_le (by omega)
    have hm : ((text.drop i).take n).length = n := by
      rw [List.length_take, List.length_drop]
      omega
    refine ⟨_, _, _, hcut, ?_⟩
    rw [Matches, ← hcut, hb, hm]
    exact hj
  · rintro ⟨b, m, a, rfl, h⟩
    refine ⟨b.length, List.mem_range.2 (by simp only [List.length_append]; omega), ?_⟩
    rw [Matches] at h
    simpa using List.ne_nil_of_mem h

variable (u) in
/-- `p.match(text)` finds something. -/
def matchStart (text : List Char) (p : Pattern) : Bool :=
  !(p.ends u text 0).isEmpty

theorem matchStart_iff : p.matchStart u text = true ↔ ∃ m a, text = m ++ a ∧ Matches u p [] m a := by
  have hne : p.matchStart u text = true ↔ ∃ j, j ∈ p.ends u text 0 := by
    rw [matchStart, Bool.not_eq_true', List.isEmpty_eq_false_iff_exists_mem]
  rw [hne]
  constructor
  · rintro ⟨j, hj⟩
    have hle := (forward_ends p 0 j hj).2
    rw [Nat.zero_max] at hle
    refine ⟨text.take j, text.drop j, (List.take_append_drop j text).symm, ?_⟩
    rw [Matches, List.nil_append, List.take_append_drop, List.length_take_of_le hle]
    simpa using hj
  · rintro ⟨m, a, rfl, h⟩
    rw [Matches, List.nil_append, List.length_nil, Nat.zero_add] at h
    exact ⟨_, h⟩

/-- `^r$`. -/
def anchored (r : Regex) : Pattern :=
  .seq .start (.seq (.plain r) .stop)

/-- A text is matched whole, or up to a line break at its end. -/
theorem matchStart_anchored_iff {r : Regex} {P : List Char → Prop} (hr : Reads u r P) :
    (anchored r).matchStart u text = true ↔ P text ∨ ∃ m, P m ∧ text = m ++ ['\n'] := by
  rw [matchStart_iff]
  constructor
  · rintro ⟨m, a, rfl, h⟩
    obtain ⟨x, y, rfl, hx, hy⟩ := matches_seq.1 h
    obtain ⟨-, rfl⟩ := matches_start.1 hx
    obtain ⟨y, z, rfl, hy, hz⟩ := matches_seq.1 hy
    obtain ⟨rfl, ha⟩ := matches_stop.1 hz
    have hP := (matches_plain hr).1 hy
    rw [List.nil_append, List.append_nil]
    rcases ha with rfl | rfl
    · exact .inl (by rwa [List.append_nil])
    · exact .inr ⟨y, hP, rfl⟩
  · have hmatches : ∀ {m a}, P m → (a = [] ∨ a = ['\n']) → Matches u (anchored r) [] m a := by
      intro m a hP ha
      exact matches_seq.2 ⟨[], m, rfl, matches_start.2 ⟨rfl, rfl⟩, matches_seq.2
        ⟨m, [], (List.append_nil m).symm, (matches_plain hr).2 hP, matches_stop.2 ⟨rfl, ha⟩⟩⟩
    rintro (hP | ⟨m, hP, rfl⟩)
    · exact ⟨text, [], (List.append_nil text).symm, hmatches hP (.inl rfl)⟩
    · exact ⟨m, ['\n'], rfl, hmatches hP (.inr rfl)⟩

end Pattern
