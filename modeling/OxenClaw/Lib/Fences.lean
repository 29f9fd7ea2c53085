import OxenClaw.Lib.Regex
import OxenClaw.Lib.Splice

/-!
# Fences taken out of a text in one pass

A fence starts with an opening and ends at the first closing element. `strip` takes the fences of
a text out, from left to right. What is left of the text before a fence and behind it then stands
side by side, and may be a fence itself (`contains_strip_iff`). A second pass takes out more
exactly then (`strip_eq_self_iff`).
-/

/-- What opens a fence, and what closes it. -/
structure Fence (α : Type*) where
  first : α
  close : α
  /-- The text starts with an opening. -/
  Opens : List α → Prop
  cons_of_opens : ∀ l, Opens l → ∃ m, l = first :: m
  append : ∀ l m, Opens l → Opens (l ++ m)
  /-- Behind its start, an opening is complete where the first element comes again. -/
  of_append_cons : ∀ l m, l ≠ [] → Opens (l ++ first :: m) → Opens (l ++ [first])
  /-- It is complete where the closing element comes, too. -/
  of_append_close : ∀ l m, Opens (l ++ close :: m) → Opens (l ++ [close])

namespace Fence

variable {α : Type*} (f : Fence α)

/-- The text starts with a fence. -/
def Starts (l : List α) : Prop :=
  f.Opens l ∧ f.close ∈ l

/-- Somewhere in the text a fence starts. -/
def Contains (l : List α) : Prop :=
  ∃ s, s <:+ l ∧ f.Starts s

open Classical in
/-- What comes behind the fence that the text starts with. -/
noncomputable def behind (l : List α) : List α :=
  (l.dropWhile (· ≠ f.close)).tail

theorem length_behind_cons (a : α) (l : List α) : (f.behind (a :: l)).length ≤ l.length := by
  classical
  have h := (List.dropWhile_suffix (l := a :: l) (decide <| · ≠ f.close)).length_le
  rw [behind, List.length_tail]
  simp only [List.length_cons] at h
  omega

open Classical in
/-- The fences are taken out, from left to right. -/
noncomputable def strip : List α → List α
  | [] => []
  | a :: l => if f.Starts (a :: l) then strip (f.behind (a :: l)) else a :: strip l
termination_by l => l.length
decreasing_by
  · exact Nat.lt_succ_of_le (f.length_behind_cons a l)
  · exact Nat.lt_succ_self _

/-- The pass over `l` comes to where `r` is left to read. -/
inductive Reaches : List α → List α → Prop
  | refl (l : List α) : Reaches l l
  | pass {l r : List α} (h : f.Starts l) (hr : Reaches (f.behind l) r) : Reaches l r
  | keep {a : α} {l r : List α} (h : ¬ f.Starts (a :: l)) (hr : Reaches l r) : Reaches (a :: l) r

/-- With fences passed over, `l` makes a fence of what is read so far. -/
inductive Finishes : List α → List α → Prop
  | done {read l : List α} (h : f.Starts read) : Finishes read l
  | pass {read l : List α} (h : f.Starts l) (hl : Finishes read (f.behind l)) : Finishes read l
  | keep {read : List α} {a : α} {l : List α} (h : ¬ f.Starts (a :: l))
    (hl : Finishes (read ++ [a]) l) : Finishes read (a :: l)

/-- The start of an opening that is not complete, also with the first element of a fence behind
it. -/
structure Unfinished (read : List α) : Prop where
  ne_nil : read ≠ []
  goes_on : ∃ m, f.Opens (read ++ m)
  open_yet : ¬ f.Opens (read ++ [f.first])

/-- A fence stands in the opening of another one. -/
def Nested (l : List α) : Prop :=
  ∃ read rest, f.Reaches l (read ++ rest) ∧ f.Unfinished read ∧ f.Starts rest ∧
    f.Finishes read (f.behind rest)

variable {f}

theorem Starts.append {l : List α} (h : f.Starts l) (m : List α) : f.Starts (l ++ m) :=
  ⟨f.append l m h.1, List.mem_append_left m h.2⟩

theorem not_starts_nil : ¬ f.Starts [] :=
  fun h => List.not_mem_nil h.2

@[simp] theorem strip_nil : f.strip [] = [] := by
  rw [strip]

theorem strip_of_starts {l : List α} (h : f.Starts l) : f.strip l = f.strip (f.behind l) := by
  rcases l with _ | ⟨a, l⟩
  · exact absurd h not_starts_nil
  · rw [strip, if_pos h]

theorem strip_cons {a : α} {l : List α} (h : ¬ f.Starts (a :: l)) :
    f.strip (a :: l) = a :: f.strip l := by
  rw [strip, if_neg h]

theorem length_strip_le (l : List α) : (f.strip l).length ≤ l.length := by
  induction l using strip.induct f with
  | case1 => rw [strip_nil]
  | case2 a l h ih =>
    rw [strip_of_starts h]
    exact ih.trans ((f.length_behind_cons a l).trans (Nat.le_succ _))
  | case3 a l h ih =>
    rw [strip_cons h]
    exact Nat.succ_le_succ ih

/-- A second pass changes nothing when the text contains no fence, and only then. -/
theorem strip_eq_self_iff {l : List α} : f.strip l = l ↔ ¬ f.Contains l := by
  induction l using strip.induct f with
  | case1 =>
    refine ⟨fun _ => ?_, fun _ => strip_nil⟩
    rintro ⟨s, hs, h⟩
    exact not_starts_nil (List.suffix_nil.1 hs ▸ h)
  | case2 a l h ih =>
    have hlength := (f.length_strip_le (f.behind (a :: l))).trans (f.length_behind_cons a l)
    constructor
    · intro heq
      have hcons := congrArg List.length heq
      rw [strip_of_starts h, List.length_cons] at hcons
      omega
    · exact fun hnone => absurd ⟨_, List.suffix_refl _, h⟩ hnone
  | case3 a l h ih =>
    rw [strip_cons h, List.cons.injEq, and_iff_right rfl, ih]
    refine not_congr ⟨fun ⟨s, hs, hstarts⟩ => ⟨s, hs.trans (List.suffix_cons a l), hstarts⟩, ?_⟩
    rintro ⟨s, hs, hstarts⟩
    rcases List.suffix_cons_iff.1 hs with rfl | hs
    · exact absurd hstarts h
    · exact ⟨s, hs, hstarts⟩

theorem strip_append {read rest : List α}
    (h : ∀ s, s ≠ [] → s <:+ read → ¬ f.Starts (s ++ rest)) :
    f.strip (read ++ rest) = read ++ f.strip rest := by
  induction read with
  | nil => rfl
  | cons a read ih =>
    have ha := h (a :: read) (List.cons_ne_nil a read) (List.suffix_refl _)
    rw [List.cons_append] at ha ⊢
    rw [strip_cons ha, ih fun s hne hs => h s hne (hs.trans (List.suffix_cons a read)),
      List.cons_append]

/-- In an unfinished opening no fence starts. -/
theorem Unfinished.not_starts {read rest s : List α} (h : f.Unfinished read)
    (hrest : f.Starts rest) (hne : s ≠ []) (hs : s <:+ read) : ¬ f.Starts (s ++ rest) := by
  intro hstarts
  obtain ⟨before, rfl⟩ := hs
  obtain ⟨m, hm⟩ := f.cons_of_opens _ hstarts.1
  rcases eq_or_ne before [] with rfl | hbefore
  · obtain ⟨rest', rfl⟩ := f.cons_of_opens rest hrest.1
    exact h.open_yet (f.of_append_cons _ _ h.ne_nil hstarts.1)
  · obtain ⟨a, s, rfl⟩ := List.exists_cons_of_ne_nil hne
    have ha : a = f.first := (List.cons.inj hm).1
    obtain ⟨n, hn⟩ := h.goes_on
    rw [ha, List.append_assoc, List.cons_append] at hn
    have hopens := f.append _ (s ++ [f.first]) (f.of_append_cons before _ hbefore hn)
    refine h.open_yet ?_
    simpa only [ha, List.append_assoc, List.cons_append, List.nil_append] using hopens

theorem Reaches.strip {l r : List α} (h : f.Reaches l r) : f.strip r <:+ f.strip l := by
  induction h with
  | refl l => exact List.suffix_refl _
  | pass h _ ih => exact strip_of_starts h ▸ ih
  | keep h _ ih => exact strip_cons h ▸ ih.trans (List.suffix_cons _ _)

/-- What is read so far is finished by what is left of the text. -/
theorem finishes_iff {read l : List α} : f.Finishes read l ↔ f.Starts (read ++ f.strip l) := by
  constructor
  · intro h
    induction h with
    | done h => exact h.append _
    | pass h _ ih => rwa [strip_of_starts h]
    | keep h _ ih => rwa [strip_cons h, List.append_cons]
  · intro h
    induction l using strip.induct f generalizing read with
    | case1 => exact .done (by simpa using h)
    | case2 a l hl ih => exact .pass hl (ih (strip_of_starts hl ▸ h))
    | case3 a l hl ih =>
      rw [strip_cons hl, List.append_cons] at h
      exact .keep hl (ih h)

/-- Where taking fences out completes a fence, the first one taken out stands in its opening. -/
theorem exists_unfinished {read l : List α} (hread : read ≠ []) (h : f.Starts (read ++ f.strip l))
    (hnot : ¬ f.Starts (read ++ l)) : ∃ more rest, l = more ++ rest ∧ f.Unfinished (read ++ more) ∧
      f.Starts rest ∧ f.Finishes (read ++ more) (f.behind rest) := by
  induction l using strip.induct f generalizing read with
  | case1 => exact absurd (strip_nil (f := f) ▸ h) hnot
  | case2 a l hl ih =>
    refine ⟨[], a :: l, rfl, ?_, hl, finishes_iff.2 ?_⟩
    · rw [List.append_nil]
      refine ⟨hread, ⟨_, h.1⟩, fun hopens => hnot ⟨?_, List.mem_append_right read hl.2⟩⟩
      obtain ⟨m, hm⟩ := f.cons_of_opens _ hl.1
      rw [hm, List.append_cons]
      exact f.append _ m hopens
    · rwa [List.append_nil, ← strip_of_starts hl]
  | case3 a l hl ih =>
    rw [strip_cons hl, List.append_cons] at h
    rw [List.append_cons] at hnot
    obtain ⟨more, rest, rfl, hmore⟩ := ih (List.append_ne_nil_of_right_ne_nil read (by simp)) h hnot
    refine ⟨a :: more, rest, rfl, ?_⟩
    rwa [List.append_cons]

/-- One pass leaves a fence where a fence stands in the opening of another one, and only there. -/
theorem contains_strip_iff {l : List α} : f.Contains (f.strip l) ↔ f.Nested l := by
  constructor
  · intro h
    induction l using strip.induct f with
    | case1 =>
      obtain ⟨s, hs, hstarts⟩ := h
      rw [strip_nil, List.suffix_nil] at hs
      exact absurd (hs ▸ hstarts) not_starts_nil
    | case2 a l hl ih =>
      obtain ⟨read, rest, hreach, hnest⟩ := ih (strip_of_starts hl ▸ h)
      exact ⟨read, rest, .pass hl hreach, hnest⟩
    | case3 a l hl ih =>
      obtain ⟨s, hs, hstarts⟩ := h
      rw [strip_cons hl] at hs
      rcases List.suffix_cons_iff.1 hs with rfl | hs
      · have hstarts : f.Starts ([a] ++ f.strip l) := hstarts
        obtain ⟨more, rest, rfl, hnest⟩ := exists_unfinished (List.cons_ne_nil a []) hstarts hl
        exact ⟨[a] ++ more, rest, .refl _, hnest⟩
      · obtain ⟨read, rest, hreach, hnest⟩ := ih ⟨s, hs, hstarts⟩
        exact ⟨read, rest, .keep hl hreach, hnest⟩
  · rintro ⟨read, rest, hreach, hread, hrest, hfinish⟩
    have hstrip : f.strip (read ++ rest) = read ++ f.strip (f.behind rest) := by
      rw [strip_append fun s hne hs => hread.not_starts hrest hne hs, strip_of_starts hrest]
    exact ⟨_, hreach.strip, hstrip ▸ finishes_iff.1 hfinish⟩

/-! ## Patterns that match fences -/

variable (f) in
/-- A fence from its start to its end. -/
def Whole (m : List α) : Prop :=
  f.Opens m ∧ ∃ body, m = body ++ [f.close] ∧ f.close ∉ body

theorem Whole.starts {m : List α} (h : f.Whole m) : f.Starts m := by
  obtain ⟨hopens, body, rfl, -⟩ := h
  exact ⟨hopens, List.mem_append_right body (List.mem_singleton_self _)⟩

theorem behind_append {m l : List α} (h : f.Whole m) : f.behind (m ++ l) = l := by
  classical
  obtain ⟨-, body, rfl, hbody⟩ := h
  have hall : ∀ a ∈ body, decide (a ≠ f.close) = true := fun a ha =>
    decide_eq_true fun heq => hbody (heq ▸ ha)
  rw [behind, List.append_assoc, List.dropWhile_append_of_pos hall]
  simp

/-- A text that starts with a fence is the fence and what comes behind it. -/
theorem Starts.exists_whole {l : List α} (h : f.Starts l) :
    ∃ m, f.Whole m ∧ l = m ++ f.behind l := by
  obtain ⟨body, rest, rfl, hbody⟩ := List.eq_append_cons_of_mem h.2
  have hwhole : f.Whole (body ++ [f.close]) := ⟨f.of_append_close body rest h.1, body, rfl, hbody⟩
  refine ⟨_, hwhole, ?_⟩
  rw [List.append_cons, behind_append hwhole]

variable {f : Fence Char} {r : Regex} {u : Unicode} {text : List Char}

theorem ends_of_reads (h : Regex.Reads u r f.Whole) {i j : ℕ} (hj : j ∈ r.ends u text i) :
    f.Starts (text.drop i) ∧ i < j ∧ text.drop j = f.behind (text.drop i) := by
  obtain ⟨m, ⟨l, hl⟩, rfl, hm⟩ := (h text i j).1 hj
  have hpos : 0 < m.length := List.length_pos_of_mem hm.starts.2
  rw [← List.drop_drop, ← hl, behind_append hm, List.drop_left]
  exact ⟨hm.starts.append l, by omega, rfl⟩

theorem ends_ne_nil_iff (h : Regex.Reads u r f.Whole) {i : ℕ} :
    r.ends u text i ≠ [] ↔ f.Starts (text.drop i) := by
  constructor
  · intro hne
    obtain ⟨j, hj⟩ := List.exists_mem_of_ne_nil _ hne
    exact (ends_of_reads h hj).1
  · intro hstarts
    obtain ⟨m, hm, hl⟩ := hstarts.exists_whole
    exact List.ne_nil_of_mem ((h text i _).2 ⟨m, ⟨_, hl.symm⟩, rfl, hm⟩)

/-- A pattern that matches fences finds one in a text that contains one. -/
theorem contains_iff (h : Regex.Reads u r f.Whole) :
    f.Contains text ↔ ∃ i, r.ends u text i ≠ [] := by
  simp only [ends_ne_nil_iff h]
  constructor
  · rintro ⟨s, hs, hstarts⟩
    exact ⟨_, List.suffix_iff_eq_drop.1 hs ▸ hstarts⟩
  · rintro ⟨i, hstarts⟩
    exact ⟨_, List.drop_suffix i text, hstarts⟩

theorem replaceRanges_findFrom (h : Regex.Reads u r f.Whole) {n i : ℕ}
    (hn : text.length ≤ i + n) :
    Splice.replaceRanges [] text i (r.findFrom u text n i) = f.strip (text.drop i) := by
  induction n generalizing i with
  | zero =>
    have hnil : text.drop i = [] := List.drop_eq_nil_of_le hn
    rw [Regex.findFrom, Splice.replaceRanges, hnil, strip_nil]
  | succ n ih =>
    rw [Regex.findFrom]
    split
    · rename_i hnone
      rw [List.head?_eq_none_iff] at hnone
      have hnot : ¬ f.Starts (text.drop i) := fun hstarts => (ends_ne_nil_iff h).2 hstarts hnone
      rcases lt_or_ge i text.length with hi | hi
      · rw [Splice.replaceRanges_of_lt hi fun m hm => Regex.le_of_mem_findFrom hm, ih (by omega)]
        rw [List.drop_eq_getElem_cons hi] at hnot ⊢
        rw [strip_cons hnot]
      · have hnil : r.findFrom u text n (i + 1) = [] := by
          refine List.eq_nil_iff_forall_not_mem.2 fun m hm => ?_
          have hle := Regex.le_of_mem_findFrom hm
          have hlt := Regex.mem_findFrom hm
          omega
        rw [hnil, Splice.replaceRanges, List.drop_eq_nil_of_le hi, strip_nil]
    · rename_i j hj
      obtain ⟨hstarts, hlt, hbehind⟩ := ends_of_reads h (List.mem_of_mem_head? hj)
      rw [if_pos hlt, Splice.replaceRanges, List.append_nil, ih (by omega), hbehind,
        List.drop_take, Nat.sub_self, List.take_zero, List.nil_append, strip_of_starts hstarts]

/-- What is left of a text around the matches of a pattern that matches fences. -/
theorem replaceRanges_finditer (h : Regex.Reads u r f.Whole) (text : List Char) :
    Splice.replaceRanges [] text 0 (r.finditer u text) = f.strip text :=
  replaceRanges_findFrom h (Nat.zero_add _).ge

end Fence
