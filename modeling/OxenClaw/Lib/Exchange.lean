import Mathlib.Data.List.Basic

/-!
# Requests and replies in a log

The entries of a log make calls and carry replies, and some entries close the window in
which earlier calls can be answered. `AnsweredWith` : every call is answered inside its
window, where calls that no entry closes off may instead be answered by the ids in
`late`. `Refers` : every reply is to a call made before.

Both pass through the two repairs a log can get : leaving out or changing entries one by
one (`answeredWith_filterMap`, `refers_filterMap`) and a closing entry that only replies
(`answered_append_replies`, `refers_append_replies`).
-/

namespace Exchange

variable {α β ι : Type*}

/-- The ids replied to before the next entry that closes the window. -/
def window (replies : α → List ι) (closes : α → Bool) (l : List α) : List ι :=
  (l.takeWhile (!closes ·)).flatMap replies

/-- Every call is answered in its window, or is `late` and nothing closes after it. -/
def AnsweredWith (calls replies : α → List ι) (closes : α → Bool) (late : ι → Prop) :
    List α → Prop
  | [] => True
  | a :: l =>
    (∀ i ∈ calls a, i ∈ window replies closes l ∨ late i ∧ l.all (!closes ·)) ∧
      AnsweredWith calls replies closes late l

/-- Every call is answered in its window. -/
abbrev Answered (calls replies : α → List ι) (closes : α → Bool) (l : List α) : Prop :=
  AnsweredWith calls replies closes (fun _ => False) l

/-- Every reply is to a call made before, those of `seen` included. -/
def Refers (calls replies : α → List ι) (seen : List ι) : List α → Prop
  | [] => True
  | a :: l => (∀ i ∈ replies a, i ∈ seen) ∧ Refers calls replies (calls a ++ seen) l

/-- Leaving out entries, or replacing each by another. -/
def through (f : α → Option β) (g : β → List ι) (a : α) : List ι :=
  ((f a).map g).getD []

variable {calls replies : α → List ι} {closes : α → Bool} {late late' : ι → Prop}

instance AnsweredWith.decidable [DecidableEq ι] [DecidablePred late] :
    (l : List α) → Decidable (AnsweredWith calls replies closes late l)
  | [] => .isTrue trivial
  | _ :: l =>
    have := AnsweredWith.decidable l
    inferInstanceAs (Decidable (_ ∧ _))

instance Refers.decidable [DecidableEq ι] :
    (seen : List ι) → (l : List α) → Decidable (Refers calls replies seen l)
  | _, [] => .isTrue trivial
  | seen, a :: l =>
    have := Refers.decidable (calls a ++ seen) l
    inferInstanceAs (Decidable (_ ∧ _))

/-! ## Replies at the end -/

theorem window_append_of_closes {l m : List α} (h : ¬l.all (!closes ·)) :
    window replies closes (l ++ m) = window replies closes l := by
  induction l with
  | nil => simp at h
  | cons a l ih =>
    cases ha : closes a with
    | true => simp [window, ha]
    | false => simpa [window, ha] using ih (by simpa [ha] using h)

theorem window_append_of_all {l m : List α} (h : l.all (!closes ·)) :
    window replies closes (l ++ m) = window replies closes l ++ window replies closes m := by
  induction l with
  | nil => simp [window]
  | cons a l ih =>
    simp only [List.all_cons, Bool.and_eq_true, Bool.not_eq_true'] at h
    simpa [window, h.1] using ih h.2

theorem AnsweredWith.congr {l : List α} (h : ∀ a ∈ l, ∀ i ∈ calls a, (late i ↔ late' i)) :
    AnsweredWith calls replies closes late l ↔ AnsweredWith calls replies closes late' l := by
  induction l with
  | nil => rfl
  | cons a l ih =>
    rw [AnsweredWith, AnsweredWith, ih fun b hb => h b (List.mem_cons_of_mem _ hb)]
    refine and_congr (forall₂_congr fun i hi => ?_) Iff.rfl
    rw [h a List.mem_cons_self i hi]

/-- An entry at the end that only replies answers the calls nothing closes off. -/
theorem answered_append_replies {z : α} (hcalls : calls z = []) (hcloses : closes z = false)
    (l : List α) :
    Answered calls replies closes (l ++ [z]) ↔
      AnsweredWith calls replies closes (· ∈ replies z) l := by
  induction l with
  | nil => simp [AnsweredWith, hcalls]
  | cons a l ih =>
    unfold Answered
    rw [List.cons_append, AnsweredWith, AnsweredWith]
    refine and_congr (forall₂_congr fun i _ => ?_) ih
    by_cases h : l.all (!closes ·)
    · rw [window_append_of_all h]
      simp [window, hcloses, h]
    · rw [window_append_of_closes h]
      simp [h]

theorem refers_append_replies {z : α} (l : List α) :
    ∀ seen : List ι, Refers calls replies seen (l ++ [z]) ↔
      Refers calls replies seen l ∧ ∀ i ∈ replies z, i ∈ l.flatMap calls ∨ i ∈ seen := by
  induction l with
  | nil => simp [Refers]
  | cons a l ih =>
    intro seen
    rw [List.cons_append, Refers, Refers, ih, and_assoc]
    refine and_congr Iff.rfl (and_congr Iff.rfl (forall₂_congr fun i _ => ?_))
    simp only [List.mem_append, List.flatMap_cons]
    tauto

/-- What was seen counts by its members. -/
theorem refers_congr (l : List α) : ∀ {seen seen' : List ι}, (∀ i, i ∈ seen ↔ i ∈ seen') →
    (Refers calls replies seen l ↔ Refers calls replies seen' l) := by
  induction l with
  | nil => exact fun _ => Iff.rfl
  | cons a l ih =>
    intro seen seen' h
    refine and_congr (forall₂_congr fun i _ => h i) (ih fun i => ?_)
    rw [List.mem_append, List.mem_append, h i]

theorem refers_of_forall_mem (l : List α) : ∀ {seen : List ι},
    (∀ a ∈ l, ∀ i ∈ replies a, i ∈ seen) → Refers calls replies seen l := by
  induction l with
  | nil => exact fun _ => trivial
  | cons a l ih =>
    intro seen h
    exact ⟨h a List.mem_cons_self, ih fun b hb i hi =>
      List.mem_append_right _ (h b (List.mem_cons_of_mem _ hb) i hi)⟩

/-- Replies that are to none of the calls of `extra` do without them. -/
theorem refers_of_extra {replies' : α → List ι} {extra : List ι} (l : List α)
    (h : ∀ a ∈ l, ∀ i ∈ replies' a, i ∈ replies a ∧ i ∉ extra) : ∀ {seen : List ι},
    Refers calls replies (extra ++ seen) l → Refers calls replies' seen l := by
  induction l with
  | nil => exact fun _ => trivial
  | cons a l ih =>
    intro seen ⟨ha, hl⟩
    refine ⟨fun i hi => ?_, ih (fun b hb => h b (List.mem_cons_of_mem _ hb)) ?_⟩
    · obtain ⟨hreply, hextra⟩ := h a List.mem_cons_self i hi
      exact (List.mem_append.1 (ha i hreply)).resolve_left hextra
    · refine (refers_congr l fun i => ?_).1 hl
      simp only [List.mem_append]
      tauto

/-- Two stretches, the calls of the first seen by the second. -/
theorem refers_append (l l' : List α) : ∀ seen : List ι, Refers calls replies seen (l ++ l') ↔
    Refers calls replies seen l ∧ Refers calls replies (l.flatMap calls ++ seen) l' := by
  induction l with
  | nil => exact fun seen => (and_iff_right trivial).symm
  | cons a l ih =>
    intro seen
    rw [List.cons_append, Refers, Refers, ih, and_assoc]
    refine and_congr Iff.rfl (and_congr Iff.rfl (refers_congr l' fun i => ?_))
    simp only [List.mem_append, List.flatMap_cons]
    tauto

/-! ## Entries left out or changed -/

variable {f : β → Option α}

theorem window_filterMap (l : List β) :
    window replies closes (l.filterMap f) =
      window (through f replies) (fun b => (f b).any closes) l := by
  induction l with
  | nil => rfl
  | cons b l ih =>
    cases hb : f b with
    | none => simpa [window, through, hb] using ih
    | some a =>
      cases ha : closes a with
      | true => simp [window, hb, ha]
      | false => simpa [window, through, hb, ha] using ih

theorem all_filterMap (p : α → Bool) (l : List β) :
    (l.filterMap f).all (!p ·) = l.all fun b => !(f b).any p := by
  induction l with
  | nil => rfl
  | cons b l ih => cases hb : f b <;> simp [hb, ih]

theorem answeredWith_filterMap (l : List β) :
    AnsweredWith calls replies closes late (l.filterMap f) ↔
      AnsweredWith (through f calls) (through f replies) (fun b => (f b).any closes) late l := by
  induction l with
  | nil => rfl
  | cons b l ih =>
    cases hb : f b with
    | none =>
      rw [List.filterMap_cons_none hb, ih]
      simp [AnsweredWith, through, hb]
    | some a =>
      rw [List.filterMap_cons_some hb, AnsweredWith, AnsweredWith, ih, window_filterMap,
        all_filterMap]
      simp [through, hb]

theorem refers_filterMap (l : List β) :
    ∀ seen : List ι, Refers calls replies seen (l.filterMap f) ↔
      Refers (through f calls) (through f replies) seen l := by
  induction l with
  | nil => intro seen; rfl
  | cons b l ih =>
    intro seen
    cases hb : f b with
    | none =>
      rw [List.filterMap_cons_none hb, ih]
      simp [Refers, through, hb]
    | some a =>
      rw [List.filterMap_cons_some hb, Refers, Refers, ih]
      simp [through, hb]

end Exchange
