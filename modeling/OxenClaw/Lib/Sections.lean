import Mathlib.Data.List.Induction
import Mathlib.Data.List.TakeWhile
import Mathlib.Tactic.SplitIfs

/-!
# Lists under headings

Some items of a list are headings. A section is a heading with the items after it, up to the next
one (`sections`). A list is what stands before its first heading and then its sections, so a
heading behind a list starts new sections and changes none (`sections_append`), and a section
taken out leaves the others (`exists_split`).

A machine that goes item by item, opens something at each heading, lets it read what follows and
closes it at the next one (`Machine`), puts out what its sections give (`Machine.finish_run`).
-/

namespace Sections

variable {α : Type*} (p : α → Bool)

/-- What stands before the first heading. -/
def preamble (l : List α) : List α :=
  l.takeWhile fun x => !p x

/-- A heading, where it stands, and what stands below it. -/
@[ext]
structure Section (α : Type*) where
  start : ℕ
  head : α
  content : List α

/-- The sections of a list whose first item has the given position. -/
def sections : ℕ → List α → List (Section α)
  | _, [] => []
  | n, x :: xs =>
    if p x then ⟨n, x, preamble p xs⟩ :: sections (n + 1) xs else sections (n + 1) xs

/-- Nothing, or a list that starts with a heading. -/
def Headed (l : List α) : Prop :=
  ∀ x ∈ l.head?, p x = true

variable {p} {l l' : List α} {n : ℕ}

theorem preamble_eq_nil (h : Headed p l) : preamble p l = [] := by
  cases l with
  | nil => rfl
  | cons x xs => simp [preamble, h x rfl]

theorem preamble_append (l : List α) (h : Headed p l') :
    preamble p (l ++ l') = preamble p l := by
  have hl' : l'.takeWhile (fun x => !p x) = [] := preamble_eq_nil h
  rw [preamble, List.takeWhile_append, hl', List.append_nil]
  split_ifs with hlen
  · exact ((List.takeWhile_prefix _).eq_of_length hlen).symm
  · rfl

theorem preamble_eq_self (hl : ∀ x ∈ l, p x = false) : preamble p l = l :=
  List.takeWhile_eq_self_iff.2 fun x hx => by simp [hl x hx]

theorem of_mem_preamble {x : α} (h : x ∈ preamble p l) : p x = false := by
  simpa using List.mem_takeWhile_imp h

theorem headed_dropWhile (l : List α) : Headed p (l.dropWhile fun x => !p x) := by
  intro x hx
  have hhead := List.head?_dropWhile_not (fun x => !p x) l
  rw [Option.mem_def.1 hx] at hhead
  simpa using hhead

theorem sections_eq_nil (hl : ∀ x ∈ l, p x = false) : sections p n l = [] := by
  induction l generalizing n with
  | nil => rfl
  | cons x xs ih =>
    obtain ⟨hx, hxs⟩ := List.forall_mem_cons.1 hl
    rw [sections, if_neg (by simp [hx]), ih hxs]

/-- A heading behind a list starts new sections, and changes none. -/
theorem sections_append (n : ℕ) (l : List α) (h : Headed p l') :
    sections p n (l ++ l') = sections p n l ++ sections p (n + l.length) l' := by
  induction l generalizing n with
  | nil => rfl
  | cons x xs ih =>
    rw [List.cons_append, sections, sections, preamble_append xs h, ih, List.length_cons,
      Nat.add_assoc, Nat.add_comm 1]
    split_ifs
    · rfl
    · rfl

/-- What stands before the first heading only moves the sections. -/
theorem sections_append_of_free {l : List α} (hl : ∀ x ∈ l, p x = false) (n : ℕ)
    (l' : List α) : sections p n (l ++ l') = sections p (n + l.length) l' := by
  induction l generalizing n with
  | nil => rfl
  | cons x xs ih =>
    obtain ⟨hx, hxs⟩ := List.forall_mem_cons.1 hl
    rw [List.cons_append, sections, if_neg (by simp [hx]), ih hxs, List.length_cons,
      Nat.add_assoc, Nat.add_comm 1]

theorem preamble_append_of_free {l : List α} (hl : ∀ x ∈ l, p x = false) (l' : List α) :
    preamble p (l ++ l') = l ++ preamble p l' :=
  List.takeWhile_append_of_pos fun x hx => by simp [hl x hx]

/-- Where a section stands in a list, with what is before it and what is behind it. -/
theorem exists_split {s : Section α} {before behind : List (Section α)}
    (h : sections p n l = before ++ s :: behind) : ∃ a b,
      l = a ++ s.head :: s.content ++ b ∧ s.start = n + a.length ∧ p s.head = true ∧
        (∀ x ∈ s.content, p x = false) ∧ Headed p b ∧ sections p n a = before ∧
          sections p (s.start + 1 + s.content.length) b = behind := by
  induction l generalizing n before with
  | nil => simp [sections] at h
  | cons x xs ih =>
    rw [sections] at h
    split_ifs at h with hx
    · cases before with
      | nil =>
        obtain ⟨rfl, hrest⟩ := List.cons.inj h
        refine ⟨[], xs.dropWhile fun x => !p x, ?_, rfl, hx, fun _ => of_mem_preamble,
          headed_dropWhile xs, rfl, ?_⟩
        · simp [preamble, List.takeWhile_append_dropWhile]
        · have hxs : preamble p xs ++ xs.dropWhile (fun x => !p x) = xs :=
            List.takeWhile_append_dropWhile
          rw [← hrest, ← hxs, sections_append _ _ (headed_dropWhile xs),
            sections_eq_nil fun _ => of_mem_preamble, List.nil_append, hxs]
      | cons t before =>
        obtain ⟨rfl, hrest⟩ := List.cons.inj h
        obtain ⟨a, b, rfl, hstart, hs, hcontent, hb, hbefore, hbehind⟩ := ih hrest
        refine ⟨x :: a, b, by simp, by rw [hstart, List.length_cons]; omega, hs, hcontent, hb,
          ?_, hbehind⟩
        have hhead : Headed p (s.head :: s.content ++ b) := by
          intro y hy
          obtain rfl : s.head = y := by simpa using hy
          exact hs
        rw [sections, if_pos hx, hbefore, List.append_assoc, preamble_append a hhead]
    · obtain ⟨a, b, rfl, hstart, hs, hcontent, hb, hbefore, hbehind⟩ := ih h
      refine ⟨x :: a, b, by simp, by rw [hstart, List.length_cons]; omega, hs, hcontent, hb,
        ?_, hbehind⟩
      rw [sections, if_neg hx, hbefore]

/-- What stands below a heading is what stands there in the list. -/
theorem exists_append_of_mem {s : Section α} (h : s ∈ sections p n l) : ∃ a b,
    l = a ++ s.head :: s.content ++ b ∧ p s.head = true ∧ ∀ x ∈ s.content, p x = false := by
  obtain ⟨before, behind, hsplit⟩ := List.append_of_mem h
  obtain ⟨a, b, hl, -, hhead, hcontent, -⟩ := exists_split hsplit
  exact ⟨a, b, hl, hhead, hcontent⟩

/-! ## Machines -/

/-- What a machine does at a heading, at another item, and at the end of a section. -/
structure Machine (α ω ε : Type*) where
  start : ℕ → α → ω
  read : ω → α × ℕ → ω
  close : ω → Option ε

namespace Machine

variable {ω ε : Type*} (M : Machine α ω ε) (p)

/-- What has been put out, and what is open. -/
abbrev State (ω ε : Type*) := List ε × Option ω

def finish (st : State ω ε) : List ε :=
  st.1 ++ (st.2.bind M.close).toList

def step (st : State ω ε) (x : α × ℕ) : State ω ε :=
  if p x.1 then (M.finish st, some (M.start x.2 x.1)) else (st.1, st.2.map fun o => M.read o x)

/-- What is open after some items without a heading. -/
def readAll (o : ω) (n : ℕ) (l : List α) : ω :=
  (l.zipIdx n).foldl M.read o

@[simp]
theorem readAll_nil (o : ω) (n : ℕ) : M.readAll o n [] = o :=
  rfl

theorem readAll_cons (o : ω) (n : ℕ) (x : α) (l : List α) :
    M.readAll o n (x :: l) = M.readAll (M.read o (x, n)) (n + 1) l :=
  rfl

theorem readAll_append_singleton (o : ω) (n : ℕ) (l : List α) (x : α) :
    M.readAll o n (l ++ [x]) = M.read (M.readAll o n l) (x, n + l.length) := by
  simp [readAll, List.zipIdx_append]

theorem readAll_append (o : ω) (n : ℕ) (l l' : List α) :
    M.readAll o n (l ++ l') = M.readAll (M.readAll o n l) (n + l.length) l' := by
  simp [readAll, List.zipIdx_append]

variable {M} in
/-- What every item that is read keeps. -/
theorem readAll_invariant {I : ω → Prop} {l : List α}
    (hread : ∀ o, ∀ x ∈ l, ∀ i, I o → I (M.read o (x, i))) {o : ω} (ho : I o) (n : ℕ) :
    I (M.readAll o n l) := by
  induction l using List.reverseRecOn with
  | nil => exact ho
  | append_singleton l x ih =>
    rw [readAll_append_singleton]
    exact hread _ x (by simp) _ (ih fun o y hy => hread o y (by simp [hy]))

/-- What a section gives. -/
def give (s : Section α) : Option ε :=
  M.close (M.readAll (M.start s.start s.head) (s.start + 1) s.content)

/-- A run puts out what the open section gives, then what the others give. -/
theorem finish_foldl (n : ℕ) (l : List α) (st : State ω ε) :
    M.finish ((l.zipIdx n).foldl (M.step p) st) =
      M.finish (st.1, st.2.map fun o => M.readAll o n (preamble p l)) ++
        (sections p n l).filterMap M.give := by
  induction l generalizing n st with
  | nil => simp [sections, preamble, readAll]
  | cons x xs ih =>
    rw [List.zipIdx_cons, List.foldl_cons, ih, step, sections]
    split_ifs with hx
    · have hpre : preamble p (x :: xs) = [] := List.takeWhile_cons_of_neg (by simp [hx])
      rw [hpre, List.filterMap_cons]
      cases hgive : M.give ⟨n, x, preamble p xs⟩ with
      | none => simp_all [finish, give, readAll]
      | some e => simp_all [finish, give, readAll]
    · have hpre : preamble p (x :: xs) = x :: preamble p xs :=
        List.takeWhile_cons_of_pos (by simp [hx])
      simp [hpre, finish, readAll, Function.comp_def]

theorem finish_run (n : ℕ) (l : List α) :
    M.finish ((l.zipIdx n).foldl (M.step p) ([], none)) = (sections p n l).filterMap M.give := by
  rw [finish_foldl]
  rfl

variable {M p} in
/-- The section an output comes from. -/
theorem exists_section {l : List α} {before behind : List ε} {e : ε} {n : ℕ}
    (h : (sections p n l).filterMap M.give = before ++ e :: behind) : ∃ ss s ss',
      sections p n l = ss ++ s :: ss' ∧ ss.filterMap M.give = before ∧ M.give s = some e ∧
        ss'.filterMap M.give = behind := by
  obtain ⟨ss, rest, hsections, hbefore, hrest⟩ := List.filterMap_eq_append_iff.1 h
  obtain ⟨mid, s, ss', rfl, hmid, hs, hbehind⟩ := List.filterMap_eq_cons_iff.1 hrest
  refine ⟨ss ++ mid, s, ss', by simpa using hsections, ?_, hs, hbehind⟩
  rw [List.filterMap_append, hbefore, List.filterMap_eq_nil_iff.2 hmid, List.append_nil]

end Machine

end Sections
