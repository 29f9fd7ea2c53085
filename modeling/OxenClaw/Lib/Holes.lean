import Mathlib.Data.List.Infix

/-!
# Replacing a pattern by values

`replaceAll` replaces the occurrences of a pattern from left to right. A template is a list of
pieces, of characters and of holes that carry their values (`Piece`). Values that replace one
pattern after the other may bring occurrences of a later pattern with them; while none of its
occurrences has a character of a value (`Separate`), replacing in the filled template is filling
the template in which the pattern is replaced by a hole (`replaceAll_fill`). Occurrence by
occurrence the replaced text is what `Replaces` says (`replaces_iff`) : a text without the
characters at the ends of the replacement is not in it anew (`Replaces.infix_of_notMem`).
-/

namespace Holes

section

variable {α : Type*} [DecidableEq α]

/-- Replace every occurrence, once `skip` more characters of the last one are passed. -/
def replaceFrom (pat new : List α) : ℕ → List α → List α
  | _, [] => []
  | skip + 1, _ :: xs => replaceFrom pat new skip xs
  | 0, x :: xs =>
    if pat <+: x :: xs then new ++ replaceFrom pat new (pat.length - 1) xs
    else x :: replaceFrom pat new 0 xs

/-- `s.replace(pat, new)`, for a pattern that is not empty. -/
def replaceAll (pat new xs : List α) : List α :=
  replaceFrom pat new 0 xs

/-- A text in which no occurrence begins is passed over. -/
theorem replaceFrom_append {pat new ws rest : List α}
    (h : ∀ w ws', w :: ws' <:+ ws → ¬pat <+: w :: (ws' ++ rest)) :
    replaceFrom pat new 0 (ws ++ rest) = ws ++ replaceFrom pat new 0 rest := by
  induction ws with
  | nil => rfl
  | cons w ws ih =>
    rw [List.cons_append, replaceFrom, if_neg (h w ws List.suffix_rfl),
      ih fun w' ws' hsuffix => h w' ws' (hsuffix.trans (List.suffix_cons w ws)), List.cons_append]

omit [DecidableEq α] in
/-- An occurrence in a text of two parts begins in the first, or is in the second. -/
theorem begins_or_infix {pat ws rest : List α} (h : pat <:+: ws ++ rest) :
    (∃ w ws', w :: ws' <:+ ws ∧ pat <+: w :: (ws' ++ rest)) ∨ pat <:+: rest := by
  induction ws with
  | nil => exact .inr h
  | cons w ws ih =>
    rcases List.infix_cons_iff.1 h with hbegins | hinfix
    · exact .inl ⟨w, ws, List.suffix_rfl, hbegins⟩
    · rcases ih hinfix with ⟨w', ws', hsuffix, hbegins⟩ | hrest
      · exact .inl ⟨w', ws', hsuffix.trans (List.suffix_cons w ws), hbegins⟩
      · exact .inr hrest

end

/-- A piece of a template, a character or a hole. -/
inductive Piece (κ α : Type*) where
  | text (c : α)
  | hole (k : κ)
  deriving DecidableEq

section

variable {κ α : Type*}

/-- What a hole carries. -/
def Piece.value? : Piece κ α → Option κ
  | .text _ => none
  | .hole k => some k

/-- The characters of a piece. -/
def Piece.fill (value : κ → List α) : Piece κ α → List α
  | .text c => [c]
  | .hole k => value k

/-- The characters of a piece, with whether they are of a value. -/
def Piece.mark (value : κ → List α) : Piece κ α → List (α × Bool)
  | .text c => [(c, false)]
  | .hole k => (value k).map fun c => (c, true)

def fill (value : κ → List α) (ps : List (Piece κ α)) : List α :=
  ps.flatMap (Piece.fill value)

def marks (value : κ → List α) (ps : List (Piece κ α)) : List (α × Bool) :=
  ps.flatMap (Piece.mark value)

theorem map_fst_marks (value : κ → List α) (ps : List (Piece κ α)) :
    (marks value ps).map Prod.fst = fill value ps := by
  rw [marks, fill, List.map_flatMap]
  congr 1
  ext p : 1
  cases p with
  | text c => rfl
  | hole k => simp [Piece.mark, Piece.fill, Function.comp_def]

/-- No occurrence of the pattern has a character of a value. -/
def Separate [DecidableEq α] (value : κ → List α) (pat : List α) (ps : List (Piece κ α)) : Prop :=
  ∀ rest ∈ (marks value ps).tails, pat <+: rest.map Prod.fst →
    ∀ m ∈ rest.take pat.length, m.2 = false

instance [DecidableEq α] (value : κ → List α) (pat : List α) (ps : List (Piece κ α)) :
    Decidable (Separate value pat ps) :=
  inferInstanceAs (Decidable (∀ rest ∈ (marks value ps).tails, pat <+: rest.map Prod.fst →
    ∀ m ∈ rest.take pat.length, m.2 = false))

end

section

variable {κ α : Type*} {value : κ → List α} {pat : List α} {ps : List (Piece κ α)}

/-- An occurrence in the template is one in the filled template. -/
theorem prefix_fill (h : pat.map .text <+: ps) : pat <+: fill value ps := by
  obtain ⟨rest, rfl⟩ := h
  refine ⟨fill value rest, ?_⟩
  rw [fill, fill, List.flatMap_append, List.flatMap_map]
  congr 1
  exact (List.flatMap_singleton' pat).symm

theorem infix_fill (h : pat.map .text <:+: ps) : pat <:+: fill value ps := by
  obtain ⟨before, rest, rfl⟩ := h
  have hbegins : pat <+: fill value (pat.map .text ++ rest) := prefix_fill (List.prefix_append _ _)
  rw [List.append_assoc, fill, List.flatMap_append]
  exact hbegins.isInfix.trans (List.suffix_append _ _).isInfix

/-- An occurrence with no character of a value is one in the template. -/
theorem prefix_of_marks (hvalue : ∀ k, value k ≠ []) (h : pat <+: fill value ps)
    (hmarks : ∀ m ∈ (marks value ps).take pat.length, m.2 = false) : pat.map .text <+: ps := by
  induction pat generalizing ps with
  | nil => exact List.nil_prefix
  | cons c pat ih =>
    cases ps with
    | nil => simp [fill] at h
    | cons p ps =>
      cases p with
      | text d =>
        obtain ⟨rfl, hrest⟩ := List.cons_prefix_cons.1 h
        refine List.cons_prefix_cons.2 ⟨rfl, ih hrest fun m hm => hmarks m ?_⟩
        exact List.mem_cons_of_mem _ hm
      | hole k =>
        obtain ⟨w, ws, hw⟩ := List.exists_cons_of_ne_nil (hvalue k)
        have hhead := hmarks (w, true) (by simp [marks, Piece.mark, hw])
        cases hhead

variable [DecidableEq α]

theorem Separate.cons {p : Piece κ α} (h : Separate value pat (p :: ps)) :
    Separate value pat ps := by
  intro rest hrest
  refine h rest ((List.mem_tails _ _).2 ?_)
  exact ((List.mem_tails _ _).1 hrest).trans (List.suffix_append _ _)

/-- An occurrence in the filled template is one in the template. -/
theorem Separate.prefix_of_fill (hvalue : ∀ k, value k ≠ []) (h : Separate value pat ps)
    (hoccurs : pat <+: fill value ps) : pat.map .text <+: ps := by
  refine prefix_of_marks hvalue hoccurs (h _ ((List.mem_tails _ _).2 List.suffix_rfl) ?_)
  rw [map_fst_marks]
  exact hoccurs

/-- No occurrence begins in a value. -/
theorem Separate.not_prefix {k : κ} (h : Separate value pat (.hole k :: ps)) (hpat : pat ≠ [])
    {w : α} {ws : List α} (hsuffix : w :: ws <:+ value k) :
    ¬pat <+: w :: (ws ++ fill value ps) := by
  intro hbegins
  have hfst : ((w :: ws).map fun c => (c, true)) ++ marks value ps ∈
      (marks value (.hole k :: ps)).tails := by
    obtain ⟨before, hbefore⟩ := hsuffix
    refine (List.mem_tails _ _).2 ⟨before.map fun c => (c, true), ?_⟩
    simp [marks, Piece.mark, ← hbefore]
  have hmarks := h _ hfst (by simpa [map_fst_marks, Function.comp_def] using hbegins) (w, true)
  obtain ⟨c, pat, rfl⟩ := List.exists_cons_of_ne_nil hpat
  have hhead : true = false := hmarks List.mem_cons_self
  cases hhead

variable [DecidableEq κ]

/-- Replacing in the filled template is filling the template with a hole for the pattern. -/
theorem replaceFrom_fill (hvalue : ∀ k, value k ≠ []) (hpat : pat ≠ []) (k : κ) {skip : ℕ}
    (hskip : ∀ p ∈ ps.take skip, ∃ c, p = .text c) (h : Separate value pat ps) :
    replaceFrom pat (value k) skip (fill value ps) =
      fill value (replaceFrom (pat.map .text) [.hole k] skip ps) := by
  induction ps generalizing skip with
  | nil => cases skip <;> rfl
  | cons p ps ih =>
    cases skip with
    | succ skip =>
      obtain ⟨c, rfl⟩ := hskip p List.mem_cons_self
      exact ih (fun p hp => hskip p (List.mem_cons_of_mem _ hp)) h.cons
    | zero =>
      have hnext : replaceFrom pat (value k) 0 (fill value ps) =
          fill value (replaceFrom (pat.map .text) [.hole k] 0 ps) := ih (by simp) h.cons
      by_cases hbegins : pat.map .text <+: p :: ps
      · obtain ⟨c, pat, rfl⟩ := List.exists_cons_of_ne_nil hpat
        obtain ⟨rfl, hrest⟩ := List.cons_prefix_cons.1 hbegins
        have htext : ∀ p ∈ ps.take pat.length, ∃ c, p = .text c := by
          intro p hp
          obtain ⟨rest, rfl⟩ := hrest
          rw [List.take_append_of_le_length (by simp), List.take_of_length_le (by simp)] at hp
          obtain ⟨c, -, rfl⟩ := List.mem_map.1 hp
          exact ⟨c, rfl⟩
        have hoccurs : c :: pat <+: c :: fill value ps := prefix_fill hbegins
        change replaceFrom (c :: pat) (value k) 0 (c :: fill value ps) = _
        rw [replaceFrom, if_pos hoccurs, replaceFrom, if_pos hbegins, List.length_map,
          List.length_cons, Nat.add_sub_cancel, ih htext h.cons]
        rfl
      · rw [replaceFrom, if_neg hbegins]
        cases p with
        | text c =>
          have hoccurs : ¬pat <+: c :: fill value ps := mt (h.prefix_of_fill hvalue) hbegins
          change replaceFrom pat (value k) 0 (c :: fill value ps) = _
          rw [replaceFrom, if_neg hoccurs, hnext]
          rfl
        | hole j =>
          change replaceFrom pat (value k) 0 (value j ++ fill value ps) = _
          rw [replaceFrom_append fun w ws hsuffix => h.not_prefix hpat hsuffix, hnext]
          rfl

theorem replaceAll_fill (hvalue : ∀ k, value k ≠ []) (hpat : pat ≠ []) (k : κ)
    (h : Separate value pat ps) :
    replaceAll pat (value k) (fill value ps) =
      fill value (replaceAll (pat.map .text) [.hole k] ps) :=
  replaceFrom_fill hvalue hpat k (by simp) h

/-- Text that stands in a template with a hole more stood in it before. -/
theorem infix_of_replaceFrom {k : κ} {text : List α} {skip : ℕ}
    (h : text.map .text <:+: replaceFrom (pat.map .text) [.hole k] skip ps) :
    text.map .text <:+: ps := by
  have hstart {text : List α} {ps : List (Piece κ α)}
      (h : text.map .text <+: replaceFrom (pat.map .text) [.hole k] 0 ps) :
      text.map .text <+: ps := by
    induction ps generalizing text with
    | nil => exact h
    | cons p ps ih =>
      rw [replaceFrom] at h
      cases text with
      | nil => exact List.nil_prefix
      | cons c text =>
        split_ifs at h
        · cases (List.cons_prefix_cons.1 h).1
        · obtain ⟨rfl, hrest⟩ := List.cons_prefix_cons.1 h
          exact List.cons_prefix_cons.2 ⟨rfl, ih hrest⟩
  induction ps generalizing skip with
  | nil => cases skip <;> exact h
  | cons p ps ih =>
    cases skip with
    | succ skip => exact (ih h).trans (List.suffix_cons p ps).isInfix
    | zero =>
      by_cases hoccurs : pat.map .text <+: p :: ps
      · rw [replaceFrom, if_pos hoccurs] at h
        rcases List.infix_cons_iff.1 h with hnil | hinfix
        · cases text with
          | nil => exact List.nil_infix
          | cons c text => cases (List.cons_prefix_cons.1 hnil).1
        · exact (ih hinfix).trans (List.suffix_cons p ps).isInfix
      · have hkept : replaceFrom (pat.map .text) [.hole k] 0 (p :: ps) =
            p :: replaceFrom (pat.map .text) [.hole k] 0 ps := by
          rw [replaceFrom, if_neg hoccurs]
        rcases List.infix_cons_iff.1 (hkept ▸ h) with hbegins | hinfix
        · exact (hstart (hkept ▸ hbegins)).isInfix
        · exact (ih hinfix).trans (List.suffix_cons p ps).isInfix

omit [DecidableEq κ]

/-- A pattern that the template does not have, and no value has a part of, is not in the filled
template. -/
theorem Separate.not_infix_fill (hvalue : ∀ k, value k ≠ []) (hpat : pat ≠ [])
    (h : Separate value pat ps) (hnone : ¬pat.map .text <:+: ps) : ¬pat <:+: fill value ps := by
  intro hinfix
  induction ps with
  | nil => exact hpat (List.infix_nil.1 hinfix)
  | cons p ps ih =>
    obtain ⟨hbegins, hrest⟩ := not_or.1 (mt List.infix_cons_iff.2 hnone)
    cases p with
    | text c =>
      rcases List.infix_cons_iff.1 hinfix with hoccurs | htail
      · exact hbegins (h.prefix_of_fill hvalue hoccurs)
      · exact ih h.cons hrest htail
    | hole j =>
      rcases begins_or_infix hinfix with ⟨w, ws, hsuffix, hoccurs⟩ | htail
      · exact h.not_prefix hpat hsuffix hoccurs
      · exact ih h.cons hrest htail

end

/-! ## Replacing, occurrence by occurrence -/

section

variable {α : Type*} {pat new s u rest before p : List α} {c : α}

/-- The first occurrence of the pattern in `before ++ pat ++ rest` is that behind `before`. -/
def First (pat before rest : List α) : Prop :=
  ∀ before' rest', before ++ pat ++ rest = before' ++ pat ++ rest' →
    before.length ≤ before'.length

/-- What replacing the occurrences, each the first behind the one before, makes of a text. -/
inductive Replaces (pat new : List α) : List α → List α → Prop
  | none {s : List α} : ¬pat <:+: s → Replaces pat new s s
  | cut {before rest u : List α} : First pat before rest → Replaces pat new rest u →
      Replaces pat new (before ++ pat ++ rest) (before ++ new ++ u)

theorem exists_first (h : pat <:+: s) : ∃ before rest, s = before ++ pat ++ rest ∧
    First pat before rest := by
  induction s with
  | nil =>
    obtain rfl := List.infix_nil.1 h
    exact ⟨[], [], rfl, fun _ _ _ => Nat.zero_le _⟩
  | cons x s ih =>
    by_cases hbegins : pat <+: x :: s
    · obtain ⟨rest, hrest⟩ := hbegins
      exact ⟨[], rest, hrest.symm, fun _ _ _ => Nat.zero_le _⟩
    · obtain ⟨before, rest, rfl, hfirst⟩ := ih ((List.infix_cons_iff.1 h).resolve_left hbegins)
      refine ⟨x :: before, rest, rfl, fun before' rest' heq => ?_⟩
      rcases before' with _ | ⟨y, before'⟩
      · exact absurd ⟨rest', heq.symm⟩ hbegins
      · rw [List.cons_append, List.cons_append, List.cons_append, List.cons_append,
          List.cons.injEq] at heq
        exact Nat.succ_le_succ (hfirst before' rest' heq.2)

/-- Nothing occurs ahead of the first occurrence. -/
theorem First.not_begins (h : First pat before rest) {w : α} {ws : List α}
    (hsuffix : w :: ws <:+ before) : ¬pat <+: w :: (ws ++ (pat ++ rest)) := by
  rintro ⟨rest', hrest'⟩
  obtain ⟨ahead, rfl⟩ := hsuffix
  have hle := h ahead rest' (by simp [hrest'])
  rw [List.length_append, List.length_cons] at hle
  omega

theorem First.absent (h : First pat before rest) (hpat : pat ≠ []) : ¬pat <:+: before := by
  rintro ⟨ahead, behind, rfl⟩
  have hle := h ahead (behind ++ (pat ++ rest)) (by simp)
  have hpos := List.length_pos_iff.2 hpat
  rw [List.length_append, List.length_append] at hle
  omega

theorem replaceFrom_skip [DecidableEq α] (pat new : List α) (skip : ℕ) (s : List α) :
    replaceFrom pat new skip s = replaceFrom pat new 0 (s.drop skip) := by
  induction skip generalizing s with
  | zero => rfl
  | succ skip ih =>
    rcases s with _ | ⟨x, s⟩
    · rfl
    · exact ih s

/-- An occurrence that comes first. -/
theorem replaceAll_append [DecidableEq α] (hpat : pat ≠ []) (h : First pat before rest) :
    replaceAll pat new (before ++ pat ++ rest) = before ++ new ++ replaceAll pat new rest := by
  have hpass : replaceFrom pat new 0 (before ++ (pat ++ rest)) =
      before ++ replaceFrom pat new 0 (pat ++ rest) :=
    replaceFrom_append fun w ws hsuffix => h.not_begins hsuffix
  obtain ⟨x, pat, rfl⟩ := List.exists_cons_of_ne_nil hpat
  have hbegins : x :: pat <+: x :: (pat ++ rest) := List.prefix_append (x :: pat) rest
  rw [replaceAll, List.append_assoc, hpass, List.cons_append, replaceFrom, if_pos hbegins,
    replaceFrom_skip, List.length_cons,
    Nat.add_sub_cancel, List.drop_left, List.append_assoc, replaceAll]

theorem replaceAll_of_absent [DecidableEq α] (h : ¬pat <:+: s) : replaceAll pat new s = s := by
  have hpass : replaceFrom pat new 0 (s ++ []) = s ++ replaceFrom pat new 0 [] := by
    refine replaceFrom_append fun w ws hsuffix hbegins => h ?_
    rw [List.append_nil] at hbegins
    exact hbegins.isInfix.trans hsuffix.isInfix
  simpa [replaceAll, replaceFrom] using hpass

/-- `replaceAll` is what replaces so. -/
theorem replaces_iff [DecidableEq α] (hpat : pat ≠ []) :
    Replaces pat new s u ↔ replaceAll pat new s = u := by
  constructor
  · intro h
    induction h with
    | none hnone => exact replaceAll_of_absent hnone
    | cut hfirst _ ih => rw [replaceAll_append hpat hfirst, ih]
  · rintro rfl
    induction hn : s.length using Nat.strong_induction_on generalizing s with
    | h n ih =>
      by_cases hoccurs : pat <:+: s
      · obtain ⟨before, rest, rfl, hfirst⟩ := exists_first hoccurs
        have hpos := List.length_pos_iff.2 hpat
        rw [replaceAll_append hpat hfirst]
        refine .cut hfirst (ih rest.length ?_ rfl)
        rw [← hn, List.length_append, List.length_append]
        omega
      · rw [replaceAll_of_absent hoccurs]
        exact .none hoccurs

/-- A text without the character is on one side of it. -/
theorem infix_or_infix_of_notMem (hc : c ∉ p) (h : p <:+: before ++ c :: rest) :
    p <:+: before ∨ p <:+: rest := by
  have hstart {l : List α} (h : p <+: l ++ c :: rest) : p <+: l := by
    rcases List.prefix_or_prefix_of_prefix h (List.prefix_append l _) with hp | ⟨r, rfl⟩
    · exact hp
    · rcases r with _ | ⟨d, r⟩
      · rw [List.append_nil]
      · have hr := (List.prefix_append_right_inj l).1 h
        obtain rfl := (List.cons_prefix_cons.1 hr).1
        exact absurd (by simp) hc
  induction before with
  | nil =>
    rcases List.infix_cons_iff.1 h with hbegins | hrest
    · exact Or.inl (hstart (l := []) hbegins).isInfix
    · exact Or.inr hrest
  | cons x before ih =>
    rcases List.infix_cons_iff.1 h with hbegins | hinfix
    · exact Or.inl (hstart (l := x :: before) hbegins).isInfix
    · exact (ih hinfix).imp_left fun hp => hp.trans (List.suffix_cons x before).isInfix

/-- A text that has neither the first nor the last character of the replacement, and is not within
it, stands in the replaced text only if it stood in the text and is not what is replaced. -/
theorem Replaces.infix_of_notMem {d : α} {middle : List α} (h : Replaces pat new s u)
    (hpat : pat ≠ []) (hnew : new = c :: (middle ++ [d])) (hc : c ∉ p) (hd : d ∉ p)
    (hout : ¬p <:+: new) (hp : p <:+: u) : p <:+: s ∧ p ≠ pat := by
  induction h with
  | none hnone => exact ⟨hp, fun heq => hnone (heq ▸ hp)⟩
  | @cut before rest u hfirst _ ih =>
    have hsides : p <:+: before ∨ p <:+: u := by
      rw [hnew, List.append_assoc, List.cons_append] at hp
      refine (infix_or_infix_of_notMem hc hp).imp_right fun hp => ?_
      rw [List.append_assoc, List.singleton_append] at hp
      refine (infix_or_infix_of_notMem hd hp).resolve_left fun hmiddle => hout ?_
      rw [hnew]
      exact hmiddle.trans ⟨[c], [d], rfl⟩
    rcases hsides with hbefore | hu
    · refine ⟨hbefore.trans ⟨[], pat ++ rest, by simp⟩, fun heq => ?_⟩
      exact hfirst.absent hpat (heq ▸ hbefore)
    · obtain ⟨hrest, hne⟩ := ih hu
      exact ⟨hrest.trans (List.suffix_append (before ++ pat) rest).isInfix, hne⟩

end

end Holes
