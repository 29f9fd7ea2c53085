import Mathlib.Data.List.TakeWhile
import Mathlib.Tactic.TypeStar

/-!
# Words of a text

`words p s` is what stands between the characters at which `p` cuts. A text that is `Led` by words
has them first, each with a gap behind it, so what follows starts at a word of its own
(`words_of_led`), and every text is led by the words it has (`exists_led`).
-/

namespace Wording

variable {α : Type*} {p : α → Bool} {w s t a b m : List α} {ws vs more : List (List α)}

/-- The words of a text, where `p` cuts. -/
def words (p : α → Bool) (s : List α) : List (List α) :=
  (s.splitOnP p).filter fun w => !w.isEmpty

/-- Something that can be a word. -/
def IsWord (p : α → Bool) (w : List α) : Prop :=
  w ≠ [] ∧ ∀ c ∈ w, p c = false

/-- Words, each with a gap behind it. -/
inductive Spelled (p : α → Bool) : List (List α) → List α → Prop
  | nil : Spelled p [] []
  | cons {w gap : List α} {ws : List (List α)} {m : List α} (hw : IsWord p w) (hne : gap ≠ [])
      (hgap : ∀ c ∈ gap, p c = true) (h : Spelled p ws m) : Spelled p (w :: ws) (w ++ gap ++ m)

/-- Words as they are spelled, behind a gap that may be empty. -/
def Led (p : α → Bool) (ws : List (List α)) (m : List α) : Prop :=
  ∃ s m', m = s ++ m' ∧ (∀ c ∈ s, p c = true) ∧ Spelled p ws m'

/-- The end of a text, or a place at which `p` cuts. -/
def AtCut (p : α → Bool) (t : List α) : Prop :=
  t = [] ∨ ∃ c ∈ t.head?, p c = true

/-! ## Cutting -/

theorem words_append_of_all (hs : ∀ c ∈ s, p c = true) (t : List α) :
    words p (s ++ t) = words p t := by
  induction s with
  | nil => rfl
  | cons c s ih =>
    rw [List.cons_append, words, List.splitOnP_cons_eq_if_modifyHead,
      if_pos (hs c List.mem_cons_self), List.filter_cons_of_neg (by simp), ← words]
    exact ih fun d hd => hs d (List.mem_cons_of_mem c hd)

theorem words_append (hw : IsWord p w) (ht : AtCut p t) : words p (w ++ t) = w :: words p t := by
  have hkeep : ∀ rest : List (List α), (w :: rest).filter (fun w => !w.isEmpty) =
      w :: rest.filter fun w => !w.isEmpty :=
    fun rest => List.filter_cons_of_pos (by simpa using hw.1)
  rcases t with _ | ⟨c, t⟩
  · rw [List.append_nil, words, List.splitOnP_eq_singleton fun x hx => hw.2 x hx, hkeep]
    rfl
  · rcases ht with ht | ⟨d, hd, hp⟩
    · cases ht
    · obtain rfl : c = d := Option.some.inj hd
      have hrest : words p (c :: t) = words p t :=
        words_append_of_all (s := [c]) (by simpa using hp) t
      rw [hrest, words, List.splitOnP_append_cons_of_forall_mem (fun x hx => hw.2 x hx) c hp,
        hkeep, words]

/-- The first word, and where it is. -/
theorem exists_of_words_eq_cons (h : words p t = w :: ws) : ∃ s t', t = s ++ w ++ t' ∧
    (∀ c ∈ s, p c = true) ∧ IsWord p w ∧ AtCut p t' ∧ words p t' = ws := by
  have hgap : ∀ c ∈ t.takeWhile p, p c = true := fun c hc => List.mem_takeWhile_imp hc
  set rest := t.dropWhile p with hrest
  have ht : t = t.takeWhile p ++ rest := List.takeWhile_append_dropWhile.symm
  set w' := rest.takeWhile fun c => !p c with hw'
  set t' := rest.dropWhile fun c => !p c with ht'
  have hsplit : rest = w' ++ t' := List.takeWhile_append_dropWhile.symm
  rw [ht, words_append_of_all hgap] at h
  have hword : IsWord p w' := by
    refine ⟨fun hnil => ?_, fun c hc => by simpa using List.mem_takeWhile_imp hc⟩
    rcases hcs : rest with _ | ⟨c, cs⟩
    · rw [hcs] at h
      cases h
    · have hc : p c = false := by
        have hhead := List.head?_dropWhile_not p t
        rw [← hrest, hcs] at hhead
        simpa using hhead
      rw [hw', hcs, List.takeWhile_cons_of_pos (by simp [hc])] at hnil
      cases hnil
  have hcut : AtCut p t' := by
    have hhead := List.head?_dropWhile_not (fun c => !p c) rest
    rw [← ht'] at hhead
    rcases hcs : t' with _ | ⟨c, cs⟩
    · exact Or.inl rfl
    · rw [hcs] at hhead
      exact Or.inr ⟨c, rfl, by simpa using hhead⟩
  rw [hsplit, words_append hword hcut] at h
  obtain ⟨rfl, rfl⟩ := List.cons.inj h
  exact ⟨t.takeWhile p, t', by rw [List.append_assoc, ← hsplit, ← ht], hgap, hword, hcut, rfl⟩

/-! ## Words and what follows them -/

theorem Spelled.append (ha : Spelled p ws a) (hb : Spelled p vs b) :
    Spelled p (ws ++ vs) (a ++ b) := by
  induction ha with
  | nil => exact hb
  | cons hw hne hgap h ih =>
    rw [List.append_assoc]
    exact .cons hw hne hgap ih

theorem spelled_append_iff : Spelled p (ws ++ vs) m ↔
    ∃ a b, m = a ++ b ∧ Spelled p ws a ∧ Spelled p vs b := by
  constructor
  · intro h
    induction ws generalizing m with
    | nil => exact ⟨[], m, rfl, .nil, h⟩
    | cons w ws ih =>
      rcases h with _ | ⟨hw, hne, hgap, h⟩
      obtain ⟨a, b, rfl, ha, hb⟩ := ih h
      exact ⟨_, b, by simp only [List.append_assoc], .cons hw hne hgap ha, hb⟩
  · rintro ⟨a, b, rfl, ha, hb⟩
    exact ha.append hb

/-- A gap behind words belongs to the last of them. -/
theorem Spelled.append_gap (h : Spelled p ws m) (hws : ws ≠ []) (hs : ∀ c ∈ s, p c = true) :
    Spelled p ws (m ++ s) := by
  induction h with
  | nil => exact absurd rfl hws
  | @cons w gap ws m hw hne hgap h ih =>
    rcases ws with _ | ⟨w', ws⟩
    · rcases h
      have hall : ∀ c ∈ gap ++ s, p c = true := by
        intro c hc
        rcases List.mem_append.1 hc with hc | hc
        · exact hgap c hc
        · exact hs c hc
      have hlast := Spelled.cons (p := p) hw (List.append_ne_nil_of_left_ne_nil hne s) hall .nil
      simpa only [List.append_nil, List.append_assoc] using hlast
    · rw [List.append_assoc]
      exact .cons hw hne hgap (ih (by simp))

theorem led_append_iff : Led p (ws ++ vs) m ↔ ∃ a b, m = a ++ b ∧ Led p ws a ∧ Led p vs b := by
  constructor
  · rintro ⟨s, m', rfl, hs, h⟩
    obtain ⟨a, b, rfl, ha, hb⟩ := spelled_append_iff.1 h
    exact ⟨s ++ a, b, by rw [List.append_assoc], ⟨s, a, rfl, hs, ha⟩, ⟨[], b, rfl, by simp, hb⟩⟩
  · rintro ⟨a, b, rfl, ⟨s, a, rfl, hs, ha⟩, s', b, rfl, hs', hb⟩
    by_cases hws : ws = []
    · subst hws
      rcases ha
      refine ⟨s ++ s', b, by simp, fun c hc => ?_, hb⟩
      rcases List.mem_append.1 hc with hc | hc
      · exact hs c hc
      · exact hs' c hc
    · refine ⟨s, a ++ s' ++ b, by simp only [List.append_assoc], hs, ?_⟩
      exact (ha.append_gap hws hs').append hb

theorem Spelled.words_append (h : Spelled p ws m) (t : List α) :
    words p (m ++ t) = ws ++ words p t := by
  induction h with
  | nil => rfl
  | @cons w gap ws m hw hne hgap h ih =>
    obtain ⟨c, gap, rfl⟩ := List.exists_cons_of_ne_nil hne
    rw [List.append_assoc, List.append_assoc, Wording.words_append hw, words_append_of_all hgap, ih]
    · rfl
    · exact Or.inr ⟨c, rfl, hgap c List.mem_cons_self⟩

/-- What follows words starts at a word of its own. -/
theorem words_of_led (h : Led p ws m) (t : List α) : words p (m ++ t) = ws ++ words p t := by
  obtain ⟨s, m', rfl, hs, hm⟩ := h
  rw [List.append_assoc, words_append_of_all hs, hm.words_append]

/-- Where the words of a text stand. -/
theorem exists_led (h : words p t = ws ++ w :: more) : ∃ m t', t = m ++ w ++ t' ∧ Led p ws m ∧
    IsWord p w ∧ AtCut p t' ∧ words p t' = more := by
  induction ws generalizing t with
  | nil =>
    obtain ⟨s, t', ht, hs, hw, hcut, hmore⟩ := exists_of_words_eq_cons h
    exact ⟨s, t', ht, ⟨s, [], by rw [List.append_nil], hs, .nil⟩, hw, hcut, hmore⟩
  | cons w' ws ih =>
    obtain ⟨s, t₀, rfl, hs, hw', hcut, hrest⟩ := exists_of_words_eq_cons h
    obtain ⟨m, t', rfl, ⟨gap, m', rfl, hgap, hm⟩, hw, hcut', hmore⟩ := ih hrest
    have hne : gap ≠ [] := by
      -- a word would start at the cut
      rintro rfl
      have hstart : ∃ c ∈ (m' ++ w ++ t').head?, p c = false := by
        rcases hm with _ | ⟨hv, -, -, -⟩
        · obtain ⟨c, w, rfl⟩ := List.exists_cons_of_ne_nil hw.1
          exact ⟨c, rfl, hw.2 c List.mem_cons_self⟩
        · rename_i v _ _ _
          obtain ⟨c, v, rfl⟩ := List.exists_cons_of_ne_nil hv.1
          exact ⟨c, rfl, hv.2 c List.mem_cons_self⟩
      obtain ⟨c, hc, hpc⟩ := hstart
      rcases hcut with hnil | ⟨d, hd, hpd⟩
      · rw [List.nil_append] at hnil
        rw [hnil] at hc
        cases hc
      · rw [List.nil_append] at hd
        obtain rfl : c = d := Option.some.inj (hc.symm.trans hd)
        rw [hpc] at hpd
        cases hpd
    refine ⟨s ++ (w' ++ gap ++ m'), t', by simp only [List.append_assoc],
      ⟨s, w' ++ gap ++ m', rfl, hs, .cons hw' hne hgap hm⟩, hw, hcut', hmore⟩

end Wording
