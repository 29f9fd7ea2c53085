import Mathlib.Data.List.MinMax
import Mathlib.Data.List.Pairwise
import Mathlib.Order.BoundedOrder.Basic

/-!
# Disjoint intervals, taken from left to right

Half-open intervals sorted by where they start, the longest first where several start together.
`takeDisjoint` goes through them and takes each that starts no earlier than the last one taken
stops. What it takes is disjoint (`pairwise_takeDisjoint`) and covers the start of every
interval (`exists_mem_takeDisjoint`).

It covers the intervals whole exactly if no interval runs across a point where one that is
taken stops, unless another starts right there (`covered_iff`). Where the ones taken stop is
told without the list (`Reached`).
-/

namespace Intervals

variable {α τ : Type*} [LinearOrder τ] {start stop : α → τ} {l : List α} {last : τ}

/-- Take each interval that starts no earlier than the last one taken stops. -/
def takeDisjoint (start stop : α → τ) (last : τ) : List α → List α
  | [] => []
  | x :: xs =>
    if start x < last then takeDisjoint start stop last xs
    else x :: takeDisjoint start stop (stop x) xs

/-- Earlier in the order, or longer from the same start. -/
def Before (start stop : α → τ) (x y : α) : Prop :=
  start x < start y ∨ start x = start y ∧ stop y ≤ stop x

instance (x y : α) : Decidable (Before start stop x y) :=
  inferInstanceAs (Decidable (_ ∨ _))

theorem Before.start_le {x y : α} (h : Before start stop x y) : start x ≤ start y :=
  h.elim le_of_lt fun h => h.1.le

instance : IsTrans α (Before start stop) where
  trans x y z hxy hyz := by
    rcases hxy with hxy | ⟨hxy, hyx⟩
    · exact Or.inl (hxy.trans_le hyz.start_le)
    · rcases hyz with hyz | ⟨hyz, hzy⟩
      · exact Or.inl (hxy ▸ hyz)
      · exact Or.inr ⟨hxy.trans hyz, hzy.trans hyx⟩

instance : Std.Total (Before start stop (α := α)) where
  total x y := by
    rcases lt_trichotomy (start x) (start y) with h | h | h
    · exact Or.inl (Or.inl h)
    · rcases le_total (stop x) (stop y) with h' | h'
      · exact Or.inr (Or.inr ⟨h.symm, h'⟩)
      · exact Or.inl (Or.inr ⟨h, h'⟩)
    · exact Or.inr (Or.inl h)

theorem takeDisjoint_sublist (l : List α) (last : τ) :
    (takeDisjoint start stop last l).Sublist l := by
  induction l generalizing last with
  | nil => exact List.Sublist.refl _
  | cons x xs ih =>
    rw [takeDisjoint]
    split_ifs
    · exact (ih last).cons x
    · exact (ih (stop x)).cons_cons x

theorem le_start_of_mem (hproper : ∀ x ∈ l, start x < stop x) :
    ∀ x ∈ takeDisjoint start stop last l, last ≤ start x := by
  induction l generalizing last with
  | nil => exact fun x hx => absurd hx List.not_mem_nil
  | cons x xs ih =>
    obtain ⟨hx, hxs⟩ := List.forall_mem_cons.1 hproper
    rw [takeDisjoint]
    split_ifs with h
    · exact ih hxs
    · intro y hy
      rcases List.mem_cons.1 hy with rfl | hy
      · exact not_lt.1 h
      · exact ((not_lt.1 h).trans hx.le).trans (ih hxs y hy)

/-- What is taken is disjoint, in order. -/
theorem pairwise_takeDisjoint (hproper : ∀ x ∈ l, start x < stop x) :
    (takeDisjoint start stop last l).Pairwise fun x y => stop x ≤ start y := by
  induction l generalizing last with
  | nil => exact List.Pairwise.nil
  | cons x xs ih =>
    have hxs := (List.forall_mem_cons.1 hproper).2
    rw [takeDisjoint]
    split_ifs
    · exact ih hxs
    · exact List.pairwise_cons.2 ⟨le_start_of_mem hxs, ih hxs⟩

/-- Of two that are taken, where the one stops past the stop of the other, it starts past it. -/
theorem stop_le_start (hproper : ∀ x ∈ l, start x < stop x) {g g' : α}
    (hg : g ∈ takeDisjoint start stop last l) (hg' : g' ∈ takeDisjoint start stop last l)
    (hlt : stop g' < stop g) : stop g' ≤ start g := by
  have hsymm : Std.Symm fun x y : α => stop x ≤ start y ∨ stop y ≤ start x :=
    ⟨fun _ _ h => h.symm⟩
  have hpairs : (takeDisjoint start stop last l).Pairwise fun x y =>
      stop x ≤ start y ∨ stop y ≤ start x := (pairwise_takeDisjoint hproper).imp Or.inl
  have hne : g ≠ g' := by
    rintro rfl
    exact lt_irrefl _ hlt
  rcases hpairs.forall hg hg' hne with h | h
  · have hproper' := hproper g' ((takeDisjoint_sublist l last).subset hg')
    exact absurd (h.trans_lt hproper') (not_lt.2 hlt.le)
  · exact h

/-- The start of every interval is covered, by one no shorter if they start together. -/
theorem exists_mem_takeDisjoint (hsorted : l.Pairwise (Before start stop))
    (hproper : ∀ x ∈ l, start x < stop x) {y : α} (hy : y ∈ l) (hlast : last ≤ start y) :
    ∃ g ∈ takeDisjoint start stop last l, start g ≤ start y ∧ start y < stop g ∧
      (start g = start y → stop y ≤ stop g) := by
  induction l generalizing last with
  | nil => exact absurd hy List.not_mem_nil
  | cons x xs ih =>
    obtain ⟨hx, hxs⟩ := List.forall_mem_cons.1 hproper
    obtain ⟨hbefore, hsorted⟩ := List.pairwise_cons.1 hsorted
    rw [takeDisjoint]
    split_ifs with hskip
    · rcases List.mem_cons.1 hy with rfl | hy
      · exact absurd hskip (not_lt.2 hlast)
      · exact ih hsorted hxs hy hlast
    · rcases List.mem_cons.1 hy with rfl | hy
      · exact ⟨y, List.mem_cons_self, le_rfl, hx, fun _ => le_rfl⟩
      · rcases lt_or_ge (start y) (stop x) with hin | hout
        · refine ⟨x, List.mem_cons_self, (hbefore y hy).start_le, hin, fun heq => ?_⟩
          exact (hbefore y hy).elim (fun h => absurd heq h.ne) fun h => h.2
        · obtain ⟨g, hg, hcover⟩ := ih hsorted hxs hy hout
          exact ⟨g, List.mem_cons_of_mem _ hg, hcover⟩

/-- Where the intervals that are taken stop : from the bottom, or from where the last one
stops, the next is the first to start, and the longest of those. -/
inductive Reached [OrderBot τ] (M : τ → τ → Prop) : τ → Prop
  | bot : Reached M ⊥
  | next {b s e : τ} (h : Reached M b) (hb : b ≤ s) (hM : M s e)
    (hfirst : ∀ s' e', M s' e' → b ≤ s' → s ≤ s') (hlongest : ∀ e', M s e' → e' ≤ e) :
    Reached M e

variable [OrderBot τ] {M : τ → τ → Prop}

theorem reached_of_mem (hM : ∀ s e, M s e ↔ ∃ x ∈ l, start x = s ∧ stop x = e)
    (hproper : ∀ x ∈ l, start x < stop x) {rest : List α} (hrest : rest ⊆ l)
    (hsorted : rest.Pairwise (Before start stop)) (hlast : Reached M last)
    (hahead : ∀ x ∈ l, last ≤ start x → x ∈ rest) :
    ∀ g ∈ takeDisjoint start stop last rest, Reached M (stop g) := by
  induction rest generalizing last with
  | nil => exact fun g hg => absurd hg List.not_mem_nil
  | cons c cs ih =>
    obtain ⟨hc, hcs⟩ := List.cons_subset.1 hrest
    obtain ⟨hbefore, hsorted⟩ := List.pairwise_cons.1 hsorted
    rw [takeDisjoint]
    split_ifs with hskip
    · refine ih hcs hsorted hlast fun x hx hle => ?_
      refine (List.mem_cons.1 (hahead x hx hle)).resolve_left ?_
      rintro rfl
      exact absurd hskip (not_lt.2 hle)
    · have hreached : Reached M (stop c) := by
        refine Reached.next hlast (not_lt.1 hskip) ((hM _ _).2 ⟨c, hc, rfl, rfl⟩) ?_ ?_
        · intro s' e' hs' hle
          obtain ⟨x, hx, rfl, rfl⟩ := (hM s' e').1 hs'
          rcases List.mem_cons.1 (hahead x hx hle) with rfl | hmem
          · exact le_rfl
          · exact (hbefore x hmem).start_le
        · intro e' he'
          obtain ⟨x, hx, hstart, rfl⟩ := (hM _ e').1 he'
          rcases List.mem_cons.1 (hahead x hx (hstart ▸ not_lt.1 hskip)) with rfl | hmem
          · exact le_rfl
          · exact (hbefore x hmem).elim (fun h => absurd hstart.symm h.ne) fun h => h.2
      intro g hg
      rcases List.mem_cons.1 hg with rfl | hg
      · exact hreached
      · refine ih hcs hsorted hreached (fun x hx hle => ?_) g hg
        have hstop := hproper c hc
        refine (List.mem_cons.1 (hahead x hx ?_)).resolve_left ?_
        · exact ((not_lt.1 hskip).trans hstop.le).trans hle
        · rintro rfl
          exact absurd hstop (not_lt.2 hle)

/-- What is taken reaches these points, and no others. -/
theorem reached_iff (hM : ∀ s e, M s e ↔ ∃ x ∈ l, start x = s ∧ stop x = e)
    (hsorted : l.Pairwise (Before start stop)) (hproper : ∀ x ∈ l, start x < stop x) {b : τ} :
    Reached M b ↔ b = ⊥ ∨ ∃ g ∈ takeDisjoint start stop ⊥ l, stop g = b := by
  constructor
  · intro h
    induction h with
    | bot => exact Or.inl rfl
    | @next b s e _ hb hse hfirst hlongest ih =>
      obtain ⟨x, hx, rfl, rfl⟩ := (hM s e).1 hse
      obtain ⟨g, hg, hle, hlt, hno⟩ := exists_mem_takeDisjoint hsorted hproper hx bot_le
      have hgl := (takeDisjoint_sublist l ⊥).subset hg
      have hbg : b ≤ start g := by
        rcases ih with rfl | ⟨g', hg', rfl⟩
        · exact bot_le
        · exact stop_le_start hproper hg hg' (hb.trans_lt hlt)
      have heq : start g = start x :=
        le_antisymm hle (hfirst _ _ ((hM _ _).2 ⟨g, hgl, rfl, rfl⟩) hbg)
      exact Or.inr ⟨g, hg, le_antisymm
        (hlongest _ ((hM _ _).2 ⟨g, hgl, heq, rfl⟩)) (hno heq)⟩
  · rintro (rfl | ⟨g, hg, rfl⟩)
    · exact Reached.bot
    · exact reached_of_mem hM hproper (List.Subset.refl l) hsorted Reached.bot
        (fun _ hx _ => hx) g hg

/-- Whether what is taken covers every interval is seen at the points where it stops : an
interval that runs across one needs another that starts there. -/
theorem covered_iff (hM : ∀ s e, M s e ↔ ∃ x ∈ l, start x = s ∧ stop x = e)
    (hsorted : l.Pairwise (Before start stop)) (hproper : ∀ x ∈ l, start x < stop x) :
    (∀ s e, M s e → ∀ p, s ≤ p → p < e →
      ∃ g ∈ takeDisjoint start stop ⊥ l, start g ≤ p ∧ p < stop g) ↔
        ∀ b, Reached M b → ∀ s e, M s e → s < b → b < e → ∃ e', M b e' := by
  constructor
  · intro h b hb s e hse hs he
    obtain ⟨g, hg, hle, hlt⟩ := h s e hse b hs.le he
    rcases (reached_iff hM hsorted hproper).1 hb with rfl | ⟨g', hg', rfl⟩
    · exact absurd hs not_lt_bot
    · have heq : start g = stop g' := le_antisymm hle (stop_le_start hproper hg hg' hlt)
      exact ⟨stop g, (hM _ _).2 ⟨g, (takeDisjoint_sublist l ⊥).subset hg, heq, rfl⟩⟩
  · intro h s e hse p hsp hpe
    obtain ⟨x, hx, rfl, rfl⟩ := (hM s e).1 hse
    by_contra hnot
    -- the last point before `p` where what is taken stops inside the interval
    obtain ⟨inside, hinside⟩ : ∃ inside, inside = (takeDisjoint start stop ⊥ l).filter
        fun g => decide (start x < stop g ∧ stop g ≤ p) := ⟨_, rfl⟩
    have hmem : ∀ g, g ∈ inside ↔
        g ∈ takeDisjoint start stop ⊥ l ∧ start x < stop g ∧ stop g ≤ p := by
      intro g
      rw [hinside, List.mem_filter, decide_eq_true_iff]
    have hstops : ∀ g ∈ takeDisjoint start stop ⊥ l, start g ≤ p → stop g ≤ p := fun g hg hle =>
      not_lt.1 fun hlt => hnot ⟨g, hg, hle, hlt⟩
    cases hmax : inside.argmax stop with
    | none =>
      obtain ⟨g, hg, hle, hlt, -⟩ := exists_mem_takeDisjoint hsorted hproper hx bot_le
      have hg' := (hmem g).2 ⟨hg, hlt, hstops g hg (hle.trans hsp)⟩
      rw [List.argmax_eq_none.1 hmax] at hg'
      exact List.not_mem_nil hg'
    | some g =>
      obtain ⟨hg, hxg, hgp⟩ := (hmem g).1 (List.argmax_mem hmax)
      obtain ⟨e', he'⟩ := h (stop g) ((reached_iff hM hsorted hproper).2 (Or.inr ⟨g, hg, rfl⟩))
        _ _ hse hxg (hgp.trans_lt hpe)
      obtain ⟨y, hy, hystart, -⟩ := (hM _ _).1 he'
      obtain ⟨g', hg', hle, hlt, -⟩ := exists_mem_takeDisjoint hsorted hproper hy bot_le
      rw [hystart] at hle hlt
      have hlater := (hmem g').2 ⟨hg', hxg.trans hlt, hstops g' hg' (hle.trans hgp)⟩
      exact absurd (List.le_of_mem_argmax hlater hmax) (not_le.2 hlt)

end Intervals
