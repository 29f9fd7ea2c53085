import Mathlib.Data.List.Basic
import Mathlib.Tactic.TypeStar

/-!
# Runs of an event machine

Tasks that interleave are one machine whose events are what a task does between two awaits.
A run is a list of events; `trail` has the states it passes through, its start included.

What every event keeps, every state of a run has (`forall_mem_trail`). A property that an
event keeps exactly under a condition holds along a run exactly if every event meets the
condition (`forall_mem_trail_iff`).
-/

variable {σ ε : Type*} (step : σ → ε → σ)

/-- The states a run passes through. -/
def trail : σ → List ε → List σ
  | s, [] => [s]
  | s, e :: es => s :: trail (step s e) es

/-- Every event of a run meets the condition in the state it finds. -/
def EachStep (C : σ → ε → Prop) : σ → List ε → Prop
  | _, [] => True
  | s, e :: es => C s e ∧ EachStep C (step s e) es

instance EachStep.decidable {C : σ → ε → Prop} [∀ s e, Decidable (C s e)] :
    (s : σ) → (es : List ε) → Decidable (EachStep step C s es)
  | _, [] => .isTrue trivial
  | s, e :: es =>
    have := EachStep.decidable (C := C) (step s e) es
    inferInstanceAs (Decidable (C s e ∧ EachStep step C (step s e) es))

variable {step}

theorem EachStep.of_forall {C : σ → ε → Prop} (h : ∀ s e, C s e) (s : σ) (es : List ε) :
    EachStep step C s es := by
  induction es generalizing s with
  | nil => trivial
  | cons e es ih => exact ⟨h s e, ih (step s e)⟩

theorem mem_trail_self (s : σ) (es : List ε) : s ∈ trail step s es := by
  cases es <;> exact List.mem_cons_self

theorem foldl_mem_trail (es : List ε) (s : σ) : es.foldl step s ∈ trail step s es := by
  induction es generalizing s with
  | nil => exact List.mem_cons_self
  | cons e es ih => exact List.mem_cons_of_mem _ (ih (step s e))

/-- What every event keeps, every state of the run has. -/
theorem forall_mem_trail {I : σ → Prop} (hstep : ∀ s e, I s → I (step s e)) {s : σ} (hs : I s)
    (es : List ε) : ∀ s' ∈ trail step s es, I s' := by
  induction es generalizing s with
  | nil =>
    intro s' h
    rwa [List.mem_singleton.1 h]
  | cons e es ih =>
    intro s' h
    rcases List.mem_cons.1 h with rfl | h
    · exact hs
    · exact ih (hstep s e hs) s' h

theorem foldl_invariant {I : σ → Prop} (hstep : ∀ s e, I s → I (step s e)) {s : σ} (hs : I s)
    (es : List ε) : I (es.foldl step s) :=
  forall_mem_trail hstep hs es _ (foldl_mem_trail es s)

/-- What a run still has to go through, and what it has got to : a relation between the two that
every event keeps holds when nothing is left. -/
theorem foldl_remaining {I : σ → List ε → Prop}
    (hstep : ∀ s e es, I s (e :: es) → I (step s e) es) {s : σ} {es : List ε} (hs : I s es) :
    I (es.foldl step s) [] := by
  induction es generalizing s with
  | nil => exact hs
  | cons e es ih => exact ih (hstep s e es hs)

/-- `foldl_remaining`, of a run over numbered items. -/
theorem foldl_zipIdx_remaining {ι : Type*} {step : σ → ι × ℕ → σ} {I : σ → ℕ → List ι → Prop}
    (hstep : ∀ s n x xs, I s n (x :: xs) → I (step s (x, n)) (n + 1) xs) {s : σ} {n : ℕ}
    {xs : List ι} (hs : I s n xs) : I ((xs.zipIdx n).foldl step s) (n + xs.length) [] := by
  induction xs generalizing s n with
  | nil => exact hs
  | cons x xs ih =>
    have hrest := ih (hstep s n x xs hs)
    rwa [Nat.add_assoc, Nat.add_comm 1] at hrest

/-- What each event adds to an output, a run adds in order. -/
theorem foldl_output {β : Type*} {out : σ → List β} {g : ε → List β}
    (hstep : ∀ s e, out (step s e) = out s ++ g e) (s : σ) (es : List ε) :
    out (es.foldl step s) = out s ++ es.flatMap g := by
  have h : out (es.foldl step s) ++ [].flatMap g = out s ++ es.flatMap g :=
    foldl_remaining (I := fun s' rest => out s' ++ rest.flatMap g = out s ++ es.flatMap g)
      (fun s' e rest h => by rw [hstep, ← h, List.flatMap_cons, List.append_assoc]) rfl
  rwa [List.flatMap_nil, List.append_nil] at h

/-- What every event that meets the condition keeps, every state of the run has. -/
theorem EachStep.forall_mem_trail {I : σ → Prop} {C : σ → ε → Prop}
    (hstep : ∀ s e, I s → C s e → I (step s e)) {s : σ} {es : List ε}
    (hC : EachStep step C s es) (hs : I s) : ∀ s' ∈ trail step s es, I s' := by
  induction es generalizing s with
  | nil =>
    intro s' h
    rwa [List.mem_singleton.1 h]
  | cons e es ih =>
    obtain ⟨he, hes⟩ := hC
    intro s' h
    rcases List.mem_cons.1 h with rfl | h
    · exact hs
    · exact ih hes (hstep s e hs he) s' h

/-- A property that each event keeps exactly under a condition, by an invariant that is kept as long
as the property is. -/
theorem forall_mem_trail_iff_of_keeps {I P : σ → Prop} {C : σ → ε → Prop}
    (hI : ∀ s e, I s → P s → I (step s e)) (hP : ∀ s e, I s → P s → (P (step s e) ↔ C s e)) {s : σ}
    (hs : I s) (hPs : P s) (es : List ε) :
    (∀ s' ∈ trail step s es, P s') ↔ EachStep step C s es := by
  induction es generalizing s with
  | nil =>
    refine iff_of_true (fun s' h => ?_) trivial
    rwa [List.mem_singleton.1 h]
  | cons e es ih =>
    constructor
    · intro h
      have hnext : P (step s e) := h _ (List.mem_cons_of_mem _ (mem_trail_self _ _))
      exact ⟨(hP s e hs hPs).1 hnext, (ih (hI s e hs hPs) hnext).1 fun s' hs' =>
        h s' (List.mem_cons_of_mem _ hs')⟩
    · rintro ⟨hC, hes⟩ s' h
      have hnext : P (step s e) := (hP s e hs hPs).2 hC
      rcases List.mem_cons.1 h with rfl | h
      · exact hPs
      · exact (ih (hI s e hs hPs) hnext).2 hes s' h

/-- A property that each event keeps exactly under a condition. -/
theorem forall_mem_trail_iff {I P : σ → Prop} {C : σ → ε → Prop}
    (hI : ∀ s e, I s → I (step s e)) (hP : ∀ s e, I s → P s → (P (step s e) ↔ C s e)) {s : σ}
    (hs : I s) (hPs : P s) (es : List ε) :
    (∀ s' ∈ trail step s es, P s') ↔ EachStep step C s es :=
  forall_mem_trail_iff_of_keeps (fun s e hs _ => hI s e hs) hP hs hPs es

/-- A property that holds after an event exactly if it held before and the event meets the
condition : what is lost once is not regained. -/
theorem foldl_iff_eachStep {I P : σ → Prop} {C : σ → ε → Prop}
    (hI : ∀ s e, I s → I (step s e)) (hP : ∀ s e, I s → (P (step s e) ↔ P s ∧ C s e)) {s : σ}
    (hs : I s) (es : List ε) : P (es.foldl step s) ↔ P s ∧ EachStep step C s es := by
  induction es generalizing s with
  | nil => exact (and_iff_left trivial).symm
  | cons e es ih => rw [List.foldl_cons, ih (hI s e hs), hP s e hs, and_assoc, EachStep]

/-! ## Two machines that answer -/

section

variable {τ α β : Type*}

/-- What the machine answers, event by event. -/
def outputs (step : σ → ε → σ × α) : σ → List ε → List α
  | _, [] => []
  | s, e :: es => (step s e).2 :: outputs step (step s e).1 es

/-- What every event that meets the condition answers, where the events before it have kept an
invariant. -/
theorem EachStep.forall_mem_outputs {step : σ → ε → σ × α} {I : σ → Prop} {C : σ → ε → Prop}
    {Q : α → Prop} (hstep : ∀ s e, I s → C s e → I (step s e).1 ∧ Q (step s e).2) {s : σ}
    {es : List ε} (hC : EachStep (fun s e => (step s e).1) C s es) (hs : I s) :
    ∀ a ∈ outputs step s es, Q a := by
  induction es generalizing s with
  | nil => exact fun a ha => absurd ha List.not_mem_nil
  | cons e es ih =>
    obtain ⟨he, hes⟩ := hC
    obtain ⟨hnext, hanswer⟩ := hstep s e hs he
    intro a ha
    rcases List.mem_cons.1 ha with rfl | ha
    · exact hanswer
    · exact ih hes hnext a ha

/-- Two machines that answer alike on every event that meets the condition, along a run whose
events meet it. -/
theorem forall₂_outputs {stepS : σ → ε → σ × α} {stepT : τ → ε → τ × β} {R : σ → τ → Prop}
    {C : σ → ε → Prop} {Q : α → β → Prop}
    (hstep : ∀ s t e, R s t → C s e →
      R (stepS s e).1 (stepT t e).1 ∧ Q (stepS s e).2 (stepT t e).2)
    {s : σ} {t : τ} {es : List ε} (hC : EachStep (fun s e => (stepS s e).1) C s es) (h : R s t) :
    List.Forall₂ Q (outputs stepS s es) (outputs stepT t es) := by
  induction es generalizing s t with
  | nil => exact .nil
  | cons e es ih =>
    obtain ⟨he, hes⟩ := hC
    obtain ⟨hnext, hanswer⟩ := hstep s t e h he
    exact .cons hanswer (ih hes hnext)

end
