import Mathlib.Logic.Relation
import Mathlib.Order.Basic

/-!
# Sequential machines

A loop with early returns is a machine : one pass either leaves a new state or ends
with a result (`Next`). `Machine.run` makes at most `n` passes and is `none` when they
did not suffice. The states a run passes through are those `Machine.Reaches` relates
to its start, and a machine that halts does so from exactly one of them
(`Machine.exists_reaches_of_run`, `Machine.last_unique`).

Two rules carry the results about runs. `Machine.Reaches.invariant` : what one pass
keeps, every reached state has. `Machine.run_isSome` : a rank that every pass lowers
bounds the passes. What depends on the passes made so far is proved along `Machine.Passes`,
which keeps their states; `Machine.path` computes them.
-/

/-- One pass of a loop: go on from a new state, or end with a result. -/
inductive Next (σ ρ : Type*) where
  | more (s : σ)
  | done (r : ρ)

namespace Machine

variable {σ ρ : Type*} (step : σ → Next σ ρ)

/-- At most `n` passes from `s`. -/
def run : ℕ → σ → Option ρ
  | 0, _ => none
  | n + 1, s =>
    match step s with
    | .more s' => run n s'
    | .done r => some r

/-- `s'` is passed through by the run from `s`. -/
def Reaches : σ → σ → Prop :=
  Relation.ReflTransGen fun a b => step a = .more b

variable {step}

/-- A state set that every pass keeps holds everything reached from it. -/
theorem Reaches.invariant {I : σ → Prop} {s s' : σ} (h : Reaches step s s') (hs : I s)
    (hstep : ∀ a b, I a → step a = .more b → I b) : I s' := by
  induction h with
  | refl => exact hs
  | tail _ hab ih => exact hstep _ _ ih hab

variable (step) in
/-- The run from `s` passes through the states of `l`, in this order, and then reaches `s'`. -/
inductive Passes (s : σ) : List σ → σ → Prop
  | start : Passes s [] s
  | pass {l : List σ} {a b : σ} (h : Passes s l a) (hab : step a = .more b) : Passes s (l ++ [a]) b

variable (step) in
/-- The states of the first `n` passes and the one behind them, unless the run ends before. -/
def path : ℕ → σ → Option (List σ × σ)
  | 0, s => some ([], s)
  | n + 1, s => (path n s).bind fun p =>
    match step p.2 with
    | .more b => some (p.1 ++ [p.2], b)
    | .done _ => none

theorem passes_of_path {s : σ} : ∀ {n : ℕ} {p : List σ × σ}, path step n s = some p →
    Passes step s p.1 p.2
  | 0, p, h => by
    obtain rfl := Option.some.inj h
    exact .start
  | n + 1, p, h => by
    obtain ⟨q, hq, h⟩ := Option.bind_eq_some_iff.1 h
    cases hstep : step q.2 with
    | more b =>
      rw [hstep] at h
      obtain rfl := Option.some.inj h
      exact (passes_of_path hq).pass hstep
    | done r =>
      rw [hstep] at h
      cases h

/-- A run that ends, ends at a reached state. -/
theorem exists_reaches_of_run {n : ℕ} {s : σ} {r : ρ} (h : run step n s = some r) :
    ∃ s', Reaches step s s' ∧ step s' = .done r := by
  induction n generalizing s with
  | zero => simp [run] at h
  | succ n ih =>
    cases hs : step s with
    | more a =>
      obtain ⟨s', hr, hd⟩ := ih (by simpa [run, hs] using h)
      exact ⟨s', .head hs hr, hd⟩
    | done r' =>
      obtain rfl : r' = r := by simpa [run, hs] using h
      exact ⟨s, .refl, hs⟩

/-- The state a run ends at is the last it passes through. -/
theorem Reaches.eq_of_done {s s' : σ} {r : ρ} (h : Reaches step s s') (hd : step s = .done r) :
    s' = s := by
  rcases Relation.ReflTransGen.cases_head h with rfl | ⟨a, ha, -⟩
  · rfl
  · rw [hd] at ha
    cases ha

/-- Two states of one run at which it could end are the same state. -/
theorem last_unique {s a b : σ} {r q : ρ} (ha : Reaches step s a) (hb : Reaches step s b)
    (hda : step a = .done r) (hdb : step b = .done q) : a = b ∧ r = q := by
  have hab : a = b := by
    induction ha using Relation.ReflTransGen.head_induction_on with
    | refl => exact (hb.eq_of_done hda).symm
    | head hac _ ih =>
      rcases Relation.ReflTransGen.cases_head hb with rfl | ⟨c, hc, hcb⟩
      · rw [hdb] at hac
        cases hac
      · rw [hac] at hc
        cases hc
        exact ih hcb
  subst hab
  rw [hda] at hdb
  cases hdb
  exact ⟨rfl, rfl⟩

/-- A rank that every pass from an `I`-state lowers bounds the passes of a run. -/
theorem run_isSome (I : σ → Prop) (rank : σ → ℕ)
    (hstep : ∀ a b, I a → step a = .more b → I b ∧ rank b < rank a) :
    ∀ {n : ℕ} {s : σ}, I s → rank s < n → (run step n s).isSome
  | 0, _, _, hn => absurd hn (Nat.not_lt_zero _)
  | n + 1, s, hs, hn => by
    cases h : step s with
    | more a =>
      obtain ⟨ha, hlt⟩ := hstep s a hs h
      simpa [run, h] using run_isSome I rank hstep ha (n := n) (by omega)
    | done r => simp [run, h]

end Machine
