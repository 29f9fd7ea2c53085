import Mathlib.Data.List.Basic
import Mathlib.Tactic.TypeStar

/-!
# A connection with implicit transactions

The connection of Python's `sqlite3` opens a transaction before the first statement that
writes, and leaves it open until the next `commit` or `rollback`, whoever makes it. A program
on it is a list of statements, any of which may raise (`run`).

What a program that returns has committed is the effect of all its statements on the tables it
found, those an earlier program left uncommitted included (`run_commit_of_returns`). A program
that raises before its `commit` has committed nothing (`committed_run_of_raises`). What holds of
every state on the way (`Through`) holds wherever it raises (`through_run`).
-/

namespace Sqlite

variable {T : Type*}

/-- A connection to a database with tables `T` : as last committed, and as it sees them. -/
structure Connection (T : Type*) where
  committed : T
  working : T
  inTransaction : Bool := false

/-- A statement. A `write` is refused by a constraint where it gives nothing. -/
inductive Statement (T : Type*) where
  | select
  | write (f : T → Option T)
  /-- `CREATE ..`, which opens no transaction. -/
  | define (f : T → T)
  /-- A statement that does not compile, as on a table that does not exist. -/
  | invalid
  | begin
  | commit

namespace Connection

/-- One statement, and whether it returns. -/
def exec (c : Connection T) : Statement T → Connection T × Bool
  | .select => (c, true)
  | .write f =>
    match f c.working with
    | some t => ({ c with working := t, inTransaction := true }, true)
    | none => ({ c with inTransaction := true }, false)
  | .define f =>
    if c.inTransaction then ({ c with working := f c.working }, true)
    else ({ c with working := f c.working, committed := f c.working }, true)
  | .invalid => (c, false)
  | .begin => if c.inTransaction then (c, false) else ({ c with inTransaction := true }, true)
  | .commit => ({ c with committed := c.working, inTransaction := false }, true)

/-- A statement that raises, for whatever reason. -/
def fail (c : Connection T) : Statement T → Connection T
  | .write _ => { c with inTransaction := true }
  | _ => c

def rollback (c : Connection T) : Connection T :=
  { c with working := c.committed, inTransaction := false }

/-- The statements in order, up to the first that raises : number `fault`, or one that is
refused. -/
def run : Connection T → List (Statement T) → Option ℕ → Connection T × Bool
  | c, [], _ => (c, true)
  | c, s :: _, some 0 => (c.fail s, false)
  | c, s :: ss, fault =>
    match c.exec s with
    | (c', true) => run c' ss (fault.map (· - 1))
    | (c', false) => (c', false)

end Connection

/-- What the statements make of the tables, where none is refused. -/
def effects : List (Statement T) → T → Option T
  | [], t => some t
  | .write f :: ss, t => (f t).bind (effects ss)
  | .define f :: ss, t => effects ss (f t)
  | .invalid :: _, _ => none
  | _ :: ss, t => effects ss t

theorem effects_select (ss : List (Statement T)) (t : T) :
    effects (.select :: ss) t = effects ss t :=
  rfl

theorem effects_append (ss ss' : List (Statement T)) (t : T) :
    effects (ss ++ ss') t = (effects ss t).bind (effects ss') := by
  induction ss generalizing t with
  | nil => rfl
  | cons s ss ih =>
    cases s with
    | write f =>
      rw [List.cons_append, effects, effects, Option.bind_assoc]
      exact Option.bind_congr fun t' _ => ih t'
    | invalid => rfl
    | define f => exact ih (f t)
    | _ => exact ih t

/-- A statement inside a transaction. -/
def Statement.inner : Statement T → Bool
  | .define _ | .commit => false
  | _ => true

variable {c : Connection T} {s : Statement T} {ss : List (Statement T)} {fault : Option ℕ}

namespace Connection

theorem committed_fail (c : Connection T) (s : Statement T) :
    (c.fail s).committed = c.committed := by
  cases s <;> rfl

theorem committed_exec (h : s.inner = true) : (c.exec s).1.committed = c.committed := by
  cases s with
  | write f =>
    rw [exec]
    split <;> rfl
  | begin =>
    rw [exec]
    split_ifs <;> rfl
  | define f => simp [Statement.inner] at h
  | commit => simp [Statement.inner] at h
  | _ => rfl

theorem run_nil (c : Connection T) (fault : Option ℕ) : c.run [] fault = (c, true) := by
  rw [run]

theorem run_cons_zero (c : Connection T) (s : Statement T) (ss : List (Statement T)) :
    c.run (s :: ss) (some 0) = (c.fail s, false) := by
  rw [run]

theorem run_cons (hf : fault ≠ some 0) : c.run (s :: ss) fault =
    if (c.exec s).2 = true then (c.exec s).1.run ss (fault.map (· - 1))
    else ((c.exec s).1, false) := by
  rw [run]
  · rcases c.exec s with ⟨c', _ | _⟩ <;> rfl
  · exact hf

/-- What every statement keeps, whether it returns or raises, a program keeps. -/
theorem run_invariant {I : Connection T → Prop} (hexec : ∀ s ∈ ss, ∀ c, I c → I (c.exec s).1)
    (hfail : ∀ s ∈ ss, ∀ c, I c → I (c.fail s)) (hc : I c) (fault : Option ℕ) :
    I (c.run ss fault).1 := by
  induction ss generalizing c fault with
  | nil =>
    rw [run_nil]
    exact hc
  | cons s ss ih =>
    by_cases hf : fault = some 0
    · rw [hf, run_cons_zero]
      exact hfail s List.mem_cons_self c hc
    · have hs := hexec s List.mem_cons_self c hc
      rw [run_cons hf]
      split_ifs
      · exact ih (fun s hs => hexec s (List.mem_cons_of_mem _ hs))
          (fun s hs => hfail s (List.mem_cons_of_mem _ hs)) hs _
      · exact hs

/-- Statements inside a transaction commit nothing. -/
theorem committed_run (h : ∀ s ∈ ss, s.inner = true) (fault : Option ℕ) :
    (c.run ss fault).1.committed = c.committed := by
  refine run_invariant (I := fun c' => c'.committed = c.committed) (fun s hs c' hc' => ?_)
    (fun s _ c' hc' => ?_) rfl fault
  · rw [committed_exec (h s hs), hc']
  · rw [committed_fail, hc']

/-- A statement that returns has had its effect. -/
theorem effects_cons_of_returns (h : (c.exec s).2 = true) (ss : List (Statement T)) :
    effects (s :: ss) c.working = effects ss (c.exec s).1.working := by
  cases s with
  | write f =>
    rw [exec] at h ⊢
    rw [effects]
    cases hw : f c.working with
    | none => simp [hw] at h
    | some t => rfl
  | begin =>
    rw [exec]
    split_ifs <;> rfl
  | define f =>
    rw [exec]
    split_ifs <;> rfl
  | invalid => simp [exec] at h
  | select => rfl
  | commit => rfl

/-- A statement that is refused has none. -/
theorem effects_cons_of_refused (hs : s ≠ .begin) (h : (c.exec s).2 = false)
    (ss : List (Statement T)) : effects (s :: ss) c.working = none := by
  cases s with
  | write f =>
    rw [exec] at h
    rw [effects]
    cases hw : f c.working with
    | none => rfl
    | some t => simp [hw] at h
  | begin => exact absurd rfl hs
  | define f =>
    rw [exec] at h
    split_ifs at h
  | invalid => rfl
  | select => simp [exec] at h
  | commit => simp [exec] at h

/-- A program that returns has had all its effects on the tables it found. -/
theorem working_run (hreturns : (c.run ss fault).2 = true) :
    effects ss c.working = some (c.run ss fault).1.working := by
  induction ss generalizing c fault with
  | nil =>
    rw [run_nil]
    rfl
  | cons s ss ih =>
    by_cases hf : fault = some 0
    · rw [hf, run_cons_zero] at hreturns
      exact absurd hreturns (by simp)
    · rw [run_cons hf] at hreturns ⊢
      split_ifs at hreturns ⊢ with hs
      rw [effects_cons_of_returns hs, ih hreturns]

/-- The statement that is made to raise, counted from the second on. -/
theorem forall_mem_shift (hf : fault ≠ some 0) (n : ℕ) :
    (∀ k ∈ fault.map (· - 1), n ≤ k) ↔ ∀ k ∈ fault, n + 1 ≤ k := by
  rcases fault with _ | k
  · simp
  · have hk : k ≠ 0 := by
      rintro rfl
      exact hf rfl
    simp only [Option.map_some, Option.mem_some_iff, forall_eq']
    omega

/-- A program returns if no statement is refused and none is made to raise. -/
theorem run_returns_iff_effects (hss : .begin ∉ ss) : (c.run ss fault).2 = true ↔
    (effects ss c.working).isSome ∧ ∀ k ∈ fault, ss.length ≤ k := by
  induction ss generalizing c fault with
  | nil => simp [run_nil, effects]
  | cons s ss ih =>
    have hs : s ≠ .begin := fun hs => hss (hs ▸ List.mem_cons_self)
    by_cases hf : fault = some 0
    · rw [hf, run_cons_zero]
      simp
    · rw [run_cons hf]
      rcases hexec : (c.exec s).2 with _ | _
      · rw [effects_cons_of_refused hs hexec]
        simp
      · rw [if_pos rfl, ih fun hmem => hss (List.mem_cons_of_mem _ hmem),
          effects_cons_of_returns hexec]
        exact and_congr_right fun _ => forall_mem_shift hf ss.length

theorem shift_shift (fault : Option ℕ) (n : ℕ) :
    (fault.map (· - 1)).map (· - n) = fault.map (· - (n + 1)) := by
  rcases fault with _ | k
  · rfl
  · simp only [Option.map_some]
    congr 1
    omega

theorem run_append (c : Connection T) (ss ss' : List (Statement T)) (fault : Option ℕ) :
    c.run (ss ++ ss') fault =
      if (c.run ss fault).2 = true then (c.run ss fault).1.run ss' (fault.map (· - ss.length))
      else c.run ss fault := by
  induction ss generalizing c fault with
  | nil => simp [run_nil]
  | cons t ss ih =>
    by_cases hf : fault = some 0
    · rw [hf, List.cons_append, run_cons_zero, run_cons_zero]
      simp
    · rw [List.cons_append, run_cons hf, run_cons hf]
      by_cases ht : (c.exec t).2 = true
      · rw [if_pos ht, if_pos ht, ih, shift_shift, List.length_cons]
      · rw [if_neg ht, if_neg ht, if_neg (by simp)]

/-- A program that returns from its `commit` has committed all its effects. -/
theorem run_commit_of_returns (h : (c.run (ss ++ [.commit]) fault).2 = true) :
    ∃ t, effects ss c.working = some t ∧ (c.run (ss ++ [.commit]) fault).1 = ⟨t, t, false⟩ := by
  rw [run_append] at h ⊢
  split_ifs at h ⊢ with hreturns
  · refine ⟨_, working_run hreturns, ?_⟩
    by_cases hf : fault.map (· - ss.length) = some 0
    · rw [hf, run_cons_zero] at h
      exact absurd h (by simp)
    · rw [run_cons hf, run_nil]
      rfl
  · exact absurd h hreturns

/-- A program that raises before its `commit` is done has committed nothing. -/
theorem committed_run_of_raises (hinner : ∀ s ∈ ss, s.inner = true)
    (h : (c.run (ss ++ [.commit]) fault).2 = false) :
    (c.run (ss ++ [.commit]) fault).1.committed = c.committed := by
  rw [run_append] at h ⊢
  split_ifs at h ⊢ with hreturns
  · by_cases hf : fault.map (· - ss.length) = some 0
    · rw [hf, run_cons_zero]
      exact committed_run hinner fault
    · rw [run_cons hf, run_nil] at h
      exact absurd h (by simp [exec])
  · exact committed_run hinner fault

end Connection

/-- A statement that is refused in no state. -/
def Statement.Total : Statement T → Prop
  | .write f => ∀ t, (f t).isSome
  | .invalid | .begin => False
  | _ => True

namespace Connection

theorem effects_of_total (h : ∀ s ∈ ss, s.Total) (t : T) : (effects ss t).isSome := by
  induction ss generalizing t with
  | nil => rfl
  | cons s ss ih =>
    have htotal := h s List.mem_cons_self
    have ih := ih fun s hs => h s (List.mem_cons_of_mem _ hs)
    cases s with
    | write f =>
      obtain ⟨t', ht'⟩ := Option.isSome_iff_exists.1 (htotal t)
      rw [effects, ht']
      exact ih t'
    | define f => exact ih (f t)
    | invalid => exact htotal.elim
    | begin => exact htotal.elim
    | _ => exact ih t

/-- A program of statements that are never refused returns unless it is made to raise. -/
theorem run_returns_iff (h : ∀ s ∈ ss, s.Total) :
    (c.run ss fault).2 = true ↔ ∀ k ∈ fault, ss.length ≤ k := by
  have hbegin : .begin ∉ ss := fun hmem => h _ hmem
  rw [run_returns_iff_effects hbegin]
  exact and_iff_right (effects_of_total h c.working)

end Connection

/-! ## Every state on the way -/

/-- Every state of the tables that the statements pass through has `I`. -/
def Through (I : T → Prop) : List (Statement T) → T → Prop
  | [], t => I t
  | .write f :: ss, t => I t ∧ ∀ t', f t = some t' → Through I ss t'
  | .define f :: ss, t => I t ∧ Through I ss (f t)
  | .invalid :: _, t => I t
  | _ :: ss, t => Through I ss t

variable {I : T → Prop}

theorem Through.holds {t : T} (h : Through I ss t) : I t := by
  induction ss with
  | nil => exact h
  | cons s ss ih =>
    cases s with
    | write f => exact h.1
    | define f => exact h.1
    | invalid => exact h
    | _ => exact ih h

/-- Wherever a program raises, what the connection sees and what it has committed have `I`. -/
theorem Connection.through_run (h : Through I ss c.working) (hc : I c.committed)
    (fault : Option ℕ) :
    I (c.run ss fault).1.working ∧ I (c.run ss fault).1.committed := by
  induction ss generalizing c fault with
  | nil =>
    rw [run_nil]
    exact ⟨h, hc⟩
  | cons s ss ih =>
    by_cases hf : fault = some 0
    · rw [hf, run_cons_zero, committed_fail]
      refine ⟨?_, hc⟩
      cases s <;> exact h.holds
    · rw [run_cons hf]
      cases s with
      | select => exact ih h hc _
      | invalid => exact ⟨h, hc⟩
      | commit => exact ih (c := ⟨c.working, c.working, false⟩) h h.holds _
      | write f =>
        rw [exec]
        rcases hw : f c.working with _ | t
        · exact ⟨h.1, hc⟩
        · exact ih (c := ⟨c.committed, t, true⟩) (h.2 t hw) hc _
      | define f =>
        by_cases ht : c.inTransaction = true
        · rw [exec, if_pos ht]
          exact ih (c := ⟨c.committed, f c.working, c.inTransaction⟩) h.2 hc _
        · rw [exec, if_neg ht]
          exact ih (c := ⟨f c.working, f c.working, c.inTransaction⟩) h.2 h.2.holds _
      | begin =>
        by_cases ht : c.inTransaction = true
        · rw [exec, if_pos ht]
          exact ⟨h.holds, hc⟩
        · rw [exec, if_neg ht]
          exact ih (c := ⟨c.committed, c.working, true⟩) h hc _

/-- A statement that keeps `I`, whatever tables it finds. -/
def Statement.Keeps (I : T → Prop) : Statement T → Prop
  | .write f => ∀ t t', I t → f t = some t' → I t'
  | .define f => ∀ t, I t → I (f t)
  | _ => True

theorem Statement.Keeps.exec (hs : s.Keeps I) (h : I c.working ∧ I c.committed) :
    I (c.exec s).1.working ∧ I (c.exec s).1.committed := by
  obtain ⟨hworking, hcommitted⟩ := h
  cases s with
  | write f =>
    rw [Connection.exec]
    rcases hw : f c.working with _ | t
    · exact ⟨hworking, hcommitted⟩
    · exact ⟨hs c.working t hworking hw, hcommitted⟩
  | define f =>
    rw [Connection.exec]
    split_ifs
    · exact ⟨hs c.working hworking, hcommitted⟩
    · exact ⟨hs c.working hworking, hs c.working hworking⟩
  | begin =>
    rw [Connection.exec]
    split_ifs
    · exact ⟨hworking, hcommitted⟩
    · exact ⟨hworking, hcommitted⟩
  | commit => exact ⟨hworking, hworking⟩
  | _ => exact ⟨hworking, hcommitted⟩

/-- What every statement keeps holds wherever a program raises. -/
theorem Connection.keeps_run (hss : ∀ s ∈ ss, s.Keeps I) (h : I c.working ∧ I c.committed)
    (fault : Option ℕ) :
    I (c.run ss fault).1.working ∧ I (c.run ss fault).1.committed := by
  refine run_invariant (I := fun c => I c.working ∧ I c.committed)
    (fun s hs _ hc => (hss s hs).exec hc) (fun s _ c hc => ?_) h fault
  cases s <;> exact hc

end Sqlite
