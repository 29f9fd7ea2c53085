import OxenClaw.Lib.Sqlite

/-!
# Scripts on a connection

`executescript` commits what is open and then leaves transactions to the script : a statement
outside of one is committed at once, one inside with the script's own `COMMIT`. A script that
raises has left what the statements ahead of that one left (`runScript_of_raisesAt`), and
committed what they made durable (`committed_runScript`) : nothing at all where the script has
opened a transaction first and not ended it (`durable_of_inner`).
-/

namespace Sqlite

variable {T : Type*}

/-- A statement of a script. An `sql` is refused where it gives nothing. -/
inductive ScriptStatement (T : Type*) where
  | sql (f : T → Option T)
  | begin
  | commit
  | rollback

namespace Connection

/-- One statement of a script, and whether it returns. -/
def execScript (c : Connection T) : ScriptStatement T → Connection T × Bool
  | .sql f =>
    match f c.working with
    | some t =>
      if c.inTransaction then ({ c with working := t }, true)
      else ({ c with working := t, committed := t }, true)
    | none => (c, false)
  | .begin => if c.inTransaction then (c, false) else ({ c with inTransaction := true }, true)
  | .commit => if c.inTransaction then ((c.exec .commit).1, true) else (c, false)
  | .rollback => if c.inTransaction then (c.rollback, true) else (c, false)

/-- The statements in order, up to the first that raises : number `fault`, or one that is
refused. -/
def runScript : Connection T → List (ScriptStatement T) → Option ℕ → Connection T × Bool
  | c, [], _ => (c, true)
  | c, _ :: _, some 0 => (c, false)
  | c, s :: ss, fault =>
    match c.execScript s with
    | (c', true) => runScript c' ss (fault.map (· - 1))
    | (c', false) => (c', false)

/-- `executescript`. -/
def executescript (c : Connection T) (ss : List (ScriptStatement T)) (fault : Option ℕ) :
    Connection T × Bool :=
  (c.exec .commit).1.runScript ss fault

/-- A connection without a transaction. -/
def idle (t : T) : Connection T := ⟨t, t, false⟩

/-- Outside of a transaction the connection sees what is committed. -/
def Settled (c : Connection T) : Prop :=
  c.inTransaction = false → c.working = c.committed

/-- The tables as the open transaction sees them. -/
def pending (c : Connection T) : Option T :=
  if c.inTransaction then some c.working else none

end Connection

/-- What statements that return make of the committed tables, with the tables of the open
transaction, if there is one. -/
def durable : Option T → T → List (ScriptStatement T) → T
  | _, t, [] => t
  | none, t, .sql f :: ss => durable none ((f t).getD t) ss
  | none, t, .begin :: ss => durable (some t) t ss
  | none, t, _ :: ss => durable none t ss
  | some w, t, .sql f :: ss => durable (some ((f w).getD w)) t ss
  | some w, t, .begin :: ss => durable (some w) t ss
  | some w, _, .commit :: ss => durable none w ss
  | some _, t, .rollback :: ss => durable none t ss

variable {c : Connection T} {s : ScriptStatement T} {ss : List (ScriptStatement T)}
  {fault : Option ℕ}

/-- A statement that neither ends nor rolls back a transaction. -/
def ScriptStatement.inner : ScriptStatement T → Bool
  | .commit | .rollback => false
  | _ => true

/-- In an open transaction nothing is made durable until it ends. -/
theorem durable_of_inner (w t : T) (h : ∀ s ∈ ss, s.inner = true) : durable (some w) t ss = t := by
  induction ss generalizing w with
  | nil => rfl
  | cons s ss ih =>
    have hrest := fun w => ih w fun s hs => h s (List.mem_cons_of_mem _ hs)
    cases s with
    | sql f => exact hrest _
    | begin => exact hrest w
    | commit => exact absurd (h _ List.mem_cons_self) (by simp [ScriptStatement.inner])
    | rollback => exact absurd (h _ List.mem_cons_self) (by simp [ScriptStatement.inner])

namespace Connection

theorem rollback_eq_idle (c : Connection T) : c.rollback = idle c.committed :=
  rfl

theorem executescript_idle (t : T) (ss : List (ScriptStatement T)) (fault : Option ℕ) :
    (idle t).executescript ss fault = (idle t).runScript ss fault :=
  rfl

theorem settled_idle (t : T) : (idle t).Settled :=
  fun _ => rfl

theorem runScript_nil (c : Connection T) (fault : Option ℕ) : c.runScript [] fault = (c, true) := by
  rw [runScript]

theorem runScript_cons_zero (c : Connection T) (s : ScriptStatement T)
    (ss : List (ScriptStatement T)) : c.runScript (s :: ss) (some 0) = (c, false) := by
  rw [runScript]

theorem runScript_cons (hf : fault ≠ some 0) : c.runScript (s :: ss) fault =
    if (c.execScript s).2 = true then (c.execScript s).1.runScript ss (fault.map (· - 1))
    else ((c.execScript s).1, false) := by
  rw [runScript]
  · rcases c.execScript s with ⟨c', _ | _⟩ <;> rfl
  · exact hf

theorem runScript_append (c : Connection T) (ss ss' : List (ScriptStatement T))
    (fault : Option ℕ) : c.runScript (ss ++ ss') fault =
      if (c.runScript ss fault).2 = true then
        (c.runScript ss fault).1.runScript ss' (fault.map (· - ss.length))
      else c.runScript ss fault := by
  induction ss generalizing c fault with
  | nil => simp [runScript_nil]
  | cons s ss ih =>
    by_cases hf : fault = some 0
    · rw [hf, List.cons_append, runScript_cons_zero, runScript_cons_zero]
      simp
    · rw [List.cons_append, runScript_cons hf, runScript_cons hf]
      by_cases hs : (c.execScript s).2 = true
      · rw [if_pos hs, if_pos hs, ih, shift_shift, List.length_cons]
      · rw [if_neg hs, if_neg hs, if_neg (by simp)]

theorem settled_execScript (h : c.Settled) (s : ScriptStatement T) :
    (c.execScript s).1.Settled := by
  rcases s with f | _ | _ | _
  · rw [execScript]
    cases hf : f c.working with
    | none => exact h
    | some t =>
      dsimp only
      split_ifs with ht
      · intro hnone
        rw [ht] at hnone
        cases hnone
      · exact fun _ => rfl
  · rw [execScript]
    split_ifs
    · exact h
    · rintro ⟨⟩
  · rw [execScript]
    split_ifs
    · exact fun _ => rfl
    · exact h
  · rw [execScript]
    split_ifs
    · exact fun _ => rfl
    · exact h

/-- A statement that is refused changes nothing. -/
theorem execScript_of_refused (h : (c.execScript s).2 = false) : (c.execScript s).1 = c := by
  rcases s with f | _ | _ | _
  · rw [execScript] at h ⊢
    cases hf : f c.working with
    | none => rfl
    | some t =>
      rw [hf] at h
      dsimp only at h
      split_ifs at h
  all_goals
    rw [execScript] at h ⊢
    split_ifs at h ⊢
    rfl

/-- A statement that returns makes durable what it says. -/
theorem durable_cons_of_returns (hc : c.Settled) (h : (c.execScript s).2 = true)
    (ss : List (ScriptStatement T)) :
    durable c.pending c.committed (s :: ss) =
      durable (c.execScript s).1.pending (c.execScript s).1.committed ss := by
  rcases s with f | _ | _ | _
  · rw [execScript] at h ⊢
    cases hf : f c.working with
    | none => simp [hf] at h
    | some t =>
      cases ht : c.inTransaction with
      | true => simp [pending, ht, durable, hf]
      | false =>
        have hworking := hc ht
        simp [pending, ht, durable, ← hworking, hf]
  · rw [execScript] at h ⊢
    split_ifs at h ⊢ with ht
    rw [Bool.not_eq_true] at ht
    simp [pending, ht, durable, hc ht]
  · rw [execScript] at h ⊢
    split_ifs at h ⊢ with ht
    simp [pending, ht, durable, exec]
  · rw [execScript] at h ⊢
    split_ifs at h ⊢ with ht
    simp [pending, ht, durable, rollback]

/-- What a script that returns has committed. -/
theorem committed_runScript (hc : c.Settled) (h : (c.runScript ss fault).2 = true) :
    (c.runScript ss fault).1.committed = durable c.pending c.committed ss := by
  induction ss generalizing c fault with
  | nil =>
    rw [runScript_nil, durable]
  | cons s ss ih =>
    by_cases hf : fault = some 0
    · rw [hf, runScript_cons_zero] at h
      exact absurd h (by simp)
    · rw [runScript_cons hf] at h ⊢
      split_ifs at h ⊢ with hs
      rw [durable_cons_of_returns hc hs, ih (settled_execScript hc s) h]

/-- A statement that raises changes nothing. -/
theorem runScript_singleton_of_raises (h : (c.runScript [s] fault).2 = false) :
    (c.runScript [s] fault).1 = c := by
  by_cases hf : fault = some 0
  · rw [hf, runScript_cons_zero]
  · rw [runScript_cons hf] at h ⊢
    split_ifs at h ⊢ with hs
    · exact absurd h (by simp [runScript_nil])
    · exact execScript_of_refused (Bool.not_eq_true _ ▸ hs)

/-- A script that raises leaves what the statements ahead of that one have left. -/
theorem runScript_of_raisesAt {n : ℕ} (hn : n < ss.length)
    (hahead : (c.runScript (ss.take n) fault).2 = true)
    (hraises : (c.runScript (ss.take (n + 1)) fault).2 = false) :
    c.runScript ss fault = ((c.runScript (ss.take n) fault).1, false) := by
  have hupto : c.runScript (ss.take (n + 1)) fault =
      ((c.runScript (ss.take n) fault).1, false) := by
    rw [List.take_succ_eq_append_getElem hn, runScript_append, if_pos hahead] at hraises ⊢
    exact Prod.ext (runScript_singleton_of_raises hraises) hraises
  have hall := runScript_append c (ss.take (n + 1)) (ss.drop (n + 1)) fault
  rwa [List.take_append_drop, if_neg (by simp [hraises]), hupto] at hall

/-- A script that raises does so at one of its statements. -/
theorem exists_raisesAt (h : (c.runScript ss fault).2 = false) : ∃ n < ss.length,
    (c.runScript (ss.take n) fault).2 = true ∧ (c.runScript (ss.take (n + 1)) fault).2 = false := by
  by_contra hnone
  have hstep (n : ℕ) (hn : n < ss.length) (hahead : (c.runScript (ss.take n) fault).2 = true) :
      (c.runScript (ss.take (n + 1)) fault).2 = true := by
    by_contra hraises
    exact hnone ⟨n, hn, hahead, Bool.not_eq_true _ ▸ hraises⟩
  have hreturns (n : ℕ) (hn : n ≤ ss.length) : (c.runScript (ss.take n) fault).2 = true := by
    induction n with
    | zero => simp [runScript_nil]
    | succ n ih => exact hstep n hn (ih (by omega))
  have hall := hreturns ss.length (Nat.le_refl _)
  rw [List.take_length, h] at hall
  cases hall

end Connection

end Sqlite
