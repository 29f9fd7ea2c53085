import Mathlib.Algebra.Order.Ring.Rat
import OxenClaw.Lib.Dict
import OxenClaw.Lib.Recency
import OxenClaw.Lib.Runs

/-!
# The canvas of each agent

`CanvasStore` keeps what is shown last on the canvas of an agent, of as many agents as it has room
for. What it answers with is what was presented last (`run_shows`), and it forgets an agent exactly
when so many others are presented after its last use that there is no room left
(`get_after_present`).
-/

namespace OxenClaw.Canvas

open Recency (Op)

/-- `CanvasState`. -/
structure CanvasState where
  html : String := ""
  title : String := ""
  version : ℕ := 0
  updatedAt : ℚ
  hidden : Bool := true
  deriving DecidableEq

/-- `CanvasStore` : the constructor refuses a capacity below one. -/
structure CanvasStore where
  capacity : ℕ := 16
  capacity_pos : 0 < capacity
  states : Dict String CanvasState := []

namespace CanvasStore

/-- `_states.move_to_end`. -/
def moveToEnd (states : Dict String CanvasState) (agentId : String) : Dict String CanvasState :=
  match states.get? agentId with
  | some state => states.erase agentId ++ [(agentId, state)]
  | none => states

/-- `_evict_if_needed`. -/
def evictIfNeeded (capacity : ℕ) : Dict String CanvasState → Dict String CanvasState
  | [] => []
  | e :: states =>
    if capacity < states.length + 1 then evictIfNeeded capacity states else e :: states

/-- The version that is presented next. -/
def nextVersion (c : CanvasStore) (agentId : String) : ℕ :=
  match c.states.get? agentId with
  | some existing => existing.version + 1
  | none => 1

/-- `present`. -/
def present (c : CanvasStore) (agentId html title : String) (now : ℚ) :
    CanvasStore × CanvasState :=
  let state : CanvasState := ⟨html, title, c.nextVersion agentId, now, false⟩
  ({ c with
      states := evictIfNeeded c.capacity (moveToEnd (c.states.set agentId state) agentId) }, state)

/-- `hide`. -/
def hide (c : CanvasStore) (agentId : String) (now : ℚ) : CanvasStore × Option CanvasState :=
  match c.states.get? agentId with
  | none => (c, none)
  | some state =>
    let state' := { state with hidden := true, updatedAt := now }
    ({ c with states := moveToEnd (c.states.set agentId state') agentId }, some state')

/-- `clear`. -/
def clear (c : CanvasStore) (agentId : String) : CanvasStore :=
  { c with states := c.states.erase agentId }

/-- `get`. -/
def get (c : CanvasStore) (agentId : String) : CanvasStore × Option CanvasState :=
  match c.states.get? agentId with
  | none => (c, none)
  | some state => ({ c with states := moveToEnd c.states agentId }, some state)

/-- `known_agents`. -/
def knownAgents (c : CanvasStore) : List String :=
  c.states.keys

/-- A call on the store. -/
inductive Call where
  | present (agentId html title : String) (now : ℚ)
  | hide (agentId : String) (now : ℚ)
  | clear (agentId : String)
  | get (agentId : String)

def step (c : CanvasStore) : Call → CanvasStore
  | .present agentId html title now => (c.present agentId html title now).1
  | .hide agentId now => (c.hide agentId now).1
  | .clear agentId => c.clear agentId
  | .get agentId => (c.get agentId).1

variable {c : CanvasStore} {states : Dict String CanvasState} {agentId : String}
  {state : CanvasState} {capacity : ℕ}

/-! ## The order of the agents -/

theorem evictIfNeeded_eq (capacity : ℕ) (states : Dict String CanvasState) :
    evictIfNeeded capacity states = states.drop (states.length - capacity) := by
  induction states with
  | nil => exact List.drop_nil.symm
  | cons e states ih =>
    rw [evictIfNeeded, List.length_cons]
    split_ifs with h
    · rw [ih, Nat.succ_sub (Nat.lt_succ_iff.1 h), List.drop_succ_cons]
    · rw [Nat.sub_eq_zero_of_le (not_lt.1 h), List.drop_zero]

theorem keys_evictIfNeeded (capacity : ℕ) (states : Dict String CanvasState) :
    (evictIfNeeded capacity states).keys = Recency.keep capacity states.keys := by
  rw [evictIfNeeded_eq, Dict.keys, List.map_drop, Recency.keep, Dict.keys, List.length_map]

theorem moveToEnd_set (states : Dict String CanvasState) (agentId : String)
    (state : CanvasState) :
    moveToEnd (states.set agentId state) agentId = states.erase agentId ++ [(agentId, state)] := by
  rw [moveToEnd, Dict.get?_set_self]
  dsimp only
  congr 1
  exact Dict.filter_set_of_neg (p := fun k => decide (k ≠ agentId)) (by simp) state states

theorem decide_ne_eq_bne (k agentId : String) : decide (k ≠ agentId) = (k != agentId) := by
  rw [Bool.eq_iff_iff, decide_eq_true_iff, bne_iff_ne]

theorem keys_moveToEnd_set (h : states.keys.Nodup) (agentId : String) (state : CanvasState) :
    (moveToEnd (states.set agentId state) agentId).keys = Recency.use states.keys agentId := by
  rw [moveToEnd_set, Dict.keys, List.map_append, List.map_singleton, Recency.use,
    h.erase_eq_filter]
  congr 1
  rw [← Dict.keys, Dict.keys_erase]
  exact List.filter_congr fun k _ => decide_ne_eq_bne k agentId

theorem set_self_of_get? (h : states.get? agentId = some state) :
    states.set agentId state = states := by
  induction states with
  | nil => cases h
  | cons e states ih =>
    rcases e with ⟨agentId', state'⟩
    rw [Dict.get?_cons] at h
    rw [Dict.set]
    split_ifs at h ⊢ with heq
    · rw [← Option.some.inj h]
    · rw [ih h]

/-- What a call does to the order of the agents. -/
def Call.op : Call → Op String
  | .present agentId _ _ _ => .enter agentId
  | .hide agentId _ => .visit agentId
  | .clear agentId => .drop agentId
  | .get agentId => .visit agentId

/-- Every agent is there once, and there are not too many. -/
structure Ok (c : CanvasStore) : Prop where
  nodup : c.states.keys.Nodup
  length_le : c.states.keys.length ≤ c.capacity

theorem keys_step (h : c.states.keys.Nodup) (call : Call) :
    (c.step call).states.keys = Recency.step c.capacity c.states.keys call.op ∧
      (c.step call).capacity = c.capacity := by
  rcases call with ⟨agentId, html, title, now⟩ | ⟨agentId, now⟩ | agentId | agentId
  · refine ⟨?_, rfl⟩
    change (evictIfNeeded c.capacity (moveToEnd (c.states.set agentId _) agentId)).keys = _
    rw [keys_evictIfNeeded, keys_moveToEnd_set h, Call.op, Recency.step]
  · rw [step, hide, Call.op, Recency.step]
    rcases hget : c.states.get? agentId with _ | state
    · rw [if_neg (Dict.get?_eq_none_iff.1 hget)]
      exact ⟨rfl, rfl⟩
    · rw [if_pos (Dict.mem_keys_iff.2 ⟨state, hget⟩)]
      exact ⟨keys_moveToEnd_set h agentId _, rfl⟩
  · refine ⟨?_, rfl⟩
    rw [step, clear, Dict.keys_erase, Call.op, Recency.step, h.erase_eq_filter]
    exact List.filter_congr fun k _ => decide_ne_eq_bne k agentId
  · rw [step, get, Call.op, Recency.step]
    rcases hget : c.states.get? agentId with _ | state
    · rw [if_neg (Dict.get?_eq_none_iff.1 hget)]
      exact ⟨rfl, rfl⟩
    · rw [if_pos (Dict.mem_keys_iff.2 ⟨state, hget⟩)]
      refine ⟨?_, rfl⟩
      have hmoved := keys_moveToEnd_set h agentId state
      rwa [set_self_of_get? hget] at hmoved

theorem Ok.step (h : Ok c) (call : Call) : Ok (c.step call) := by
  obtain ⟨hkeys, hcapacity⟩ := keys_step h.nodup call
  refine ⟨?_, ?_⟩
  · rw [hkeys]
    exact Recency.nodup_step h.nodup call.op
  · rw [hkeys, hcapacity]
    exact Recency.length_step_le h.length_le call.op

/-- A store with nothing in it. -/
def empty (capacity : ℕ) (hpos : 0 < capacity) : CanvasStore :=
  { capacity, capacity_pos := hpos }

/-- The store after some calls. -/
def run (capacity : ℕ) (hpos : 0 < capacity) (calls : List Call) : CanvasStore :=
  calls.foldl step (empty capacity hpos)

theorem ok_run (hpos : 0 < capacity) (calls : List Call) :
    Ok (run capacity hpos calls) ∧ (run capacity hpos calls).capacity = capacity := by
  have hempty : Ok (empty capacity hpos) := ⟨List.nodup_nil, Nat.zero_le _⟩
  exact foldl_invariant (I := fun c => Ok c ∧ c.capacity = capacity)
    (fun _ call h => ⟨h.1.step call, (keys_step h.1.nodup call).2.trans h.2⟩) ⟨hempty, rfl⟩ calls

/-! ## What is shown -/

/-- What an agent has presented last, unless it was cleared since, whether it was hidden since,
and how often it has presented since it was cleared. -/
structure Shown where
  html : String
  title : String
  hidden : Bool
  presents : ℕ

def Shown.next (agentId : String) (shown : Option Shown) : Call → Option Shown
  | .present agentId' html title _ =>
    if agentId' = agentId then
      some ⟨html, title, false, (shown.elim 0 Shown.presents) + 1⟩
    else shown
  | .hide agentId' _ =>
    if agentId' = agentId then shown.map fun s => { s with hidden := true } else shown
  | .clear agentId' => if agentId' = agentId then none else shown
  | .get _ => shown

def lastShown (agentId : String) (calls : List Call) : Option Shown :=
  calls.foldl (Shown.next agentId) none

/-- What the store has is what is shown. The count of an agent that was forgotten starts anew. -/
def Matches (state : CanvasState) (shown : Option Shown) : Prop :=
  ∃ s, shown = some s ∧ state.html = s.html ∧ state.title = s.title ∧ state.hidden = s.hidden ∧
    1 ≤ state.version ∧ state.version ≤ s.presents

theorem get?_of_drop {m : ℕ} (h : states.keys.Nodup)
    (hget : Dict.get? (states.drop m) agentId = some state) : states.get? agentId = some state :=
  Dict.get?_of_mem h (List.mem_of_mem_drop (Dict.mem_of_get? hget))

theorem get?_erase_append {agentId' : String} {state' : CanvasState}
    (h : Dict.get? (states.erase agentId ++ [(agentId, state)]) agentId' = some state') :
    (agentId = agentId' ∧ state = state') ∨
      (agentId ≠ agentId' ∧ states.get? agentId' = some state') := by
  rw [Dict.get?_append, Dict.get?_cons, Dict.get?_nil] at h
  by_cases heq : agentId = agentId'
  · subst heq
    rw [Dict.get?_erase_self, Option.none_or, if_pos rfl] at h
    exact .inl ⟨rfl, Option.some.inj h⟩
  · rw [Dict.get?_erase_of_ne (Ne.symm heq), if_neg heq, Option.or_none] at h
    exact .inr ⟨heq, h⟩

/-- What is presented last is shown last. -/
theorem matches_step (hok : Ok c) {shown : String → Option Shown}
    (h : ∀ agentId state, c.states.get? agentId = some state → Matches state (shown agentId))
    (call : Call) {agentId : String} {state : CanvasState}
    (hget : (c.step call).states.get? agentId = some state) :
    Matches state (Shown.next agentId (shown agentId) call) := by
  have hnodup (agentId' : String) (state' : CanvasState) :
      (moveToEnd (c.states.set agentId' state') agentId').keys.Nodup := by
    rw [keys_moveToEnd_set hok.nodup]
    exact Recency.nodup_use hok.nodup agentId'
  rcases call with ⟨agentId', html, title, now⟩ | ⟨agentId', now⟩ | agentId' | agentId'
  · have hmoved : (moveToEnd (c.states.set agentId' ⟨html, title, c.nextVersion agentId', now,
        false⟩) agentId').get? agentId = some state := by
      rw [step, present] at hget
      dsimp only at hget
      rw [evictIfNeeded_eq] at hget
      exact get?_of_drop (hnodup _ _) hget
    rw [moveToEnd_set] at hmoved
    rw [Shown.next]
    rcases get?_erase_append hmoved with ⟨rfl, rfl⟩ | ⟨hne, hold⟩
    · rw [if_pos rfl]
      refine ⟨_, rfl, rfl, rfl, rfl, ?_⟩
      dsimp only
      rw [nextVersion]
      rcases hexisting : c.states.get? agentId' with _ | existing
      · exact ⟨le_rfl, Nat.succ_le_succ (Nat.zero_le _)⟩
      · obtain ⟨s, hs, -, -, -, -, hle⟩ := h agentId' existing hexisting
        rw [hs]
        exact ⟨Nat.succ_le_succ (Nat.zero_le _), Nat.succ_le_succ hle⟩
    · rw [if_neg hne]
      exact h agentId state hold
  · rw [Shown.next]
    rw [step, hide] at hget
    rcases hexisting : c.states.get? agentId' with _ | existing
    · rw [hexisting] at hget
      split_ifs with heq
      · subst heq
        cases hexisting.symm.trans hget
      · exact h agentId state hget
    · rw [hexisting] at hget
      dsimp only at hget
      rw [moveToEnd_set] at hget
      rcases get?_erase_append hget with ⟨rfl, rfl⟩ | ⟨hne, hold⟩
      · obtain ⟨s, hs, hhtml, htitle, -, hversion⟩ := h agentId' existing hexisting
        rw [if_pos rfl, hs]
        exact ⟨_, rfl, hhtml, htitle, rfl, hversion⟩
      · rw [if_neg hne]
        exact h agentId state hold
  · obtain ⟨hne, hold⟩ := Dict.get?_of_get?_erase hget
    rw [Shown.next, if_neg (Ne.symm hne)]
    exact h agentId state hold
  · rw [Shown.next]
    rw [step, get] at hget
    rcases hexisting : c.states.get? agentId' with _ | existing
    · rw [hexisting] at hget
      exact h agentId state hget
    · rw [hexisting] at hget
      dsimp only at hget
      rw [← set_self_of_get? hexisting, moveToEnd_set] at hget
      rcases get?_erase_append hget with ⟨rfl, rfl⟩ | ⟨hne, hold⟩
      · exact h agentId' existing hexisting
      · exact h agentId state hold

theorem get_snd (c : CanvasStore) (agentId : String) :
    (c.get agentId).2 = c.states.get? agentId := by
  rw [get]
  rcases c.states.get? agentId with _ | state
  · rfl
  · rfl

/-- There are never more agents than there is room for, and what the store answers with is what the
agent presented last and was not cleared since, hidden if it was hidden since, and with a version
that counts no more than what was presented. -/
theorem run_shows (capacity : ℕ) (hpos : 0 < capacity) (calls : List Call) :
    (run capacity hpos calls).knownAgents.Nodup ∧
    (run capacity hpos calls).knownAgents.length ≤ capacity ∧
    ∀ agentId state, ((run capacity hpos calls).get agentId).2 = some state →
      Matches state (lastShown agentId calls) := by
  obtain ⟨hok, hcapacity⟩ := ok_run hpos calls
  refine ⟨hok.nodup, hok.length_le.trans_eq hcapacity, fun agentId state hget => ?_⟩
  rw [get_snd] at hget
  clear hok hcapacity
  induction calls using List.reverseRecOn generalizing agentId state with
  | nil => cases hget
  | append_singleton calls call ih =>
    have hrun : run capacity hpos (calls ++ [call]) = (run capacity hpos calls).step call := by
      rw [run, List.foldl_append]
      rfl
    rw [hrun] at hget
    rw [lastShown, List.foldl_append]
    exact matches_step (ok_run hpos calls).1 ih call hget

/-- What was presented and then hidden is shown as hidden. -/
theorem run_shows_hidden :
    ∃ state, ((run 1 Nat.one_pos [.present "a" "p" "" 0, .hide "a" 1]).get "a").2 = some state ∧
      Matches state (lastShown "a" [.present "a" "p" "" 0, .hide "a" 1]) :=
  ⟨_, rfl, (run_shows 1 Nat.one_pos [.present "a" "p" "" 0, .hide "a" 1]).2.2 "a" _ rfl⟩

/-! ## Who is forgotten -/

/-- A call about another agent does not change what an agent shows. -/
theorem get?_of_step {call : Call} (hok : Ok c) (hne : call.op.key ≠ agentId)
    (h : (c.step call).states.get? agentId = some state) : c.states.get? agentId = some state := by
  rcases call with ⟨agentId', html, title, now⟩ | ⟨agentId', now⟩ | agentId' | agentId'
  · have hnodup := Recency.nodup_use hok.nodup agentId'
    rw [← keys_moveToEnd_set hok.nodup] at hnodup
    rw [step, present] at h
    dsimp only at h
    rw [evictIfNeeded_eq] at h
    have hmoved := get?_of_drop hnodup h
    rw [moveToEnd_set] at hmoved
    exact ((get?_erase_append hmoved).resolve_left fun heq => hne heq.1).2
  · rw [step, hide] at h
    rcases hexisting : c.states.get? agentId' with _ | existing
    · rw [hexisting] at h
      exact h
    · rw [hexisting] at h
      dsimp only at h
      rw [moveToEnd_set] at h
      exact ((get?_erase_append h).resolve_left fun heq => hne heq.1).2
  · exact (Dict.get?_of_get?_erase h).2
  · rw [step, get] at h
    rcases hexisting : c.states.get? agentId' with _ | existing
    · rw [hexisting] at h
      exact h
    · rw [hexisting] at h
      dsimp only at h
      rw [← set_self_of_get? hexisting, moveToEnd_set] at h
      exact ((get?_erase_append h).resolve_left fun heq => hne heq.1).2

theorem get?_of_foldl {calls : List Call} (hok : Ok c)
    (hcalls : ∀ call ∈ calls, call.op.key ≠ agentId)
    (h : (calls.foldl step c).states.get? agentId = some state) :
    c.states.get? agentId = some state := by
  induction calls generalizing c with
  | nil => exact h
  | cons call calls ih =>
    obtain ⟨hne, hrest⟩ := List.forall_mem_cons.1 hcalls
    exact get?_of_step hok hne (ih (hok.step call) hrest h)

/-- Who presents something is last. -/
theorem get?_present (c : CanvasStore) (agentId html title : String) (now : ℚ) :
    (c.present agentId html title now).1.states.get? agentId =
      some ⟨html, title, c.nextVersion agentId, now, false⟩ := by
  rw [present]
  dsimp only
  rw [moveToEnd_set, evictIfNeeded_eq, List.length_append, List.length_singleton,
    List.drop_append_of_le_length]
  · have hgone : Dict.get? ((c.states.erase agentId).drop
        ((c.states.erase agentId).length + 1 - c.capacity)) agentId = none := by
      refine Dict.get?_eq_none_iff.2 fun hmem => ?_
      rw [Dict.keys, List.map_drop, ← Dict.keys, Dict.keys_erase] at hmem
      exact (of_decide_eq_true (List.mem_filter.1 (List.mem_of_mem_drop hmem)).2) rfl
    rw [Dict.get?_append, hgone, Option.none_or, Dict.get?_cons, if_pos rfl]
  · have hpos := c.capacity_pos
    omega

theorem keys_foldl (h : Ok c) (calls : List Call) :
    (calls.foldl step c).states.keys =
      (calls.map Call.op).foldl (Recency.step c.capacity) c.states.keys := by
  induction calls generalizing c with
  | nil => rfl
  | cons call calls ih =>
    obtain ⟨hkeys, hcapacity⟩ := keys_step h.nodup call
    rw [List.foldl_cons, ih (h.step call), hkeys, hcapacity]
    rfl

/-- The agents that present something. -/
def presenters (calls : List Call) : List String :=
  calls.filterMap fun
    | .present agentId _ _ _ => some agentId
    | _ => none

theorem entered_map_op (calls : List Call) :
    Recency.entered (calls.map Call.op) = presenters calls := by
  rw [Recency.entered, presenters, List.filterMap_map]
  refine List.filterMap_congr fun call _ => ?_
  rcases call with ⟨agentId, html, title, now⟩ | ⟨agentId, now⟩ | agentId | agentId
  · rfl
  · rfl
  · rfl
  · rfl

/-- After an agent has presented something, it is known while calls are about fewer others than
there is room for, and forgotten once as many others have presented, where none is cleared. -/
theorem get_after_present (capacity : ℕ) (hpos : 0 < capacity) (before : List Call)
    (agentId html title : String) (now : ℚ) (others : List Call)
    (hothers : ∀ call ∈ others, call.op.key ≠ agentId) :
    ((others.map fun call => call.op.key).toFinset.card < capacity →
      ∃ version, ((run capacity hpos (before ++ .present agentId html title now :: others)).get
        agentId).2 = some ⟨html, title, version, now, false⟩) ∧
    ((∀ agentId', .clear agentId' ∉ others) → capacity ≤ (presenters others).toFinset.card →
      ((run capacity hpos (before ++ .present agentId html title now :: others)).get agentId).2 =
        none) := by
  obtain ⟨hbefore, hcapacity⟩ := ok_run hpos before
  set c := run capacity hpos before
  have hpresent := hbefore.step (.present agentId html title now)
  obtain ⟨hkeys, hcapacity'⟩ := keys_step hbefore.nodup (.present agentId html title now)
  rw [Call.op, Recency.step, hcapacity] at hkeys
  rw [hcapacity] at hcapacity'
  have hlast :
      Recency.Behind (c.step (.present agentId html title now)).states.keys agentId [] := by
    rw [hkeys]
    exact Recency.Behind.keep ⟨_, rfl⟩ hpos
  have hrun : run capacity hpos (before ++ .present agentId html title now :: others) =
      others.foldl step (c.step (.present agentId html title now)) := by
    rw [run, List.foldl_append, List.foldl_cons]
    rfl
  have horder := keys_foldl hpresent others
  rw [hcapacity', ← hrun] at horder
  have hops : ∀ op ∈ others.map Call.op, op.key ≠ agentId := by
    rintro op hop
    obtain ⟨call, hcall, rfl⟩ := List.mem_map.1 hop
    exact hothers call hcall
  rw [get_snd]
  refine ⟨fun hcard => ?_, fun hkept hcard => ?_⟩
  · have hmem : agentId ∈ (run capacity hpos
        (before ++ .present agentId html title now :: others)).states.keys := by
      rw [horder]
      refine Recency.mem_foldl_of_card_lt hlast hpresent.nodup (List.forall_mem_nil _) hcard
        fun op hop => ?_
      obtain ⟨call, hcall, rfl⟩ := List.mem_map.1 hop
      exact ⟨hothers call hcall, List.mem_toFinset.2 (List.mem_map_of_mem hcall)⟩
    obtain ⟨state, hstate⟩ := Dict.mem_keys_iff.1 hmem
    have hshown := hstate
    rw [hrun] at hshown
    have hsame := get?_of_foldl hpresent hothers hshown
    rw [step, get?_present] at hsame
    exact ⟨_, hstate.trans hsame.symm⟩
  · refine Dict.get?_eq_none_iff.2 ?_
    rw [horder]
    refine Recency.notMem_foldl_of_le_card hlast hpresent.nodup ?_ ?_ hops ?_
    · exact hpresent.length_le.trans_eq hcapacity'
    · intro agentId' hdrop
      obtain ⟨call, hcall, hop⟩ := List.mem_map.1 hdrop
      rcases call with ⟨agentId'', html', title', now'⟩ | ⟨agentId'', now'⟩ | agentId'' | agentId''
      · cases hop
      · cases hop
      · exact hkept agentId'' hcall
      · cases hop
    · rw [List.nil_append, entered_map_op]
      exact hcard

/-- Where there is room for two, one other agent leaves the first, and two do not. -/
theorem get_after_present_two :
    (∃ version, ((run 2 Nat.two_pos [.present "a" "p" "" 0, .present "b" "q" "" 1]).get "a").2 =
      some ⟨"p", "", version, 0, false⟩) ∧
    ((run 2 Nat.two_pos [.present "a" "p" "" 0, .present "b" "q" "" 1,
      .present "c" "r" "" 2]).get "a").2 = none := by
  have hab : "b" ≠ "a" := by decide
  have hac : "c" ≠ "a" := by decide
  refine ⟨(get_after_present 2 Nat.two_pos [] "a" "p" "" 0 [.present "b" "q" "" 1] ?_).1
      (by decide), (get_after_present 2 Nat.two_pos [] "a" "p" "" 0
      [.present "b" "q" "" 1, .present "c" "r" "" 2] ?_).2 ?_ (by decide)⟩
  · exact List.forall_mem_cons.2 ⟨hab, nofun⟩
  · exact List.forall_mem_cons.2 ⟨hab, List.forall_mem_cons.2 ⟨hac, nofun⟩⟩
  · rintro agentId' hclear
    simp at hclear

end CanvasStore

end OxenClaw.Canvas
