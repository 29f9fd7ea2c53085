import Mathlib.Algebra.Ring.Nat
import Mathlib.Data.List.TakeWhile
import OxenClaw.Lib.Exchange
import OxenClaw.Pi.Messages

/-!
# The window of a conversation history

`ConversationHistory.truncate_to_window` of `agents/history.py`. Behind the leading system message
the oldest messages are dropped, leading tool messages together with the message after them, until
the rest fits. What is left is the rest from one place on (`truncateLoop_eq`), which need not be
one where no tool message has lost its call, nor one before the newest message (`windowed_iff`).
-/

namespace OxenClaw.ConversationHistory

open OxenClaw

/-! ## The size of a message -/

/-- What a character takes in a JSON string. -/
def escapedLength (c : Char) : ℕ :=
  if c ∈ ['"', '\\', '\n', '\r', '\t', '\x08', '\x0c'] then 2
  else if c.toNat < 32 then 6 else 1

def stringLength (s : String) : ℕ :=
  (s.toList.map escapedLength).sum + 2

mutual

/-- `len(json.dumps(v, ensure_ascii=False))`, with the length of a float as a parameter. -/
def dumpsLength (floatLength : ℚ → ℕ) : Json → ℕ
  | .null => 4
  | .bool b => if b then 4 else 5
  | .int n => (toString n).length
  | .float x => floatLength x
  | .str s => stringLength s
  | .arr xs => itemsLength floatLength xs + 2
  | .obj fields => fieldsLength floatLength fields + 2

/-- With `", "` between two items. -/
def itemsLength (floatLength : ℚ → ℕ) : List Json → ℕ
  | [] => 0
  | [v] => dumpsLength floatLength v
  | v :: w :: vs => dumpsLength floatLength v + 2 + itemsLength floatLength (w :: vs)

def fieldsLength (floatLength : ℚ → ℕ) : List (String × Json) → ℕ
  | [] => 0
  | [(k, v)] => stringLength k + 2 + dumpsLength floatLength v
  | (k, v) :: e :: es =>
    stringLength k + 2 + dumpsLength floatLength v + 2 + fieldsLength floatLength (e :: es)

end

/-- `total()`. -/
def total (floatLength : ℚ → ℕ) (messages : List Args) : ℕ :=
  (messages.map fun m => dumpsLength floatLength (.obj m)).sum

/-! ## The window -/

/-- `m.get("role") == role`. -/
def hasRole (role : String) (m : Args) : Bool :=
  match m.get "role" with
  | some (.str s) => s = role
  | _ => false

abbrev isTool (m : Args) : Bool := hasRole "tool" m

/-- The messages after the head, with the tool messages in front of them and one more popped. -/
def dropGroup (headOffset : ℕ) (messages : List Args) : List Args :=
  messages.take headOffset ++ ((messages.drop headOffset).dropWhile isTool).tail

theorem length_dropGroup_lt {headOffset : ℕ} {messages : List Args}
    (h : headOffset < messages.length) : (dropGroup headOffset messages).length < messages.length := by
  have hle : ((messages.drop headOffset).dropWhile isTool).length ≤ messages.length - headOffset :=
    (List.dropWhile_suffix isTool).length_le.trans List.length_drop.le
  rw [dropGroup, List.length_append, List.length_take, List.length_tail]
  omega

/-- The loop of `truncate_to_window`. -/
def truncateLoop (floatLength : ℚ → ℕ) (maxChars : ℤ) (headOffset : ℕ) (messages : List Args) :
    List Args :=
  if _ : maxChars < total floatLength messages ∧ headOffset + 1 < messages.length then
    truncateLoop floatLength maxChars headOffset (dropGroup headOffset messages)
  else messages
termination_by messages.length
decreasing_by exact length_dropGroup_lt (by omega)

/-- `head_offset`. -/
def headOffset (preserveSystem : Bool) (messages : List Args) : ℕ :=
  if preserveSystem && (messages.head?.any (hasRole "system")) then 1 else 0

/-- `truncate_to_window` : the messages that are left, and the number of those removed. -/
def truncateToWindow (floatLength : ℚ → ℕ) (messages : List Args) (maxChars : ℤ)
    (preserveSystem : Bool := true) : List Args × ℕ :=
  if maxChars ≤ 0 ∨ messages = [] then (messages, 0)
  else
    let kept := truncateLoop floatLength maxChars (headOffset preserveSystem messages) messages
    (kept, messages.length - kept.length)

/-! ## What the window should be -/

/-- The ids under which an assistant message carries calls. -/
def callIds (m : Args) : List Json :=
  match m.get "tool_calls" with
  | some (.arr calls) => if hasRole "assistant" m then calls.map fun
      | .obj call => (Args.get call "id").getD (.str "")
      | v => v
    else []
  | _ => []

/-- The id of the call a tool message has the result of. -/
def resultIds (m : Args) : List Json :=
  if isTool m then [(m.get "tool_call_id").getD (.str "")] else []

/-- Every tool message comes after an assistant message that carries its call. -/
def CallsPrecede (messages : List Args) : Prop :=
  Exchange.Refers callIds resultIds [] messages

variable (floatLength : ℚ → ℕ) (maxChars : ℤ) (preserveSystem : Bool)

/-- The leading system message and the newest message behind it are kept, no tool message has lost
its call, and the window is within the limit, if there is one, or nothing else is left. -/
structure Windowed (messages kept : List Args) : Prop where
  system : preserveSystem = true → ∀ m ∈ messages.head?, hasRole "system" m → kept.head? = some m
  newest : (kept.drop (headOffset preserveSystem messages)).getLast? =
    (messages.drop (headOffset preserveSystem messages)).getLast?
  calls : CallsPrecede kept
  fits : 0 < maxChars → total floatLength kept ≤ maxChars ∨
    kept.length ≤ headOffset preserveSystem messages + 1

/-- What follows is within the limit, if there is one, or at most one message. -/
def Fits (head rest : List Args) : Prop :=
  0 < maxChars → total floatLength (head ++ rest) ≤ maxChars ∨ rest.length ≤ 1

/-- A place where the rest may begin : the start, or directly after a message that is not a tool
message, if what follows fits. -/
def Opens (head rest : List Args) (k : ℕ) : Prop :=
  (k = 0 ∨ ∃ m, rest[k - 1]? = some m ∧ isTool m = false) ∧
    Fits floatLength maxChars head (rest.drop k)

/-- The first such place is before the newest message, and no tool message behind it has lost its
call. -/
def OpensWell (head rest : List Args) : Prop :=
  ∃ k, Opens floatLength maxChars head rest k ∧
    (∀ j < k, ¬Opens floatLength maxChars head rest j) ∧
    (k < rest.length ∨ rest = []) ∧ CallsPrecede (head ++ rest.drop k)

/-! ## The loop -/

variable {floatLength maxChars} {head rest : List Args}

theorem not_opens_of_tools {tools after : List Args} (htools : ∀ m ∈ tools, isTool m = true)
    (hnot : ¬Fits floatLength maxChars head (tools ++ after)) {j : ℕ} (hj : j ≤ tools.length) :
    ¬Opens floatLength maxChars head (tools ++ after) j := by
  rintro ⟨rfl | ⟨m, hm, htool⟩, hfits⟩
  · exact hnot hfits
  rcases j with _ | j
  · exact hnot hfits
  · rw [Nat.add_sub_cancel, List.getElem?_append_left (by omega)] at hm
    rw [htools m (List.mem_of_getElem? hm)] at htool
    cases htool

/-- Behind a message that is not a tool message the places are those of the rest. -/
theorem opens_add {tools : List Args} {x : Args} (hx : isTool x = false) (k : ℕ) :
    Opens floatLength maxChars head (tools ++ x :: rest) (tools.length + 1 + k) ↔
      Opens floatLength maxChars head rest k := by
  have hdrop : (tools ++ x :: rest).drop (tools.length + 1 + k) = rest.drop k := by
    rw [List.append_cons, ← List.drop_drop, List.drop_left' (by simp)]
  unfold Opens
  rw [hdrop]
  refine and_congr_left fun _ => ?_
  rcases k with _ | k
  · refine iff_of_true (Or.inr ⟨x, ?_, hx⟩) (Or.inl rfl)
    simp
  · have hget : (tools ++ x :: rest)[tools.length + 1 + (k + 1) - 1]? = rest[k + 1 - 1]? := by
      rw [List.append_cons, List.getElem?_append_right (by simp)]
      congr 1
      simp
    rw [hget]
    exact or_congr_left (iff_of_false (by omega) (by omega))

/-- The loop leaves the rest from the first place on where it may begin, if there is one. -/
theorem truncateLoop_eq (hmax : 0 < maxChars) (head rest : List Args) :
    ∃ k ≤ rest.length,
      truncateLoop floatLength maxChars head.length (head ++ rest) = head ++ rest.drop k ∧
      (Opens floatLength maxChars head rest k ∨ k = rest.length) ∧
      ∀ j < k, ¬Opens floatLength maxChars head rest j := by
  induction hn : rest.length using Nat.strong_induction_on generalizing rest with
  | _ n ih =>
    subst hn
    rw [truncateLoop]
    split_ifs with hover
    · rw [List.length_append] at hover
      have hnot : ¬Fits floatLength maxChars head rest := fun h => by
        rcases h hmax with h | h <;> omega
      have hgroup : dropGroup head.length (head ++ rest) =
          head ++ (rest.dropWhile isTool).tail := by
        simp [dropGroup]
      rw [hgroup]
      have hrest : rest = rest.takeWhile isTool ++ rest.dropWhile isTool :=
        List.takeWhile_append_dropWhile.symm
      have htools : ∀ m ∈ rest.takeWhile isTool, isTool m = true :=
        fun m hm => List.mem_takeWhile_imp hm
      have hfirst : ∀ x ∈ (rest.dropWhile isTool).head?, isTool x = false := fun x hx => by
        have := List.head?_dropWhile_not isTool rest
        rw [hx] at this
        simpa using this
      generalize rest.takeWhile isTool = tools at hrest htools
      generalize rest.dropWhile isTool = after at hrest hfirst
      subst hrest
      have hbefore : ∀ j ≤ tools.length, ¬Opens floatLength maxChars head (tools ++ after) j :=
        fun j => not_opens_of_tools htools hnot
      rcases after with _ | ⟨x, after⟩
      · refine ⟨(tools ++ []).length, le_rfl, ?_, Or.inr rfl, fun j hj => ?_⟩
        · rw [truncateLoop, dif_neg (by simp)]
          simp
        · exact hbefore j (by simpa using hj.le)
      · obtain ⟨k, hk, hloop, hopens, hminimal⟩ := ih after.length (by simp; omega) after rfl
        have hlength : (tools ++ x :: after).length = tools.length + 1 + after.length := by
          simp
          omega
        have hdrop : (tools ++ x :: after).drop (tools.length + 1 + k) = after.drop k := by
          rw [List.append_cons, ← List.drop_drop, List.drop_left' (by simp)]
        refine ⟨tools.length + 1 + k, by omega, by rw [hdrop]; exact hloop, ?_, fun j hj => ?_⟩
        · rw [opens_add (hfirst x rfl)]
          exact hopens.imp_right (by omega)
        · rcases Nat.lt_or_ge j (tools.length + 1) with hj' | hj'
          · exact hbefore j (by omega)
          · obtain ⟨i, rfl⟩ := Nat.exists_eq_add_of_le hj'
            rw [opens_add (hfirst x rfl)]
            exact hminimal i (by omega)
    · refine ⟨0, Nat.zero_le _, rfl, Or.inl ⟨Or.inl rfl, fun _ => ?_⟩, fun j hj => by omega⟩
      rw [List.length_append] at hover
      rw [List.drop_zero]
      by_contra h
      exact hover (by omega)

theorem length_take_headOffset (messages : List Args) :
    (messages.take (headOffset preserveSystem messages)).length =
      headOffset preserveSystem messages := by
  rw [List.length_take, Nat.min_eq_left]
  unfold headOffset
  split_ifs with h
  · rcases messages with _ | ⟨m, messages⟩
    · simp at h
    · simp
  · exact Nat.zero_le _

theorem fits_of_length_le (h : rest.length ≤ 1) : Fits floatLength maxChars head rest :=
  fun _ => Or.inr h

theorem truncateToWindow_eq (messages : List Args) :
    let head := messages.take (headOffset preserveSystem messages)
    let rest := messages.drop (headOffset preserveSystem messages)
    ∃ k ≤ rest.length,
      (truncateToWindow floatLength messages maxChars preserveSystem).1 = head ++ rest.drop k ∧
      (Opens floatLength maxChars head rest k ∨ k = rest.length) ∧
      ∀ j < k, ¬Opens floatLength maxChars head rest j := by
  intro head rest
  have hmessages : head ++ rest = messages := List.take_append_drop _ messages
  unfold truncateToWindow
  split_ifs with hnone
  · refine ⟨0, Nat.zero_le _, hmessages.symm, Or.inl ⟨Or.inl rfl, ?_⟩, fun j hj => by omega⟩
    rcases hnone with hnone | rfl
    · exact fun hpos => by omega
    · exact fits_of_length_le (by simp [rest])
  · have hmax : 0 < maxChars := by omega
    have hloop := @truncateLoop_eq floatLength _ hmax head rest
    rwa [hmessages, length_take_headOffset] at hloop

theorem getLast?_drop_eq_iff {k : ℕ} :
    (rest.drop k).getLast? = rest.getLast? ↔ k < rest.length ∨ rest = [] := by
  rw [List.getLast?_drop]
  split_ifs with hk
  · rw [eq_comm, List.getLast?_eq_none_iff]
    exact ⟨Or.inr, fun h => h.resolve_left hk.not_gt⟩
  · exact iff_of_true rfl (Or.inl (by omega))

/-- The window keeps the leading system message and the newest message, with no tool message that
has lost its call and within the limit where that can be, exactly if the first place where the rest
fits is one to open it at. -/
theorem windowed_iff (messages : List Args) :
    Windowed floatLength maxChars preserveSystem messages
        (truncateToWindow floatLength messages maxChars preserveSystem).1 ↔
      OpensWell floatLength maxChars (messages.take (headOffset preserveSystem messages))
        (messages.drop (headOffset preserveSystem messages)) := by
  have hwindow := @truncateToWindow_eq floatLength maxChars preserveSystem messages
  have hhead := length_take_headOffset preserveSystem messages
  have hmessages := List.take_append_drop (headOffset preserveSystem messages) messages
  generalize messages.take (headOffset preserveSystem messages) = head at *
  generalize hrest : messages.drop (headOffset preserveSystem messages) = rest at *
  obtain ⟨k, hk, hkept, hopens, hminimal⟩ := hwindow
  have hdrop : (head ++ rest.drop k).drop (headOffset preserveSystem messages) = rest.drop k :=
    List.drop_left' hhead
  rw [hkept]
  constructor
  · rintro ⟨-, hnewest, hcalls, -⟩
    rw [hdrop, hrest, getLast?_drop_eq_iff] at hnewest
    have hopens : Opens floatLength maxChars head rest k := hopens.elim id fun hend => by
      obtain rfl := hnewest.resolve_left hend.not_lt
      exact ⟨Or.inl hend, fits_of_length_le (by simp)⟩
    exact ⟨k, hopens, hminimal, hnewest, hcalls⟩
  · rintro ⟨k', hopens', hminimal', hnewest, hcalls⟩
    obtain rfl : k' = k := by
      rcases lt_trichotomy k' k with hlt | heq | hlt
      · exact absurd hopens' (hminimal k' hlt)
      · exact heq
      · rcases hopens with hopens | rfl
        · exact absurd hopens (hminimal' k hlt)
        · obtain rfl := hnewest.resolve_left (by omega)
          exact absurd ⟨Or.inl rfl, fits_of_length_le (by simp)⟩ (hminimal' _ hlt)
    refine ⟨?_, ?_, hcalls, fun hmax => ?_⟩
    · intro hpreserve m hm hsystem
      have hone : headOffset preserveSystem messages = 1 := by
        rw [headOffset, hpreserve, hm]
        simp [hsystem]
      rcases head with _ | ⟨m', head⟩
      · rw [hone] at hhead
        cases hhead
      · rw [← hmessages] at hm
        exact hm
    · rw [hdrop, hrest, getLast?_drop_eq_iff]
      exact hnewest
    · refine (hopens'.2 hmax).imp_right fun h => ?_
      rw [List.length_append, hhead]
      omega

/-- A tool call, its result and the next user message, behind a system message. -/
def toolHistory : List Args :=
  [[("role", .str "system"), ("content", .str "S")],
    [("role", .str "assistant"), ("content", .null),
      ("tool_calls", .arr [.obj [("id", .str "1")]])],
    [("role", .str "tool"), ("tool_call_id", .str "1"), ("content", .str "result")],
    [("role", .str "user"), ("content", .str "fresh")]]

/-- Its 195 characters are cut to 100 by dropping the call and then its result with the newest
message. -/
theorem toolHistory_not_windowed : ¬Windowed (fun _ => 0) 100 true toolHistory
    (truncateToWindow (fun _ => 0) toolHistory 100).1 := by
  intro h
  obtain ⟨k, hk, hkept, hopens, -⟩ := @truncateToWindow_eq (fun _ => 0) 100 true toolHistory
  have hnewest := h.newest
  have hoffset : headOffset true toolHistory = 1 := by decide
  rw [hoffset] at hkept hk hopens hnewest
  have hdrop : (toolHistory.take 1 ++ (toolHistory.drop 1).drop k).drop 1 =
      (toolHistory.drop 1).drop k := rfl
  rw [hkept, hdrop, getLast?_drop_eq_iff] at hnewest
  have hk : k < 3 := hnewest.resolve_right (by decide)
  obtain ⟨hborder, hfits⟩ := hopens.resolve_right hk.ne
  replace hfits := hfits (by decide)
  rcases k with _ | _ | _ | k
  · revert hfits
    decide +kernel
  · revert hfits
    decide +kernel
  · obtain ⟨m, hm, htool⟩ := hborder.resolve_left (by omega)
    obtain rfl := Option.some.inj hm
    revert htool
    decide +kernel
  · omega

end OxenClaw.ConversationHistory
