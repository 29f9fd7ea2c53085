import OxenClaw.Pi.Persistence

/-!
# Resetting a session

`reset_session_messages` of `pi/lifecycle.py`. A partial reset keeps the messages from one of the
last user messages on, and puts the leading system message in front of them. Where the session has
fewer user messages than are to be kept, the walk from the end takes all messages, the leading one
as well, which then is there twice (`shortened_iff`).
-/

namespace OxenClaw

open Message

structure ResetPolicy where
  full : Bool := true
  keepSystem : Bool := true
  keepLastUserTurns : ℤ := 0
  keepCompactions : Bool := true

/-- The walk over the messages from the end, with the user messages `seen` so far. -/
def keptTail (target : ℤ) : ℤ → List Message → List Message
  | _, [] => []
  | seen, m :: rest =>
    if m.isUser then
      if target ≤ seen + 1 then [m] else m :: keptTail target (seen + 1) rest
    else m :: keptTail target seen rest

/-- The first message, if it is a system message. -/
def leadingSystem : List Message → List Message
  | .system content :: _ => [.system content]
  | _ => []

/-- The messages that `reset_session_messages` leaves. -/
def resetMessages (policy : ResetPolicy) (messages : List Message) : List Message :=
  let head := if policy.keepSystem then leadingSystem messages else []
  if policy.full ∧ policy.keepLastUserTurns ≤ 0 then head
  else head ++ (keptTail (max 1 policy.keepLastUserTurns) 0 messages.reverse).reverse

/-- `reset_session_messages`, with the number it reports. -/
def resetSessionMessages (session : AgentSession) (policy : ResetPolicy) : AgentSession × ℤ :=
  let kept := resetMessages policy session.messages
  ({ session with
      messages := kept
      compactions := if policy.keepCompactions then session.compactions else [] },
    session.messages.length - kept.length)

/-- The messages left are some of those there were, in their order, and the last user turns asked
for are among them. -/
structure Shortened (messages : List Message) (turns : ℤ) (kept : List Message) (dropped : ℤ) :
    Prop where
  sublist : kept.Sublist messages
  turns : ∀ turn, turn <:+ messages → turn.head?.any isUser = true →
    (turn.countP isUser : ℤ) ≤ turns → turn <:+ kept
  count : dropped = messages.length - kept.length
  nonneg : 0 ≤ dropped

/-- The leading system message is kept, and the walk gets to it. -/
def KeepsSystemTwice (policy : ResetPolicy) (messages : List Message) : Prop :=
  ¬(policy.full = true ∧ policy.keepLastUserTurns ≤ 0) ∧ policy.keepSystem = true ∧
    leadingSystem messages ≠ [] ∧
    (messages.countP isUser : ℤ) < max 1 policy.keepLastUserTurns

/-! ## The walk -/

/-- With too few user messages the walk takes all. -/
theorem keptTail_of_lt {target : ℤ} :
    ∀ {seen : ℤ} {l : List Message}, seen + l.countP isUser < target → keptTail target seen l = l
  | _, [], _ => rfl
  | seen, m :: rest, h => by
    rw [List.countP_cons] at h
    unfold keptTail
    split_ifs with huser hlast
    · rw [if_pos huser] at h
      push_cast at h
      omega
    · rw [if_pos huser] at h
      push_cast at h
      rw [keptTail_of_lt (by omega)]
    · rw [if_neg huser] at h
      rw [keptTail_of_lt (by simpa using h)]

/-- With enough of them it ends at the one that makes up the number. -/
theorem exists_keptTail {target : ℤ} :
    ∀ {seen : ℤ} {l : List Message}, seen < target → target ≤ seen + l.countP isUser →
      ∃ front u rest, l = front ++ u :: rest ∧ u.isUser = true ∧
        keptTail target seen l = front ++ [u] ∧ seen + front.countP isUser + 1 = target
  | seen, [], hseen, h => by
    simp only [List.countP_nil, Nat.cast_zero, add_zero] at h
    omega
  | seen, m :: rest, hseen, h => by
    rw [List.countP_cons] at h
    unfold keptTail
    split_ifs with huser hlast
    · exact ⟨[], m, rest, rfl, huser, rfl, by simp; omega⟩
    · rw [if_pos huser] at h
      push_cast at h
      have hnext : seen + 1 < target := by omega
      have hrest : target ≤ seen + 1 + rest.countP isUser := by omega
      obtain ⟨front, u, rest', rfl, hu, hkept, hcount⟩ := exists_keptTail hnext hrest
      refine ⟨m :: front, u, rest', rfl, hu, by rw [hkept]; rfl, ?_⟩
      rw [List.countP_cons, if_pos huser]
      push_cast
      omega
    · rw [if_neg huser] at h
      obtain ⟨front, u, rest', rfl, hu, hkept, hcount⟩ :=
        exists_keptTail hseen (by simpa using h)
      refine ⟨m :: front, u, rest', rfl, hu, by rw [hkept]; rfl, ?_⟩
      rw [List.countP_cons, if_neg huser]
      simpa using hcount

/-- The tail that is kept : all messages, or those from a user message on. -/
theorem keptTail_cases (messages : List Message) (target : ℤ) (htarget : 1 ≤ target) :
    ((messages.countP isUser : ℤ) < target ∧
        (keptTail target 0 messages.reverse).reverse = messages) ∨
      (target ≤ messages.countP isUser ∧ ∃ front u rest, messages = front ++ u :: rest ∧
        u.isUser = true ∧ (keptTail target 0 messages.reverse).reverse = u :: rest ∧
        ((u :: rest).countP isUser : ℤ) = target) := by
  have hcount : messages.reverse.countP isUser = messages.countP isUser :=
    List.countP_reverse
  rcases lt_or_ge (messages.countP isUser : ℤ) target with hlt | hge
  · exact Or.inl ⟨hlt, by rw [keptTail_of_lt (by omega), List.reverse_reverse]⟩
  · have hpos : 0 < target := by omega
    have hrest : target ≤ 0 + messages.reverse.countP isUser := by omega
    obtain ⟨front, u, rest, hsplit, hu, hkept, hfront⟩ := exists_keptTail hpos hrest
    refine Or.inr ⟨hge, rest.reverse, u, front.reverse, ?_, hu, ?_, ?_⟩
    · rw [← List.reverse_reverse messages, hsplit]
      simp
    · rw [hkept]
      simp
    · rw [List.countP_cons, if_pos hu, List.countP_reverse]
      push_cast
      omega

theorem leadingSystem_cases (messages : List Message) :
    leadingSystem messages = [] ∨
      ∃ content rest, messages = .system content :: rest ∧
        leadingSystem messages = [.system content] := by
  rcases messages with _ | ⟨_ | _ | _ | _, rest⟩
  case cons.system content => exact Or.inr ⟨content, rest, rfl, rfl⟩
  all_goals exact Or.inl rfl

theorem leadingSystem_sublist (messages : List Message) :
    (leadingSystem messages).Sublist messages := by
  rcases leadingSystem_cases messages with h | ⟨content, rest, rfl, h⟩
  · rw [h]
    exact List.nil_sublist _
  · rw [h]
    exact (List.nil_sublist rest).cons_cons _

/-- The leading system message stands before every user message. -/
theorem leadingSystem_sublist_of_isUser (front rest : List Message) {u : Message}
    (hu : u.isUser = true) : (leadingSystem (front ++ u :: rest)).Sublist front := by
  rcases leadingSystem_cases (front ++ u :: rest) with h | ⟨content, rest', hm, h⟩
  · rw [h]
    exact List.nil_sublist _
  · rw [h]
    rcases front with _ | ⟨m, front⟩
    · rw [List.nil_append] at hm
      rw [(List.cons.inj hm).1] at hu
      cases hu
    · rw [List.cons_append] at hm
      rw [(List.cons.inj hm).1]
      exact (List.nil_sublist front).cons_cons _

/-- One of the last user turns is in the tail that starts at a user message. -/
theorem suffix_of_countP {tail turn messages : List Message} (htail : tail <:+ messages)
    (hturn : turn <:+ messages) (hhead : turn.head?.any isUser = true)
    (hcount : turn.countP isUser ≤ tail.countP isUser) : turn <:+ tail := by
  rcases List.suffix_or_suffix_of_suffix hturn htail with h | ⟨front, rfl⟩
  · exact h
  · rcases front with _ | ⟨m, front⟩
    · exact List.suffix_rfl
    · have hm : m.isUser = true := hhead
      rw [List.cons_append, List.countP_cons, List.countP_append, if_pos hm] at hcount
      omega

/-! ## The reset -/

/-- A reset leaves some of the messages with the last user turns, unless it keeps the leading system
message twice. -/
theorem shortened_iff (session : AgentSession) (policy : ResetPolicy) :
    Shortened session.messages policy.keepLastUserTurns
        (resetSessionMessages session policy).1.messages (resetSessionMessages session policy).2 ↔
      ¬KeepsSystemTwice policy session.messages := by
  obtain ⟨messages, hmessages⟩ : ∃ messages, session.messages = messages := ⟨_, rfl⟩
  have hnonneg (kept : List Message) (hkept : kept.Sublist messages) :
      (0 : ℤ) ≤ messages.length - kept.length := by
    have := hkept.length_le
    omega
  simp only [resetSessionMessages, hmessages, KeepsSystemTwice]
  obtain ⟨head, hhead⟩ : ∃ head, head = if policy.keepSystem then leadingSystem messages else [] :=
    ⟨_, rfl⟩
  have hheadSublist : head.Sublist messages := by
    rw [hhead]
    split_ifs
    · exact leadingSystem_sublist messages
    · exact List.nil_sublist _
  by_cases hfull : policy.full = true ∧ policy.keepLastUserTurns ≤ 0
  · have hkept : resetMessages policy messages = head := by
      unfold resetMessages
      rw [if_pos hfull, hhead]
    rw [hkept]
    refine iff_of_true ⟨hheadSublist, fun turn _ hturn hcount => ?_, rfl, hnonneg _ hheadSublist⟩
      fun h => h.1 hfull
    rcases turn with _ | ⟨m, rest⟩
    · cases hturn
    · have hm : m.isUser = true := hturn
      rw [List.countP_cons, if_pos hm] at hcount
      omega
  · have hkept : resetMessages policy messages =
        head ++ (keptTail (max 1 policy.keepLastUserTurns) 0 messages.reverse).reverse := by
      unfold resetMessages
      rw [if_neg hfull, hhead]
    rw [hkept]
    rcases keptTail_cases messages (max 1 policy.keepLastUserTurns) (le_max_left _ _) with
      ⟨hfew, hall⟩ | ⟨hmany, front, u, rest, hsplit, hu, htail, hcount⟩
    · rw [hall]
      by_cases hnone : head = []
      · rw [hnone, List.nil_append]
        refine iff_of_true ⟨List.Sublist.refl _, fun turn h _ _ => h, rfl, by omega⟩ ?_
        rintro ⟨-, hsystem, hleading, -⟩
        rw [hhead, if_pos hsystem] at hnone
        exact hleading hnone
      · refine iff_of_false (fun h => ?_) (fun h => h ⟨hfull, ?_⟩)
        · have hlength := h.sublist.length_le
          rw [List.length_append] at hlength
          exact hnone (List.eq_nil_of_length_eq_zero (by omega))
        · split_ifs at hhead with hsystem
          · exact ⟨hsystem, fun h => hnone (hhead.trans h), hfew⟩
          · exact absurd hhead hnone
    · rw [htail]
      have hsuffix : u :: rest <:+ messages := ⟨front, hsplit.symm⟩
      have hsublist : (head ++ u :: rest).Sublist messages := by
        have hsystem : head.Sublist front := by
          rw [hhead]
          split_ifs
          · rw [hsplit]
            exact leadingSystem_sublist_of_isUser front rest hu
          · exact List.nil_sublist _
        rw [hsplit]
        exact hsystem.append (List.Sublist.refl _)
      refine iff_of_true ⟨hsublist, fun turn h hturn hle => ?_, rfl, hnonneg _ hsublist⟩
        fun h => absurd h.2.2.2 (not_lt.2 hmany)
      have hle' : turn.countP isUser ≤ (u :: rest).countP isUser := by
        have := le_max_right 1 policy.keepLastUserTurns
        omega
      exact (suffix_of_countP hsuffix h hturn hle').trans (List.suffix_append _ _)

/-- A system message and a user message, of which the last two user turns are to be kept. -/
def shortSession : AgentSession where
  id := "s1"
  messages := [.system "Be brief.", .user (.text "Hi")]
  createdAt := 1
  updatedAt := 1

/-- The system message is there twice, and the number of dropped messages is `-1`. -/
theorem shortSession_not_shortened :
    (resetSessionMessages shortSession { keepLastUserTurns := 2 }).2 = -1 ∧
      ¬Shortened shortSession.messages 2
        (resetSessionMessages shortSession { keepLastUserTurns := 2 }).1.messages
        (resetSessionMessages shortSession { keepLastUserTurns := 2 }).2 := by
  have hdropped : (resetSessionMessages shortSession { keepLastUserTurns := 2 }).2 = -1 := rfl
  refine ⟨hdropped, fun h => ?_⟩
  have hnonneg := h.nonneg
  rw [hdropped] at hnonneg
  omega

end OxenClaw
