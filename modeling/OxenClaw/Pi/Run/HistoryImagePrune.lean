import Mathlib.Algebra.Ring.Nat
import Mathlib.Data.List.Forall2
import OxenClaw.Pi.Messages

/-!
# Pruning old images

`prune_old_images` of `pi/run/history_image_prune.py`. The walk from the end stops at the user
message behind which the last turns begin, and every user message up to it loses its images
(`getElem?_pruneOldImages`). Images in tool results are never touched, so that images older than
the last turns remain exactly where a tool result has one (`pruneOldImages_iff`).
-/

namespace OxenClaw.HistoryImagePrune

open OxenClaw

/-- `_PLACEHOLDER_TEXT`. -/
def placeholderText : String :=
  "(image attached earlier in the conversation — pruned to save context)"

/-- `isinstance(b, ImageContent)`. -/
def isImage : UserBlock → Bool
  | .image _ _ => true
  | .text _ => false

/-- `_replace_in_user_content`, with the number of images removed. -/
def replaceInUserContent : Content → Content × ℕ
  | .text text => (.text text, 0)
  | .blocks blocks =>
    (.blocks (blocks.map fun b => if isImage b then .text placeholderText else b),
      blocks.countP isImage)

/-- The walk over the messages from the end : the user messages seen, and the boundary if it
breaks off. -/
def walkBack (keep : ℤ) : ℤ → List Message → ℤ × Option ℕ
  | userTurnCount, [] => (userTurnCount, none)
  | userTurnCount, msg :: rest =>
    if msg.isUser then
      if keep < userTurnCount + 1 then (userTurnCount + 1, some (rest.length + 1))
      else walkBack keep (userTurnCount + 1) rest
    else walkBack keep userTurnCount rest

/-- A message before the boundary. The content of an assistant message has no images, that of
tool results is not looked at. -/
def pruneMessage : Message → Message × ℕ
  | .user content =>
    let (newContent, removed) := replaceInUserContent content
    if removed = 0 then (.user content, 0) else (.user newContent, removed)
  | msg => (msg, 0)

/-- `prune_old_images` : the messages it leaves, and the number it returns. -/
def pruneOldImages (messages : List Message) (keepRecentUserTurns : ℤ) : List Message × ℕ :=
  let keep := if keepRecentUserTurns < 0 then 0 else keepRecentUserTurns
  let (userTurnCount, boundaryIdx) := walkBack keep 0 messages.reverse
  let boundary := boundaryIdx.getD 0
  if userTurnCount ≤ keep then (messages, 0)
  else
    let pruned := (messages.take boundary).map pruneMessage
    (pruned.map Prod.fst ++ messages.drop boundary, (pruned.map Prod.snd).sum)

/-! ## What pruning is for -/

/-- The images of a content. -/
def contentImages : Content → ℕ
  | .text _ => 0
  | .blocks blocks => blocks.countP isImage

/-- The images of a message, in its own blocks or in those of a tool result. -/
def images : Message → ℕ
  | .user content => contentImages content
  | .toolResult results => (results.map fun r => contentImages r.content).sum
  | _ => 0

/-- The message at `i` is older than the last `keep` user turns : they all begin behind it, or
no turn has begun. -/
def Older (keep : ℤ) (messages : List Message) (i : ℕ) : Prop :=
  keep ≤ (messages.drop (i + 1)).countP Message.isUser ∨
    ∀ m ∈ messages.take (i + 1), m.isUser = false

/-- The blocks that are no images are in their places. -/
def KeepsContent : Content → Content → Prop
  | .text text, c' => c' = .text text
  | .blocks blocks, c' => ∃ blocks', c' = .blocks blocks' ∧
      List.Forall₂ (fun b b' => isImage b = false → b' = b) blocks blocks'

/-- A message with all that is no image in its place. -/
def KeepsMessage : Message → Message → Prop
  | .user content, m' => ∃ content', m' = .user content' ∧ KeepsContent content content'
  | .toolResult results, m' => ∃ results', m' = .toolResult results' ∧
      List.Forall₂ (fun r r' => r'.toolUseId = r.toolUseId ∧ r'.isError = r.isError ∧
        KeepsContent r.content r'.content) results results'
  | m, m' => m' = m

/-- No image older than the last `keep` user turns is left, and nothing else has changed. -/
structure PrunesImages (keep : ℤ) (messages messages' : List Message) : Prop where
  length_eq : messages'.length = messages.length
  older : ∀ i m m', messages[i]? = some m → messages'[i]? = some m' →
    Older keep messages i → images m' = 0 ∧ KeepsMessage m m'
  recent : ∀ i, ¬Older keep messages i → messages'[i]? = messages[i]?

/-! ## One message -/

theorem keepsContent_refl (c : Content) : KeepsContent c c := by
  rcases c with text | blocks
  · exact rfl
  · exact ⟨blocks, rfl, List.forall₂_same.2 fun _ _ _ => rfl⟩

theorem keepsMessage_refl (m : Message) : KeepsMessage m m := by
  rcases m with content | content | msg | results
  · exact rfl
  · exact ⟨content, rfl, keepsContent_refl content⟩
  · exact rfl
  · refine ⟨results, rfl, List.forall₂_same.2 fun r _ => ?_⟩
    exact ⟨rfl, rfl, keepsContent_refl r.content⟩

theorem snd_replaceInUserContent (c : Content) :
    (replaceInUserContent c).2 = contentImages c := by
  rcases c with text | blocks <;> rfl

theorem contentImages_replaceInUserContent (c : Content) :
    contentImages (replaceInUserContent c).1 = 0 := by
  rcases c with text | blocks
  · rfl
  · refine List.countP_eq_zero.2 fun b' hb' => ?_
    obtain ⟨b, -, rfl⟩ := List.mem_map.1 hb'
    rcases b with text | ⟨mediaType, data⟩ <;> simp [isImage]

theorem keepsContent_replaceInUserContent (c : Content) :
    KeepsContent c (replaceInUserContent c).1 := by
  rcases c with text | blocks
  · exact rfl
  · refine ⟨_, rfl, List.forall₂_map_right_iff.2 (List.forall₂_same.2 fun b _ hb => ?_)⟩
    rw [hb]
    rfl

theorem pruneMessage_user (content : Content) :
    pruneMessage (.user content) =
      (.user (replaceInUserContent content).1, contentImages content) := by
  unfold pruneMessage
  dsimp only
  rw [snd_replaceInUserContent]
  split_ifs with h
  · rw [h]
    rcases content with text | blocks
    · rfl
    · have hnone : ∀ b ∈ blocks, ¬isImage b = true := List.countP_eq_zero.1 h
      have hmap : (blocks.map fun b => if isImage b then .text placeholderText else b) =
          blocks :=
        (List.map_congr_left fun b hb => if_neg (hnone b hb)).trans (List.map_id blocks)
      rw [replaceInUserContent, hmap]
  · rfl

theorem pruneMessage_of_not_user {m : Message} (h : m.isUser = false) :
    pruneMessage m = (m, 0) := by
  rcases m with content | content | msg | results
  · rfl
  · cases h
  · rfl
  · rfl

/-- What pruning takes from a message is counted. -/
theorem images_pruneMessage (m : Message) :
    images (pruneMessage m).1 + (pruneMessage m).2 = images m := by
  cases huser : m.isUser with
  | false => rw [pruneMessage_of_not_user huser, Nat.add_zero]
  | true =>
    obtain ⟨content, rfl⟩ : ∃ content, m = .user content := by
      rcases m with content | content | msg | results
      · cases huser
      · exact ⟨content, rfl⟩
      · cases huser
      · cases huser
    rw [pruneMessage_user, images, contentImages_replaceInUserContent, Nat.zero_add, images]

/-! ## The walk -/

/-- The walk sees all user messages when there are not too many of them, else it breaks off at
the one with `keep` others behind it. -/
theorem walkBack_cases {keep : ℤ} :
    ∀ {seen : ℤ} {l : List Message}, seen ≤ keep →
      (seen + l.countP Message.isUser ≤ keep ∧
          walkBack keep seen l = (seen + l.countP Message.isUser, none)) ∨
        ∃ front u rest, l = front ++ u :: rest ∧ u.isUser = true ∧
          seen + front.countP Message.isUser = keep ∧
          walkBack keep seen l = (keep + 1, some (rest.length + 1))
  | seen, [], hseen => Or.inl ⟨by simpa using hseen, by simp [walkBack]⟩
  | seen, m :: rest, hseen => by
    rw [List.countP_cons, walkBack]
    split_ifs with huser hlast
    · have hkeep : seen = keep := by omega
      exact Or.inr ⟨[], m, rest, rfl, huser, by simpa using hkeep, by rw [hkeep]⟩
    · have hnext : seen + 1 ≤ keep := by omega
      push_cast
      rcases walkBack_cases (l := rest) hnext with ⟨hcount, hwalk⟩ |
        ⟨front, u, rest', rfl, hu, hcount, hwalk⟩
      · exact Or.inl ⟨by omega, by rw [hwalk]; congr 1; omega⟩
      · refine Or.inr ⟨m :: front, u, rest', rfl, hu, ?_, hwalk⟩
        rw [List.countP_cons, if_pos huser]
        push_cast
        omega
    · rcases walkBack_cases (l := rest) hseen with ⟨hcount, hwalk⟩ |
        ⟨front, u, rest', rfl, hu, hcount, hwalk⟩
      · exact Or.inl ⟨by simpa using hcount, by simpa using hwalk⟩
      · refine Or.inr ⟨m :: front, u, rest', rfl, hu, ?_, hwalk⟩
        rw [List.countP_cons, if_neg huser]
        simpa using hcount

/-! ## The whole transcript -/

section
variable {keep : ℤ} {messages : List Message} {i : ℕ}

/-- The user messages behind position `i` are those from it on, less its own. -/
theorem countP_drop_of_user {m : Message} (hm : messages[i]? = some m) (huser : m.isUser = true) :
    (messages.drop i).countP Message.isUser =
      (messages.drop (i + 1)).countP Message.isUser + 1 := by
  obtain ⟨hi, rfl⟩ := List.getElem?_eq_some_iff.1 hm
  rw [List.drop_eq_getElem_cons hi, List.countP_cons, if_pos huser]

/-- A user message is older than the turns that begin behind it. -/
theorem older_iff_of_user {m : Message} (hm : messages[i]? = some m) (huser : m.isUser = true) :
    Older keep messages i ↔ keep ≤ (messages.drop (i + 1)).countP Message.isUser := by
  refine or_iff_left fun hnone => ?_
  have hmem : m ∈ messages.take (i + 1) :=
    List.mem_of_getElem? ((List.getElem?_take_of_lt (Nat.lt_succ_self i)).trans hm)
  rw [hnone m hmem] at huser
  cases huser

/-- What pruning makes of a user message depends on the user messages behind it. -/
theorem prune_user_cases (keep : ℤ) (messages : List Message) :
    (messages.countP Message.isUser ≤ max keep 0 ∧ pruneOldImages messages keep = (messages, 0)) ∨
      ∃ front u rest, messages = front ++ u :: rest ∧ u.isUser = true ∧
        (rest.countP Message.isUser : ℤ) = max keep 0 ∧
        pruneOldImages messages keep =
          (((front ++ [u]).map pruneMessage).map Prod.fst ++ rest,
            (((front ++ [u]).map pruneMessage).map Prod.snd).sum) := by
  have hkeep : (if keep < 0 then 0 else keep) = max keep 0 := by
    split_ifs <;> omega
  have hzero : 0 ≤ max keep 0 := by omega
  unfold pruneOldImages
  dsimp only
  rw [hkeep]
  rcases walkBack_cases (l := messages.reverse) hzero with ⟨hcount, hwalk⟩ |
    ⟨front, u, rest, hsplit, hu, hcount, hwalk⟩
  · rw [List.countP_reverse, Int.zero_add] at hcount hwalk
    exact Or.inl ⟨hcount, by rw [hwalk]; exact if_pos hcount⟩
  · have hmessages : messages = (rest.reverse ++ [u]) ++ front.reverse := by
      rw [← List.reverse_reverse messages, hsplit]
      simp
    have hlength : (rest.reverse ++ [u]).length = rest.length + 1 := by simp
    refine Or.inr ⟨rest.reverse, u, front.reverse, by simp [hmessages], hu, ?_, ?_⟩
    · rw [List.countP_reverse]
      omega
    · have htake : messages.take (rest.length + 1) = rest.reverse ++ [u] := by
        rw [hmessages, List.take_left' hlength]
      have hdrop : messages.drop (rest.length + 1) = front.reverse := by
        rw [hmessages, List.drop_left' hlength]
      rw [hwalk]
      dsimp only
      rw [if_neg (by omega), Option.getD_some, htake, hdrop]

instance : Decidable (Older keep messages i) :=
  inferInstanceAs (Decidable (_ ∨ _))

/-- A message is pruned exactly when it is older than the last turns. -/
theorem getElem?_pruneOldImages (keep : ℤ) (messages : List Message) (i : ℕ) :
    (pruneOldImages messages keep).1[i]? =
      messages[i]?.map fun m => if Older keep messages i then (pruneMessage m).1 else m := by
  -- at most `keep` user messages from position `i` on : none of them is older
  have hrecent (m : Message) (hm : messages[i]? = some m)
      (hcount : ((messages.drop i).countP Message.isUser : ℤ) ≤ max keep 0) :
      (if Older keep messages i then (pruneMessage m).1 else m) = m := by
    split_ifs with holder
    · cases huser : m.isUser with
      | false => rw [pruneMessage_of_not_user huser]
      | true =>
        rw [older_iff_of_user hm huser] at holder
        have hdrop := countP_drop_of_user hm huser
        omega
    · rfl
  rcases prune_user_cases keep messages with ⟨hcount, hprune⟩ |
    ⟨front, u, rest, hsplit, hu, hcount, hprune⟩
  · rw [hprune]
    cases hm : messages[i]? with
    | none => rfl
    | some m =>
      have hdrop : (messages.drop i).countP Message.isUser ≤ messages.countP Message.isUser :=
        (List.drop_sublist i messages).countP_le
      rw [Option.map_some, hrecent m hm (by omega)]
  · have hmessages : messages = (front ++ [u]) ++ rest := by simp [hsplit]
    have hrest : messages.drop (front.length + 1) = rest := by
      rw [hmessages, List.drop_left' (by simp)]
    rw [hprune]
    dsimp only
    rcases Nat.lt_or_ge i (front.length + 1) with hi | hi
    · have holder : Older keep messages i := by
        have hle : rest.countP Message.isUser ≤
            (messages.drop (i + 1)).countP Message.isUser := by
          rw [← hrest]
          exact (List.drop_sublist_drop_left messages hi).countP_le
        exact Or.inl (by omega)
      have hsame : messages[i]? = (front ++ [u])[i]? := by
        rw [hmessages, List.getElem?_append_left (by simpa using hi)]
      rw [List.getElem?_append_left (by simpa using hi), List.map_map, List.getElem?_map, ← hsame]
      cases messages[i]? with
      | none => rfl
      | some m => rw [Option.map_some, Option.map_some, if_pos holder, Function.comp_apply]
    · rw [List.getElem?_append_right (by simpa using hi)]
      have hsame : messages[i]? = rest[i - (front.length + 1)]? := by
        rw [← hrest, List.getElem?_drop]
        congr 1
        omega
      have hlength : ((List.map pruneMessage (front ++ [u])).map Prod.fst).length =
          front.length + 1 := by simp
      rw [hlength, ← hsame]
      cases hm : messages[i]? with
      | none => rfl
      | some m =>
        have hle : (messages.drop i).countP Message.isUser ≤ rest.countP Message.isUser := by
          rw [← hrest]
          exact (List.drop_sublist_drop_left messages hi).countP_le
        rw [Option.map_some, hrecent m hm (by omega)]

theorem length_pruneOldImages (keep : ℤ) (messages : List Message) :
    (pruneOldImages messages keep).1.length = messages.length := by
  rcases prune_user_cases keep messages with ⟨-, hprune⟩ | ⟨front, u, rest, hsplit, -, -, hprune⟩
  · rw [hprune]
  · rw [hprune, hsplit]
    simp

/-- The number returned is that of the images that are gone. -/
theorem images_pruneOldImages (keep : ℤ) (messages : List Message) :
    ((pruneOldImages messages keep).1.map images).sum + (pruneOldImages messages keep).2 =
      (messages.map images).sum := by
  have hsum (l : List Message) : (((l.map pruneMessage).map Prod.fst).map images).sum +
      ((l.map pruneMessage).map Prod.snd).sum = (l.map images).sum := by
    induction l with
    | nil => rfl
    | cons m l ih =>
      have hm := images_pruneMessage m
      simp only [List.map_cons, List.sum_cons]
      omega
  rcases prune_user_cases keep messages with ⟨-, hprune⟩ | ⟨front, u, rest, hsplit, -, -, hprune⟩
  · rw [hprune]
    rfl
  · have hmessages : messages = (front ++ [u]) ++ rest := by simp [hsplit]
    have hfront := hsum (front ++ [u])
    have hall : (messages.map images).sum =
        ((front ++ [u]).map images).sum + (rest.map images).sum := by
      rw [hmessages, List.map_append, List.sum_append]
    have hleft : ((pruneOldImages messages keep).1.map images).sum =
        ((((front ++ [u]).map pruneMessage).map Prod.fst).map images).sum +
          (rest.map images).sum := by
      rw [hprune, List.map_append, List.sum_append]
    rw [hall, hleft, hprune]
    dsimp only
    omega

end

/-- Pruning leaves no image older than the last turns, and all else as it is, exactly when no
tool result older than them has an image. -/
theorem pruneOldImages_iff (messages : List Message) (keep : ℤ) :
    PrunesImages keep messages (pruneOldImages messages keep).1 ↔
      ∀ i results, messages[i]? = some (.toolResult results) → Older keep messages i →
        ∀ r ∈ results, contentImages r.content = 0 := by
  constructor
  · intro h i results hm holder r hr
    have hpruned : (pruneOldImages messages keep).1[i]? = some (.toolResult results) := by
      rw [getElem?_pruneOldImages, hm, Option.map_some, if_pos holder,
        pruneMessage_of_not_user rfl]
    have hnone : (results.map fun r => contentImages r.content).sum = 0 :=
      (h.older i _ _ hm hpruned holder).1
    exact List.sum_eq_zero_iff_forall_eq_nat.1 hnone _ (List.mem_map.2 ⟨r, hr, rfl⟩)
  · intro htools
    refine ⟨length_pruneOldImages keep messages, fun i m m' hm hm' holder => ?_,
      fun i hrecent => ?_⟩
    · rw [getElem?_pruneOldImages, hm, Option.map_some, if_pos holder] at hm'
      obtain rfl := Option.some.inj hm'
      rcases m with content | content | msg | results
      · exact ⟨rfl, rfl⟩
      · rw [pruneMessage_user]
        exact ⟨contentImages_replaceInUserContent content, _, rfl,
          keepsContent_replaceInUserContent content⟩
      · exact ⟨rfl, rfl⟩
      · rw [pruneMessage_of_not_user rfl]
        refine ⟨List.sum_eq_zero_iff_forall_eq_nat.2 fun n hn => ?_, keepsMessage_refl _⟩
        obtain ⟨r, hr, rfl⟩ := List.mem_map.1 hn
        exact htools i results hm holder r hr
    · rw [getElem?_pruneOldImages]
      cases messages[i]? with
      | none => rfl
      | some m => rw [Option.map_some, if_neg hrecent]

/-- The image of a screenshot tool stays, however many turns ago it was taken. -/
theorem pruneOldImages_keeps_tool_image :
    ¬∀ (messages : List Message) (keep : ℤ),
      PrunesImages keep messages (pruneOldImages messages keep).1 := by
  intro h
  let shot : Message := .toolResult [⟨"call_1", .blocks [.image "image/png" "aGk="], false⟩]
  have hpruned := h [.user (.text "look"), shot, .user (.text "and now?"), .user (.text "ok")] 1
  have hone : images shot = 0 := (hpruned.older 1 shot shot rfl rfl (by decide)).1
  exact absurd hone (by decide)

end OxenClaw.HistoryImagePrune
