import OxenClaw.Lib.Dict
import OxenClaw.Lib.Lines

/-!
# Sessions of chats

`session_key_for` of `agents/registry.py`, the history file of a session (`config/paths.py`), and
the dispatcher's sessions and lanes, which are found by that key (`Conversations`).

The key joins the parts of a target by colons. Two targets have one key exactly if their parts, cut
at the colons inside of them, read the same (`sessionKeyFor_eq_iff`). Along any run of one agent's
turns, that is when they share a session, a lane and, unless a key has a slash, a history file
(`run_shares_iff`).
-/

namespace OxenClaw.Agents

/-- An identifier. -/
abbrev Name := List Char

/-- `ChannelTarget`. -/
structure ChannelTarget where
  channel : Name
  accountId : Name
  chatId : Name
  threadId : Option Name := none
  deriving DecidableEq

namespace ChannelTarget

/-- The thread, a missing one counting as empty. -/
def thread (t : ChannelTarget) : Name :=
  t.threadId.getD []

/-- The parts of the key. -/
def parts (t : ChannelTarget) : List Name :=
  [t.channel, t.accountId, t.chatId] ++ if t.thread = [] then [] else [t.thread]

/-- The parts, cut at the colons. -/
def segments (t : ChannelTarget) : List Name :=
  t.parts.flatMap (List.splitOn ':')

/-- The same channel, account, chat and thread. -/
def SameChat (t t' : ChannelTarget) : Prop :=
  t.channel = t'.channel ∧ t.accountId = t'.accountId ∧ t.chatId = t'.chatId ∧ t.thread = t'.thread

/-- No identifier has the character. -/
def Free (c : Char) (t : ChannelTarget) : Prop :=
  c ∉ t.channel ∧ c ∉ t.accountId ∧ c ∉ t.chatId ∧ c ∉ t.thread

end ChannelTarget

/-- `session_key_for`. -/
def sessionKeyFor (t : ChannelTarget) : Name :=
  [':'].intercalate t.parts

/-! ## Paths -/

/-- A `PurePosixPath`. -/
structure Path where
  root : Name
  components : List Name
  deriving DecidableEq

namespace Path

/-- The root that a path string starts with. Two slashes are a root of their own. -/
def rootOf : Name → Name
  | '/' :: '/' :: '/' :: _ => ['/']
  | '/' :: '/' :: _ => ['/', '/']
  | '/' :: _ => ['/']
  | _ => []

def parse (s : Name) : Path :=
  ⟨rootOf s, (s.splitOn '/').filter fun c => c ≠ [] ∧ c ≠ ['.']⟩

/-- `p / s`. A path with a root replaces the one it is joined to. -/
def join (p : Path) (s : Name) : Path :=
  let q := parse s
  if q.root = [] then ⟨p.root, p.components ++ q.components⟩ else q

end Path

/-- `OxenclawPaths`. -/
structure OxenclawPaths where
  home : Path

namespace OxenclawPaths

def agentsDir (p : OxenclawPaths) : Path :=
  p.home.join "agents".toList

def agentDir (p : OxenclawPaths) (agentId : Name) : Path :=
  p.agentsDir.join agentId

def sessionFile (p : OxenclawPaths) (agentId sessionKey : Name) : Path :=
  ((p.agentDir agentId).join "sessions".toList).join (sessionKey ++ ".json".toList)

end OxenclawPaths

/-! ## The key -/

section

variable {t t' : ChannelTarget}

theorem parts_ne_nil (t : ChannelTarget) : t.parts ≠ [] :=
  List.cons_ne_nil _ _

/-- Two targets have one key exactly if their parts read the same between the colons. -/
theorem sessionKeyFor_eq_iff : sessionKeyFor t = sessionKeyFor t' ↔ t.segments = t'.segments := by
  rw [ChannelTarget.segments, ChannelTarget.segments,
    ← Lines.splitOn_intercalate_eq_flatMap (parts_ne_nil t),
    ← Lines.splitOn_intercalate_eq_flatMap (parts_ne_nil t')]
  constructor
  · exact congrArg (List.splitOn ':')
  · intro h
    have hjoin := congrArg (List.intercalate [':']) h
    rwa [List.intercalate_splitOn, List.intercalate_splitOn] at hjoin

theorem segments_of_free (h : t.Free ':') : t.segments = t.parts := by
  obtain ⟨hchannel, haccount, hchat, hthread⟩ := h
  have hsplit : ∀ {s : Name}, ':' ∉ s → s.splitOn ':' = [s] := fun hs =>
    List.splitOn_eq_singleton hs
  rw [ChannelTarget.segments, ChannelTarget.parts]
  split_ifs <;> simp [hsplit, hchannel, haccount, hchat, hthread]

/-- Without colons the parts are the chat. -/
theorem segments_eq_iff_of_free (h : t.Free ':') (h' : t'.Free ':') :
    t.segments = t'.segments ↔ t.SameChat t' := by
  rw [segments_of_free h, segments_of_free h', ChannelTarget.parts, ChannelTarget.parts,
    ChannelTarget.SameChat]
  split_ifs with hthread hthread' hthread'
  · simp [hthread, hthread']
  · simp [hthread, Ne.symm hthread']
  · simp [hthread, hthread']
  · simp

theorem not_mem_sessionKeyFor {c : Char} (hc : c ≠ ':') (h : t.Free c) : c ∉ sessionKeyFor t := by
  obtain ⟨hchannel, haccount, hchat, hthread⟩ := h
  intro hmem
  rcases Lines.mem_intercalate hmem with heq | ⟨part, hpart, hin⟩
  · exact hc heq
  · rw [ChannelTarget.parts] at hpart
    split_ifs at hpart <;> simp at hpart <;> grind

end

/-! ## The history file -/

theorem rootOf_eq_nil {s : Name} (h : '/' ∉ s) : Path.rootOf s = [] := by
  cases s with
  | nil => rfl
  | cons c s =>
    have hc : c ≠ '/' := fun heq => h (heq ▸ List.mem_cons_self)
    rw [Path.rootOf]
    all_goals simp_all

/-- A name with no slash is one more component. -/
theorem join_of_not_mem (p : Path) {s : Name} (h : '/' ∉ s) (hs : s ≠ []) (hdot : s ≠ ['.']) :
    p.join s = ⟨p.root, p.components ++ [s]⟩ := by
  rw [Path.join, Path.parse, rootOf_eq_nil h, List.splitOn_eq_singleton h]
  simp [hs, hdot]

theorem sessionFile_inj {p : OxenclawPaths} {agentId key key' : Name} (h : '/' ∉ key)
    (h' : '/' ∉ key') :
    p.sessionFile agentId key = p.sessionFile agentId key' ↔ key = key' := by
  have hjoin : ∀ {k : Name}, '/' ∉ k → p.sessionFile agentId k
      = ⟨((p.agentDir agentId).join "sessions".toList).root,
        ((p.agentDir agentId).join "sessions".toList).components ++ [k ++ ".json".toList]⟩ := by
    intro k hk
    refine join_of_not_mem _ ?_ (by simp) ?_
    · simp [hk]
    · cases k <;> simp
  rw [hjoin h, hjoin h']
  simp

/-! ## Conversations -/

/-- What the dispatcher keeps for an agent, each with the targets of the turns that used it : the
sessions, the lanes and the history files. -/
structure Conversations where
  sessions : Dict (Name × Name) (List ChannelTarget) := []
  lanes : Dict (Name × Name) (List ChannelTarget) := []
  files : Dict Path (List ChannelTarget) := []

/-- One more turn, under the key of its place. -/
def record {κ : Type} [DecidableEq κ] (d : Dict κ (List ChannelTarget)) (k : κ)
    (t : ChannelTarget) : Dict κ (List ChannelTarget) :=
  d.set k ((d.get? k).getD [] ++ [t])

/-- A turn for a target, in the lane and the session of its key, which writes the history file. -/
def dispatch (paths : OxenclawPaths) (agentId : Name) (c : Conversations) (t : ChannelTarget) :
    Conversations where
  sessions := record c.sessions (agentId, sessionKeyFor t) t
  lanes := record c.lanes (agentId, sessionKeyFor t) t
  files := record c.files (paths.sessionFile agentId (sessionKeyFor t)) t

def run (paths : OxenclawPaths) (agentId : Name) (ts : List ChannelTarget) : Conversations :=
  ts.foldl (dispatch paths agentId) {}

/-- Turns of both targets used one of the places. -/
def Shares {κ : Type} (d : Dict κ (List ChannelTarget)) (t t' : ChannelTarget) : Prop :=
  ∃ e ∈ d, t ∈ e.2 ∧ t' ∈ e.2

/-- A run sorts its turns by session, by lane and by file. -/
theorem run_eq (paths : OxenclawPaths) (agentId : Name) (ts : List ChannelTarget) :
    run paths agentId ts =
      ⟨Dict.groupBy (fun t => (agentId, sessionKeyFor t)) ts,
        Dict.groupBy (fun t => (agentId, sessionKeyFor t)) ts,
        Dict.groupBy (fun t => paths.sessionFile agentId (sessionKeyFor t)) ts⟩ := by
  induction ts using List.reverseRecOn with
  | nil => rfl
  | append_singleton ts t ih =>
    rw [run, List.foldl_append, ← run, ih]
    simp only [Dict.groupBy, List.foldl_append]
    rfl

theorem shares_groupBy_iff {κ : Type} [DecidableEq κ] {f : ChannelTarget → κ}
    {ts : List ChannelTarget} {t t' : ChannelTarget} (ht : t ∈ ts) (ht' : t' ∈ ts) :
    Shares (Dict.groupBy f ts) t t' ↔ f t = f t' := by
  constructor
  · rintro ⟨⟨k, us⟩, he, hmem, hmem'⟩
    have hus := Dict.eq_filter_of_mem_groupBy he
    rw [hus] at hmem hmem'
    have hk := of_decide_eq_true (List.mem_filter.1 hmem).2
    have hk' := of_decide_eq_true (List.mem_filter.1 hmem').2
    rw [hk, hk']
  · intro heq
    have hget := Dict.get?_groupBy f ts (f t)
    cases hd : (Dict.groupBy f ts).get? (f t) with
    | none =>
      rw [hd] at hget
      have hmem : t ∈ ts.filter fun x => f x = f t := List.mem_filter.2 ⟨ht, by simp⟩
      rw [← hget] at hmem
      cases hmem
    | some us =>
      rw [hd, Option.getD_some] at hget
      refine ⟨_, Dict.mem_of_get? hd, ?_, ?_⟩ <;> rw [hget]
      · exact List.mem_filter.2 ⟨ht, by simp⟩
      · exact List.mem_filter.2 ⟨ht', by simp [heq]⟩

/-- Two targets of an agent have one key, and in any run with turns of both they share a session, a
lane and, where no identifier has a slash, a history file, exactly if their parts read the same
between the colons. Without colons that is one chat. -/
theorem run_shares_iff (paths : OxenclawPaths) (agentId : Name) {ts : List ChannelTarget}
    {t t' : ChannelTarget} (ht : t ∈ ts) (ht' : t' ∈ ts) :
    (sessionKeyFor t = sessionKeyFor t' ↔ t.segments = t'.segments) ∧
      (Shares (run paths agentId ts).sessions t t' ↔ t.segments = t'.segments) ∧
      (Shares (run paths agentId ts).lanes t t' ↔ t.segments = t'.segments) ∧
      (t.Free '/' → t'.Free '/' →
        (Shares (run paths agentId ts).files t t' ↔ t.segments = t'.segments)) ∧
      (t.Free ':' → t'.Free ':' → (t.segments = t'.segments ↔ t.SameChat t')) := by
  have hkey : Shares (Dict.groupBy (fun t => (agentId, sessionKeyFor t)) ts) t t' ↔
      t.segments = t'.segments := by
    rw [shares_groupBy_iff ht ht', Prod.mk.injEq, and_iff_right rfl, sessionKeyFor_eq_iff]
  rw [run_eq]
  refine ⟨sessionKeyFor_eq_iff, hkey, hkey, fun h h' => ?_, segments_eq_iff_of_free⟩
  rw [shares_groupBy_iff ht ht', sessionFile_inj (not_mem_sessionKeyFor (by decide) h)
    (not_mem_sessionKeyFor (by decide) h'), sessionKeyFor_eq_iff]

/-- A topic thread and a chat named like it. -/
def topic : ChannelTarget :=
  ⟨"dashboard".toList, "main".toList, "42".toList, some "99".toList⟩

def chatNamedLikeTopic : ChannelTarget :=
  ⟨"dashboard".toList, "main".toList, "42:99".toList, none⟩

theorem run_shares_iff_topic :
    (sessionKeyFor topic = sessionKeyFor chatNamedLikeTopic ↔
        topic.segments = chatNamedLikeTopic.segments) ∧
      (Shares (run ⟨⟨['/'], []⟩⟩ "a".toList [topic, chatNamedLikeTopic]).sessions topic
        chatNamedLikeTopic ↔ topic.segments = chatNamedLikeTopic.segments) ∧
      (Shares (run ⟨⟨['/'], []⟩⟩ "a".toList [topic, chatNamedLikeTopic]).lanes topic
        chatNamedLikeTopic ↔ topic.segments = chatNamedLikeTopic.segments) ∧
      (topic.Free '/' → chatNamedLikeTopic.Free '/' →
        (Shares (run ⟨⟨['/'], []⟩⟩ "a".toList [topic, chatNamedLikeTopic]).files topic
          chatNamedLikeTopic ↔ topic.segments = chatNamedLikeTopic.segments)) ∧
      (topic.Free ':' → chatNamedLikeTopic.Free ':' →
        (topic.segments = chatNamedLikeTopic.segments ↔ topic.SameChat chatNamedLikeTopic)) :=
  run_shares_iff ⟨⟨['/'], []⟩⟩ "a".toList List.mem_cons_self
    (List.mem_cons_of_mem _ (List.mem_singleton_self _))

/-- The topic and the chat have one key. With slashes two keys may name one file. -/
theorem sessionKeyFor_collides :
    (¬∀ t t' : ChannelTarget, ¬t.SameChat t' → sessionKeyFor t ≠ sessionKeyFor t') ∧
      ¬∀ (paths : OxenclawPaths) (agentId : Name) (t t' : ChannelTarget), t.Free ':' →
        t'.Free ':' → ¬t.SameChat t' → paths.sessionFile agentId (sessionKeyFor t)
          ≠ paths.sessionFile agentId (sessionKeyFor t') := by
  constructor
  · intro hall
    exact hall topic chatNamedLikeTopic (fun hsame => absurd hsame.2.2.1 (by decide +kernel))
      (by decide +kernel)
  · intro hall
    refine hall ⟨⟨['/'], []⟩⟩ "a".toList ⟨['c'], ['m'], "x/y".toList, none⟩
      ⟨['c'], ['m'], "x/./y".toList, none⟩ ?_ ?_ ?_ (by decide +kernel)
    · exact ⟨by decide +kernel, by decide +kernel, by decide +kernel, by decide +kernel⟩
    · exact ⟨by decide +kernel, by decide +kernel, by decide +kernel, by decide +kernel⟩
    · exact fun hsame => absurd hsame.2.2.1 (by decide +kernel)

end OxenClaw.Agents
