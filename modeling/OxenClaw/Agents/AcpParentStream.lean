import OxenClaw.Lib.Binary64
import OxenClaw.Lib.Python
import OxenClaw.Lib.Runs
import OxenClaw.Lib.Text
import OxenClaw.Lib.Wording

/-!
# The parent-stream relay

`AcpParentStreamRelay` gathers what a child prints, takes it batch by batch after a delay, and emits
each batch as one note, to a log and then to a callback. `dispose` cancels the tasks of the relay,
emits what is left and logs that the relay ended.

An event is what a task does between two awaits. A task that `dispose` cancels while its line is
being logged has taken a batch, and the batch is lost. When the lifetime runs out, its task calls
`dispose`, which cancels this task too, so that the first await of `dispose` ends it. In a run
without these two (`Gentle`) every batch is emitted once, and the end is logged once
(`delivered_of_gentle`).
-/

namespace OxenClaw.ParentStream

/-! ## Texts -/

/-- `_compact_whitespace`. -/
def compactWhitespace (value : List Char) : List Char :=
  [' '].intercalate (Wording.words Py.isSpace value)

/-- `_truncate`. -/
def truncate (value : List Char) (maxChars : ℕ) : List Char :=
  if value.length ≤ maxChars then value
  else if maxChars ≤ 1 then value.take maxChars
  else value.take (maxChars - 1) ++ ['…']

/-- The last part of the context key of a note, which names the task that emits it too. -/
inductive Topic where
  | start
  | progress
  | stall
  | timeout
  deriving DecidableEq

structure Note where
  topic : Topic
  text : List Char

/-- A line of the log. -/
inductive Line where
  | systemEvent (note : Note)
  | ended (reason : String)

/-- `AcpParentStreamRelay`, what is set when it is made. -/
structure Relay where
  childSessionKey : String
  agentId : String
  /-- A log path is given. -/
  logs : Bool := true
  /-- A callback is given. -/
  surfaces : Bool := true
  noOutputNoticeSeconds : ℚ := 60
  maxRelayLifetimeSeconds : ℚ := 21600
  emitStartNotice : Bool := true

namespace Relay

variable (r : Relay)

/-- `_relay_label`. -/
def label : List Char :=
  let compact := truncate (compactWhitespace r.agentId.toList) 40
  if compact = [] then "ACP child".toList else compact

def startText : List Char :=
  "Started ".toList ++ r.label ++ " session ".toList ++ r.childSessionKey.toList ++
    ". Streaming progress updates to parent session.".toList

/-- The note of a text that is taken, if there is anything in it. -/
def progressText (pending : List Char) : Option (List Char) :=
  let snippet := truncate (compactWhitespace pending) 220
  if snippet = [] then none else some (r.label ++ ": ".toList ++ snippet)

def stallText : List Char :=
  r.label ++ " has produced no output for ".toList ++
    (toString (roundEven r.noOutputNoticeSeconds)).toList ++
    "s. It may be waiting for interactive input.".toList

def timeoutText : List Char :=
  r.label ++ " stream relay timed out after ".toList ++
    (toString (roundEven r.maxRelayLifetimeSeconds)).toList ++ "s without completion.".toList

end Relay

/-! ## States -/

/-- Where a task is. -/
inductive Task where
  /-- It is not made yet, or done. -/
  | off
  | asleep
  /-- Its line waits for the lock, or is written by a thread. -/
  | logging (text : List Char)
  /-- The callback has the note. -/
  | surfacing

/-- The task, or a new one that sleeps. -/
def Task.woken : Task → Task
  | .off => .asleep
  | t => t

/-- Where the `dispose` is that ends the relay. -/
inductive Closing where
  | running
  /-- What was left is logged. -/
  | flushing (text : List Char) (reason : String)
  | surfacing (reason : String)
  /-- The end is logged. -/
  | logging (reason : String)
  | ended
  deriving DecidableEq

structure State where
  disposed : Bool := false
  pendingText : List Char := []
  lastProgressAt : ℚ
  stallNotified : Bool := false
  /-- `start`, the flush, the stall watch and the lifetime watch. -/
  tasks : Topic → Task
  closing : Closing := .running
  log : List Line := []
  surfaced : List Note := []
  /-- The texts that were fed and taken, batch by batch. -/
  batches : List (List (List Char)) := []
  /-- The texts that were fed since. -/
  batch : List (List Char) := []

/-- `STREAM_BUFFER_MAX_CHARS` characters, the last ones. -/
@[irreducible] def buffered (text : List Char) : List Char :=
  Py.sliceFrom text (-4000)

/-- What happens between two awaits. Lines that a thread has when its task is cancelled may still be
written : those of `written`. -/
inductive Event where
  | feedProgress (text : List Char) (now : ℚ)
  | flushTimer
  | stallTimer (now : ℚ)
  | lifetimeTimer (written : Line → Bool)
  /-- The line of a task is written. -/
  | logged (topic : Topic) (written : Line → Bool)
  /-- The callback returns. -/
  | returned (topic : Topic) (written : Line → Bool)
  | dispose (reason : String) (written : Line → Bool)
  /-- The line of `dispose` is written. -/
  | disposeLogged
  /-- The callback returns to `dispose`. -/
  | disposeReturned

namespace State

variable (r : Relay) (s : State)

/-- A line is written. -/
def append (line : Line) : State :=
  { s with log := s.log ++ [line] }

def setTask (topic : Topic) (t : Task) : State :=
  { s with tasks := Function.update s.tasks topic t }

/-- `_emit` once the line is written. -/
def surface (note : Note) : State × Task :=
  if r.surfaces then ({ s with surfaced := s.surfaced ++ [note] }, .surfacing) else (s, .off)

/-- `_emit`, up to its first await. -/
def emit (topic : Topic) (text : List Char) : State × Task :=
  let cleaned := Py.strip text
  if cleaned = [] then (s, .off)
  else if r.logs then (s, .logging cleaned)
  else s.surface r ⟨topic, cleaned⟩

/-- What is pending is taken. -/
def take : State :=
  if s.pendingText = [] then s
  else { s with pendingText := [], batches := s.batches ++ [s.batch], batch := [] }

/-- The line that a task is logging, where it is still written. -/
def late (written : Line → Bool) (topic : Topic) : List Line :=
  match s.tasks topic with
  | .logging text => [Line.systemEvent ⟨topic, text⟩].filter written
  | _ => []

/-- The tasks are cancelled. -/
def cancel (written : Line → Bool) : State :=
  { s with
    disposed := true
    log := s.log ++ s.late written .progress ++ s.late written .stall ++ s.late written .timeout
    tasks := fun topic => if topic = .start then s.tasks .start else .off }

/-- `_log_event("end", ..)` of `dispose`, up to its await. -/
def logEnd (reason : String) : State :=
  { s with closing := if r.logs then .logging reason else .ended }

/-- `dispose`, up to its first await. -/
def dispose (reason : String) (written : Line → Bool) : State :=
  if s.disposed then s
  else
    let left := (s.cancel written).take
    match r.progressText s.pendingText with
    | none => left.logEnd r reason
    | some text =>
      match left.emit r .progress text with
      | (s', .logging text) => { s' with closing := .flushing text reason }
      | (s', .surfacing) => { s' with closing := .surfacing reason }
      | (s', _) => s'.logEnd r reason

/-- `dispose` of the lifetime watch. It has cancelled the task it runs in, and ends where it awaits
the log first. -/
def expire (written : Line → Bool) : State :=
  if s.disposed then s.setTask .timeout .off
  else
    let left := (s.cancel written).take
    let cut : Line → State := fun line =>
      { left with log := left.log ++ [line].filter written, closing := .ended }
    match r.progressText s.pendingText with
    | none => if r.logs then cut (.ended "lifetime_timeout") else { left with closing := .ended }
    | some text =>
      match left.emit r .progress text with
      | (_, .logging text) => cut (.systemEvent ⟨.progress, text⟩)
      | (s', _) => { s' with closing := .ended }

/-- A task goes on, at `t` of its `_emit`. -/
def resume (topic : Topic) (t : Task) (written : Line → Bool) : State :=
  match t, topic with
  | .off, .stall => s.setTask .stall (if s.disposed then .off else .asleep)
  | .off, .timeout => s.expire r written
  | t, topic => s.setTask topic t

def step (s : State) : Event → State
  | .feedProgress text now =>
    if s.disposed ∨ text = [] then s
    else
      let s' := { s with
        lastProgressAt := now
        stallNotified := false
        pendingText := buffered (s.pendingText ++ text)
        batch := s.batch ++ [text] }
      s'.setTask .progress (s.tasks .progress).woken
  | .flushTimer =>
    match s.tasks .progress with
    | .asleep =>
      match r.progressText s.pendingText with
      | none => s.take.setTask .progress .off
      | some text =>
        let (s', t) := s.take.emit r .progress text
        s'.setTask .progress t
    | _ => s
  | .stallTimer now =>
    match s.tasks .stall with
    | .asleep =>
      if s.disposed then s.setTask .stall .off
      else if s.stallNotified ∨ now - s.lastProgressAt < r.noOutputNoticeSeconds then s
      else
        let (s', t) := { s with stallNotified := true }.emit r .stall r.stallText
        s'.resume r .stall t fun _ => false
    | _ => s
  | .lifetimeTimer written =>
    match s.tasks .timeout with
    | .asleep =>
      if s.disposed then s.setTask .timeout .off
      else
        let (s', t) := s.emit r .timeout r.timeoutText
        s'.resume r .timeout t written
    | _ => s
  | .logged topic written =>
    match s.tasks topic with
    | .logging text =>
      let (s', t) := (s.append (.systemEvent ⟨topic, text⟩)).surface r ⟨topic, text⟩
      s'.resume r topic t written
    | _ => s
  | .returned topic written =>
    match s.tasks topic with
    | .surfacing => s.resume r topic .off written
    | _ => s
  | .dispose reason written => s.dispose r reason written
  | .disposeLogged =>
    match s.closing with
    | .flushing text reason =>
      match (s.append (.systemEvent ⟨.progress, text⟩)).surface r ⟨.progress, text⟩ with
      | (s', .surfacing) => { s' with closing := .surfacing reason }
      | (s', _) => s'.logEnd r reason
    | .logging reason => { s.append (.ended reason) with closing := .ended }
    | _ => s
  | .disposeReturned =>
    match s.closing with
    | .surfacing reason => s.logEnd r reason
    | _ => s

end State

/-- The relay after `start`, up to its first await. -/
def started (r : Relay) (now : ℚ) : State :=
  let s : State := {
    lastProgressAt := now
    tasks := fun topic => if topic = .stall ∨ topic = .timeout then .asleep else .off }
  if r.emitStartNotice then
    let (s', t) := s.emit r .start r.startText
    s'.setTask .start t
  else s

/-! ## What is emitted -/

/-- The notes of batches, one for each in which there is anything. -/
def expected (r : Relay) (batches : List (List (List Char))) : List Note :=
  batches.filterMap fun batch =>
    (r.progressText (buffered batch.flatten)).map fun text => ⟨.progress, Py.strip text⟩

def Line.note? : Line → Option Note
  | .systemEvent note => some note
  | .ended _ => none

def Line.isEnd : Line → Bool
  | .systemEvent _ => false
  | .ended _ => true

def progressOf (notes : List Note) : List Note :=
  notes.filter (·.topic = .progress)

/-- What was fed is emitted, batch by batch, and the end is logged once. -/
structure Delivered (r : Relay) (s : State) : Prop where
  taken : s.batch = []
  surfaced : r.surfaces = true → progressOf s.surfaced = expected r s.batches
  logged : progressOf (s.log.filterMap Line.note?) = expected r s.batches
  ended : s.log.countP Line.isEnd = 1

/-- The lifetime watch gets to its `dispose`. -/
def Expires (r : Relay) (s : State) : Event → Prop
  | .lifetimeTimer _ => s.tasks .timeout = .asleep ∧ r.logs = false ∧ r.surfaces = false
  | .logged .timeout _ => (∃ text, s.tasks .timeout = .logging text) ∧ r.surfaces = false
  | .returned .timeout _ => s.tasks .timeout = .surfacing
  | _ => False

/-- No `dispose` comes while the flush has a batch whose line is not written yet, and none is that
of the lifetime watch. -/
def Gentle (r : Relay) (s : State) (e : Event) : Prop :=
  ¬ Expires r s e ∧ match e with
    | .dispose _ _ => s.disposed = true ∨ ∀ text, s.tasks .progress ≠ .logging text
    | _ => True

/-! ## What progress depends on -/

/-- What of a state the emission of progress depends on. -/
structure View where
  pending : List Char
  batch : List (List Char)
  batches : List (List (List Char))
  disposed : Bool
  closing : Closing
  flush : Task
  surfaced : List Note
  logged : List Note
  ends : ℕ

def State.view (s : State) : View where
  pending := s.pendingText
  batch := s.batch
  batches := s.batches
  disposed := s.disposed
  closing := s.closing
  flush := s.tasks .progress
  surfaced := progressOf s.surfaced
  logged := progressOf (s.log.filterMap Line.note?)
  ends := s.log.countP Line.isEnd

/-- The batches that were taken and are not logged yet. -/
def View.inFlight (v : View) : List Note :=
  (match v.flush with
    | .logging text => [⟨.progress, text⟩]
    | _ => []) ++
  match v.closing with
    | .flushing text _ => [⟨.progress, text⟩]
    | _ => []

/-- Every batch is emitted or in flight. -/
structure Inv (r : Relay) (v : View) : Prop where
  pending : v.pending = buffered v.batch.flatten
  fed : v.pending = [] → v.batch = []
  running : v.disposed = false → v.closing = .running
  closed : v.disposed = true → v.flush = .off ∧ v.batch = []
  surfaced : r.surfaces = true → v.surfaced ++ v.inFlight = expected r v.batches
  logged : v.logged ++ v.inFlight = expected r v.batches
  ends : v.ends = if v.closing = .ended then 1 else 0

theorem Inv.delivered {r : Relay} {s : State} (h : Inv r s.view) (hended : s.closing = .ended) :
    Delivered r s := by
  have hdisposed : s.disposed = true := by
    by_contra hrunning
    have hclosing : s.closing = .running := h.running (Bool.eq_false_iff.2 hrunning)
    rw [hclosing] at hended
    cases hended
  obtain ⟨hflush, hbatch⟩ := h.closed hdisposed
  have hnone : s.view.inFlight = [] := by
    rw [View.inFlight, hflush]
    change [] ++ (match s.closing with | .flushing text _ => _ | _ => []) = []
    rw [hended]
    rfl
  have hsurfaced := h.surfaced
  have hlogged := h.logged
  rw [hnone, List.append_nil] at hsurfaced hlogged
  exact ⟨hbatch, hsurfaced, hlogged, h.ends.trans (if_pos hended)⟩

/-- What stands last in a text stands last in what is left of it. -/
theorem drop_append_drop (n : ℕ) (a b : List Char) :
    (a.drop (a.length - n) ++ b).drop ((a.drop (a.length - n) ++ b).length - n) =
      (a ++ b).drop ((a ++ b).length - n) := by
  have hle : a.length - n ≤ a.length := Nat.sub_le _ _
  rw [← List.drop_append_of_le_length hle, List.drop_drop, List.length_drop, List.length_append]
  congr 1
  omega

theorem sliceFrom_neg (l : List Char) {n : ℕ} (h : 0 < n) :
    Py.sliceFrom l (-(n : ℤ)) = l.drop (l.length - n) := by
  rw [Py.sliceFrom, Py.sliceStart, if_neg (by omega), neg_neg, Int.toNat_natCast]

theorem buffered_eq (l : List Char) : buffered l = l.drop (l.length - 4000) := by
  have h := sliceFrom_neg l (show 0 < 4000 by omega)
  rw [Nat.cast_ofNat] at h
  unfold buffered
  exact h

theorem buffered_nil : buffered [] = [] := by
  rw [buffered_eq, List.drop_nil]

theorem buffered_append (a b : List Char) : buffered (buffered a ++ b) = buffered (a ++ b) := by
  rw [buffered_eq, buffered_eq a, buffered_eq]
  exact drop_append_drop 4000 a b

theorem strip_ne_nil {text : List Char} {c : Char} (hc : c ∈ text) (hspace : Py.isSpace c = false) :
    Py.strip text ≠ [] := by
  intro hstrip
  have hink := Py.ink_strip text
  rw [hstrip] at hink
  exact Bool.false_ne_true (hspace.symm.trans (Py.ink_eq_nil.1 hink.symm c hc))

theorem strip_ne_nil_of_progressText {r : Relay} {pending text : List Char}
    (h : r.progressText pending = some text) : Py.strip text ≠ [] := by
  unfold Relay.progressText at h
  dsimp only at h
  split_ifs at h
  obtain rfl := Option.some.inj h
  have hcolon : ':' ∈ ": ".toList := by
    rw [String.toList_ofList]
    exact List.mem_cons_self
  exact strip_ne_nil (List.mem_append_left _ (List.mem_append_right _ hcolon)) (by decide)

theorem strip_timeoutText_ne_nil (r : Relay) : Py.strip r.timeoutText ≠ [] := by
  have hletter : 's' ∈ "s without completion.".toList := by
    rw [String.toList_ofList]
    exact List.mem_cons_self
  exact strip_ne_nil (List.mem_append_right _ hletter) (by decide)

theorem progressText_nil (r : Relay) : r.progressText [] = none :=
  rfl

namespace State

variable {r : Relay} (s : State)

theorem emit_of_logs (hlogs : r.logs = true) (topic : Topic) (text : List Char) :
    s.emit r topic text =
      (s, if Py.strip text = [] then .off else .logging (Py.strip text)) := by
  simp only [emit, hlogs, if_true]
  split_ifs <;> rfl

theorem view_setTask {topic : Topic} (h : topic ≠ .progress) (t : Task) :
    (s.setTask topic t).view = s.view := by
  rw [view, setTask]
  simp only [Function.update_of_ne h.symm]
  rfl

theorem view_setTask_progress (t : Task) :
    (s.setTask .progress t).view = { s.view with flush := t } := by
  rw [view, setTask]
  simp only [Function.update_self]
  rfl

theorem view_append {topic : Topic} (h : topic ≠ .progress) (text : List Char) :
    (s.append (.systemEvent ⟨topic, text⟩)).view = s.view := by
  simp [view, append, progressOf, Line.note?, Line.isEnd, h]

theorem view_surface {topic : Topic} (h : topic ≠ .progress) (text : List Char) :
    (s.surface r ⟨topic, text⟩).1.view = s.view := by
  rw [surface]
  split_ifs
  · simp [view, progressOf, h]
  · rfl

theorem view_append_progress (text : List Char) :
    (s.append (.systemEvent ⟨.progress, text⟩)).view =
      { s.view with logged := s.view.logged ++ [⟨.progress, text⟩] } := by
  simp [view, append, progressOf, Line.note?, Line.isEnd]

theorem view_surface_progress (text : List Char) :
    (s.surface r ⟨.progress, text⟩).1.view = { s.view with
      surfaced := if r.surfaces then s.view.surfaced ++ [⟨.progress, text⟩]
        else s.view.surfaced } := by
  rw [surface]
  split_ifs
  · simp [view, progressOf]
  · rfl

theorem surface_snd (note : Note) :
    (s.surface r note).2 = if r.surfaces then .surfacing else .off := by
  rw [surface]
  split_ifs <;> rfl

theorem resume_progress (t : Task) (written : Line → Bool) :
    s.resume r .progress t written = s.setTask .progress t := by
  rcases t <;> rfl

theorem view_resume {topic : Topic} (h : topic ≠ .progress) {t : Task}
    (ht : topic = .timeout → t ≠ .off) (written : Line → Bool) :
    (s.resume r topic t written).view = s.view := by
  unfold resume
  split
  · exact s.view_setTask (by decide) _
  · exact absurd rfl (ht rfl)
  · exact s.view_setTask h t

theorem take_batches (h : Inv r s.view) : expected r s.take.batches =
    expected r s.batches ++
      ((r.progressText s.pendingText).map fun text => ⟨.progress, Py.strip text⟩).toList := by
  have hpending : s.pendingText = buffered s.batch.flatten := h.pending
  by_cases hnone : s.pendingText = []
  · rw [take, if_pos hnone, hnone, progressText_nil]
    simp
  · rw [take, if_neg hnone, hpending, expected, List.filterMap_append]
    refine congrArg _ ?_
    rw [List.filterMap_cons]
    rcases r.progressText (buffered s.batch.flatten) with _ | text <;> rfl

/-- A batch is taken, and nothing is in flight before. -/
theorem view_take (h : Inv r s.view) : s.take.view = { s.view with
    pending := [], batch := [], batches := s.take.batches } := by
  by_cases hnone : s.pendingText = []
  · have hbatch : s.batch = [] := h.fed hnone
    rw [take, if_pos hnone, view, hnone, hbatch]
  · rw [take, if_neg hnone]
    rfl

theorem view_logEnd (reason : String) : (s.logEnd r reason).view =
    { s.view with closing := if r.logs then .logging reason else .ended } := rfl

/-- The lines of the other tasks are no progress and no end. -/
theorem late_of_ne (written : Line → Bool) {topic : Topic} (h : topic ≠ .progress) :
    progressOf ((s.late written topic).filterMap Line.note?) = [] ∧
      (s.late written topic).countP Line.isEnd = 0 := by
  unfold late
  split
  · rename_i text _
    rw [List.filter_singleton]
    rcases written (.systemEvent ⟨topic, text⟩) with _ | _
    · exact ⟨rfl, rfl⟩
    · simp [progressOf, Line.note?, Line.isEnd, h]
  · exact ⟨rfl, rfl⟩

theorem view_cancel (written : Line → Bool) (h : ∀ text, s.tasks .progress ≠ .logging text) :
    (s.cancel written).view = { s.view with disposed := true, flush := .off } := by
  have hprogress : s.late written .progress = [] := by
    unfold late
    split
    · rename_i text htext
      exact absurd htext (h text)
    · rfl
  obtain ⟨hstall, hstall'⟩ := s.late_of_ne written (show Topic.stall ≠ .progress by decide)
  obtain ⟨htimeout, htimeout'⟩ := s.late_of_ne written
    (show Topic.timeout ≠ .progress by decide)
  rw [progressOf] at hstall htimeout
  simp only [view, cancel, progressOf, hprogress, List.append_nil, List.filterMap_append,
    List.filter_append, List.countP_append, hstall, htimeout, hstall', htimeout', Nat.add_zero]
  rfl

theorem tasks_take : s.take.tasks = s.tasks := by
  rw [take]
  split_ifs <;> rfl

theorem take_cancel (written : Line → Bool) :
    (s.cancel written).take = s.take.cancel written := by
  by_cases hnone : s.pendingText = []
  · rw [take, take, if_pos hnone]
    exact if_pos hnone
  · rw [take, take, if_neg hnone]
    exact if_neg hnone

end State

variable {r : Relay} {s : State}

theorem inv_started (hlogs : r.logs = true) (now : ℚ) : Inv r (started r now).view := by
  have hfresh : Inv r (State.view {
      lastProgressAt := now
      tasks := fun topic => if topic = .stall ∨ topic = .timeout then .asleep else .off }) :=
    ⟨buffered_nil.symm, fun _ => rfl, fun _ => rfl, nofun, fun _ => rfl, rfl, rfl⟩
  rw [started]
  split_ifs
  · rw [State.emit_of_logs _ hlogs]
    dsimp only
    rw [State.view_setTask _ (by decide)]
    exact hfresh
  · exact hfresh

theorem buffered_append_ne_nil {a text : List Char} (h : text ≠ []) : buffered (a ++ text) ≠ [] := by
  have hpos := List.length_pos_iff.2 h
  rw [buffered_eq, ← List.length_pos_iff, List.length_drop, List.length_append]
  omega

/-- What is fed is pending. -/
theorem Inv.feed {v : View} (h : Inv r v) (hrunning : v.disposed = false) {text : List Char}
    (htext : text ≠ []) :
    Inv r { v with
      pending := buffered (v.pending ++ text)
      batch := v.batch ++ [text]
      flush := v.flush.woken } := by
  have hflight : View.inFlight { v with
      pending := buffered (v.pending ++ text)
      batch := v.batch ++ [text]
      flush := v.flush.woken } = v.inFlight := by
    rw [View.inFlight, View.inFlight]
    rcases v.flush <;> rfl
  refine ⟨?_, fun hnone => absurd hnone (buffered_append_ne_nil htext), h.running,
    fun hdisposed => absurd (hrunning.symm.trans hdisposed) Bool.false_ne_true, ?_, ?_, h.ends⟩
  · rw [h.pending, buffered_append, List.flatten_append, List.flatten_singleton]
  · rw [hflight]
    exact h.surfaced
  · rw [hflight]
    exact h.logged

/-- What is pending is taken, and is in flight if there is anything in it. -/
theorem Inv.take {disposed : Bool} {closing : Closing} {flush : Task} (h : Inv r s.view)
    (hnone : s.view.inFlight = []) (hflight : View.inFlight { s.view with closing, flush } =
      ((r.progressText s.pendingText).map fun text => ⟨.progress, Py.strip text⟩).toList)
    (hrunning : disposed = false → closing = .running) (hclosed : disposed = true → flush = .off)
    (hends : s.view.ends = if closing = .ended then 1 else 0) :
    Inv r { s.take.view with disposed, closing, flush } := by
  have hbatches := s.take_batches h
  have hsurfaced := h.surfaced
  have hlogged := h.logged
  rw [hnone, List.append_nil] at hsurfaced hlogged
  rw [s.view_take h]
  refine ⟨buffered_nil.symm, fun _ => rfl, hrunning, fun hdisposed => ⟨hclosed hdisposed, rfl⟩,
    fun hsurfaces => ?_, ?_, hends⟩
  · exact (congrArg₂ _ (hsurfaced hsurfaces) hflight).trans hbatches.symm
  · exact (congrArg₂ _ hlogged hflight).trans hbatches.symm

/-- Nothing is in flight while the relay runs and the flush does not log. -/
theorem inFlight_running (h : Inv r s.view) (hrunning : s.disposed = false)
    (hflush : ∀ text, s.tasks .progress ≠ .logging text) : s.view.inFlight = [] := by
  have hclosing : s.closing = .running := h.running hrunning
  change (match s.tasks .progress with | .logging text => _ | _ => []) ++
    (match s.closing with | .flushing text _ => _ | _ => []) = []
  rw [hclosing]
  rcases hlogging : s.tasks .progress with _ | _ | text | _
  · rfl
  · rfl
  · exact absurd hlogging (hflush text)
  · rfl

/-- The flush takes a batch, and logs it if there is anything in it. -/
theorem Inv.flushTimer (h : Inv r s.view) (hlogs : r.logs = true) :
    Inv r (s.step r .flushTimer).view := by
  rw [State.step]
  rcases hflush : s.tasks .progress with _ | _ | text | _
  · exact h
  · have hrunning : s.disposed = false := by
      by_contra hdisposed
      have hoff : s.tasks .progress = .off := (h.closed (Bool.eq_true_of_not_eq_false hdisposed)).1
      rw [hoff] at hflush
      cases hflush
    have hclosing : s.closing = .running := h.running hrunning
    have hnone := inFlight_running h hrunning (by simp [hflush])
    have htaken (flush : Task) : { s.take.view with flush } =
        { s.take.view with disposed := false, closing := .running, flush } := by
      rw [s.view_take h, ← hrunning, ← hclosing]
      rfl
    have hends : s.view.ends = 0 := h.ends.trans (if_neg (by simp [State.view, hclosing]))
    rcases htext : r.progressText s.pendingText with _ | text
    · simp only [State.view_setTask_progress]
      rw [htaken]
      exact h.take hnone (by rw [htext]; rfl) (fun _ => rfl) nofun hends
    · simp only [State.emit_of_logs _ hlogs, State.view_setTask_progress,
        if_neg (strip_ne_nil_of_progressText htext)]
      rw [htaken]
      exact h.take hnone (by rw [htext]; rfl) (fun _ => rfl) nofun hends
  · exact h
  · exact h

/-- `dispose` takes what is left, and logs it if there is anything in it. -/
theorem Inv.dispose (h : Inv r s.view) (hlogs : r.logs = true)
    (hflush : ∀ text, s.tasks .progress ≠ .logging text) (reason : String)
    (written : Line → Bool) : Inv r (s.dispose r reason written).view := by
  rw [State.dispose]
  split_ifs with hdisposed
  · exact h
  have hrunning : s.disposed = false := Bool.eq_false_iff.2 hdisposed
  have hclosing : s.closing = .running := h.running hrunning
  have hnone := inFlight_running h hrunning hflush
  have hends : s.view.ends = 0 := h.ends.trans (if_neg (by simp [State.view, hclosing]))
  have htaken : (s.cancel written).take.view =
      { s.take.view with disposed := true, flush := .off } := by
    rw [State.take_cancel]
    exact s.take.view_cancel written (by rwa [State.tasks_take])
  rcases htext : r.progressText s.pendingText with _ | text
  · simp only [State.view_logEnd, hlogs, if_true]
    rw [htaken]
    exact h.take hnone (by rw [htext]; rfl) nofun (fun _ => rfl) hends
  · simp only [State.emit_of_logs _ hlogs, if_neg (strip_ne_nil_of_progressText htext)]
    change Inv r { (s.cancel written).take.view with closing := .flushing (Py.strip text) reason }
    rw [htaken]
    exact h.take hnone (by rw [htext]; rfl) nofun (fun _ => rfl) hends

/-- The note in flight is emitted. -/
theorem Inv.emitted {v : View} {note : Note} {flush : Task} {closing : Closing}
    {surfaced : List Note} (h : Inv r v) (hflight : v.inFlight = [note])
    (hnone : View.inFlight { v with flush, closing } = [])
    (hsurfaced : r.surfaces = true → surfaced = v.surfaced ++ [note])
    (hrunning : v.disposed = false → closing = .running)
    (hclosed : v.disposed = true → flush = .off)
    (hends : v.ends = if closing = .ended then 1 else 0) :
    Inv r { v with flush, closing, surfaced, logged := v.logged ++ [note] } := by
  have hold := h.surfaced
  have hlogged := h.logged
  rw [hflight] at hold hlogged
  refine ⟨h.pending, h.fed, hrunning, fun hdisposed => ⟨hclosed hdisposed, (h.closed hdisposed).2⟩,
    fun hsurfaces => ?_, ?_, hends⟩
  · exact (congrArg₂ _ (hsurfaced hsurfaces) hnone).trans ((List.append_nil _).trans (hold hsurfaces))
  · exact (congrArg (_ ++ ·) hnone).trans ((List.append_nil _).trans hlogged)

/-- `dispose` goes on. -/
theorem Inv.closes {v : View} {closing : Closing} {ends : ℕ} (h : Inv r v)
    (hdisposed : v.disposed = true) (hflight : View.inFlight { v with closing, ends } = v.inFlight)
    (hends : ends = if closing = .ended then 1 else 0) : Inv r { v with closing, ends } := by
  refine ⟨h.pending, h.fed, fun hrunning => absurd (hrunning.symm.trans hdisposed)
    Bool.false_ne_true, h.closed, ?_, ?_, hends⟩
  · rw [hflight]
    exact h.surfaced
  · rw [hflight]
    exact h.logged

/-- The callback returns to the flush. -/
theorem Inv.idle {v : View} (h : Inv r v) (hflush : v.flush = .surfacing) :
    Inv r { v with flush := .off } := by
  have hflight : View.inFlight { v with flush := .off } = v.inFlight := by
    rw [View.inFlight, View.inFlight, hflush]
  refine ⟨h.pending, h.fed, h.running, fun hdisposed => ⟨rfl, (h.closed hdisposed).2⟩, ?_, ?_,
    h.ends⟩
  · rw [hflight]
    exact h.surfaced
  · rw [hflight]
    exact h.logged

theorem disposed_of_closing (h : Inv r s.view) (hclosing : s.closing ≠ .running) :
    s.disposed = true := by
  by_contra hrunning
  exact hclosing (h.running (Bool.eq_false_iff.2 hrunning))

/-- The line of the flush is written. -/
theorem Inv.logged_progress (h : Inv r s.view) {text : List Char}
    (htask : s.tasks .progress = .logging text) (written : Line → Bool) :
    let s' := (s.append (.systemEvent ⟨.progress, text⟩)).surface r ⟨.progress, text⟩
    Inv r (s'.1.resume r .progress s'.2 written).view := by
  intro s'
  have hrunning : s.disposed = false := by
    by_contra hdisposed
    have hoff : s.tasks .progress = .off := (h.closed (Bool.eq_true_of_not_eq_false hdisposed)).1
    rw [hoff] at htask
    cases htask
  have hclosing : s.view.closing = .running := h.running hrunning
  have hflush : s.view.flush = .logging text := htask
  rw [State.resume_progress, State.view_setTask_progress, State.view_surface_progress,
    State.view_append_progress]
  have hflight : s.view.inFlight = [⟨.progress, text⟩] := by
    rw [View.inFlight, hflush, hclosing]
    rfl
  have hnone : View.inFlight { s.view with flush := s'.2, closing := s.view.closing } = [] := by
    rw [View.inFlight, hclosing, State.surface_snd]
    split_ifs <;> rfl
  exact h.emitted hflight hnone (fun h => if_pos h) (fun _ => hclosing)
    (fun hdisposed => absurd (hrunning.symm.trans hdisposed) Bool.false_ne_true) h.ends

/-- The line of a task is written. -/
theorem Inv.logged_step (h : Inv r s.view) (topic : Topic) (written : Line → Bool)
    (hstays : ¬ Expires r s (.logged topic written)) :
    Inv r (s.step r (.logged topic written)).view := by
  rw [State.step]
  rcases htask : s.tasks topic with _ | _ | text | _
  · exact h
  · exact h
  · by_cases hprogress : topic = .progress
    · subst hprogress
      exact h.logged_progress htask written
    · dsimp only
      rw [State.view_resume _ hprogress, State.view_surface _ hprogress, State.view_append _ hprogress]
      · exact h
      · rintro rfl hoff
        rw [State.surface_snd] at hoff
        split_ifs at hoff with hsurfaces
        exact hstays ⟨⟨text, htask⟩, Bool.eq_false_iff.2 hsurfaces⟩
  · exact h

/-- The callback returns to a task. -/
theorem Inv.returned_step (h : Inv r s.view) (topic : Topic) (written : Line → Bool)
    (hstays : ¬ Expires r s (.returned topic written)) :
    Inv r (s.step r (.returned topic written)).view := by
  rw [State.step]
  rcases htask : s.tasks topic with _ | _ | text | _
  · exact h
  · exact h
  · exact h
  · by_cases hprogress : topic = .progress
    · subst hprogress
      dsimp only
      rw [State.resume_progress, State.view_setTask_progress]
      exact h.idle htask
    · dsimp only
      rw [State.view_resume _ hprogress]
      · exact h
      · rintro rfl
        exact absurd htask hstays

/-- The line of `dispose` is written. -/
theorem Inv.disposeLogged_step (h : Inv r s.view) (hlogs : r.logs = true) :
    Inv r (s.step r .disposeLogged).view := by
  rw [State.step]
  rcases hclosing : s.closing with _ | ⟨text, reason⟩ | reason | reason | _
  · exact h
  · have hdisposed := disposed_of_closing h (by simp [hclosing])
    have hview : s.view.closing = .flushing text reason := hclosing
    have hoff : s.view.flush = .off := (h.closed hdisposed).1
    have hends : s.view.ends = 0 := h.ends.trans (by rw [hview]; rfl)
    have hflight : s.view.inFlight = [⟨.progress, text⟩] := by
      rw [View.inFlight, hoff, hview]
      rfl
    have hnext := State.view_surface_progress (r := r) (s.append (.systemEvent ⟨.progress, text⟩)) text
    have ht := State.surface_snd (r := r) (s.append (.systemEvent ⟨.progress, text⟩)) ⟨.progress, text⟩
    rw [State.view_append_progress] at hnext
    dsimp only
    generalize (s.append (.systemEvent ⟨.progress, text⟩)).surface r ⟨.progress, text⟩ = next
      at hnext ht ⊢
    obtain ⟨s', t⟩ := next
    have hemitted (closing : Closing) (hclosed : closing = .surfacing reason ∨
        closing = .logging reason) : Inv r { s'.view with closing } := by
      have hnext : s'.view = _ := hnext
      have hended : closing ≠ .ended := by
        rintro rfl
        rcases hclosed with hclosed | hclosed <;> cases hclosed
      rw [hnext]
      have hnone : View.inFlight { s.view with closing } = [] := by
        rw [View.inFlight, hoff]
        rcases hclosed with rfl | rfl <;> rfl
      exact h.emitted hflight hnone (fun h => if_pos h)
        (fun hrunning => absurd (hrunning.symm.trans hdisposed) Bool.false_ne_true) (fun _ => hoff)
        (hends.trans (if_neg hended).symm)
    rcases hsurfaces : r.surfaces with _ | _
    · rw [hsurfaces] at ht
      obtain rfl : t = .off := ht
      dsimp only
      rw [State.view_logEnd, hlogs, if_pos rfl]
      exact hemitted _ (.inr rfl)
    · rw [hsurfaces] at ht
      obtain rfl : t = .surfacing := ht
      exact hemitted _ (.inl rfl)
  · exact h
  · have hdisposed := disposed_of_closing h (by simp [hclosing])
    have hview : s.view.closing = .logging reason := hclosing
    have hended : State.view { s.append (.ended reason) with closing := .ended } =
        { s.view with closing := .ended, ends := s.view.ends + 1 } := by
      have hnone : [Line.ended reason].filterMap Line.note? = [] := rfl
      simp [State.view, State.append, hnone, Line.isEnd]
    dsimp only
    rw [hended]
    refine h.closes hdisposed (by rw [View.inFlight, View.inFlight, hview]) ?_
    rw [h.ends, hview]
    rfl
  · exact h

/-- The callback returns to `dispose`. -/
theorem Inv.disposeReturned_step (h : Inv r s.view) (hlogs : r.logs = true) :
    Inv r (s.step r .disposeReturned).view := by
  rw [State.step]
  rcases hclosing : s.closing with _ | ⟨text, reason⟩ | reason | reason | _
  · exact h
  · exact h
  · have hdisposed := disposed_of_closing h (by simp [hclosing])
    have hview : s.view.closing = .surfacing reason := hclosing
    dsimp only
    rw [State.view_logEnd, hlogs, if_pos rfl]
    refine h.closes hdisposed (by rw [View.inFlight, View.inFlight, hview]) ?_
    rw [h.ends, hview]
    rfl
  · exact h
  · exact h

theorem inv_step (hlogs : r.logs = true) (e : Event) (h : Inv r s.view)
    (hgentle : Gentle r s e) : Inv r (s.step r e).view := by
  obtain ⟨hstays, hcalm⟩ := hgentle
  rcases e with ⟨text, now⟩ | _ | now | written | ⟨topic, written⟩ | ⟨topic, written⟩ |
    ⟨reason, written⟩ | _ | _
  · -- feedProgress
    rw [State.step]
    split_ifs with hskip
    · exact h
    · push Not at hskip
      rw [State.view_setTask_progress]
      exact h.feed (Bool.eq_false_iff.2 hskip.1) hskip.2
  · exact h.flushTimer hlogs
  · -- stallTimer
    rw [State.step]
    rcases s.tasks .stall with _ | _ | text | _
    · exact h
    · dsimp only
      split_ifs
      · rwa [s.view_setTask (by decide)]
      · exact h
      · rw [State.emit_of_logs _ hlogs, State.view_resume _ (by decide) fun h => by cases h]
        exact h
    · exact h
    · exact h
  · -- lifetimeTimer
    rw [State.step]
    rcases s.tasks .timeout with _ | _ | text | _
    · exact h
    · dsimp only
      split_ifs
      · rwa [s.view_setTask (by decide)]
      · rw [State.emit_of_logs _ hlogs, if_neg (strip_timeoutText_ne_nil r),
          State.view_resume _ (by decide) fun _ h => by cases h]
        exact h
    · exact h
    · exact h
  · exact h.logged_step topic written hstays
  · exact h.returned_step topic written hstays
  · rcases hcalm with hdisposed | hflush
    · rw [State.step, State.dispose, if_pos hdisposed]
      exact h
    · exact h.dispose hlogs hflush reason written
  · exact h.disposeLogged_step hlogs
  · exact h.disposeReturned_step hlogs

/-- In a gentle run of a relay that has a log, whatever was fed before the relay ended is emitted,
each batch once, and the end is logged once. -/
theorem delivered_of_gentle (r : Relay) (hlogs : r.logs = true) (now : ℚ) (es : List Event)
    (hes : EachStep (State.step r) (Gentle r) (started r now) es) :
    ∀ s ∈ trail (State.step r) (started r now) es, s.closing = .ended → Delivered r s :=
  fun s hs hended => (hes.forall_mem_trail (fun _ e => inv_step hlogs e)
    (inv_started hlogs now) s hs).delivered hended

/-- A relay that does not announce itself. -/
def quietRelay : Relay where
  childSessionKey := "child"
  agentId := "codex"
  emitStartNotice := false

/-- A text is left when the relay is disposed of. -/
def disposedRun : List Event :=
  [.feedProgress ['x'] 1, .dispose "end" fun _ => false, .disposeLogged, .disposeReturned,
    .disposeLogged]

theorem progressText_letter : quietRelay.progressText (buffered ['x']) =
    some (quietRelay.label ++ ": ".toList ++ ['x']) := by
  have hbuffered : buffered ['x'] = ['x'] := by
    simp [buffered_eq]
  have hcompact : compactWhitespace ['x'] = ['x'] := by
    decide
  rw [hbuffered, Relay.progressText, hcompact]
  rfl

theorem closing_disposedRun :
    (disposedRun.foldl (State.step quietRelay) (started quietRelay 0)).closing = .ended := by
  obtain ⟨fed, hfed⟩ : ∃ fed, fed = (started quietRelay 0).step quietRelay (.feedProgress ['x'] 1) :=
    ⟨_, rfl⟩
  have hrunning : ¬fed.disposed = true := by
    rw [hfed]
    exact Bool.false_ne_true
  have htext : quietRelay.progressText fed.pendingText =
      some (quietRelay.label ++ ": ".toList ++ ['x']) := by
    rw [hfed]
    exact progressText_letter
  have hdispose : fed.step quietRelay (.dispose "end" fun _ => false) =
      { (fed.cancel fun _ => false).take with
        closing := .flushing (Py.strip (quietRelay.label ++ ": ".toList ++ ['x'])) "end" } := by
    rw [State.step, State.dispose, if_neg hrunning]
    dsimp only
    rw [htext]
    dsimp only
    rw [State.emit_of_logs _ rfl, if_neg (strip_ne_nil_of_progressText htext)]
  rw [disposedRun, List.foldl_cons, List.foldl_cons, ← hfed, hdispose]
  rfl

theorem delivered_of_gentle_disposedRun :
    Delivered quietRelay (disposedRun.foldl (State.step quietRelay) (started quietRelay 0)) :=
  delivered_of_gentle quietRelay rfl 0 disposedRun ⟨⟨nofun, trivial⟩,
    ⟨nofun, .inr fun _ => nofun⟩, ⟨nofun, trivial⟩, ⟨nofun, trivial⟩, ⟨nofun, trivial⟩, trivial⟩
    _ (foldl_mem_trail disposedRun _) closing_disposedRun

/-- A text is taken, and the relay is disposed of before it is logged. -/
def lostRun : List Event :=
  [.feedProgress ['x'] 1, .flushTimer, .dispose "end" fun _ => false, .disposeLogged]

theorem lostRun_not_delivered :
    ¬ ∀ s ∈ trail (State.step quietRelay) (started quietRelay 0) lostRun, s.closing = .ended →
      Delivered quietRelay s := by
  intro h
  have hlast := h _ (foldl_mem_trail lostRun _)
  obtain ⟨fed, hfed⟩ : ∃ fed, fed = (started quietRelay 0).step quietRelay (.feedProgress ['x'] 1) :=
    ⟨_, rfl⟩
  have hpending : fed.pendingText ≠ [] := by
    rw [hfed]
    exact buffered_append_ne_nil (by decide)
  have htaken : fed.take = { fed with pendingText := [], batches := [[['x']]], batch := [] } := by
    rw [State.take, if_neg hpending, hfed]
    rfl
  have hflush : fed.step quietRelay .flushTimer =
      { fed with pendingText := [], batches := [[['x']]], batch := [] }.setTask .progress
        (.logging (Py.strip (quietRelay.label ++ ": ".toList ++ ['x']))) := by
    have hasleep : fed.tasks .progress = .asleep := by
      rw [hfed]
      rfl
    have htext : quietRelay.progressText fed.pendingText =
        some (quietRelay.label ++ ": ".toList ++ ['x']) := by
      rw [hfed]
      exact progressText_letter
    rw [State.step, hasleep]
    dsimp only
    rw [htext]
    dsimp only
    rw [State.emit_of_logs _ rfl, if_neg (strip_ne_nil_of_progressText htext), htaken]
  rw [lostRun, List.foldl_cons, List.foldl_cons, ← hfed, hflush, hfed] at hlast
  have hlogged : [] = expected quietRelay [[['x']]] := (hlast rfl).logged
  have hexpected : expected quietRelay [[['x']]] = [_] :=
    List.filterMap_cons_some (congrArg _ progressText_letter)
  rw [hexpected] at hlogged
  cases hlogged

end OxenClaw.ParentStream
