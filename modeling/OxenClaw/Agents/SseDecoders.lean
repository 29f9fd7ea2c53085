import OxenClaw.Agents.LocalAgent
import OxenClaw.Pi.Providers.Deltas

/-!
# Two readings of one stream

The provider path announces a call at the delta that completes its slot and sends on what
arrives after that; the local agent keeps one slot an index to the end. They make the same
calls of a stream if every delta of it `Fits` : before its slot is complete it brings no
arguments, after that no more of the name and none after a `finish_reason`, and slots
become complete by index. For streams in which each index has an id of its own (`OwnId`)
that is also needed (`assembled_eq_consumed_iff`).
-/

namespace OxenClaw

open OpenaiShared Deltas

/-- The tool calls `LocalAgent._consume_sse` assembles. -/
def consumed (chunks : List Chunk) : List ToolCall :=
  (LocalAgent.consumeSse chunks).toolCalls.map LocalAgent.Slot.call

namespace Deltas

/-- No `finish_reason` has come since the slot of `i` is complete. -/
def Open (d : List Wire) (i : ℤ) : Prop :=
  Justified (fun before w => w.delta? = none → ¬(slot before i).Complete) d

/-- A delta names no id, or the id of its index, which no other index has. -/
structure KeepsId (before : List Wire) (tc : ToolCallDelta) : Prop where
  same : (slot before tc.index).id = "" ∨ (slot before tc.index).id = given tc.id
  own : ∀ other ∈ deltas before, other.index ≠ tc.index →
    (slot before other.index).id ≠ given tc.id

/-- Each index has an id of its own. -/
def OwnId (before : List Wire) : Wire → Prop
  | .delta tc => given tc.id ≠ "" → KeepsId before tc
  | .finish => True

/-- What a delta may bring, by the slot it finds. -/
structure Fits (before : List Wire) (tc : ToolCallDelta) : Prop where
  name_settled : (slot before tc.index).Complete → given tc.function.name = ""
  not_finished : (slot before tc.index).Complete → Open before tc.index
  arguments_later : ¬((slot before tc.index).merge tc).Complete →
    given tc.function.arguments = ""
  by_index : ¬(slot before tc.index).Complete → ((slot before tc.index).merge tc).Complete →
    ∀ other ∈ deltas before, (slot before other.index).Complete → other.index < tc.index

/-- Every delta fits. -/
def Steady (before : List Wire) : Wire → Prop
  | .delta tc => Fits before tc
  | .finish => True

instance (d : List Wire) (i : ℤ) : Decidable (Open d i) :=
  inferInstanceAs (Decidable (Justified _ d))

instance (before : List Wire) (tc : ToolCallDelta) : Decidable (KeepsId before tc) :=
  decidable_of_iff
    (((slot before tc.index).id = "" ∨ (slot before tc.index).id = given tc.id) ∧
      ∀ other ∈ deltas before, other.index ≠ tc.index →
        (slot before other.index).id ≠ given tc.id)
    ⟨fun h => ⟨h.1, h.2⟩, fun h => ⟨h.1, h.2⟩⟩

instance (before : List Wire) : DecidablePred (OwnId before)
  | .delta tc => inferInstanceAs (Decidable (given tc.id ≠ "" → KeepsId before tc))
  | .finish => isTrue trivial

instance (before : List Wire) (tc : ToolCallDelta) : Decidable (Fits before tc) :=
  decidable_of_iff
    (((slot before tc.index).Complete → given tc.function.name = "") ∧
      ((slot before tc.index).Complete → Open before tc.index) ∧
      (¬((slot before tc.index).merge tc).Complete → given tc.function.arguments = "") ∧
      (¬(slot before tc.index).Complete → ((slot before tc.index).merge tc).Complete →
        ∀ other ∈ deltas before, (slot before other.index).Complete → other.index < tc.index))
    ⟨fun h => ⟨h.1, h.2.1, h.2.2.1, h.2.2.2⟩,
      fun h => ⟨h.name_settled, h.not_finished, h.arguments_later, h.by_index⟩⟩

instance (before : List Wire) : DecidablePred (Steady before)
  | .delta tc => inferInstanceAs (Decidable (Fits before tc))
  | .finish => isTrue trivial

/-! ## Ids -/

section OwnIds

variable {d : List Wire} {w : Wire}

/-- An id once given stays. -/
theorem id_append (hown : Justified OwnId (d ++ [w])) {i : ℤ} (hid : (slot d i).id ≠ "") :
    (slot (d ++ [w]) i).id = (slot d i).id := by
  cases w with
  | finish => rw [slot_append_finish]
  | delta tc =>
    have hkeeps := (justified_append_singleton.1 hown).2
    by_cases hi : i = tc.index
    · subst hi
      rw [slot_append_delta_self, ToolCall.merge]
      split_ifs with hgiven
      · rfl
      · exact ((hkeeps hgiven).same.resolve_left hid).symm
    · rw [slot_append_delta_of_ne d hi]

/-- No two indices have one id. -/
theorem id_injective (hown : Justified OwnId d) {i j : ℤ} (hid : (slot d i).id ≠ "")
    (hij : (slot d i).id = (slot d j).id) : i = j := by
  induction d using List.reverseRecOn generalizing i j with
  | nil => exact absurd rfl hid
  | append_singleton d w ih =>
    obtain ⟨hd, hw⟩ := justified_append_singleton.1 hown
    cases w with
    | finish =>
      rw [slot_append_finish] at hid hij
      rw [slot_append_finish] at hij
      exact ih hd hid hij
    | delta tc =>
      -- the id of the delta's index is an earlier one of it, or one that no index had
      have hclash : ∀ {k : ℤ}, k ≠ tc.index → (slot d k).id ≠ "" →
          (slot (d ++ [.delta tc]) tc.index).id ≠ (slot d k).id := by
        intro k hk hne heq
        rw [slot_append_delta_self, ToolCall.merge] at heq
        split_ifs at heq with hgiven
        · exact hk (ih hd hne heq.symm)
        · obtain ⟨other, hother, rfl⟩ := mem_indices.1
            (mem_indices_of_slot_ne fun hslot => hne (by rw [hslot]))
          exact (hw hgiven).own other hother hk heq.symm
      by_cases hi : i = tc.index <;> by_cases hj : j = tc.index
      · rw [hi, hj]
      · rw [hi, slot_append_delta_of_ne d hj] at hij
        rw [hi, hij] at hid
        exact absurd hij (hclash hj hid)
      · rw [hj, slot_append_delta_of_ne d hi] at hij
        rw [slot_append_delta_of_ne d hi] at hid
        exact absurd hij.symm (hclash hi hid)
      · rw [slot_append_delta_of_ne d hi] at hid hij
        rw [slot_append_delta_of_ne d hj] at hij
        exact ih hd hid hij

/-! ## Started calls -/

/-- Started calls are complete, and every complete slot has its call. The name that is held
for it is the front of the slot's. -/
structure Tracked (d : List Wire) : Prop where
  live_complete : ∀ i ∈ live d, (slot d i).Complete
  complete_of_order : ∀ id ∈ order d, ∃ i, (slot d i).Complete ∧ (slot d i).id = id
  announced : ∀ i, (slot d i).Complete → (slot d i).id ∈ order d
  name_prefix : ∀ i, (slot d i).Complete → ∃ kept late, held d (slot d i).id = some kept ∧
    (slot d i).name = kept.name ++ late

/-- The id of one index is not that of another. -/
theorem id_ne_of_ne {tc : ToolCallDelta} (hown : Justified OwnId (d ++ [.delta tc])) {i : ℤ}
    (hi : i ≠ tc.index) (hid : (slot d i).id ≠ "") :
    (slot d i).id ≠ ((slot d tc.index).merge tc).id := by
  intro heq
  rw [← slot_append_delta_of_ne d hi] at hid heq
  rw [← slot_append_delta_self] at heq
  exact hi (id_injective hown hid heq)

theorem Tracked.append_started {tc : ToolCallDelta} (ht : Tracked d)
    (hown : Justified OwnId (d ++ [.delta tc])) (hlive : tc.index ∈ live d) :
    Tracked (d ++ [.delta tc]) := by
  have hcomplete := ht.live_complete _ hlive
  have hid : ∀ i, (slot d i).Complete → (slot (d ++ [.delta tc]) i).id = (slot d i).id :=
    fun i h => id_append hown h.1
  have hself := hid _ hcomplete
  rw [slot_append_delta_self] at hself
  obtain ⟨kept, late, hkept, hname⟩ := ht.name_prefix _ hcomplete
  obtain ⟨hlive', horder, hheld⟩ := Deltas.append_started hlive (hself ▸ hkept)
  have hbefore : ∀ i, (slot (d ++ [.delta tc]) i).Complete → (slot d i).Complete := by
    intro i h
    by_cases hi : i = tc.index
    · exact hi ▸ hcomplete
    · rwa [slot_append_delta_of_ne d hi] at h
  refine ⟨?_, ?_, ?_, ?_⟩
  · rw [hlive']
    exact fun i hi => complete_append (ht.live_complete i hi) _
  · rw [horder]
    intro id h
    obtain ⟨i, hi, rfl⟩ := ht.complete_of_order id h
    exact ⟨i, complete_append hi _, hid i hi⟩
  · intro i h
    rw [horder, hid i (hbefore i h)]
    exact ht.announced i (hbefore i h)
  · intro i h
    rw [hid i (hbefore i h), hheld]
    by_cases hi : i = tc.index
    · subst hi
      rw [if_pos hself.symm, slot_append_delta_self]
      exact ⟨_, late ++ given tc.function.name, rfl, by
        rw [ToolCall.merge, hname, String.append_assoc]⟩
    · rw [if_neg (id_ne_of_ne hown hi (hbefore i h).1), slot_append_delta_of_ne d hi]
      exact ht.name_prefix i (hbefore i h)

theorem Tracked.append_starts {tc : ToolCallDelta} (ht : Tracked d)
    (hown : Justified OwnId (d ++ [.delta tc])) (hlive : tc.index ∉ live d)
    (hcomplete : ((slot d tc.index).merge tc).Complete) : Tracked (d ++ [.delta tc]) := by
  obtain ⟨hlive', horder, hheld⟩ := Deltas.append_starts hlive hcomplete
  have hself : (slot (d ++ [.delta tc]) tc.index).Complete := by
    rwa [slot_append_delta_self]
  refine ⟨?_, ?_, ?_, ?_⟩
  · rw [hlive']
    intro i h
    rcases List.mem_append.1 h with h | h
    · exact complete_append (ht.live_complete i h) _
    · rwa [List.mem_singleton.1 h]
  · rw [horder]
    intro id h
    rcases List.mem_append.1 h with h | h
    · obtain ⟨i, hi, rfl⟩ := ht.complete_of_order id h
      exact ⟨i, complete_append hi _, id_append hown hi.1⟩
    · exact ⟨tc.index, hself, by rw [slot_append_delta_self, List.mem_singleton.1 h]⟩
  · intro i h
    rw [horder]
    by_cases hi : i = tc.index
    · rw [hi, slot_append_delta_self]
      exact List.mem_append_right _ List.mem_cons_self
    · rw [slot_append_delta_of_ne d hi] at h ⊢
      exact List.mem_append_left _ (ht.announced i h)
  · intro i h
    rw [hheld]
    by_cases hi : i = tc.index
    · subst hi
      rw [slot_append_delta_self, if_pos rfl]
      exact ⟨_, "", rfl, String.append_empty.symm⟩
    · rw [slot_append_delta_of_ne d hi] at h ⊢
      rw [if_neg (id_ne_of_ne hown hi h.1)]
      exact ht.name_prefix i h

theorem Tracked.append_waits {tc : ToolCallDelta} (ht : Tracked d) (hlive : tc.index ∉ live d)
    (hcomplete : ¬((slot d tc.index).merge tc).Complete) : Tracked (d ++ [.delta tc]) := by
  obtain ⟨hlive', horder, hheld⟩ := Deltas.append_waits hlive hcomplete
  have hne : ∀ {i}, (slot (d ++ [.delta tc]) i).Complete → i ≠ tc.index := by
    rintro i h rfl
    rw [slot_append_delta_self] at h
    exact hcomplete h
  refine ⟨?_, ?_, ?_, ?_⟩
  · rw [hlive']
    exact fun i hi => complete_append (ht.live_complete i hi) _
  · rw [horder]
    intro id h
    obtain ⟨i, hi, rfl⟩ := ht.complete_of_order id h
    have hi' := hne (complete_append hi (.delta tc))
    exact ⟨i, complete_append hi _, by rw [slot_append_delta_of_ne d hi']⟩
  · intro i h
    have hi := hne h
    rw [slot_append_delta_of_ne d hi] at h ⊢
    exact horder ▸ ht.announced i h
  · intro i h
    have hi := hne h
    rw [slot_append_delta_of_ne d hi] at h ⊢
    rw [hheld]
    exact ht.name_prefix i h

theorem tracked (hown : Justified OwnId d) : Tracked d := by
  induction d using List.reverseRecOn with
  | nil => exact ⟨nofun, nofun, fun i h => absurd rfl h.1, fun i h => absurd rfl h.1⟩
  | append_singleton d w ih =>
    have ht := ih (justified_append_singleton.1 hown).1
    cases w with
    | finish =>
      obtain ⟨hlive, horder, hheld⟩ := append_finish d
      refine ⟨?_, ?_, ?_, ?_⟩
      · rw [hlive]
        exact nofun
      · simpa only [horder, slot_append_finish] using ht.complete_of_order
      · simpa only [horder, slot_append_finish] using ht.announced
      · simpa only [hheld, slot_append_finish] using ht.name_prefix
    | delta tc =>
      by_cases hlive : tc.index ∈ live d
      · exact ht.append_started hown hlive
      · by_cases hcomplete : ((slot d tc.index).merge tc).Complete
        · exact ht.append_starts hown hlive hcomplete
        · exact ht.append_waits hlive hcomplete

end OwnIds

/-! ## Open slots -/

section Opened

variable {d : List Wire} {i : ℤ}

theorem open_append_delta {tc : ToolCallDelta} : Open (d ++ [.delta tc]) i ↔ Open d i :=
  justified_append_singleton.trans ⟨And.left, fun h => ⟨h, nofun⟩⟩

theorem open_append_finish : Open (d ++ [.finish]) i ↔ Open d i ∧ ¬(slot d i).Complete :=
  justified_append_singleton.trans (and_congr_right fun _ => ⟨fun h => h rfl, fun h _ => h⟩)

theorem open_of_not_complete (h : ¬(slot d i).Complete) : Open d i := by
  induction d using List.reverseRecOn with
  | nil => exact justified_nil
  | append_singleton d w ih =>
    have hd : ¬(slot d i).Complete := fun hd => h (complete_append hd w)
    cases w with
    | finish => exact open_append_finish.2 ⟨ih hd, hd⟩
    | delta tc => exact open_append_delta.2 (ih hd)

/-- A complete slot that no `finish_reason` has reached is that of a started call. -/
theorem mem_live_of_open (hown : Justified OwnId d) (hc : (slot d i).Complete)
    (hopen : Open d i) : i ∈ live d := by
  induction d using List.reverseRecOn with
  | nil => exact absurd rfl hc.1
  | append_singleton d w ih =>
    have hd := (justified_append_singleton.1 hown).1
    have ht := tracked hd
    cases w with
    | finish =>
      rw [slot_append_finish] at hc
      exact absurd hc (open_append_finish.1 hopen).2
    | delta tc =>
      have hopen := open_append_delta.1 hopen
      by_cases hlive : tc.index ∈ live d
      · have hcomplete := ht.live_complete _ hlive
        obtain ⟨kept, late, hkept, -⟩ := ht.name_prefix _ hcomplete
        have hid := id_append hown hcomplete.1
        rw [slot_append_delta_self] at hid
        rw [(append_started hlive (hid ▸ hkept)).1]
        by_cases hi : i = tc.index
        · rwa [hi]
        · rw [slot_append_delta_of_ne d hi] at hc
          exact ih hd hc hopen
      · by_cases hi : i = tc.index
        · rw [hi, slot_append_delta_self] at hc
          rw [(append_starts hlive hc).1, hi]
          exact List.mem_append_right _ List.mem_cons_self
        · rw [slot_append_delta_of_ne d hi] at hc
          by_cases hcomplete : ((slot d tc.index).merge tc).Complete
          · rw [(append_starts hlive hcomplete).1]
            exact List.mem_append_left _ (ih hd hc hopen)
          · rw [(append_waits hlive hcomplete).1]
            exact ih hd hc hopen

end Opened

/-! ## What both hold alike -/

/-- The calls were announced by index, each once. -/
def Ascending (d : List Wire) : Prop :=
  ∃ started : List ℤ, started.Pairwise (· < ·) ∧ (∀ i, i ∈ started ↔ (slot d i).Complete) ∧
    order d = started.map fun i => (slot d i).id

/-- What is held for a slot is what is in it, and nothing of one not complete is kept back. -/
structure Exact (d : List Wire) (i : ℤ) : Prop where
  held_eq : (slot d i).Complete → held d (slot d i).id =
    some { name := (slot d i).name, args := (slot d i).arguments }
  nothing_kept : ¬(slot d i).Complete → (slot d i).arguments = ""

/-- The provider path has of the stream what the slots have. -/
structure Sound (d : List Wire) : Prop where
  ascending : Ascending d
  exact_slots : ∀ i, Exact d i

section SoundStep

variable {d : List Wire} {tc : ToolCallDelta}

theorem sound_nil : Sound [] :=
  ⟨⟨[], List.Pairwise.nil, fun _ => ⟨nofun, fun h => absurd rfl h.1⟩, rfl⟩,
    fun _ => ⟨fun h => absurd rfl h.1, fun _ => rfl⟩⟩

theorem Ascending.nodup (hown : Justified OwnId d) (h : Ascending d) : (order d).Nodup := by
  obtain ⟨started, hlt, hmem, horder⟩ := h
  rw [horder]
  refine List.Nodup.map_on ?_ (hlt.imp fun h => h.ne)
  exact fun i hi j _ hij => id_injective hown ((hmem i).1 hi).1 hij

/-- Where the same slots are complete under the same ids, announcing nothing changes
nothing. -/
theorem ascending_congr {e : List Wire} (hc : ∀ i, (slot e i).Complete ↔ (slot d i).Complete)
    (hid : ∀ i, (slot d i).Complete → (slot e i).id = (slot d i).id) (ho : order e = order d) :
    Ascending e ↔ Ascending d := by
  refine exists_congr fun started => and_congr_right fun _ => ?_
  rw [ho, forall_congr' fun i => iff_congr Iff.rfl (hc i)]
  refine and_congr_right fun hmem => ?_
  rw [List.map_congr_left fun i hi => hid i ((hmem i).1 hi)]

/-- Only the slot of the delta changes, and what is held for its id. -/
theorem exact_append_of_ne (hown : Justified OwnId (d ++ [.delta tc])) {i : ℤ}
    (hi : i ≠ tc.index)
    (hheld : ∀ x, x ≠ ((slot d tc.index).merge tc).id → held (d ++ [.delta tc]) x = held d x) :
    Exact (d ++ [.delta tc]) i ↔ Exact d i := by
  have hslot := slot_append_delta_of_ne d hi
  constructor
  · intro h
    refine ⟨fun hc => ?_, fun hc => ?_⟩
    · have h := h.held_eq (hslot ▸ hc)
      rwa [hslot, hheld _ (id_ne_of_ne hown hi hc.1)] at h
    · have h := h.nothing_kept (hslot ▸ hc)
      rwa [hslot] at h
  · intro h
    refine ⟨fun hc => ?_, fun hc => ?_⟩
    · rw [hslot] at hc ⊢
      rw [hheld _ (id_ne_of_ne hown hi hc.1)]
      exact h.held_eq hc
    · rw [hslot] at hc ⊢
      exact h.nothing_kept hc

/-- One more delta, by what it does to its own index. -/
theorem sound_append_iff (hown : Justified OwnId (d ++ [.delta tc])) {P Q : Prop}
    (hheld : ∀ x, x ≠ ((slot d tc.index).merge tc).id → held (d ++ [.delta tc]) x = held d x)
    (hascending : Ascending (d ++ [.delta tc]) ↔ Ascending d ∧ P)
    (hexact : Exact (d ++ [.delta tc]) tc.index ↔ Exact d tc.index ∧ Q) :
    Sound (d ++ [.delta tc]) ↔ Sound d ∧ P ∧ Q := by
  have hne : ∀ i, i ≠ tc.index → (Exact (d ++ [.delta tc]) i ↔ Exact d i) :=
    fun i hi => exact_append_of_ne hown hi hheld
  constructor
  · rintro ⟨ha, he⟩
    obtain ⟨ha, hP⟩ := hascending.1 ha
    obtain ⟨hidx, hQ⟩ := hexact.1 (he tc.index)
    refine ⟨⟨ha, fun i => ?_⟩, hP, hQ⟩
    by_cases hi : i = tc.index
    · exact hi ▸ hidx
    · exact (hne i hi).1 (he i)
  · rintro ⟨⟨ha, he⟩, hP, hQ⟩
    refine ⟨hascending.2 ⟨ha, hP⟩, fun i => ?_⟩
    by_cases hi : i = tc.index
    · exact hi ▸ hexact.2 ⟨he _, hQ⟩
    · exact (hne i hi).2 (he i)

/-- A delta of a started call is passed on, except for a name. -/
theorem sound_append_started (hown : Justified OwnId (d ++ [.delta tc]))
    (hlive : tc.index ∈ live d) :
    Sound (d ++ [.delta tc]) ↔ Sound d ∧ given tc.function.name = "" := by
  have ht := tracked (justified_append_singleton.1 hown).1
  have hcomplete := ht.live_complete _ hlive
  have hself := id_append hown hcomplete.1
  rw [slot_append_delta_self] at hself
  obtain ⟨kept, late, hkept, hname⟩ := ht.name_prefix _ hcomplete
  obtain ⟨-, horder, hheld⟩ := append_started hlive (hself ▸ hkept)
  have hc : ∀ i, (slot (d ++ [.delta tc]) i).Complete ↔ (slot d i).Complete := by
    refine fun i => ⟨fun h => ?_, fun h => complete_append h _⟩
    by_cases hi : i = tc.index
    · exact hi ▸ hcomplete
    · rwa [slot_append_delta_of_ne d hi] at h
  have hascending : Ascending (d ++ [.delta tc]) ↔ Ascending d ∧ True :=
    (ascending_congr hc (fun i h => id_append hown h.1) horder).trans (iff_of_eq (and_true _)).symm
  have hexact : Exact (d ++ [.delta tc]) tc.index ↔
      Exact d tc.index ∧ given tc.function.name = "" := by
    have hnew : held (d ++ [.delta tc]) ((slot d tc.index).merge tc).id =
        some { kept with args := kept.args ++ given tc.function.arguments } := by
      rw [hheld, if_pos rfl]
    constructor
    · intro h
      have h := h.held_eq ((hc _).2 hcomplete)
      rw [slot_append_delta_self, hnew] at h
      obtain ⟨hn, ha⟩ := ToolSlot.mk.inj (Option.some.inj h)
      have hargs : kept.args = (slot d tc.index).arguments := (String.append_left_inj _).1 ha
      have hlate : kept.name ++ "" = kept.name ++ (late ++ given tc.function.name) := by
        rw [String.append_empty, ← String.append_assoc, ← hname]
        exact hn
      obtain ⟨hlate, hgiven⟩ :=
        String.append_eq_empty_iff.1 ((String.append_right_inj _).1 hlate).symm
      rw [hlate, String.append_empty] at hname
      refine ⟨⟨fun _ => ?_, fun hnc => absurd hcomplete hnc⟩, hgiven⟩
      rw [hkept, hname, ← hargs]
    · rintro ⟨h, hn⟩
      obtain rfl := Option.some.inj (hkept.symm.trans (h.held_eq hcomplete))
      refine ⟨fun _ => ?_, fun hnc => absurd ((hc _).2 hcomplete) hnc⟩
      rw [slot_append_delta_self, hnew, ToolCall.merge, hn, String.append_empty]
  rw [sound_append_iff hown (fun x hx => by rw [hheld, if_neg hx]) hascending hexact, true_and]

/-- Arguments of a slot that is not complete are kept back. -/
theorem sound_append_waits (hown : Justified OwnId (d ++ [.delta tc]))
    (hlive : tc.index ∉ live d) (hcomplete : ¬((slot d tc.index).merge tc).Complete) :
    Sound (d ++ [.delta tc]) ↔ Sound d ∧ given tc.function.arguments = "" := by
  obtain ⟨-, horder, hheld⟩ := append_waits hlive hcomplete
  have hbefore : ¬(slot d tc.index).Complete := fun h => hcomplete (complete_merge h tc)
  have hc : ∀ i, (slot (d ++ [.delta tc]) i).Complete ↔ (slot d i).Complete := by
    intro i
    by_cases hi : i = tc.index
    · rw [hi, slot_append_delta_self]
      exact iff_of_false hcomplete hbefore
    · rw [slot_append_delta_of_ne d hi]
  have hascending : Ascending (d ++ [.delta tc]) ↔ Ascending d ∧ True :=
    (ascending_congr hc (fun i h => id_append hown h.1) horder).trans (iff_of_eq (and_true _)).symm
  have hexact : Exact (d ++ [.delta tc]) tc.index ↔
      Exact d tc.index ∧ given tc.function.arguments = "" := by
    constructor
    · intro h
      have h := h.nothing_kept (mt (hc _).1 hbefore)
      rw [slot_append_delta_self] at h
      obtain ⟨hargs, hgiven⟩ := String.append_eq_empty_iff.1 h
      exact ⟨⟨fun h => absurd h hbefore, fun _ => hargs⟩, hgiven⟩
    · rintro ⟨h, hgiven⟩
      refine ⟨fun h => absurd ((hc _).1 h) hbefore, fun _ => ?_⟩
      rw [slot_append_delta_self]
      exact String.append_eq_empty_iff.2 ⟨h.nothing_kept hbefore, hgiven⟩
  rw [sound_append_iff hown (fun x _ => hheld x) hascending hexact, true_and]

/-- A call that starts comes after those started. -/
theorem ascending_append_starts (hown : Justified OwnId (d ++ [.delta tc]))
    (hlive : tc.index ∉ live d) (hcomplete : ((slot d tc.index).merge tc).Complete)
    (hbefore : ¬(slot d tc.index).Complete) :
    Ascending (d ++ [.delta tc]) ↔
      Ascending d ∧ ∀ j, (slot d j).Complete → j < tc.index := by
  obtain ⟨-, horder, -⟩ := append_starts hlive hcomplete
  have hne : ∀ {j}, (slot d j).Complete → j ≠ tc.index := fun hj h => hbefore (h ▸ hj)
  have hself : (slot (d ++ [.delta tc]) tc.index).Complete := by rwa [slot_append_delta_self]
  have hid : ∀ {l : List ℤ}, (∀ i ∈ l, (slot d i).Complete) →
      l.map (fun i => (slot (d ++ [.delta tc]) i).id) = l.map fun i => (slot d i).id :=
    fun hl => List.map_congr_left fun i hi => id_append hown (hl i hi).1
  constructor
  · rintro ⟨all, hlt, hmem, hall⟩
    rw [horder] at hall
    obtain ⟨started, last, rfl, hstarted, hlast⟩ := List.map_eq_append_iff.1 hall.symm
    obtain ⟨k, rfl, hk⟩ := List.map_eq_singleton_iff.1 hlast
    obtain rfl : tc.index = k := id_injective hown hself.1 (by rw [slot_append_delta_self, hk])
    obtain ⟨hlt, -, hbelow⟩ := List.pairwise_append.1 hlt
    have hmem' : ∀ i, i ∈ started ↔ (slot d i).Complete := by
      intro i
      constructor
      · intro hi
        have hi' : i ≠ tc.index := (hbelow i hi _ List.mem_cons_self).ne
        have hc := (hmem i).1 (List.mem_append_left _ hi)
        rwa [slot_append_delta_of_ne d hi'] at hc
      · intro hi
        refine (List.mem_append.1 ((hmem i).2 (complete_append hi _))).resolve_right fun h => ?_
        exact hne hi (List.mem_singleton.1 h)
    refine ⟨⟨started, hlt, hmem', ?_⟩, fun j hj => hbelow j ((hmem' j).2 hj) _ List.mem_cons_self⟩
    rw [← hid fun i hi => (hmem' i).1 hi, hstarted]
  · rintro ⟨⟨started, hlt, hmem, hall⟩, hbelow⟩
    refine ⟨started ++ [tc.index], ?_, fun i => ?_, ?_⟩
    · refine List.pairwise_append.2 ⟨hlt, List.pairwise_singleton _ _, fun i hi j hj => ?_⟩
      rw [List.mem_singleton.1 hj]
      exact hbelow i ((hmem i).1 hi)
    · rw [List.mem_append, List.mem_singleton, hmem i]
      by_cases hi : i = tc.index
      · rw [hi]
        exact iff_of_true (Or.inr rfl) hself
      · rw [slot_append_delta_of_ne d hi]
        exact or_iff_left hi
    · rw [List.map_append, hid fun i hi => (hmem i).1 hi, horder, hall, List.map_singleton,
        slot_append_delta_self]

/-- A call starts once, after those of smaller index. -/
theorem sound_append_starts (hown : Justified OwnId (d ++ [.delta tc]))
    (hlive : tc.index ∉ live d) (hcomplete : ((slot d tc.index).merge tc).Complete) :
    Sound (d ++ [.delta tc]) ↔ Sound d ∧ ¬(slot d tc.index).Complete ∧
      ∀ j, (slot d j).Complete → j < tc.index := by
  obtain ⟨-, horder, hheld⟩ := append_starts hlive hcomplete
  by_cases hbefore : (slot d tc.index).Complete
  · -- its id is announced a second time
    refine iff_of_false (fun h => ?_) fun h => h.2.1 hbefore
    have hnodup := h.ascending.nodup hown
    have hmem := (tracked (justified_append_singleton.1 hown).1).announced _ hbefore
    have hid := id_append hown hbefore.1
    rw [slot_append_delta_self] at hid
    rw [horder, hid] at hnodup
    exact (List.nodup_append.1 hnodup).2.2 _ hmem _ List.mem_cons_self rfl
  · have hexact : Exact (d ++ [.delta tc]) tc.index ↔ Exact d tc.index ∧ True := by
      rw [and_true]
      have hself : (slot (d ++ [.delta tc]) tc.index).Complete := by rwa [slot_append_delta_self]
      have hnew : held (d ++ [.delta tc]) ((slot d tc.index).merge tc).id =
          some { name := ((slot d tc.index).merge tc).name
                 args := given tc.function.arguments } := by
        rw [hheld, if_pos rfl]
      constructor
      · intro h
        have h := h.held_eq hself
        rw [slot_append_delta_self, hnew] at h
        obtain ⟨-, ha⟩ := ToolSlot.mk.inj (Option.some.inj h)
        have hargs : "" ++ given tc.function.arguments =
            (slot d tc.index).arguments ++ given tc.function.arguments :=
          String.empty_append.trans ha
        exact ⟨fun h => absurd h hbefore, fun _ => ((String.append_left_inj _).1 hargs).symm⟩
      · intro h
        refine ⟨fun _ => ?_, fun hnc => absurd hself hnc⟩
        rw [slot_append_delta_self, hnew, ToolCall.merge, h.nothing_kept hbefore,
          String.empty_append]
    rw [sound_append_iff hown (fun x hx => by rw [hheld, if_neg hx])
      (ascending_append_starts hown hlive hcomplete hbefore) hexact, and_true]
    exact and_congr_right fun _ => (and_iff_right hbefore).symm

theorem sound_append_finish : Sound (d ++ [.finish]) ↔ Sound d := by
  obtain ⟨-, horder, hheld⟩ := append_finish d
  have hascending : Ascending (d ++ [.finish]) ↔ Ascending d :=
    ascending_congr (fun i => by rw [slot_append_finish])
      (fun i _ => by rw [slot_append_finish]) horder
  have hexact : ∀ i, Exact (d ++ [.finish]) i ↔ Exact d i := by
    intro i
    constructor
    · exact fun h => ⟨by simpa only [slot_append_finish, hheld] using h.held_eq,
        by simpa only [slot_append_finish] using h.nothing_kept⟩
    · exact fun h => ⟨by simpa only [slot_append_finish, hheld] using h.held_eq,
        by simpa only [slot_append_finish] using h.nothing_kept⟩
  exact ⟨fun h => ⟨hascending.1 h.ascending, fun i => (hexact i).1 (h.exact_slots i)⟩,
    fun h => ⟨hascending.2 h.ascending, fun i => (hexact i).2 (h.exact_slots i)⟩⟩

end SoundStep

section Run

variable {d : List Wire}

/-- The slot of a started call is still open if no call was announced twice. -/
theorem open_of_mem_live (hown : Justified OwnId d) (hsound : Sound d) {i : ℤ}
    (hi : i ∈ live d) : Open d i := by
  induction d using List.reverseRecOn with
  | nil => cases hi
  | append_singleton d w ih =>
    have hd := (justified_append_singleton.1 hown).1
    cases w with
    | finish =>
      rw [(append_finish d).1] at hi
      cases hi
    | delta tc =>
      rw [open_append_delta]
      by_cases hlive : tc.index ∈ live d
      · have ht := tracked hd
        have hcomplete := ht.live_complete _ hlive
        obtain ⟨kept, late, hkept, -⟩ := ht.name_prefix _ hcomplete
        have hid := id_append hown hcomplete.1
        rw [slot_append_delta_self] at hid
        rw [(append_started hlive (hid ▸ hkept)).1] at hi
        exact ih hd ((sound_append_started hown hlive).1 hsound).1 hi
      · by_cases hcomplete : ((slot d tc.index).merge tc).Complete
        · obtain ⟨hsound, hbefore, -⟩ := (sound_append_starts hown hlive hcomplete).1 hsound
          rw [(append_starts hlive hcomplete).1] at hi
          rcases List.mem_append.1 hi with hi | hi
          · exact ih hd hsound hi
          · exact open_of_not_complete (List.mem_singleton.1 hi ▸ hbefore)
        · rw [(append_waits hlive hcomplete).1] at hi
          exact ih hd ((sound_append_waits hown hlive hcomplete).1 hsound).1 hi

/-- Every slot that is complete has had a delta. -/
theorem forall_complete_iff {p : ℤ → Prop} :
    (∀ j, (slot d j).Complete → p j) ↔
      ∀ other ∈ deltas d, (slot d other.index).Complete → p other.index := by
  refine ⟨fun h other _ => h other.index, fun h j hj => ?_⟩
  obtain ⟨other, hother, rfl⟩ := mem_indices.1 (mem_indices_of_complete hj)
  exact h other hother hj

/-- One more delta keeps both alike exactly if it fits. -/
theorem sound_append_delta {tc : ToolCallDelta} (hown : Justified OwnId (d ++ [.delta tc])) :
    Sound (d ++ [.delta tc]) ↔ Sound d ∧ Fits d tc := by
  have hd := (justified_append_singleton.1 hown).1
  by_cases hlive : tc.index ∈ live d
  · have hcomplete := (tracked hd).live_complete _ hlive
    rw [sound_append_started hown hlive]
    refine and_congr_right fun hsound => ⟨fun hname => ?_, fun h => h.name_settled hcomplete⟩
    exact ⟨fun _ => hname, fun _ => open_of_mem_live hd hsound hlive,
      fun h => absurd (complete_merge hcomplete tc) h, fun h => absurd hcomplete h⟩
  · by_cases hcomplete : ((slot d tc.index).merge tc).Complete
    · rw [sound_append_starts hown hlive hcomplete, forall_complete_iff]
      refine and_congr_right fun hsound => ⟨?_, fun h => ?_⟩
      · rintro ⟨hbefore, hbelow⟩
        exact ⟨fun h => absurd h hbefore, fun h => absurd h hbefore,
          fun h => absurd hcomplete h, fun _ _ => hbelow⟩
      · have hbefore : ¬(slot d tc.index).Complete :=
          fun hc => hlive (mem_live_of_open hd hc (h.not_finished hc))
        exact ⟨hbefore, h.by_index hbefore hcomplete⟩
    · have hbefore : ¬(slot d tc.index).Complete := fun h => hcomplete (complete_merge h tc)
      rw [sound_append_waits hown hlive hcomplete]
      refine and_congr_right fun _ => ⟨fun hargs => ?_, fun h => h.arguments_later hcomplete⟩
      exact ⟨fun h => absurd h hbefore, fun h => absurd h hbefore, fun _ => hargs,
        fun _ h => absurd h hcomplete⟩

/-- Over a whole stream : both are alike exactly if every delta fits. -/
theorem sound_iff_steady (hown : Justified OwnId d) : Sound d ↔ Justified Steady d := by
  induction d using List.reverseRecOn with
  | nil => exact iff_of_true sound_nil justified_nil
  | append_singleton d w ih =>
    have hd := (justified_append_singleton.1 hown).1
    rw [justified_append_singleton, ← ih hd]
    cases w with
    | finish => exact sound_append_finish.trans (and_iff_left trivial).symm
    | delta tc => exact sound_append_delta hown

/-- The provider path's calls are the slots by index exactly if both are alike and every
slot is complete. -/
theorem calls_eq_iff (hown : Justified OwnId d) :
    (state d).2.calls = (indices d).map (slot d) ↔
      Sound d ∧ ∀ i ∈ indices d, (slot d i).Complete := by
  have ht := tracked hown
  have hcalls : (state d).2.calls = (order d).map fun id =>
      { id := id, name := ((held d id).getD {}).name, arguments := ((held d id).getD {}).args } :=
    rfl
  constructor
  · intro h
    have horder : order d = (indices d).map fun i => (slot d i).id := by
      have hids := congrArg (List.map ToolCall.id) h
      rw [hcalls, List.map_map, List.map_map] at hids
      exact (List.map_id' _).symm.trans hids
    have hcomplete : ∀ i ∈ indices d, (slot d i).Complete := by
      intro i hi
      obtain ⟨j, hj, hij⟩ := ht.complete_of_order (slot d i).id
        (horder ▸ List.mem_map_of_mem hi)
      exact id_injective hown hj.1 hij ▸ hj
    have hmem : ∀ i, i ∈ indices d ↔ (slot d i).Complete :=
      fun i => ⟨hcomplete i, mem_indices_of_complete⟩
    refine ⟨⟨⟨indices d, pairwise_keysInOrder _, hmem, horder⟩, fun i => ⟨fun hi => ?_, fun hi => ?_⟩⟩,
      hcomplete⟩
    · rw [hcalls, horder, List.map_map] at h
      have hslot := List.map_eq_map_iff.1 h i ((hmem i).2 hi)
      obtain ⟨kept, late, hkept, -⟩ := ht.name_prefix i hi
      simp only [Function.comp, hkept, Option.getD_some] at hslot
      rw [hkept, ← hslot]
    · by_contra hargs
      exact hi (hcomplete i (mem_indices_of_slot_ne fun hslot => hargs (by rw [hslot])))
  · rintro ⟨⟨⟨started, hlt, hmem, horder⟩, hexact⟩, hcomplete⟩
    have hstarted : started = indices d := by
      refine List.Pairwise.eq_of_mem_iff hlt (pairwise_keysInOrder _) fun i => ?_
      rw [hmem i]
      exact ⟨mem_indices_of_complete, hcomplete i⟩
    rw [hcalls, horder, hstarted, List.map_map]
    refine List.map_congr_left fun i hi => ?_
    rw [Function.comp, (hexact i).held_eq (hcomplete i hi)]
    rfl

end Run

end Deltas

/-- One chunk with one delta. -/
def chunkOf (tc : ToolCallDelta) : Chunk :=
  { choice := some { toolCalls := [tc] } }

/-- Two calls, each announced before its arguments. -/
def twoCalls : List Chunk :=
  [chunkOf { index := 0, id := some "call_1", function := { name := some "search" } },
    chunkOf { index := 0, function := { arguments := some "\x7b\"q\": " } },
    chunkOf { index := 0, function := { arguments := some "1\x7d" } },
    chunkOf { index := 1, id := some "call_2", function := { name := some "fetch" } },
    { choice := some { finishReason := some "tool_calls" } }]

/-- The arguments come with the id, the name after them. -/
def argumentsFirst : List Chunk :=
  [chunkOf { id := some "call_1", function := { arguments := some "\x7b\x7d" } },
    chunkOf { function := { name := some "search" } },
    { choice := some { finishReason := some "tool_calls" } }]

end OxenClaw
