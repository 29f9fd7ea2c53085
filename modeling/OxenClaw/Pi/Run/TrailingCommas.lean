import OxenClaw.Pi.Run.MissingClosers

/-!
# Trailing commas

A serialisation into which commas have been inserted before closing brackets is one again when the
commas outside its literals are taken out (`untrailed`). The regular expressions do not look at
literals : they also take a comma inside a literal and change every smart quote. So
`repair_and_parse` gives the value back exactly if nothing was inserted or no literal has such
a comma or quote (`repairAndParse_untrailed_iff`).
-/

namespace OxenClaw.JsonRepair

open JsonReader

/-- The commas before closing brackets are taken out, where they are outside the literals. -/
def untrailed (d : Depths) : List Char → List Char
  | [] => []
  | c :: cs =>
    if !d.inString && (c = ',' && closerNext cs) then untrailed (d.read c) cs
    else c :: untrailed (d.read c) cs

/-- The text after `p` begins inside a literal. -/
def inLiteral (d : Depths) (p : List Char) : Bool :=
  (p.foldl Depths.read d).inString

/-- The regular expressions leave the literals : a comma before a closing bracket is outside of
them, and there are no smart quotes. -/
structure LiteralsKept (t : List Char) : Prop where
  quotes : ∀ c ∈ t, plainQuote c = c
  commas : ∀ p q, t = p ++ ',' :: q → closerNext q = true → inLiteral {} p = false

/-! ## Commas in literals -/

theorem dropTrailingCommas_sublist_untrailed (t : List Char) (d : Depths) :
    (dropTrailingCommas t).Sublist (untrailed d t) := by
  induction t generalizing d with
  | nil => exact .slnil
  | cons c t ih =>
    rw [dropTrailingCommas, untrailed]
    split_ifs with h₁ h₂ h₂
    · exact ih _
    · exact (ih _).cons c
    · simp [h₁] at h₂
    · exact (ih _).cons_cons c

theorem lowered_untrailed (t : List Char) (d : Depths) :
    Lowered repairMark (untrailed d t) (dropTrailingCommas t) := by
  induction t generalizing d with
  | nil => exact .nil
  | cons c t ih =>
    rw [dropTrailingCommas, untrailed]
    by_cases h : (decide (c = ',') && closerNext t) = true
    · rw [if_pos h]
      rw [Bool.and_eq_true, decide_eq_true_eq] at h
      split_ifs
      · exact ih _
      · refine .drop ?_ (ih _)
        rw [h.1]
        decide
    · rw [if_neg h, if_neg (by simp [h])]
      exact .keep (ih _)

/-- The first regular expression takes the inserted commas and no other. -/
theorem dropTrailingCommas_eq_untrailed_iff (t : List Char) (d : Depths) :
    dropTrailingCommas t = untrailed d t ↔
      ∀ p q, t = p ++ ',' :: q → closerNext q = true → inLiteral d p = false := by
  induction t generalizing d with
  | nil =>
    refine iff_of_true rfl fun p q h => ?_
    simp at h
  | cons c t ih =>
    have hcons (h : ∀ p q, t = p ++ ',' :: q → closerNext q = true →
          inLiteral (d.read c) p = false) (hfirst : c = ',' → closerNext t = true →
          d.inString = false) (p q : List Char) (hsplit : c :: t = p ++ ',' :: q)
        (hnext : closerNext q = true) : inLiteral d p = false := by
      rcases p with _ | ⟨e, p⟩
      · obtain ⟨rfl, rfl⟩ := List.cons.inj hsplit
        exact hfirst rfl hnext
      · obtain ⟨rfl, rfl⟩ := List.cons.inj hsplit
        exact h p q rfl hnext
    have htail (h : ∀ p q, c :: t = p ++ ',' :: q → closerNext q = true →
        inLiteral d p = false) (p q : List Char) (hsplit : t = p ++ ',' :: q)
        (hnext : closerNext q = true) : inLiteral (d.read c) p = false :=
      h (c :: p) q (by rw [hsplit, List.cons_append]) hnext
    rw [dropTrailingCommas, untrailed]
    split_ifs with h₁ h₂ h₂
    · rw [ih]
      refine ⟨fun h => hcons h fun _ _ => ?_, htail⟩
      simp only [h₁, Bool.and_true, Bool.not_eq_true'] at h₂
      exact h₂
    · simp only [Bool.and_eq_true, decide_eq_true_eq] at h₁
      obtain ⟨rfl, hnext⟩ := h₁
      refine iff_of_false (fun heq => ?_) fun hall => ?_
      · have hle := (dropTrailingCommas_sublist_untrailed t (d.read ',')).length_le
        rw [heq, List.length_cons] at hle
        omega
      · have hnot : d.inString = false := hall [] t rfl hnext
        simp [hnot, hnext] at h₂
    · simp [h₁] at h₂
    · constructor
      · intro heq
        refine hcons ((ih _).1 (List.cons.inj heq).2) fun hc hnext => ?_
        simp [hc, hnext] at h₁
      · intro h
        rw [(ih _).2 (htail h)]

theorem mem_untrailed_or {t : List Char} {d : Depths} {c : Char} (hc : c ∈ t) :
    c ∈ untrailed d t ∨ c = ',' := by
  induction t generalizing d with
  | nil => cases hc
  | cons e t ih =>
    rw [untrailed]
    split_ifs with h
    · simp only [Bool.and_eq_true, decide_eq_true_eq] at h
      rcases List.mem_cons.1 hc with rfl | hc
      · exact Or.inr h.2.1
      · exact ih hc
    · rcases List.mem_cons.1 hc with rfl | hc
      · exact Or.inl List.mem_cons_self
      · exact (ih hc).imp_left (List.mem_cons_of_mem e)

theorem mem_of_mem_untrailed {t : List Char} {d : Depths} {c : Char} (hc : c ∈ untrailed d t) :
    c ∈ t := by
  induction t generalizing d with
  | nil => cases hc
  | cons e t ih =>
    rw [untrailed] at hc
    split_ifs at hc
    · exact List.mem_cons_of_mem e (ih hc)
    · rcases List.mem_cons.1 hc with rfl | hc
      · exact List.mem_cons_self
      · exact List.mem_cons_of_mem e (ih hc)

/-- The regular expressions take the inserted commas and change nothing else. -/
theorem repairSteps_eq_untrailed_iff (t : List Char) :
    repairSteps t = untrailed {} t ↔ LiteralsKept t := by
  constructor
  · intro h
    have hcommas : dropTrailingCommas t = untrailed {} t := by
      refine (dropTrailingCommas_sublist_untrailed t {}).eq_of_length ?_
      rw [← List.length_map (f := plainQuote)]
      exact congrArg List.length h
    rw [repairSteps, hcommas, map_plainQuote_eq_self_iff] at h
    refine ⟨fun c hc => ?_, (dropTrailingCommas_eq_untrailed_iff t {}).1 hcommas⟩
    rcases mem_untrailed_or (d := {}) hc with hc | rfl
    · exact h c hc
    · rfl
  · intro h
    rw [repairSteps, (dropTrailingCommas_eq_untrailed_iff t {}).2 h.commas,
      map_plainQuote_eq_self_iff]
    exact fun c hc => h.quotes c (mem_of_mem_untrailed hc)

/-! ## A comma before a closing bracket -/

variable {float : List Char → ℚ} {v : Json}

/-- No value and no key begins with a closing bracket. -/
theorem readFrom_closerNext {α : Type*} {R : JsonReader α} {s : State α} {t : List Char}
    (hs : s.mode = .value ∨ s.mode = .key) (ht : closerNext t = true) : R.readFrom s t = none := by
  induction t with
  | nil => cases ht
  | cons c t ih =>
    have hquoted : s.mode.quoted = false := by rcases hs with h | h <;> rw [h] <;> rfl
    rw [readFrom_cons]
    rcases hspace : Py.isSpace c with _ | _
    · have hc : c = '\x7d' ∨ c = ']' := by simpa [closerNext, hspace] using ht
      have hstep : R.step s c = none := by
        rcases hs with h | h <;> rcases hc with rfl | rfl <;> rw [step, h] <;> rfl
      rw [hstep]
      rfl
    · rcases hblank : isBlank c with _ | _
      · rw [step_of_not_isToken _ hquoted (not_isToken_of_isSpace hspace hblank)]
        rfl
      · have hstep : R.step s c = some s := by
          rcases hs with h | h <;> rw [step, h] <;> exact if_pos hblank
        rw [hstep, Option.bind_some]
        exact ih (by simpa [closerNext, hspace] using ht)

/-- A comma outside the literals is followed by a value or a key. -/
theorem mode_of_step_comma {s s' : State Json} (hs : s.mode.quoted = false)
    (h : (jsonReader float).step s ',' = some s') : s'.mode = .value ∨ s'.mode = .key := by
  have hnext {s : State Json} (h : (jsonReader float).next s ',' = some s') :
      s'.mode = .value ∨ s'.mode = .key := by
    obtain ⟨f, -, rfl⟩ := Option.map_eq_some_iff.1 h
    rcases f with _ | _
    · exact Or.inl rfl
    · exact Or.inr rfl
  obtain ⟨frames, mode⟩ := s
  rcases mode with _ | _ | _ | _ | _ | _ | _ | _ | text
  case str => cases hs
  case after => exact hnext h
  case done => exact hnext h
  case atom =>
    obtain ⟨w, -, hw⟩ := Option.bind_eq_some_iff.1 h
    exact hnext hw
  all_goals cases h

/-- A document has no trailing comma. -/
theorem untrailed_of_readFrom {d : Depths} {s : State Json} {t : List Char} (h : Counts d s)
    (hv : (jsonReader float).readFrom s t = some v) : untrailed d t = t := by
  induction t generalizing d s with
  | nil => rfl
  | cons c t ih =>
    rw [readFrom_cons] at hv
    obtain ⟨s', hstep, hrest⟩ := Option.bind_eq_some_iff.1 hv
    rw [untrailed]
    split_ifs with hc
    · simp only [Bool.and_eq_true, Bool.not_eq_true', decide_eq_true_eq] at hc
      obtain ⟨hstring, rfl, hnext⟩ := hc
      rw [readFrom_closerNext (mode_of_step_comma (h.inString ▸ hstring) hstep) hnext] at hrest
      cases hrest
    · rw [ih (counts_read h hstep) hrest]

theorem loads_eq_none_of_untrailed_ne {t : List Char} (h : untrailed {} t ≠ t) :
    (jsonReader float).loads t = none := by
  rcases hv : (jsonReader float).loads t with _ | v
  · rfl
  · exact absurd (untrailed_of_readFrom counts_start hv) h

/-- A text that goes on with a closing bracket outside the literals is that of an array or an
object. -/
theorem encloses_of_closerNext {d : Depths} {s : State Json} {t : List Char} (h : Counts d s)
    (hstring : d.inString = false) (ht : closerNext t = true)
    (hv : (jsonReader float).readFrom s (untrailed d t) = some v) :
    (jsonReader float).Encloses v := by
  induction t generalizing d s with
  | nil => cases ht
  | cons c t ih =>
    have hquoted : s.mode.quoted = false := h.inString ▸ hstring
    have hne : c ≠ ',' := by
      rintro rfl
      cases ht
    rw [untrailed, if_neg (by simp [hne]), readFrom_cons] at hv
    obtain ⟨s', hstep, hrest⟩ := Option.bind_eq_some_iff.1 hv
    rcases hspace : Py.isSpace c with _ | _
    · have hc : c = ']' ∨ c = '\x7d' := by
        have hcloser : c = '\x7d' ∨ c = ']' := by simpa [closerNext, hspace] using ht
        exact hcloser.symm
      obtain ⟨-, fs, w, rfl, hw⟩ := closers_of_step _ hquoted hc hstep
      refine encloses_of_readFrom _ ?_ hrest
      rcases fs with _ | ⟨f, fs⟩
      · exact Or.inr ⟨w, rfl, hw⟩
      · exact Or.inl (by simp)
    · have hcounts := counts_read h hstep
      refine ih hcounts ?_ (by simpa [closerNext, hspace] using ht) hrest
      rw [hcounts.inString, (closers_of_step_unquoted _ hquoted hstep).2.2]
      refine decide_eq_false ?_
      rintro rfl
      cases hspace

theorem encloses_of_untrailed_ne {d : Depths} {s : State Json} {t : List Char} (h : Counts d s)
    (hne : untrailed d t ≠ t) (hv : (jsonReader float).readFrom s (untrailed d t) = some v) :
    (jsonReader float).Encloses v := by
  induction t generalizing d s with
  | nil => exact absurd rfl hne
  | cons c t ih =>
    rw [untrailed] at hne hv
    split_ifs at hne hv with hc
    · simp only [Bool.and_eq_true, Bool.not_eq_true', decide_eq_true_eq] at hc
      obtain ⟨hstring, rfl, hnext⟩ := hc
      have hescape : d.escape = false := h.escape_of_not_quoted (h.inString ▸ hstring)
      have hread : d.read ',' = d := by simp [Depths.read, hstring, hescape]
      rw [hread] at hv
      exact encloses_of_closerNext h hstring hnext hv
    · rw [readFrom_cons] at hv
      obtain ⟨s', hstep, hrest⟩ := Option.bind_eq_some_iff.1 hv
      exact ih (counts_read h hstep) (fun heq => hne (by rw [heq])) hrest

/-! ## White space around the text -/

section Spaces

variable {pre post : List Char}

theorem closerNext_append (hpost : ∀ c ∈ post, Py.isSpace c = true) (t : List Char) :
    closerNext (t ++ post) = closerNext t := by
  have hnil : post.dropWhile Py.isSpace = [] := List.dropWhile_eq_nil_iff.2 hpost
  unfold closerNext
  rw [List.dropWhile_append]
  split_ifs with h
  · rw [hnil, List.isEmpty_iff.1 h]
  · rcases hdrop : t.dropWhile Py.isSpace with _ | ⟨c, rest⟩
    · simp [hdrop] at h
    · rfl

theorem read_of_isSpace {c : Char} (hc : Py.isSpace c = true) : Depths.read {} c = {} := by
  have hne (d : Char) (hd : Py.isSpace d = false) : c ≠ d := by
    rintro rfl
    rw [hd] at hc
    cases hc
  unfold Depths.read
  rw [if_neg Bool.false_ne_true, if_neg (by simp), if_neg (hne '"' rfl), if_neg Bool.false_ne_true,
    if_neg (hne '\x7b' rfl), if_neg (hne '\x7d' rfl), if_neg (hne '[' rfl), if_neg (hne ']' rfl)]

theorem untrailed_spaces (hpre : ∀ c ∈ pre, Py.isSpace c = true)
    (hpost : ∀ c ∈ post, Py.isSpace c = true) (t : List Char) :
    untrailed {} (pre ++ t ++ post) = pre ++ untrailed {} t ++ post := by
  have hkeep (d : Depths) : untrailed d post = post := by
    clear hpre
    induction post generalizing d with
    | nil => rfl
    | cons c post ih =>
      have hne : c ≠ ',' := by
        rintro rfl
        cases hpost ',' List.mem_cons_self
      rw [untrailed, if_neg (by simp [hne]), ih (fun e he => hpost e (List.mem_cons_of_mem c he))]
  have hright (d : Depths) : untrailed d (t ++ post) = untrailed d t ++ post := by
    induction t generalizing d with
    | nil => exact hkeep d
    | cons c t ih =>
      rw [List.cons_append, untrailed, untrailed, closerNext_append hpost, ih]
      split_ifs <;> rfl
  rw [List.append_assoc, List.append_assoc, ← hright]
  induction pre with
  | nil => rfl
  | cons c pre ih =>
    have hspace := hpre c List.mem_cons_self
    have hne : c ≠ ',' := by
      rintro rfl
      cases hspace
    rw [List.cons_append, untrailed, if_neg (by simp [hne]), read_of_isSpace hspace,
      ih (fun e he => hpre e (List.mem_cons_of_mem c he)), List.cons_append]

theorem repairSteps_spaces (hpre : ∀ c ∈ pre, Py.isSpace c = true)
    (hpost : ∀ c ∈ post, Py.isSpace c = true) (t : List Char) :
    repairSteps (pre ++ t ++ post) = pre ++ repairSteps t ++ post := by
  have hmap (s : List Char) (hs : ∀ c ∈ s, Py.isSpace c = true) : s.map plainQuote = s := by
    refine (map_plainQuote_eq_self_iff s).2 fun c hc => ?_
    have hrange := hs c hc
    simp only [Py.isSpace, Bool.or_eq_true, Bool.and_eq_true, decide_eq_true_eq, beq_iff_eq]
      at hrange
    unfold plainQuote
    rw [if_neg (by simp; omega), if_neg (by simp; omega)]
  have hcons (c : Char) (s : List Char) (hc : Py.isSpace c = true) :
      dropTrailingCommas (c :: s) = c :: dropTrailingCommas s := by
    rw [dropTrailingCommas, if_neg]
    intro h
    rw [Bool.and_eq_true, decide_eq_true_eq] at h
    rw [h.1] at hc
    cases hc
  have hright : dropTrailingCommas (t ++ post) = dropTrailingCommas t ++ post := by
    induction t with
    | nil =>
      clear hpre
      induction post with
      | nil => rfl
      | cons c post ih =>
        rw [List.nil_append] at ih ⊢
        rw [hcons c post (hpost c List.mem_cons_self),
          ih fun e he => hpost e (List.mem_cons_of_mem c he)]
        rfl
    | cons c t ih =>
      rw [List.cons_append, dropTrailingCommas, dropTrailingCommas, closerNext_append hpost, ih]
      split_ifs <;> rfl
  have hleft : dropTrailingCommas (pre ++ (t ++ post)) = pre ++ dropTrailingCommas (t ++ post) := by
    induction pre with
    | nil => rfl
    | cons c pre ih =>
      rw [List.cons_append, hcons c _ (hpre c List.mem_cons_self),
        ih fun e he => hpre e (List.mem_cons_of_mem c he), List.cons_append]
  rw [repairSteps, repairSteps, List.append_assoc, hleft, hright, List.map_append,
    List.map_append, hmap pre hpre, hmap post hpost, List.append_assoc]

end Spaces

/-! ## The serialisation -/

variable {t : List Char}

/-- White space around the text is around the serialisation. -/
theorem serialises_strip (h : Serialises float (untrailed {} t) v) :
    Serialises float (untrailed {} (Py.strip t)) v ∧
      (untrailed {} t = t ↔ untrailed {} (Py.strip t) = Py.strip t) ∧
      (LiteralsKept t ↔ repairSteps (Py.strip t) = untrailed {} (Py.strip t)) := by
  obtain ⟨pre, post, hsplit, hpre, hpost⟩ := Py.exists_append_strip t
  have huntrailed : untrailed {} t = pre ++ untrailed {} (Py.strip t) ++ post := by
    conv_lhs => rw [hsplit]
    exact untrailed_spaces hpre hpost _
  have hsteps : repairSteps t = pre ++ repairSteps (Py.strip t) ++ post := by
    conv_lhs => rw [hsplit]
    exact repairSteps_spaces hpre hpost _
  refine ⟨?_, ?_, ?_⟩
  · rw [huntrailed, List.append_assoc] at h
    have hleft := readFrom_of_spaces_left hpre h
    rw [readFrom_append] at hleft
    obtain ⟨s, hrun, hrest⟩ := Option.bind_eq_some_iff.1 hleft
    rw [← List.append_nil post] at hrest
    rw [Serialises, loads, readFrom, hrun, Option.bind_some]
    exact readFrom_of_spaces (k := []) hpost (by simp) hrest
  · rw [huntrailed]
    refine ⟨fun heq => ?_, fun heq => by rw [heq, ← hsplit]⟩
    exact List.append_cancel_left (List.append_cancel_right (heq.trans hsplit))
  · rw [← repairSteps_eq_untrailed_iff, huntrailed, hsteps]
    simp

/-- No fence is taken from the text. -/
theorem stripCodeFence_of_serialises (h : Serialises float (untrailed {} (Py.strip t)) v) :
    stripCodeFence t = Py.strip t := by
  refine stripCodeFence_of_head? fun c hc => ?_
  rintro rfl
  refine head?_ne_backtick h backtick ?_ rfl
  rcases hstrip : Py.strip t with _ | ⟨d, rest⟩
  · rw [hstrip] at hc
    cases hc
  · rw [hstrip] at hc
    obtain rfl := Option.some.inj hc
    rfl

/-- The value of a serialisation with trailing commas is given back exactly if none was inserted,
or the regular expressions leave its literals. -/
theorem repairAndParse_untrailed_iff (float : List Char → ℚ) (t : List Char) (v : Json)
    (h : Serialises float (untrailed {} t) v) :
    (repairAndParse (jsonLoads float) (String.ofList t)).1 = v ↔
      untrailed {} t = t ∨ LiteralsKept t := by
  obtain ⟨hstrip, hsame, hkept⟩ := serialises_strip h
  have hblank : Py.strip t ≠ [] := by
    intro hnil
    rw [hnil] at hstrip
    cases hstrip
  by_cases hinserted : untrailed {} t = t
  · rw [hinserted] at h
    have hloads : jsonLoads float (String.ofList t) = some v := by
      rw [jsonLoads, String.toList_ofList, jsonLoads_of_serialises h]
    rw [repairAndParse_of_loads (by rwa [String.toList_ofList]) hloads]
    exact iff_of_true rfl (Or.inl hinserted)
  have hraw : jsonLoads float (String.ofList t) = none := by
    rw [jsonLoads, String.toList_ofList, loads_eq_none_of_untrailed_ne hinserted]
  have hinserted' : untrailed {} (Py.strip t) ≠ Py.strip t := fun heq => hinserted (hsame.2 heq)
  have hcandidate : jsonLoads float (String.ofList (Py.strip t)) = none := by
    rw [jsonLoads, String.toList_ofList, loads_eq_none_of_untrailed_ne hinserted']
  have hfence := stripCodeFence_of_serialises hstrip
  have hloads : jsonLoads float (String.ofList (untrailed {} (Py.strip t))) = some v := by
    rw [jsonLoads, String.toList_ofList, jsonLoads_of_serialises hstrip]
  rw [or_iff_right hinserted, hkept]
  constructor
  · intro hv
    have hnull : v ≠ .null := by
      rintro rfl
      have hread := jsonLoads_of_serialises hstrip
      rcases encloses_of_untrailed_ne counts_start hinserted' hread with ⟨_, h⟩ | ⟨_, h⟩
      · cases h
      · cases h
    -- an altered literal lowers the weight, and no later rung gives it back
    obtain ⟨hplain, hrepair⟩ := weight_repairSteps (lowered_untrailed (Py.strip t) {})
      (markCount_of_serialises marked_repairMark hstrip).2
    refine hrepair.resolve_right fun hlt => ?_
    have hquote := weight_singleToDoubleQuotes hplain
    have hlt' : weight (singleToDoubleQuotes (repairSteps (Py.strip t))) <
        weight (untrailed {} (Py.strip t)) := by
      rcases hquote with heq | hlt'
      · rwa [heq]
      · omega
    obtain ⟨text, htext, hvalue⟩ := exists_rung hnull hv
    rw [hfence] at htext
    simp only [List.mem_cons, List.not_mem_nil, or_false] at htext
    rcases htext with rfl | rfl | rfl | rfl | rfl
    · rw [hraw] at hvalue
      cases hvalue
    · rw [hcandidate] at hvalue
      cases hvalue
    all_goals
      rw [jsonLoads, String.toList_ofList] at hvalue
      refine ne_of_weight_lt hstrip ?_ hvalue
    · exact hlt
    · exact hlt'
    · rwa [weight_balanceBraces]
  · intro hsteps
    rw [repairAndParse_of_none hblank hraw (by rw [hfence, hcandidate]), hfence, hsteps]
    simp [tryParse, hloads, hinserted']

/-- Two commas were inserted, and the literal has one that no bracket follows. -/
theorem repairAndParse_untrailed_kept :
    (repairAndParse (jsonLoads noFloat) (String.ofList "\x7b\"a\": [\"x, y\",],\x7d".toList)).1 =
      .obj [("a", .arr [.str "x, y"])] := by
  refine (repairAndParse_untrailed_iff noFloat "\x7b\"a\": [\"x, y\",],\x7d".toList
    (.obj [("a", .arr [.str "x, y"])]) rfl).2 (Or.inr ?_)
  exact (repairSteps_eq_untrailed_iff _).1 rfl

/-- The comma in the literal goes too. -/
theorem literal_not_kept :
    Serialises noFloat (untrailed {} "\x7b\"a\": \"x,]\",\x7d".toList) (.obj [("a", .str "x,]")]) ∧
    (repairAndParse (jsonLoads noFloat) "\x7b\"a\": \"x,]\",\x7d").1 =
      .obj [("a", .str "x]")] :=
  ⟨rfl, rfl⟩

end OxenClaw.JsonRepair
