import OxenClaw.Pi.Run.Alterations

/-!
# Documents that lack closing brackets

`_balance_braces` counts the two kinds of brackets and adds the missing `]` before the missing
`}`. The repairs before it change what looks like a defect inside literals too. So
`repair_and_parse` gives the value of the completed document exactly if nothing is missing, or no
`}` is missing before a `]` and the text has none of the patterns of the repairs
(`repairAndParse_truncated_iff`).
-/

namespace OxenClaw.JsonRepair

open JsonReader

/-- The missing brackets are in the order in which `_balance_braces` adds them. -/
def ArraysFirst (k : List Char) : Prop :=
  ∃ m n, k = List.replicate m ']' ++ List.replicate n '\x7d'

/-- The text has no smart quote, no comma before a closing bracket and no word in single quotes
between separators. -/
structure Unaltered (t : List Char) : Prop where
  quotes : ∀ c ∈ t, plainQuote c = c
  commas : ∀ p q, t = p ++ ',' :: q → closerNext q = false
  words : ∀ p q, t = p ++ apostrophe :: q → (opensWord p.getLast? && closesWord q) = false

/-- The condition on the text and the missing brackets. -/
def Completable (t k : List Char) : Prop :=
  k = [] ∨ ArraysFirst k ∧ Unaltered (Py.strip t)

theorem dropTrailingCommas_sublist (t : List Char) : (dropTrailingCommas t).Sublist t := by
  induction t with
  | nil => exact .slnil
  | cons c t ih =>
    rw [dropTrailingCommas]
    split_ifs
    · exact ih.cons c
    · exact ih.cons_cons c

/-- The commas stay where none is before a closing bracket. -/
theorem dropTrailingCommas_eq_iff (t : List Char) :
    dropTrailingCommas t = t ↔ ∀ p q, t = p ++ ',' :: q → closerNext q = false := by
  induction t with
  | nil =>
    refine iff_of_true rfl fun p q h => ?_
    simp at h
  | cons c t ih =>
    rw [dropTrailingCommas]
    split_ifs with h
    · simp only [Bool.and_eq_true, decide_eq_true_eq] at h
      obtain ⟨rfl, hnext⟩ := h
      refine iff_of_false (fun heq => ?_) fun hall => ?_
      · have hle := (dropTrailingCommas_sublist t).length_le
        rw [heq, List.length_cons] at hle
        omega
      · rw [hall [] t rfl] at hnext
        cases hnext
    · refine ⟨fun heq p q hsplit => ?_, fun hall => ?_⟩
      · rcases p with _ | ⟨d, p⟩
        · obtain ⟨rfl, rfl⟩ := List.cons.inj hsplit
          rw [Bool.eq_false_iff]
          exact fun hnext => h (by simp [hnext])
        · exact ih.1 (List.cons.inj heq).2 p q (List.cons.inj hsplit).2
      · rw [ih.2 fun p q hsplit => hall (c :: p) q (by rw [hsplit, List.cons_append])]

/-- The words stay where none is in single quotes. -/
theorem requote_eq_iff (prev : Option Char) (t : List Char) : requote false prev t = t ↔
    ∀ p q, t = p ++ apostrophe :: q → (opensWord (p.getLast?.or prev) && closesWord q) = false := by
  induction t generalizing prev with
  | nil =>
    refine iff_of_true rfl fun p q h => ?_
    simp at h
  | cons c t ih =>
    rw [requote]
    simp only [Bool.false_eq_true, ↓reduceIte]
    split_ifs with h
    · simp only [Bool.and_eq_true, decide_eq_true_eq] at h
      obtain ⟨⟨rfl, hopens⟩, hcloses⟩ := h
      refine iff_of_false (fun heq => ?_) fun hall => ?_
      · cases (List.cons.inj heq).1
      · have hnot := hall [] t rfl
        rw [List.getLast?_nil, Option.none_or, hopens, hcloses] at hnot
        cases hnot
    · rw [List.cons.injEq, ih]
      have hlast (p : List Char) : (c :: p).getLast?.or prev = p.getLast?.or (some c) := by
        rcases p with _ | ⟨d, p⟩
        · rfl
        · rw [List.getLast?_cons_cons, List.getLast?_cons, Option.some_or, Option.some_or]
      refine ⟨fun hall p q hsplit => ?_, fun hall => ⟨rfl, fun p q hsplit => ?_⟩⟩
      · rcases p with _ | ⟨d, p⟩
        · obtain ⟨rfl, rfl⟩ := List.cons.inj hsplit
          rw [List.getLast?_nil, Option.none_or, Bool.eq_false_iff]
          intro hword
          rw [Bool.and_eq_true] at hword
          exact h (by simp [hword])
        · obtain ⟨rfl, rfl⟩ := List.cons.inj hsplit
          rw [hlast]
          exact hall.2 p q rfl
      · rw [← hlast]
        exact hall (c :: p) q (by rw [hsplit, List.cons_append])

/-- The repairs before the brackets leave exactly these texts. -/
theorem unaltered_iff (t : List Char) :
    Unaltered t ↔ repairSteps t = t ∧ singleToDoubleQuotes t = t := by
  have hwords := requote_eq_iff none t
  simp only [Option.or_none] at hwords
  have hfirst (h : repairSteps t = t) : dropTrailingCommas t = t := by
    refine (dropTrailingCommas_sublist t).eq_of_length ?_
    rw [← List.length_map (f := plainQuote)]
    exact congrArg List.length h
  refine ⟨fun h => ?_, fun h => ?_⟩
  · have hcommas := (dropTrailingCommas_eq_iff t).2 h.commas
    refine ⟨?_, hwords.2 h.words⟩
    rw [repairSteps, hcommas, (map_plainQuote_eq_self_iff t).2 h.quotes]
  · have hcommas := hfirst h.1
    have hquotes := h.1
    rw [repairSteps, hcommas] at hquotes
    exact ⟨(map_plainQuote_eq_self_iff t).1 hquotes, (dropTrailingCommas_eq_iff t).1 hcommas, hwords.1 h.2⟩

/-! ## The completed document -/

variable {float : List Char → ℚ} {t k : List Char} {v : Json}

/-- A text cut before closing brackets, without the white space around it. -/
theorem readFrom_strip {R : JsonReader Json} (hk : ∀ c ∈ k, c = ']' ∨ c = '\x7d')
    (h : R.loads (t ++ k) = some v) : R.loads (Py.strip t ++ k) = some v := by
  obtain ⟨pre, post, hsplit, hpre, hpost⟩ := Py.exists_append_strip t
  rw [hsplit, List.append_assoc, List.append_assoc] at h
  have hleft := readFrom_of_spaces_left hpre h
  rw [readFrom_append] at hleft
  obtain ⟨s, hrun, hrest⟩ := Option.bind_eq_some_iff.1 hleft
  rw [loads, readFrom_append, hrun]
  exact readFrom_of_spaces hpost hk hrest

/-- Such a text is read up to a place where exactly these brackets are missing. -/
theorem exists_run_of_loads (hk : ∀ c ∈ k, c = ']' ∨ c = '\x7d')
    (h : (jsonReader float).loads (t ++ k) = some v) :
    ∃ s, (jsonReader float).run {} t = some s ∧ (jsonReader float).readFrom s k = some v ∧
      s.mode.quoted = false ∧ closers s = k := by
  rw [loads, readFrom_append] at h
  obtain ⟨s, hrun, hrest⟩ := Option.bind_eq_some_iff.1 h
  have hquoted : s.mode.quoted = false := by
    rw [Bool.eq_false_iff]
    intro hquoted
    rw [readFrom_quoted _ hquoted] at hrest
    · cases hrest
    · intro hmem
      rcases hk _ hmem with h | h <;> cases h
  exact ⟨s, hrun, hrest, hquoted, (eq_closers_of_readFrom _ hquoted hk hrest).symm⟩

/-- Where a bracket is missing the text does not parse. -/
theorem loads_eq_none_of_missing (hk : ∀ c ∈ k, c = ']' ∨ c = '\x7d') (hne : k ≠ [])
    (h : (jsonReader float).loads (t ++ k) = some v) : (jsonReader float).loads t = none := by
  obtain ⟨s, hrun, -, -, hclosers⟩ := exists_run_of_loads hk h
  rw [loads, readFrom, hrun, Option.bind_some, finish_of_closers]
  rwa [hclosers]

/-- The brackets that are added complete the text only if they are the missing ones. -/
theorem loads_balanceBraces_iff (hk : ∀ c ∈ k, c = ']' ∨ c = '\x7d')
    (h : (jsonReader float).loads (t ++ k) = some v) :
    (jsonReader float).loads (balanceBraces t) = some v ↔ ArraysFirst k := by
  obtain ⟨s, hrun, hrest, hquoted, hclosers⟩ := exists_run_of_loads hk h
  rw [balanceBraces_of_run hrun, loads, readFrom_append, hrun, Option.bind_some, hclosers]
  constructor
  · intro hbalanced
    refine ⟨k.count ']', k.count '\x7d', ?_⟩
    rw [eq_closers_of_readFrom _ hquoted _ hbalanced, hclosers]
    intro c hc
    rcases List.mem_append.1 hc with hc | hc
    · exact Or.inl (List.eq_of_mem_replicate hc)
    · exact Or.inr (List.eq_of_mem_replicate hc)
  · rintro ⟨m, n, rfl⟩
    simpa [List.count_replicate] using hrest

theorem strip_ne_nil_of_loads (hk : ∀ c ∈ k, c = ']' ∨ c = '\x7d')
    (h : (jsonReader float).loads (Py.strip t ++ k) = some v) : Py.strip t ≠ [] := by
  intro hblank
  rw [hblank, List.nil_append] at h
  have hnil : k = [] := eq_closers_of_readFrom _ rfl hk h
  rw [hnil] at h
  cases h

/-- No fence is taken from it. -/
theorem stripCodeFence_of_missing (hk : ∀ c ∈ k, c = ']' ∨ c = '\x7d')
    (h : (jsonReader float).loads (Py.strip t ++ k) = some v) :
    stripCodeFence t = Py.strip t := by
  refine stripCodeFence_of_head? fun c hc => head?_ne_backtick h c ?_
  obtain ⟨first, rest, hrest⟩ := List.exists_cons_of_ne_nil (strip_ne_nil_of_loads hk h)
  rw [hrest] at hc ⊢
  exact hc

/-- The value of the completed document is given if the condition holds. -/
theorem repairAndParse_of_completable (hk : ∀ c ∈ k, c = ']' ∨ c = '\x7d')
    (h : (jsonReader float).loads (t ++ k) = some v) (hcond : Completable t k) :
    (repairAndParse (jsonLoads float) (String.ofList t)).1 = v := by
  have hstrip := readFrom_strip hk h
  have hblank := strip_ne_nil_of_loads hk hstrip
  by_cases hne : k = []
  · have hloads : jsonLoads float (String.ofList t) = some v := by
      rw [hne, List.append_nil] at h
      rw [jsonLoads, String.toList_ofList, h]
    rw [repairAndParse_of_loads (by rwa [String.toList_ofList]) hloads]
  · obtain ⟨harrays, hunaltered⟩ := hcond.resolve_left hne
    obtain ⟨hrepair, hquote⟩ := (unaltered_iff _).1 hunaltered
    have hfence := stripCodeFence_of_missing hk hstrip
    have hnone : jsonLoads float (String.ofList (Py.strip t)) = none := by
      rw [jsonLoads, String.toList_ofList]
      exact loads_eq_none_of_missing hk hne hstrip
    have hbalanced : jsonLoads float (String.ofList (balanceBraces (Py.strip t))) = some v := by
      rw [jsonLoads, String.toList_ofList]
      exact (loads_balanceBraces_iff hk hstrip).2 harrays
    have hchanged : balanceBraces (Py.strip t) ≠ Py.strip t := by
      intro heq
      rw [heq, hnone] at hbalanced
      cases hbalanced
    rw [repairAndParse_of_none hblank]
    · rw [hfence, hrepair, hquote]
      simp [tryParse, hbalanced, hchanged]
    · rw [jsonLoads, String.toList_ofList]
      exact loads_eq_none_of_missing hk hne h
    · rw [hfence, hnone]

/-- Where it fails, another value is given, or none : a bracket is missing, and the text has been
altered or the brackets do not fit. -/
theorem completable_of_repairAndParse (hk : ∀ c ∈ k, c = ']' ∨ c = '\x7d')
    (h : Serialises float (t ++ k) v)
    (hv : (repairAndParse (jsonLoads float) (String.ofList t)).1 = v) : Completable t k := by
  by_cases hne : k = []
  · exact Or.inl hne
  have hloads := jsonLoads_of_serialises h
  have hstrip : Serialises float (Py.strip t ++ k) v := readFrom_strip hk h
  have hstripLoads := jsonLoads_of_serialises hstrip
  obtain ⟨s, hrun, hrest, -, hclosers⟩ := exists_run_of_loads hk hstripLoads
  have hnull : v ≠ .null := by
    rintro rfl
    rcases encloses_of_readFrom _ (Or.inl (by rwa [hclosers])) hrest with ⟨_, h⟩ | ⟨_, h⟩
    · cases h
    · cases h
  have hplain : MarksPlain repairMark .plain (Py.strip t) :=
    (markCount_of_serialises marked_repairMark hstrip).2.of_append
  have hweight (text : List Char) (hlt : weight text < weight (Py.strip t)) :
      (jsonReader float).loads text ≠ some v := by
    refine ne_of_weight_lt hstrip ?_
    rwa [weight_append_closers hk]
  have hnone : (jsonReader float).loads (Py.strip t) ≠ some v := by
    rw [loads_eq_none_of_missing hk hne hstripLoads]
    nofun
  -- a repair that changes the text lowers its weight, and none gives it back
  obtain ⟨hplain₁, hrepair⟩ := weight_repairSteps (lowered_dropTrailingCommas _) hplain
  have hquote := weight_singleToDoubleQuotes hplain₁
  have hrepaired : (jsonReader float).loads (repairSteps (Py.strip t)) ≠ some v := by
    rcases hrepair with heq | hlt
    · rwa [heq]
    · exact hweight _ hlt
  have hquoted : singleToDoubleQuotes (repairSteps (Py.strip t)) = repairSteps (Py.strip t) ∧
      repairSteps (Py.strip t) = Py.strip t ∨
        weight (singleToDoubleQuotes (repairSteps (Py.strip t))) < weight (Py.strip t) := by
    rcases hrepair with heq | hlt
    · rw [heq] at hquote ⊢
      exact hquote.imp_left fun h => ⟨h, rfl⟩
    · refine Or.inr ?_
      rcases hquote with heq | hlt'
      · rwa [heq]
      · omega
  obtain ⟨text, htext, hvalue⟩ := exists_rung hnull hv
  rw [jsonLoads, String.toList_ofList] at hvalue
  rw [stripCodeFence_of_missing hk hstripLoads] at htext
  simp only [List.mem_cons, List.not_mem_nil, or_false] at htext
  rcases htext with rfl | rfl | rfl | rfl | rfl
  · rw [loads_eq_none_of_missing hk hne hloads] at hvalue
    cases hvalue
  · exact absurd hvalue hnone
  · exact absurd hvalue hrepaired
  · rcases hquoted with ⟨heq, -⟩ | hlt
    · rw [heq] at hvalue
      exact absurd hvalue hrepaired
    · exact absurd hvalue (hweight _ hlt)
  · rcases hquoted with ⟨hsame, hsteps⟩ | hlt
    · rw [hsame, hsteps] at hvalue
      rw [hsteps] at hsame
      exact Or.inr ⟨(loads_balanceBraces_iff hk hstripLoads).1 hvalue,
        (unaltered_iff _).2 ⟨hsteps, hsame⟩⟩
    · exact absurd hvalue (hweight _ (by rwa [weight_balanceBraces]))

/-- A document that lacks closing brackets is given its value if nothing is missing, or no `}`
before a `]` and the text has none of the patterns of the repairs; where no key is repeated, only
then. -/
theorem repairAndParse_truncated_iff (float : List Char → ℚ) (t k : List Char) (v : Json)
    (hk : ∀ c ∈ k, c = ']' ∨ c = '\x7d') :
    ((jsonReader float).loads (t ++ k) = some v → Completable t k →
      (repairAndParse (jsonLoads float) (String.ofList t)).1 = v) ∧
    (Serialises float (t ++ k) v →
      ((repairAndParse (jsonLoads float) (String.ofList t)).1 = v ↔ Completable t k)) :=
  ⟨repairAndParse_of_completable hk, fun h => ⟨completable_of_repairAndParse hk h,
    repairAndParse_of_completable hk (jsonLoads_of_serialises h)⟩⟩

/-- Numbers are read as zero where they are no integers. -/
def noFloat : List Char → ℚ := fun _ => 0

/-- An array in an object, both left open. -/
theorem repairAndParse_truncated_array :
    (repairAndParse (jsonLoads noFloat) (String.ofList "\x7b\"a\": [1".toList)).1 =
      .obj [("a", .arr [.int 1])] := by
  refine ((repairAndParse_truncated_iff noFloat "\x7b\"a\": [1".toList "]\x7d".toList
    (.obj [("a", .arr [.int 1])]) (fun c hc => by simpa using hc)).2 rfl).2 (Or.inr ⟨⟨1, 1, rfl⟩, ?_⟩)
  exact (unaltered_iff _).2 ⟨rfl, rfl⟩

/-- An object in an array in an object : the brackets are added in the wrong order. -/
theorem truncated_not_completed :
    (jsonReader noFloat).loads "\x7b\"a\": [1, \x7b\"b\": 2\x7d]\x7d".toList =
      some (.obj [("a", .arr [.int 1, .obj [("b", .int 2)]])]) ∧
    (repairAndParse (jsonLoads noFloat) "\x7b\"a\": [1, \x7b\"b\": 2").1 = .null :=
  ⟨rfl, rfl⟩

end OxenClaw.JsonRepair
