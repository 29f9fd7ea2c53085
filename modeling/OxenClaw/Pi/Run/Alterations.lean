import OxenClaw.Lib.Text
import OxenClaw.Pi.Run.JsonLoads
import OxenClaw.Pi.Run.JsonRepair

/-!
# What the repairs alter

Each repair of `repair_and_parse` takes out commas or puts other quotes for quotes. With a weight
on these characters (`repairMark`) every alteration lowers the text, and a text with less weight
than the serialisation of a value does not have that value (`ne_of_lowered`). So a rung of the ladder
gives the value of a document only with a text it has not altered.
-/

namespace OxenClaw.JsonRepair

open JsonReader

/-- The weights of what the repairs take out or replace : commas, apostrophes, smart quotes. A smart
single quote becomes an apostrophe, and an apostrophe a quote. -/
def repairMark (n : ℕ) : ℕ :=
  if n = 0x2C ∨ n = 0x27 ∨ n = 0x201C ∨ n = 0x201D then 1
  else if n = 0x2018 ∨ n = 0x2019 then 2
  else 0

theorem marked_repairMark : Marked repairMark := by
  have hzero {n : ℕ} (h₁ : ¬(n = 0x2C ∨ n = 0x27 ∨ n = 0x201C ∨ n = 0x201D))
      (h₂ : ¬(n = 0x2018 ∨ n = 0x2019)) : repairMark n = 0 := by
    rw [repairMark, if_neg h₁, if_neg h₂]
  have hchar {c : Char} {n : ℕ} (h : c.toNat = n) : c = Char.ofNat n := by
    rw [← h, Char.ofNat_toNat]
  refine ⟨fun c htoken hc => hzero ?_ ?_, by decide, fun c n hn => ?_, fun n hn => hzero ?_ ?_⟩
  · rintro (h | h | h | h)
    · exact hc (hchar h)
    all_goals
      rw [hchar h] at htoken
      revert htoken
      decide
  · rintro (h | h)
    all_goals
      rw [hchar h] at htoken
      revert htoken
      decide
  · unfold unescape at hn
    split_ifs at hn with hself
    all_goals obtain rfl := Option.some.inj hn
    · simp only [Bool.or_eq_true, decide_eq_true_eq] at hself
      rcases hself with (rfl | rfl) | rfl <;> decide
    all_goals decide
  · omega
  · omega

/-- The marks of a text. -/
def weight (t : List Char) : ℕ :=
  markCount repairMark .plain t

variable {float : List Char → ℚ} {v : Json}

/-- A text of less weight than the serialisation of a value has another value, or none. -/
theorem ne_of_weight_lt {s t : List Char} (hs : Serialises float s v) (hlt : weight t < weight s) :
    (jsonReader float).loads t ≠ some v := by
  intro ht
  have hle : v.marks repairMark ≤ weight t := marks_le_markCount marked_repairMark ht
  have heq : weight s = v.marks repairMark := (markCount_of_serialises marked_repairMark hs).1
  omega

/-! ## The alterations -/

theorem lowered_dropTrailingCommas (s : List Char) :
    Lowered repairMark s (dropTrailingCommas s) := by
  induction s with
  | nil => exact .nil
  | cons c s ih =>
    rw [dropTrailingCommas]
    split_ifs with h
    · have hc : c = ',' := by
        rw [Bool.and_eq_true, decide_eq_true_eq] at h
        exact h.1
      refine .drop ?_ ih
      rw [hc]
      decide
    · exact .keep ih

theorem map_plainQuote_eq_self_iff (s : List Char) :
    s.map plainQuote = s ↔ ∀ c ∈ s, plainQuote c = c := by
  have hid := List.map_inj_left (l := s) (f := plainQuote) (g := id)
  rwa [List.map_id] at hid

theorem lowered_plainQuote (s : List Char) : Lowered repairMark s (s.map plainQuote) := by
  induction s with
  | nil => exact .nil
  | cons c s ih =>
    rw [List.map_cons]
    unfold plainQuote
    split_ifs with hdouble hsingle
    · refine .lower ?_ (by decide) ih
      simp only [Bool.or_eq_true, decide_eq_true_eq] at hdouble
      have hmark : repairMark c.toNat = 1 := by
        rw [repairMark, if_pos (by omega)]
      rw [hmark]
      decide
    · refine .lower ?_ (by decide) ih
      simp only [Bool.or_eq_true, decide_eq_true_eq] at hsingle
      have hmark : repairMark c.toNat = 2 := by
        rw [repairMark, if_neg (by omega), if_pos (by omega)]
      rw [hmark]
      decide
    · exact .keep ih

theorem lowered_requote (s : List Char) (inside : Bool) (prev : Option Char) :
    Lowered repairMark s (requote inside prev s) := by
  induction s generalizing inside prev with
  | nil => exact .nil
  | cons c s ih =>
    have hlower (hc : c = apostrophe) : repairMark '"'.toNat < repairMark c.toNat := by
      rw [hc]
      decide
    rw [requote]
    split_ifs with hinside hc hc
    · exact .lower (hlower hc) (by decide) (ih _ _)
    · exact .keep (ih _ _)
    · simp only [Bool.and_eq_true, decide_eq_true_eq] at hc
      exact .lower (hlower hc.1.1) (by decide) (ih _ _)
    · exact .keep (ih _ _)

/-- What lowers a text that has its marks plain leaves it as it is, or with less weight. -/
theorem weight_of_lowered {s t : List Char} (h : Lowered repairMark s t)
    (hs : MarksPlain repairMark .plain s) :
    MarksPlain repairMark .plain t ∧ (t = s ∨ weight t < weight s) :=
  h.markCount_lt marked_repairMark hs

/-- The two steps of the regular expressions, one after the other. -/
theorem weight_repairSteps {s t : List Char} (h : Lowered repairMark s (dropTrailingCommas t))
    (hs : MarksPlain repairMark .plain s) : MarksPlain repairMark .plain (repairSteps t) ∧
      (repairSteps t = s ∨ weight (repairSteps t) < weight s) := by
  obtain ⟨hplain, hcount⟩ := weight_of_lowered h hs
  obtain ⟨hplain', hcount'⟩ := weight_of_lowered (lowered_plainQuote (dropTrailingCommas t)) hplain
  refine ⟨hplain', ?_⟩
  unfold repairSteps
  rcases hcount with heq | hlt
  · rw [heq] at hcount' ⊢
    exact hcount'
  · refine Or.inr ?_
    rcases hcount' with heq | hlt'
    · rwa [heq]
    · omega

theorem weight_singleToDoubleQuotes {s : List Char} (hs : MarksPlain repairMark .plain s) :
    singleToDoubleQuotes s = s ∨ weight (singleToDoubleQuotes s) < weight s :=
  (weight_of_lowered (lowered_requote s false none) hs).2

/-- Closing brackets weigh nothing. -/
theorem markCount_append_closers {k : List Char} (hk : ∀ c ∈ k, c = ']' ∨ c = '\x7d')
    (s : List Char) : ∀ e : Escape, markCount repairMark e (s ++ k) = markCount repairMark e s := by
  have hread (e : Escape) (c : Char) (hc : c = ']' ∨ c = '\x7d') :
      (e.read repairMark c).2 = 0 := by
    have hmark (n : ℕ) : repairMark (n * 16) = 0 := by
      rw [repairMark, if_neg (by omega), if_neg (by omega)]
    rcases e with _ | _ | ⟨j, n⟩
    · rcases hc with rfl | rfl <;> decide
    · rcases hc with rfl | rfl <;> rfl
    · have hdigit : hexDigit c = none := by rcases hc with rfl | rfl <;> rfl
      simp only [Escape.read, hdigit, Option.getD_none, add_zero]
      split_ifs
      · exact hmark n
      · rfl
  induction s with
  | nil =>
    induction k with
    | nil => exact fun e => rfl
    | cons c k ih =>
      intro e
      have hrest := ih (fun d hd => hk d (List.mem_cons_of_mem c hd)) (e.read repairMark c).1
      rw [List.nil_append] at hrest ⊢
      simp only [markCount] at hrest ⊢
      rw [hread e c (hk c List.mem_cons_self), hrest]
  | cons c s ih =>
    intro e
    rw [List.cons_append, markCount, markCount, ih]

theorem weight_append_closers {k : List Char} (hk : ∀ c ∈ k, c = ']' ∨ c = '\x7d')
    (s : List Char) : weight (s ++ k) = weight s :=
  markCount_append_closers hk s .plain

theorem weight_balanceBraces (t : List Char) : weight (balanceBraces t) = weight t := by
  rw [balanceBraces, List.append_assoc]
  refine weight_append_closers (fun c hc => ?_) t
  rcases List.mem_append.1 hc with hc | hc
  · exact Or.inl (List.eq_of_mem_replicate hc)
  · exact Or.inr (List.eq_of_mem_replicate hc)

/-! ## The counters of the brackets -/

/-- The counters agree with a place of reading. -/
structure Counts (d : Depths) (s : State Json) : Prop where
  inString : d.inString = s.mode.quoted
  escape : d.escape = true ↔ s.mode.escape = .backslash
  curly : d.curly = (closers s).count '\x7d'
  square : d.square = (closers s).count ']'

theorem counts_start : Counts {} {} :=
  ⟨rfl, by simp [Mode.escape], rfl, rfl⟩

/-- Out of a literal no backslash is open. -/
theorem Counts.escape_of_not_quoted {d : Depths} {s : State Json} (h : Counts d s)
    (hquoted : s.mode.quoted = false) : d.escape = false := by
  rw [Bool.eq_false_iff, ne_eq, h.escape, JsonReader.escape_of_not_quoted hquoted]
  rintro ⟨⟩

/-- Every character keeps them so. -/
theorem counts_read {d : Depths} {s s' : State Json} {c : Char} (h : Counts d s)
    (hstep : (jsonReader float).step s c = some s') : Counts (d.read c) s' := by
  have hout := h.escape_of_not_quoted
  obtain ⟨hstring, hescape, hcurly, hsquare⟩ := h
  rcases hquoted : s.mode.quoted with _ | _
  · have hplain := hout hquoted
    rw [hquoted] at hstring
    obtain ⟨hclosers, hescape', hquoted'⟩ := closers_of_step_unquoted _ hquoted hstep
    have hpop (hc : c = ']' ∨ c = '\x7d') : closers s = c :: closers s' :=
      (closers_of_step _ hquoted hc hstep).1
    unfold Depths.read
    rw [hplain, hstring]
    simp only [Bool.false_eq_true, ↓reduceIte, Bool.and_false, Bool.not_false]
    split_ifs with hquote hopen hclose hsquareOpen hsquareClose
    · rw [hquote] at hclosers hquoted'
      have hsame : closers s' = closers s := hclosers
      exact ⟨hquoted'.symm, by simp [hescape'], by rw [hsame]; exact hcurly,
        by rw [hsame]; exact hsquare⟩
    · rw [hopen] at hclosers hquoted'
      have hpush : closers s' = '\x7d' :: closers s := hclosers
      refine ⟨hquoted'.symm, by simp [hescape'], ?_, ?_⟩
      · simp [hpush, hcurly]
      · simp [hpush, hsquare]
    · have htop := hpop (Or.inr hclose)
      rw [hclose] at htop hquoted'
      refine ⟨hquoted'.symm, by simp [hescape'], ?_, ?_⟩
      · simp [htop] at hcurly
        simp only
        omega
      · simpa [htop] using hsquare
    · rw [hsquareOpen] at hclosers hquoted'
      have hpush : closers s' = ']' :: closers s := hclosers
      refine ⟨hquoted'.symm, by simp [hescape'], ?_, ?_⟩
      · simp [hpush, hcurly]
      · simp [hpush, hsquare]
    · have htop := hpop (Or.inl hsquareClose)
      rw [hsquareClose] at htop hquoted'
      refine ⟨hquoted'.symm, by simp [hescape'], ?_, ?_⟩
      · simpa [htop] using hcurly
      · simp [htop] at hsquare
        simp only
        omega
    · have hsame : closers s' = closers s := by
        rw [hclosers, closersAfter, if_neg hopen, if_neg hsquareOpen, if_neg (by tauto)]
      rw [decide_eq_false hquote] at hquoted'
      exact ⟨hstring.trans hquoted'.symm, by simp [hescape', hplain], by rw [hsame]; exact hcurly,
        by rw [hsame]; exact hsquare⟩
  · rw [hquoted] at hstring
    obtain ⟨frames, mode⟩ := s
    rcases mode with _ | _ | _ | _ | _ | _ | _ | ⟨isKey, escape, text⟩ | _
    case str =>
      obtain ⟨hclosers, hnext⟩ := closers_of_readStr _ hstep
      have hcurly' : d.curly = (closers s').count '\x7d' := by
        rw [hclosers]
        exact hcurly
      have hsquare' : d.square = (closers s').count ']' := by
        rw [hclosers]
        exact hsquare
      have hunquoted (hs' : s'.mode.quoted = false) : s'.mode.escape = .plain := by
        obtain ⟨frames', mode'⟩ := s'
        rcases mode' with _ | _ | _ | _ | _ | _ | _ | _ | _ <;> first | rfl | cases hs'
      unfold Depths.read
      rcases escape with _ | _ | ⟨k, n⟩
      · have hplain : d.escape = false := by
          rw [Bool.eq_false_iff, ne_eq, hescape]
          rintro ⟨⟩
        rw [hplain, hstring]
        simp only [Bool.false_eq_true, ↓reduceIte, Bool.and_true, decide_eq_true_eq, Bool.not_true]
        simp only at hnext
        split_ifs at hnext ⊢ with hslash hquote hquote
        · rw [hslash] at hquote
          cases hquote
        · exact ⟨hnext.1.symm, by simp [hnext.2], hcurly', hsquare'⟩
        · exact ⟨hnext.symm, by simp [hunquoted hnext], hcurly', hsquare'⟩
        · exact ⟨hstring.trans hnext.1.symm, by simp [hnext.2, hplain], hcurly', hsquare'⟩
      · have hslashed : d.escape = true := hescape.2 rfl
        rw [hslashed]
        simp only at hnext
        exact ⟨hstring.trans hnext.1.symm, by simp [hnext.2], hcurly', hsquare'⟩
      · have hplain : d.escape = false := by
          rw [Bool.eq_false_iff, ne_eq, hescape]
          rintro ⟨⟩
        obtain ⟨digit, hdigit, -⟩ := Option.map_eq_some_iff.1 hstep
        have hatom := isAtomChar_of_hexDigit hdigit
        have hquote : c ≠ '"' := by rintro rfl; cases hatom
        have hslash : c ≠ '\\' := by rintro rfl; cases hatom
        rw [hplain, hstring]
        simp only [Bool.false_eq_true, ↓reduceIte, Bool.and_true, decide_eq_true_eq, hquote, hslash]
        simp only at hnext
        exact ⟨hstring.trans hnext.1.symm, by simp [hnext.2, hplain], hcurly', hsquare'⟩
    all_goals cases hquoted

/-- The counters of a text agree with the place of reading after it. -/
theorem counts_run {d : Depths} {s s' : State Json} {t : List Char} (h : Counts d s)
    (hrun : (jsonReader float).run s t = some s') : Counts (t.foldl Depths.read d) s' := by
  induction t generalizing d s with
  | nil =>
    obtain rfl := Option.some.inj hrun
    exact h
  | cons c t ih =>
    rw [run, List.foldlM_cons] at hrun
    obtain ⟨s₁, hstep, hrest⟩ := Option.bind_eq_some_iff.1 hrun
    exact ih (counts_read h hstep) hrest

/-- `_balance_braces` adds the brackets that are missing, arrays first. -/
theorem balanceBraces_of_run {t : List Char} {s : State Json}
    (hrun : (jsonReader float).run {} t = some s) :
    balanceBraces t = t ++ (List.replicate ((closers s).count ']') ']' ++
      List.replicate ((closers s).count '\x7d') '\x7d') := by
  have hcounts := counts_run counts_start hrun
  rw [balanceBraces, List.append_assoc]
  simp only [hcounts.square, hcounts.curly, Int.toNat_natCast]

/-! ## White space around a document -/

/-- White space outside the literals of a document is that of JSON. -/
theorem not_isToken_of_isSpace {c : Char} (h : Py.isSpace c = true) (hblank : isBlank c = false) :
    isToken c = false := by
  rw [Bool.eq_false_iff]
  intro htoken
  have hascii : ∀ n < 128, Py.isSpace (Char.ofNat n) = true → isToken (Char.ofNat n) = true →
      isBlank (Char.ofNat n) = true := by decide
  have hc := hascii c.toNat (toNat_lt_of_isToken htoken)
  rw [Char.ofNat_toNat] at hc
  rw [hc h htoken] at hblank
  cases hblank

section Spaces

variable {α : Type*} {R : JsonReader α}

/-- White space before closing brackets, or at the end, can go. -/
theorem readFrom_of_spaces {s : State α} {post k : List Char} {v : α}
    (hpost : ∀ c ∈ post, Py.isSpace c = true) (hk : ∀ c ∈ k, c = ']' ∨ c = '\x7d')
    (h : R.readFrom s (post ++ k) = some v) : R.readFrom s k = some v := by
  have hquote : '"' ∉ post ++ k := by
    intro hmem
    rcases List.mem_append.1 hmem with hmem | hmem
    · cases hpost _ hmem
    · rcases hk _ hmem with h | h <;> cases h
  have hquoted : s.mode.quoted = false := by
    rw [Bool.eq_false_iff]
    intro hquoted
    rw [readFrom_quoted _ hquoted hquote] at h
    cases h
  have hatom {c : Char} (hc : c ∈ post ++ k) : isAtomChar c = false := by
    rcases List.mem_append.1 hc with hc | hc
    · rcases hblank : isBlank c with _ | _
      · have htoken := not_isToken_of_isSpace (hpost c hc) hblank
        simp only [isToken, Bool.or_eq_false_iff] at htoken
        tauto
      · simp only [isBlank, Bool.or_eq_true, decide_eq_true_eq] at hblank
        rcases hblank with ((rfl | rfl) | rfl) | rfl <;> rfl
    · rcases hk c hc with rfl | rfl <;> rfl
  clear hquote
  induction post with
  | nil => exact h
  | cons c post ih =>
    rcases hblank : isBlank c with _ | _
    · have htoken := not_isToken_of_isSpace (hpost c List.mem_cons_self) hblank
      rw [List.cons_append, readFrom_cons, step_of_not_isToken _ hquoted htoken] at h
      cases h
    · rw [List.cons_append, readFrom_blank _ hquoted hblank] at h
      · exact ih (fun d hd => hpost d (List.mem_cons_of_mem c hd)) h
          fun hd => hatom (List.mem_cons_of_mem c hd)
      · exact fun d hd => hatom (List.mem_cons_of_mem c (List.mem_of_mem_head? hd))

/-- White space before a document can go. -/
theorem readFrom_of_spaces_left {pre t : List Char} {v : α}
    (hpre : ∀ c ∈ pre, Py.isSpace c = true) (h : R.readFrom {} (pre ++ t) = some v) :
    R.readFrom {} t = some v := by
  induction pre with
  | nil => exact h
  | cons c pre ih =>
    refine ih (fun d hd => hpre d (List.mem_cons_of_mem c hd)) ?_
    rw [List.cons_append, readFrom_cons] at h
    rcases hblank : isBlank c with _ | _
    · have htoken := not_isToken_of_isSpace (hpre c List.mem_cons_self) hblank
      rw [step_of_not_isToken _ rfl htoken] at h
      cases h
    · rwa [step, if_pos hblank, Option.bind_some] at h

/-- A document does not begin with a backtick. -/
theorem head?_ne_backtick {t : List Char} {v : α} (h : R.loads t = some v) :
    ∀ c ∈ t.head?, c ≠ backtick := by
  rcases t with _ | ⟨c, t⟩
  · rintro c ⟨⟩
  · rintro c ⟨⟩ rfl
    have hstep : R.step {} backtick = none := step_of_not_isToken _ rfl (by decide)
    rw [loads, readFrom_cons, hstep] at h
    cases h

end Spaces

/-- Without a fence only the white space goes. -/
theorem stripCodeFence_of_head? {t : List Char} (h : ∀ c ∈ (Py.strip t).head?, c ≠ backtick) :
    stripCodeFence t = Py.strip t := by
  have hfence : fence.isPrefixOf (Py.strip t) = false := by
    rw [Bool.eq_false_iff]
    intro hfence
    obtain ⟨rest, hrest⟩ := List.isPrefixOf_iff_prefix.1 hfence
    rw [← hrest] at h
    exact h backtick rfl rfl
  rw [stripCodeFence]
  simp only [hfence, Bool.false_eq_true, ↓reduceIte]
  exact Py.strip_strip t

/-! ## The rungs -/

section Ladder

variable {loads : String → Option Json} {t : List Char}

/-- A value is that of a rung. -/
theorem exists_rung (hv : v ≠ .null) (h : (repairAndParse loads (String.ofList t)).1 = v) :
    ∃ text ∈ [t, stripCodeFence t, repairSteps (stripCodeFence t),
        singleToDoubleQuotes (repairSteps (stripCodeFence t)),
        balanceBraces (singleToDoubleQuotes (repairSteps (stripCodeFence t)))],
      loads (String.ofList text) = some v := by
  have htry {before after : List Char} {label : String} {w : Json × String}
      (hw : tryParse loads before after label = some w) :
      loads (String.ofList after) = some w.1 := by
    unfold tryParse at hw
    split_ifs at hw
    obtain ⟨u, hu, rfl⟩ := Option.map_eq_some_iff.1 hw
    exact hu
  unfold repairAndParse at h
  simp only [String.toList_ofList] at h
  split_ifs at h
  · exact absurd h.symm hv
  · generalize hresult : Option.or _ _ = result at h
    rcases result with _ | w
    · exact absurd h.symm hv
    · obtain rfl : w.1 = v := h
      simp only [Option.or_eq_some_iff, Option.map_eq_some_iff] at hresult
      simp only [List.mem_cons, List.not_mem_nil, or_false, exists_eq_or_imp, exists_eq_left]
      rcases hresult with (⟨u, hu, rfl⟩ | ⟨-, hw⟩) | ⟨-, hw | ⟨-, hw | ⟨-, hw⟩⟩⟩
      · exact Or.inl hu
      · exact Or.inr (Or.inl (htry hw))
      · exact Or.inr (Or.inr (Or.inl (htry hw)))
      · exact Or.inr (Or.inr (Or.inr (Or.inl (htry hw))))
      · exact Or.inr (Or.inr (Or.inr (Or.inr (htry hw))))

/-- Where the text as it stands does not parse, the repairs decide. -/
theorem repairAndParse_of_none (hblank : Py.strip t ≠ []) (hraw : loads (String.ofList t) = none)
    (hcandidate : loads (String.ofList (stripCodeFence t)) = none) :
    repairAndParse loads (String.ofList t) =
      ((tryParse loads (stripCodeFence t) (repairSteps (stripCodeFence t)) "regex-cleanup").or
        ((tryParse loads (repairSteps (stripCodeFence t))
            (singleToDoubleQuotes (repairSteps (stripCodeFence t))) "single-quotes").or
          (tryParse loads (singleToDoubleQuotes (repairSteps (stripCodeFence t)))
            (balanceBraces (singleToDoubleQuotes (repairSteps (stripCodeFence t))))
            "balance-braces"))).getD (.null, "") := by
  have hfence : tryParse loads t (stripCodeFence t) "code-fence" = none := by
    rw [tryParse, hcandidate]
    simp
  rw [repairAndParse]
  simp only [String.toList_ofList, if_neg hblank, hraw, hfence, Option.map_none, Option.none_or]

end Ladder

end OxenClaw.JsonRepair
