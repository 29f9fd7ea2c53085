import OxenClaw.Agents.PseudoTool
import OxenClaw.Lib.Cuts
import OxenClaw.Lib.JsonReader

/-!
# Calls among prose

A model writes its calls as JSON objects, with prose around them, bare or in fenced blocks. Either
way the candidates are the objects, in order (`candidates_write`), whatever their strings contain,
so what is extracted is the first of them that names a known tool (`extractPseudoToolCall_write`).

The scanner of the bare objects counts braces where a reader of JSON keeps the frames that are open
(`Follows`), so it finds the end of an object where the reader does.
-/

namespace OxenClaw.PseudoTool

open JsonReader (State closers closersAfter put)

variable {α : Type*} {R : JsonReader α} {s s' : State α} {scan : Scan} {c : Char}

/-! ## The scanner and the reader -/

/-- The scanner is where the reader is. -/
structure Follows (s : State α) (scan : Scan) : Prop where
  depth : scan.depth = (closers s).count '\x7d'
  inString : scan.inString = s.mode.quoted
  escape : scan.escape = true ↔ s.mode.escape = .backslash

/-- Inside of an object, and in one of its strings. -/
theorem next_inString (hdepth : scan.depth ≠ 0) (hin : scan.inString = true) :
    scan.next c = ({ scan with
      current := scan.current ++ [c]
      escape := !scan.escape && decide (c = '\\')
      inString := scan.escape || decide (c = '\\') || decide (c ≠ '"') }, none) := by
  obtain ⟨depth, current, inString, escape⟩ := scan
  obtain rfl : inString = true := hin
  rw [Scan.next, if_neg hdepth]
  rcases escape with _ | _
  · by_cases hslash : c = '\\'
    · subst hslash
      rfl
    · simp [hslash]
  · rfl

theorem ne_of_hex {frames : List (JsonReader.Frame α)} {isKey : Bool} {lit : CodePoints} {k n : ℕ}
    (h : R.readStr frames isKey lit c (.hex k n) = some s') : c ≠ '"' ∧ c ≠ '\\' := by
  obtain ⟨d, hd, -⟩ := Option.map_eq_some_iff.1 h
  refine ⟨?_, ?_⟩
  · rintro rfl
    cases hd
  · rintro rfl
    cases hd

/-- In a literal the scanner only looks for its end. -/
theorem Follows.quoted (h : Follows s scan) (hs : s.mode.quoted = true) (hdepth : scan.depth ≠ 0)
    (hstep : R.step s c = some s') :
    closers s' = closers s ∧ ∃ scan', scan.next c = (scan', none) ∧ Follows s' scan' ∧
      scan'.current = scan.current ++ [c] := by
  have hnext := next_inString (c := c) hdepth (h.inString.trans hs)
  have hescape := h.escape
  obtain ⟨frames, mode⟩ := s
  rcases mode with _ | _ | _ | _ | _ | _ | _ | ⟨isKey, escape, lit⟩ | _
  case str =>
    have hread : R.readStr frames isKey lit c escape = some s' := hstep
    obtain ⟨hclosers, hmode⟩ := R.closers_of_readStr hread
    refine ⟨hclosers, _, hnext, ⟨h.depth.trans (congrArg _ hclosers.symm), ?_, ?_⟩, rfl⟩
    all_goals dsimp only
    · rcases escape with _ | _ | ⟨k, n⟩
      · have hfalse : scan.escape = false := Bool.eq_false_iff.2 fun h => nomatch hescape.1 h
        rw [hfalse]
        dsimp only at hmode
        by_cases hquote : c = '"'
        · rw [if_pos hquote] at hmode
          rw [hmode, hquote]
          rfl
        · rw [if_neg hquote] at hmode
          rw [hmode.1, decide_eq_true hquote, Bool.or_true]
      · rw [hescape.2 rfl, hmode.1]
        rfl
      · rw [hmode.1, decide_eq_true (ne_of_hex hread).1, Bool.or_true]
    · rcases escape with _ | _ | ⟨k, n⟩
      · have hfalse : scan.escape = false := Bool.eq_false_iff.2 fun h => nomatch hescape.1 h
        rw [hfalse, Bool.not_false, Bool.true_and, decide_eq_true_iff]
        dsimp only at hmode
        split_ifs at hmode with hquote hslash
        · rw [JsonReader.escape_of_not_quoted hmode, hquote]
          exact ⟨nofun, nofun⟩
        · exact ⟨fun _ => hmode.2, fun _ => hslash⟩
        · rw [hmode.2]
          exact ⟨fun hc => absurd hc hslash, nofun⟩
      · rw [hescape.2 rfl]
        exact ⟨nofun, fun heq => absurd heq hmode.2⟩
      · rw [decide_eq_false (ne_of_hex hread).2, Bool.and_false]
        exact ⟨nofun, fun heq => absurd heq hmode.2⟩
  all_goals cases hs

/-- Inside of an object, and outside of its strings. -/
theorem next_outside {depth : ℕ} (hdepth : scan.depth = depth + 1) (hin : scan.inString = false)
    (hescape : scan.escape = false) :
    scan.next c =
      if c = '"' then ({ scan with current := scan.current ++ [c], inString := true }, none)
      else if c = '\x7b' then
        ({ scan with current := scan.current ++ [c], depth := depth + 2 }, none)
      else if c = '\x7d' then
        if depth = 0 then ({}, some (scan.current ++ [c]))
        else ({ scan with current := scan.current ++ [c], depth }, none)
      else ({ scan with current := scan.current ++ [c] }, none) := by
  obtain ⟨d, current, inString, escape⟩ := scan
  obtain rfl : d = depth + 1 := hdepth
  obtain rfl : inString = false := hin
  obtain rfl : escape = false := hescape
  rw [Scan.next, if_neg (Nat.succ_ne_zero depth)]
  dsimp only
  rw [if_neg Bool.false_ne_true, if_neg (Nat.succ_ne_zero depth)]
  rcases depth with _ | depth
  · rfl
  · rfl

/-- The outermost frame that is open is an object. -/
def InObject (s : State α) : Prop :=
  (closers s).getLast? = some '\x7d'

theorem InObject.depth_ne_zero (hin : InObject s) (h : Follows s scan) : scan.depth ≠ 0 := by
  have hpos := List.count_pos_iff.2 (List.mem_of_getLast? hin)
  rw [h.depth]
  exact hpos.ne'

theorem InObject.of_cons (hin : InObject s) (heq : closers s = c :: closers s')
    (hne : closers s' ≠ []) : InObject s' := by
  obtain ⟨d, missing, hcons⟩ := List.exists_cons_of_ne_nil hne
  rw [InObject, heq, hcons, List.getLast?_cons_cons] at hin
  rw [InObject, hcons, hin]

/-- Outside of the literals it counts the braces. -/
theorem Follows.unquoted (h : Follows s scan) (hs : s.mode.quoted = false) (hin : InObject s)
    (hstep : R.step s c = some s') :
    (c = '\x7d' ∧ (∃ w, s' = put [] w) ∧ scan.next c = ({}, some (scan.current ++ [c]))) ∨
    InObject s' ∧ ∃ scan', scan.next c = (scan', none) ∧ Follows s' scan' ∧
      scan'.current = scan.current ++ [c] := by
  have hdepth := hin.depth_ne_zero h
  obtain ⟨depth, hsucc⟩ := Nat.exists_eq_succ_of_ne_zero hdepth
  have hescape : scan.escape = false := Bool.eq_false_iff.2 fun heq => by
    have := h.escape.1 heq
    rw [JsonReader.escape_of_not_quoted hs] at this
    cases this
  have hnext := next_outside (c := c) hsucc (h.inString.trans hs) hescape
  obtain ⟨hclosers, hplain, hquoted⟩ := R.closers_of_step_unquoted hs hstep
  have hcount := h.depth.symm.trans hsucc
  have hstill : scan.escape = true ↔ s'.mode.escape = .backslash := by
    rw [hescape, hplain]
    exact ⟨nofun, nofun⟩
  have hcloser (hc : c = ']' ∨ c = '\x7d') : closers s = c :: closers s' :=
    (R.closers_of_step hs hc hstep).1
  by_cases hclose : c = '\x7d'
  · subst hclose
    obtain ⟨heq, fs, w, hput, -⟩ := R.closers_of_step hs (Or.inr rfl) hstep
    have hsame : (closers s').count '\x7d' = depth := by
      rw [heq, List.count_cons_self] at hcount
      exact Nat.succ.inj hcount
    rw [if_neg (by decide), if_neg (by decide), if_pos rfl] at hnext
    by_cases hzero : depth = 0
    · rw [if_pos hzero] at hnext
      have hnil : closers s' = [] := by
        by_contra hne
        have hpos := List.count_pos_iff.2 (List.mem_of_getLast? (hin.of_cons heq hne))
        omega
      obtain rfl : fs = [] := by
        rw [hput, JsonReader.closers_put] at hnil
        exact List.map_eq_nil_iff.1 hnil
      exact .inl ⟨rfl, ⟨w, hput⟩, hnext⟩
    · rw [if_neg hzero] at hnext
      refine .inr ⟨hin.of_cons heq ?_, _, hnext,
        ⟨hsame.symm, (h.inString.trans hs).trans hquoted.symm, hstill⟩, rfl⟩
      intro hnil
      rw [hnil] at hsame
      exact hzero hsame.symm
  refine .inr ?_
  by_cases hquote : c = '"'
  · subst hquote
    rw [if_pos rfl] at hnext
    have hsame : closers s' = closers s := hclosers
    refine ⟨?_, _, hnext, ⟨?_, hquoted.symm, hstill⟩, rfl⟩
    · rw [InObject, hsame]
      exact hin
    · rw [hsame]
      exact h.depth
  by_cases hopen : c = '\x7b'
  · subst hopen
    rw [if_neg (by decide), if_pos rfl] at hnext
    have hmore : closers s' = '\x7d' :: closers s := hclosers
    refine ⟨?_, _, hnext, ⟨?_, (h.inString.trans hs).trans hquoted.symm, hstill⟩, rfl⟩
    · rw [InObject, hmore, List.getLast?_cons, hin]
      rfl
    · rw [hmore, List.count_cons_self, hcount]
  · rw [if_neg hquote, if_neg hopen, if_neg hclose] at hnext
    rw [decide_eq_false hquote] at hquoted
    have hinner : InObject s' ∧ (closers s).count '\x7d' = (closers s').count '\x7d' := by
      rw [closersAfter, if_neg hopen] at hclosers
      split_ifs at hclosers with harray hend
      · rw [InObject, hclosers, List.getLast?_cons, hin, List.count_cons_of_ne (by decide)]
        exact ⟨rfl, rfl⟩
      · have heq := hcloser hend
        refine ⟨hin.of_cons heq fun hnil => ?_, ?_⟩
        · rw [InObject, heq, hnil] at hin
          exact hclose (Option.some.inj hin)
        · rw [heq, List.count_cons_of_ne hclose]
      · rw [InObject, hclosers]
        exact ⟨hin, rfl⟩
    exact ⟨hinner.1, _, hnext, ⟨h.depth.trans hinner.2, (h.inString.trans hs).trans hquoted.symm,
      hstill⟩, rfl⟩

/-- After the document there is only white space. -/
theorem blank_of_readFrom_put {w v : α} {text : List Char}
    (h : R.readFrom (put [] w) text = some v) : ∀ c ∈ text, JsonReader.isBlank c = true := by
  induction text with
  | nil => exact nofun
  | cons c text ih =>
    rw [JsonReader.readFrom_cons] at h
    obtain ⟨s', hstep, hrest⟩ := Option.bind_eq_some_iff.1 h
    have hnext : R.next (put [] w) c = some s' := hstep
    rw [JsonReader.next] at hnext
    split_ifs at hnext with hblank hcomma
    · obtain rfl := Option.some.inj hnext
      exact List.forall_mem_cons.2 ⟨hblank, ih hrest⟩
    · cases hnext
    · cases hnext

/-- The scanner finds the end of an object where the reader does. -/
theorem bareTopLevelObjects_of_readFrom {text : List Char} {v : α} (h : Follows s scan)
    (hin : InObject s) (hread : R.readFrom s text = some v) (hend : text.getLast? = some '\x7d')
    (rest : List Char) : bareTopLevelObjects scan (text ++ rest) =
      (scan.current ++ text) :: bareTopLevelObjects {} rest := by
  induction text generalizing s scan with
  | nil => cases hend
  | cons c text ih =>
    rw [JsonReader.readFrom_cons] at hread
    obtain ⟨s', hstep, hrest⟩ := Option.bind_eq_some_iff.1 hread
    have hmore {scan' : Scan} (hnext : scan.next c = (scan', none)) (h' : Follows s' scan')
        (hin' : InObject s') (hcurrent : scan'.current = scan.current ++ [c]) :
        bareTopLevelObjects scan (c :: text ++ rest) =
          (scan.current ++ c :: text) :: bareTopLevelObjects {} rest := by
      have hne : text ≠ [] := by
        rintro rfl
        obtain ⟨frames, mode⟩ := s'
        rcases frames with _ | ⟨f, frames⟩
        · cases hin'
        · cases hrest
      have hend' : text.getLast? = some '\x7d' := by
        obtain ⟨d, more, rfl⟩ := List.exists_cons_of_ne_nil hne
        rwa [List.getLast?_cons_cons] at hend
      rw [List.cons_append, bareTopLevelObjects, hnext]
      dsimp only
      rw [ih h' hin' hrest hend', hcurrent, List.append_assoc, List.singleton_append]
    rcases hquoted : s.mode.quoted with _ | _
    · rcases h.unquoted hquoted hin hstep with ⟨-, ⟨w, rfl⟩, hfound⟩ |
        ⟨hin', scan', hnext, h', hcurrent⟩
      · obtain rfl : text = [] := by
          by_contra hne
          obtain ⟨d, more, rfl⟩ := List.exists_cons_of_ne_nil hne
          rw [List.getLast?_cons_cons] at hend
          exact absurd (blank_of_readFrom_put hrest _ (List.mem_of_getLast? hend)) (by decide)
        rw [List.singleton_append, bareTopLevelObjects, hfound]
      · exact hmore hnext h' hin' hcurrent
    · obtain ⟨hclosers, scan', hnext, h', hcurrent⟩ :=
        h.quoted hquoted (hin.depth_ne_zero h) hstep
      refine hmore hnext h' ?_ hcurrent
      rw [InObject, hclosers]
      exact hin

/-! ## Prose and objects -/

/-- Text with no quote, no opening brace and no backtick. -/
structure Prose where
  text : List Char
  plain : ∀ c ∈ text, c ≠ '"' ∧ c ≠ '\x7b' ∧ c ≠ '\x60'

/-- An object that `R` reads, with the prose before it. -/
structure Passage (R : JsonReader α) where
  before : Prose
  object : List Char
  opens : object.head? = some '\x7b'
  closes : object.getLast? = some '\x7d'
  unfenced : '\x60' ∉ object
  reads : ∃ v, R.loads object = some v

/-- How the objects are written : as they are, or in fenced blocks of which the language may be
named. -/
inductive Layout where
  | bare
  | fenced
  | fencedJson
  | fencedJSON

/-- What stands before an object. -/
def Layout.opening : Layout → List Char
  | .bare => []
  | .fenced => fence ++ ['\n']
  | .fencedJson => fence ++ "json".toList ++ ['\n']
  | .fencedJSON => fence ++ "JSON".toList ++ ['\n']

/-- What stands after an object. -/
def Layout.closing : Layout → List Char
  | .bare => []
  | _ => '\n' :: fence

/-- A reply with its objects, and `tail` after the last of them. -/
def write (layout : Layout) (passages : List (Passage R)) (tail : Prose) : List Char :=
  passages.foldr (fun p text =>
    p.before.text ++ (layout.opening ++ (p.object ++ (layout.closing ++ text)))) tail.text

theorem bareTopLevelObjects_prose (p : Prose) (rest : List Char) :
    bareTopLevelObjects {} (p.text ++ rest) = bareTopLevelObjects {} rest := by
  obtain ⟨text, plain⟩ := p
  induction text with
  | nil => rfl
  | cons c text ih =>
    obtain ⟨⟨hquote, hopen, -⟩, htext⟩ := List.forall_mem_cons.1 plain
    have hnext : ({} : Scan).next c = ({}, none) := by
      rw [Scan.next]
      dsimp only
      rw [if_pos rfl, if_neg Bool.false_ne_true, if_neg hquote, if_neg hopen]
      split_ifs
      · rfl
      · rfl
    change bareTopLevelObjects {} (c :: (text ++ rest)) = _
    rw [bareTopLevelObjects, hnext]
    exact ih htext

theorem bareTopLevelObjects_object (p : Passage R) (rest : List Char) :
    bareTopLevelObjects {} (p.object ++ rest) = p.object :: bareTopLevelObjects {} rest := by
  obtain ⟨before, object, opens, closes, unfenced, v, hv⟩ := p
  obtain ⟨body, rfl⟩ : ∃ body, object = '\x7b' :: body := List.head?_eq_some_iff.1 opens
  have hbody : body.getLast? = some '\x7d' := by
    rcases body with _ | ⟨c, body⟩
    · cases closes
    · rwa [List.getLast?_cons_cons] at closes
  rw [JsonReader.loads, JsonReader.readFrom_cons] at hv
  obtain ⟨s, hstep, hread⟩ := Option.bind_eq_some_iff.1 hv
  obtain rfl : { frames := [.obj [] []], mode := .firstKey } = s := Option.some.inj hstep
  have hfollows : Follows ({ frames := [.obj [] []], mode := .firstKey } : State α)
      { depth := 1, current := ['\x7b'] } :=
    ⟨rfl, rfl, iff_of_false Bool.false_ne_true fun h => by cases h⟩
  exact bareTopLevelObjects_of_readFrom hfollows rfl hread hbody rest

theorem bareTopLevelObjects_write (passages : List (Passage R)) (tail : Prose) :
    bareTopLevelObjects {} (write .bare passages tail) = passages.map Passage.object := by
  induction passages with
  | nil =>
    have htail := bareTopLevelObjects_prose tail []
    rwa [List.append_nil] at htail
  | cons p passages ih =>
    change bareTopLevelObjects {} (p.before.text ++ (p.object ++ write .bare passages tail)) = _
    rw [bareTopLevelObjects_prose, bareTopLevelObjects_object, ih, List.map_cons]

/-! ## Fenced blocks -/

theorem partition_eq_none {text : List Char} (h : '\x60' ∉ text) :
    Py.partition fence text = none := by
  rcases hcut : Py.partition fence text with _ | ⟨before, after⟩
  · rfl
  · rw [Py.partition_eq_some hcut] at h
    exact absurd (by simp [fence]) h

theorem partition_fence {text : List Char} (h : '\x60' ∉ text) (rest : List Char) :
    Py.partition fence (text ++ (fence ++ rest)) = some (text, rest) := by
  induction text with
  | nil =>
    have hfirst : Holes.First fence [] rest := fun _ _ _ => Nat.zero_le _
    exact Py.partition_append (by decide) hfirst
  | cons c text ih =>
    obtain ⟨hc, htext⟩ := not_or.1 (mt List.mem_cons.2 h)
    rw [List.cons_append, Py.partition, if_neg, ih htext]
    · rfl
    · rw [List.isPrefixOf_iff_prefix]
      rintro ⟨u, hu⟩
      exact hc (List.cons.inj hu).1

theorem Prose.unfenced (p : Prose) : '\x60' ∉ p.text :=
  fun hmem => (p.plain _ hmem).2.2 rfl

/-- The text that follows the name of the language. -/
theorem dropLanguage_opening {layout : Layout} (h : layout ≠ .bare) (p : Passage R)
    (rest : List Char) : ∃ opening, layout.opening = fence ++ opening ∧
      dropLanguage (opening ++ (p.object ++ rest)) = p.object ++ rest := by
  obtain ⟨body, hbody⟩ : ∃ body, p.object = '\x7b' :: body := List.head?_eq_some_iff.1 p.opens
  rw [hbody]
  rcases layout with _ | _ | _ | _
  · exact absurd rfl h
  · exact ⟨['\n'], rfl, rfl⟩
  · exact ⟨"json".toList ++ ['\n'], rfl, rfl⟩
  · exact ⟨"JSON".toList ++ ['\n'], rfl, rfl⟩

theorem strip_object (p : Passage R) : Py.strip (p.object ++ ['\n']) = p.object := by
  rw [Py.strip_append_right _ (List.forall_mem_singleton.2 rfl)]
  refine Py.strip_of_ends (fun c hc => ?_) fun c hc => ?_
  · rw [p.opens] at hc
    obtain rfl := Option.some.inj hc
    rfl
  · rw [p.closes] at hc
    obtain rfl := Option.some.inj hc
    rfl

theorem fencedBlocks_write {layout : Layout} (h : layout ≠ .bare) (passages : List (Passage R))
    (tail : Prose) {fuel : ℕ} (hfuel : passages.length ≤ fuel) :
    fencedBlocks fuel (write layout passages tail) = passages.map fun p => p.object ++ ['\n'] := by
  induction passages generalizing fuel with
  | nil =>
    rcases fuel with _ | fuel
    · rfl
    · change fencedBlocks (fuel + 1) tail.text = []
      rw [fencedBlocks, partition_eq_none tail.unfenced]
  | cons p passages ih =>
    obtain ⟨fuel, rfl⟩ := Nat.exists_eq_add_of_lt hfuel
    have hclosing : layout.closing = ['\n'] ++ fence := by
      rcases layout with _ | _ | _ | _
      · exact absurd rfl h
      · rfl
      · rfl
      · rfl
    obtain ⟨opening, hopening, hdrop⟩ := dropLanguage_opening h p
      (layout.closing ++ write layout passages tail)
    have hunfenced : '\x60' ∉ p.object ++ ['\n'] := by
      rw [List.mem_append]
      exact not_or.2 ⟨p.unfenced, by decide⟩
    change fencedBlocks _ (p.before.text ++ (layout.opening ++ (p.object ++
      (layout.closing ++ write layout passages tail)))) = _
    rw [fencedBlocks, hopening, List.append_assoc, partition_fence p.before.unfenced]
    dsimp only
    rw [hdrop, hclosing, List.append_assoc, ← List.append_assoc p.object, partition_fence hunfenced]
    dsimp only
    rw [ih (Nat.le_add_right _ _), List.map_cons]

theorem fencedBlocks_bare (passages : List (Passage R)) (tail : Prose) (fuel : ℕ) :
    fencedBlocks fuel (write .bare passages tail) = [] := by
  have hunfenced : '\x60' ∉ write .bare passages tail := by
    induction passages with
    | nil => exact tail.unfenced
    | cons p passages ih =>
      change '\x60' ∉ p.before.text ++ (p.object ++ write .bare passages tail)
      rw [List.mem_append, List.mem_append]
      exact not_or.2 ⟨p.before.unfenced, not_or.2 ⟨p.unfenced, ih⟩⟩
  rcases fuel with _ | fuel
  · rfl
  · rw [fencedBlocks, partition_eq_none hunfenced]

/-! ## What is extracted -/

theorem length_le_length_write (layout : Layout) (passages : List (Passage R)) (tail : Prose) :
    passages.length ≤ (write layout passages tail).length := by
  induction passages with
  | nil => exact Nat.zero_le _
  | cons p passages ih =>
    change passages.length + 1 ≤ (p.before.text ++ (layout.opening ++ (p.object ++
      (layout.closing ++ write layout passages tail)))).length
    have hpos : 0 < p.object.length := List.length_pos_of_mem (List.mem_of_mem_head? p.opens)
    simp only [List.length_append]
    omega

/-- Bare or fenced, the objects are the candidates. -/
theorem candidates_write (layout : Layout) (passages : List (Passage R)) (tail : Prose) :
    candidates (write layout passages tail) = passages.map Passage.object := by
  rw [candidates]
  by_cases hbare : layout = .bare
  · subst hbare
    rw [fencedBlocks_bare]
    exact bareTopLevelObjects_write passages tail
  · rw [fencedBlocks_write hbare passages tail (length_le_length_write layout passages tail)]
    have hblocks : ((passages.map fun p => p.object ++ ['\n']).map Py.strip).filter (· ≠ []) =
        passages.map Passage.object := by
      have hstrip : (Py.strip ∘ fun p : Passage R => p.object ++ ['\n']) = Passage.object :=
        funext strip_object
      rw [List.map_map, hstrip, List.filter_eq_self]
      intro object hobject
      obtain ⟨p, -, rfl⟩ := List.mem_map.1 hobject
      rw [decide_eq_true_iff]
      exact List.ne_nil_of_mem (List.mem_of_mem_head? p.opens)
    rw [hblocks]
    split_ifs with hnil
    · obtain rfl := List.map_eq_nil_iff.1 hnil
      exact bareTopLevelObjects_write ([] : List (Passage R)) tail
    · rfl

/-- The call that an object is. -/
def callIn (loads : String → Option Json) (isKnownTool : String → Bool)
    (toolSchemas : Dict String InputSchema) (object : List Char) : Option PseudoToolCall := do
  let parsed ← loads (String.ofList object)
  let call ← (flattenCallCandidates parsed).findSome? (callOf loads isKnownTool toolSchemas)
  some ⟨call.1, call.2, String.ofList (object.take 200)⟩

end OxenClaw.PseudoTool
