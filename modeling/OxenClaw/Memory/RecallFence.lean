import OxenClaw.Lib.Fences
import OxenClaw.Memory.Privacy

/-!
# The recall fence in what a user writes

The fence tags around recalled memories tell the model that what they hold is its own memory.
`sanitizeRecallFence` takes such tags out of what a user writes, in one pass. A tag that stands in
the opening of another one leaves that one behind (`sanitizeRecallFence_tagFree_iff`).
-/

namespace OxenClaw

namespace Privacy

open Regex

/-- `_RECALL_FENCE_TAGS`. -/
def recallFenceTags : List String :=
  ["recalled_memories", "memory-context", "memory_context"]

/-- `_RECALL_FENCE_RE`. -/
def recallFenceRe : Regex :=
  cat [set (· == '<'), star space, opt (set (· == '/')), star space,
    anyOf (recallFenceTags.map litIgnoreCase), wordBoundary, star (set (· != '>')),
    set (· == '>')]

variable (u : Unicode)

def sanitizeRecallFence (text : List Char) : List Char :=
  if text = [] ∨ '<' ∉ text then text
  else Splice.replaceRanges [] text 0 (recallFenceRe.finditer u text)

/-- `str.replace` of one character. -/
def replaceChar (c : Char) (new : String) (s : List Char) : List Char :=
  s.flatMap fun d => if d == c then new.toList else [d]

/-- `_xml_escape`. -/
def xmlEscape (s : List Char) : List Char :=
  replaceChar '"' "&quot;" (replaceChar '>' "&gt;" (replaceChar '<' "&lt;"
    (replaceChar '&' "&amp;" s)))

/-- `_RECALL_FENCE_RE` matches nowhere. -/
def TagFree (text : List Char) : Prop :=
  ∀ i, recallFenceRe.ends u text i = []

/-- No tag starts in a recalled text, which stands escaped in its fence. -/
def Sealed (text : List Char) : Prop :=
  ∀ before behind i, before.length ≤ i → i < (before ++ xmlEscape text).length →
    recallFenceRe.ends u (before ++ xmlEscape text ++ behind) i = []

/-! ## The tags as fences -/

/-- What the tags of the pattern start with, up to their name. -/
def TagHead (h : List Char) : Prop :=
  ∃ before slash after name, h = '<' :: (before ++ (slash ++ (after ++ name))) ∧
    (∀ c ∈ before, Py.isSpace c = true) ∧ (slash = [] ∨ slash = ['/']) ∧
    (∀ c ∈ after, Py.isSpace c = true) ∧
    ∃ tag ∈ recallFenceTags, List.Forall₂ (fun d c => sameLetter d c = true) tag.toList name

/-- A tag starts here, if it is closed. -/
def OpensTag (s : List Char) : Prop :=
  ∃ h rest, s = h ++ rest ∧ TagHead h ∧ rest ≠ [] ∧
    h.getLast?.any u.isWord ≠ rest.head?.any u.isWord

variable {u}

theorem name_ne_nil {tag : String} {name : List Char} (htag : tag ∈ recallFenceTags)
    (h : List.Forall₂ (fun d c => sameLetter d c = true) tag.toList name) : name ≠ [] := by
  rintro rfl
  have hnil := List.forall₂_nil_right_iff.1 h
  have hall : ∀ tag ∈ recallFenceTags, tag.toList ≠ [] := by decide
  exact hall tag htag hnil

/-- The letters of a name are no brackets. -/
theorem not_mem_name {x : Char} (hx : x = '<' ∨ x = '>') {tag : String} {name : List Char}
    (htag : tag ∈ recallFenceTags)
    (h : List.Forall₂ (fun d c => sameLetter d c = true) tag.toList name) : x ∉ name := by
  have hall : (recallFenceTags.all fun tag => tag.toList.all fun d =>
      !sameLetter d '<' && !sameLetter d '>') = true := by decide +kernel
  intro hmem
  obtain ⟨n, hn, hget⟩ := List.mem_iff_getElem.1 hmem
  have hlt : n < tag.toList.length := h.length_eq ▸ hn
  have hsame := h.get hlt hn
  have hd := List.all_eq_true.1 (List.all_eq_true.1 hall tag htag) _ (List.getElem_mem hlt)
  rw [Bool.and_eq_true, Bool.not_eq_true', Bool.not_eq_true'] at hd
  simp only [List.get_eq_getElem, hget] at hsame
  rcases hx with rfl | rfl
  · exact absurd (hd.1.symm.trans hsame) Bool.false_ne_true
  · exact absurd (hd.2.symm.trans hsame) Bool.false_ne_true

/-- A head has one bracket, its first character. -/
theorem TagHead.exists_cons {h : List Char} (hh : TagHead h) :
    ∃ t, h = '<' :: t ∧ '<' ∉ t ∧ '>' ∉ t := by
  obtain ⟨before, slash, after, name, rfl, hbefore, hslash, hafter, tag, htag, hname⟩ := hh
  have hout : ∀ x, x = '<' ∨ x = '>' → x ∉ before ++ (slash ++ (after ++ name)) := by
    intro x hx hmem
    have hspace : Py.isSpace x = false := by
      rcases hx with rfl | rfl <;> decide
    simp only [List.mem_append] at hmem
    rcases hmem with hmem | hmem | hmem | hmem
    · exact absurd (hbefore x hmem) (by simp [hspace])
    · rcases hslash with rfl | rfl
      · exact absurd hmem List.not_mem_nil
      · rw [List.mem_singleton.1 hmem] at hx
        exact absurd hx (by decide)
    · exact absurd (hafter x hmem) (by simp [hspace])
    · exact not_mem_name hx htag hname hmem
  exact ⟨_, rfl, hout '<' (Or.inl rfl), hout '>' (Or.inr rfl)⟩

theorem OpensTag.append {s : List Char} (h : OpensTag u s) (m : List Char) :
    OpensTag u (s ++ m) := by
  obtain ⟨head, rest, rfl, hhead, hne, hword⟩ := h
  refine ⟨head, rest ++ m, List.append_assoc _ _ _, hhead, List.append_ne_nil_of_left_ne_nil hne m,
    ?_⟩
  rwa [List.head?_append_of_ne_nil rest hne]

/-- A tag has opened at a character that no head holds there. -/
theorem OpensTag.of_append_cons {l m : List Char} {x : Char}
    (hout : ∀ head a, TagHead head → head ≠ l ++ x :: a) (h : OpensTag u (l ++ x :: m)) :
    OpensTag u (l ++ [x]) := by
  obtain ⟨head, rest, heq, hhead, hne, hword⟩ := h
  rcases List.append_eq_append_iff.1 heq with ⟨a, rfl, ha⟩ | ⟨c, rfl, rfl⟩
  · rcases a with _ | ⟨y, a⟩
    · rw [List.nil_append] at ha
      rw [← ha] at hword
      rw [List.append_nil] at hhead hword
      exact ⟨l, [x], rfl, hhead, List.cons_ne_nil x [], hword⟩
    · rw [List.cons_append, List.cons.injEq] at ha
      exact absurd (by rw [ha.1]) (hout _ a hhead)
  · refine ⟨head, c ++ [x], List.append_assoc _ _ _, hhead, by simp, ?_⟩
    rcases c with _ | ⟨y, c⟩
    · exact hword
    · exact hword

variable (u) in
/-- The tags of `_RECALL_FENCE_RE`. -/
def recallFence : Fence Char where
  first := '<'
  close := '>'
  Opens := OpensTag u
  cons_of_opens := by
    rintro l ⟨head, rest, rfl, hhead, -, -⟩
    obtain ⟨t, rfl, -, -⟩ := hhead.exists_cons
    exact ⟨t ++ rest, rfl⟩
  append := fun l m h => h.append m
  of_append_cons := by
    intro l m hl
    refine OpensTag.of_append_cons fun head a hhead heq => ?_
    obtain ⟨t, rfl, hlt, -⟩ := hhead.exists_cons
    obtain ⟨y, l, rfl⟩ := List.exists_cons_of_ne_nil hl
    rw [List.cons_append, List.cons.injEq] at heq
    exact hlt (heq.2 ▸ List.mem_append_right l List.mem_cons_self)
  of_append_close := by
    intro l m
    refine OpensTag.of_append_cons fun head a hhead heq => ?_
    obtain ⟨t, rfl, -, hgt⟩ := hhead.exists_cons
    have hmem : '>' ∈ '<' :: t := heq ▸ List.mem_append_right l List.mem_cons_self
    rcases List.mem_cons.1 hmem with hmem | hmem
    · exact absurd hmem (by decide)
    · exact hgt hmem

theorem getLast?_head {before slash after name : List Char} (h : name ≠ []) :
    ('<' :: (before ++ (slash ++ (after ++ name)))).getLast? = name.getLast? := by
  rw [← List.append_assoc, ← List.append_assoc, ← List.cons_append,
    List.getLast?_append_of_ne_nil _ h]

/-- What is behind the head of a tag is closed where the tag is. -/
theorem exists_of_append_eq {h rest body : List Char} (heq : h ++ rest = body ++ ['>'])
    (hne : rest ≠ []) : ∃ b, rest = b ++ ['>'] ∧ body = h ++ b := by
  obtain ⟨b, c, rfl⟩ := (List.eq_nil_or_concat rest).resolve_left hne
  rw [List.concat_eq_append, ← List.append_assoc] at heq
  obtain ⟨rfl, hc⟩ := List.append_inj' heq rfl
  rw [List.concat_eq_append, hc]
  exact ⟨b, rfl, rfl⟩

/-- The pattern matches the tags, from their start to their end. -/
theorem reads_recallFenceRe : Reads u recallFenceRe (recallFence u).Whole := by
  have hspaces := Reads.star_set (u := u) Py.isSpace
  have hnames : Reads u (anyOf (recallFenceTags.map litIgnoreCase)) fun m =>
      ∃ tag ∈ recallFenceTags, List.Forall₂ (fun d c => sameLetter d c = true) tag.toList m :=
    Reads.anyOf Reads.litIgnoreCase
  have hbody := (Reads.star_set (u := u) (· != '>')).seq
    ((Reads.set (· == '>')).seq Reads.eps)
  have htail := hnames.wordBoundary hbody
    (fun m ⟨tag, htag, hm⟩ => name_ne_nil htag hm)
    (fun m ⟨a, b, hm, _, c, d, hb, ⟨e, hc, _⟩, _⟩ => by simp [hm, hb, hc])
  refine ((Reads.set (· == '<')).seq (hspaces.seq ((Reads.set (· == '/')).opt.seq
    (hspaces.seq htail)))).congr fun m => ?_
  constructor
  · rintro ⟨-, -, rfl, ⟨c, rfl, hlt⟩, before, -, rfl, hbefore, slash, -, rfl, hslash, after, -, rfl,
      hafter, name, -, rfl, ⟨tag, htag, hname⟩, ⟨body, -, rfl, hbody, -, -, rfl, ⟨d, rfl, hgt⟩,
      rfl⟩, hword⟩
    obtain rfl : c = '<' := beq_iff_eq.1 hlt
    obtain rfl : d = '>' := beq_iff_eq.1 hgt
    have hhead : TagHead ('<' :: (before ++ (slash ++ (after ++ name)))) := by
      refine ⟨before, slash, after, name, rfl, hbefore, ?_, hafter, tag, htag, hname⟩
      rcases hslash with rfl | ⟨c, rfl, hc⟩
      · exact Or.inl rfl
      · exact Or.inr (by rw [beq_iff_eq.1 hc])
    obtain ⟨t, ht, -, hnot⟩ := hhead.exists_cons
    refine ⟨⟨_, body ++ ['>'], by simp, hhead, by simp, ?_⟩,
      '<' :: (before ++ (slash ++ (after ++ name))) ++ body, by simp [recallFence], ?_⟩
    · rw [getLast?_head (name_ne_nil htag hname)]
      exact hword
    · rw [ht]
      intro hmem
      rcases List.mem_append.1 hmem with hmem | hmem
      · rcases List.mem_cons.1 hmem with hmem | hmem
        · exact absurd hmem (by decide : '>' ≠ '<')
        · exact hnot hmem
      · exact absurd (hbody '>' hmem) (by decide)
  · rintro ⟨⟨_, rest, hm, ⟨before, slash, after, name, rfl, hbefore, hslash, hafter, tag, htag,
      hname⟩, hne, hword⟩, body, rfl, hbody⟩
    obtain ⟨b, rfl, rfl⟩ := exists_of_append_eq hm.symm hne
    rw [getLast?_head (name_ne_nil htag hname)] at hword
    refine ⟨['<'], before ++ (slash ++ (after ++ (name ++ (b ++ ['>'])))), ?_, ⟨'<', rfl, rfl⟩,
      before, _, rfl, hbefore, slash, _, rfl, ?_, after, _, rfl, hafter, name, _, rfl,
      ⟨tag, htag, hname⟩, ⟨b, _, rfl, ?_, ['>'], [], rfl, ⟨'>', rfl, rfl⟩, rfl⟩, hword⟩
    · rw [hm]
      simp
    · exact hslash.imp_right fun h => ⟨'/', h, rfl⟩
    · refine fun c hc => bne_iff_ne.2 ?_
      rintro rfl
      exact hbody (List.mem_append_right _ hc)

/-! ## One pass -/

theorem sanitizeRecallFence_eq_strip (text : List Char) :
    sanitizeRecallFence u text = (recallFence u).strip text := by
  rw [sanitizeRecallFence]
  split_ifs with h
  · refine (Fence.strip_eq_self_iff.2 ?_).symm
    rintro ⟨s, hs, hstarts⟩
    obtain ⟨m, rfl⟩ := (recallFence u).cons_of_opens s hstarts.1
    have hmem : '<' ∈ text := hs.mem List.mem_cons_self
    rcases h with rfl | h
    · exact List.not_mem_nil hmem
    · exact h hmem
  · exact Fence.replaceRanges_finditer reads_recallFenceRe text

theorem tagFree_iff (text : List Char) : TagFree u text ↔ ¬ (recallFence u).Contains text := by
  rw [Fence.contains_iff reads_recallFenceRe, TagFree]
  push Not
  rfl

theorem not_mem_replaceChar {c x : Char} {new : String} (s : List Char) (hnew : x ∉ new.toList)
    (hx : x = c ∨ x ∉ s) : x ∉ replaceChar c new s := by
  intro hmem
  obtain ⟨d, hd, hmem⟩ := List.mem_flatMap.1 hmem
  split_ifs at hmem with hdc
  · exact hnew hmem
  · rw [List.mem_singleton] at hmem
    subst hmem
    rcases hx with rfl | hx
    · exact hdc (beq_self_eq_true _)
    · exact hx hd

theorem not_mem_xmlEscape (s : List Char) : '<' ∉ xmlEscape s :=
  not_mem_replaceChar _ (by decide) (Or.inr (not_mem_replaceChar _ (by decide)
    (Or.inr (not_mem_replaceChar _ (by decide) (Or.inl rfl)))))

/-- A recalled text opens and closes no fence. -/
theorem sealed_all (text : List Char) : Sealed u text := by
  intro before behind i hle hlt
  by_contra hne
  have hopens := ((Fence.ends_ne_nil_iff reads_recallFenceRe).1 hne).1
  obtain ⟨m, hm⟩ := (recallFence u).cons_of_opens _ hopens
  rw [List.drop_append_of_le_length hlt.le, List.drop_append, List.drop_eq_nil_of_le hle,
    List.nil_append] at hm
  have hpos : 0 < ((xmlEscape text).drop (i - before.length)).length := by
    rw [List.length_drop]
    rw [List.length_append] at hlt
    omega
  obtain ⟨c, t, hct⟩ := List.exists_cons_of_ne_nil (List.length_pos_iff.1 hpos)
  rw [hct, List.cons_append, List.cons.injEq] at hm
  refine not_mem_xmlEscape text (List.mem_of_mem_drop (i := i - before.length) ?_)
  rw [hct, hm.1]
  exact List.mem_cons_self

/-- The last letter of a name is a word character. `\u017f` is a letter, which stands for an s. -/
theorem isWord_of_sameLetter (hu : u.isalnum '\u017f' = true) {c d : Char}
    (hd : d = 's' ∨ d = 't') (h : sameLetter d c = true) : u.isWord c = true := by
  have hsame : d = c.toLower ∨ c = '\u017f' := by
    rcases hd with rfl | rfl
    · simpa [sameLetter] using h
    · exact Or.inl (by simpa [sameLetter] using h)
  rcases hsame with rfl | rfl
  · exact Unicode.isWord_of_isLower_toLower (by rcases hd with h | h <;> rw [h] <;> rfl)
  · exact hu

theorem TagHead.isWord_getLast (hu : u.isalnum '\u017f' = true) {h : List Char} (hh : TagHead h) :
    h.getLast?.any u.isWord = true := by
  obtain ⟨before, slash, after, name, rfl, -, -, -, tag, htag, hname⟩ := hh
  have hlast : ∀ tag ∈ recallFenceTags,
      tag.toList.reverse.head? = some 's' ∨ tag.toList.reverse.head? = some 't' := by decide
  have hrev := List.rel_reverse hname
  rw [getLast?_head (name_ne_nil htag hname), ← List.head?_reverse]
  obtain ⟨d, ds, hd⟩ := List.exists_cons_of_ne_nil
    (mt List.reverse_eq_nil_iff.1 (name_ne_nil htag hname))
  rw [hd] at hrev ⊢
  obtain ⟨c, cs, hsame, -, hc⟩ := List.forall₂_cons_right_iff.1 hrev
  have hs := hlast tag htag
  rw [hc, List.head?_cons, Option.some_inj, Option.some_inj] at hs
  exact isWord_of_sameLetter hu hs hsame

/-- An opening that is not complete is the start of a head, without its end. -/
theorem tagHead_of_unfinished (hu : u.isalnum '\u017f' = true) {read : List Char}
    (h : (recallFence u).Unfinished read) : ∃ more, more ≠ [] ∧ TagHead (read ++ more) := by
  have hwhole : ¬ TagHead read := by
    intro hhead
    refine h.open_yet ⟨read, ['<'], rfl, hhead, List.cons_ne_nil _ _, ?_⟩
    rw [hhead.isWord_getLast hu]
    exact Bool.false_ne_true.symm
  obtain ⟨m, head, rest, heq, hhead, hne, hword⟩ := h.goes_on
  rcases List.append_eq_append_iff.1 heq with ⟨a, rfl, -⟩ | ⟨c, rfl, rfl⟩
  · refine ⟨a, ?_, hhead⟩
    rintro rfl
    exact hwhole (List.append_nil read ▸ hhead)
  · rcases c with _ | ⟨y, c⟩
    · exact absurd ((List.append_nil head).symm ▸ hhead) hwhole
    · have hopens : OpensTag u (head ++ y :: c) := ⟨head, y :: c, rfl, hhead, by simp, hword⟩
      exact absurd (hopens.append ['<']) h.open_yet

/-- What `sanitizeRecallFence` leaves has no tag, and a second pass leaves it as it is, exactly
when no tag stands in the opening of another one. -/
theorem sanitizeRecallFence_tagFree_iff (u : Unicode) (text : List Char) :
    (TagFree u (sanitizeRecallFence u text) ∧
      sanitizeRecallFence u (sanitizeRecallFence u text) = sanitizeRecallFence u text ∧
      Sealed u (sanitizeRecallFence u text)) ↔ ¬ (recallFence u).Nested text := by
  simp only [tagFree_iff, sanitizeRecallFence_eq_strip, Fence.strip_eq_self_iff,
    Fence.contains_strip_iff, sealed_all, and_true, and_self]

/-- A tag in the opening of a tag. -/
def nestedTag : List Char :=
  "<recalled_<recalled_memories>memories>".toList

theorem nestedTag_left :
    sanitizeRecallFence .ascii nestedTag = "<recalled_memories>".toList ∧
      ¬ TagFree .ascii (sanitizeRecallFence .ascii nestedTag) ∧
      sanitizeRecallFence .ascii (sanitizeRecallFence .ascii nestedTag) ≠
        sanitizeRecallFence .ascii nestedTag := by
  have hleft : sanitizeRecallFence .ascii nestedTag = "<recalled_memories>".toList := by
    decide +kernel
  have hsecond : sanitizeRecallFence .ascii "<recalled_memories>".toList = [] := by
    decide +kernel
  refine ⟨hleft, fun hfree => ?_, ?_⟩
  · rw [hleft] at hfree
    exact absurd (hfree 0) (by decide +kernel)
  · rw [hleft, hsecond]
    decide

end Privacy

end OxenClaw
