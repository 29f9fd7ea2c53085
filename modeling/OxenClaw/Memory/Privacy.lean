import Mathlib.Data.List.Sort
import Mathlib.Order.Nat
import OxenClaw.Lib.Intervals
import OxenClaw.Lib.Regex

/-!
# Redaction of the memory pipeline

`redact` collects what the active rules match, goes through the matches from left to right, and
leaves a match out where it overlaps the one before. What it keeps it replaces
(`build_eq_render`); of a match it leaves out, only what the others cover is replaced
(`replaced_iff`).
-/

namespace OxenClaw

inductive RedactLevel where
  | off
  | light
  | strict
  deriving DecidableEq

/-- One match that was replaced. -/
structure Redaction where
  span : ℕ × ℕ
  kind : String
  replacement : String
  deriving DecidableEq

namespace Privacy

/-- A rule : what it matches in a text is not empty. -/
structure Rule where
  kind : String
  levels : List RedactLevel
  finditer : List Char → List (ℕ × ℕ)
  proper : ∀ text, ∀ m ∈ finditer text, m.1 < m.2 ∧ m.2 ≤ text.length

/-- A rule of `_RULES`. -/
def Rule.ofPattern (u : Unicode) (kind : String) (levels : List RedactLevel) (r : Regex) : Rule where
  kind := kind
  levels := levels
  finditer := fun text => r.finditer u text
  proper := fun _ _ => Regex.mem_finditer

/-! ## The catalogue -/

open Regex

/-- `[A-Za-z0-9..]`. -/
def alnumOr (more : String) : Regex :=
  set fun c => c.isAlphanum || more.toList.contains c

/-- `[A-Za-z0-9..]` under `(?i)`. -/
def alnumOrIgnoreCase (more : String) : Regex :=
  set fun c => c.isAlphanum || more.toList.contains c ||
    ['\u0130', '\u0131', '\u017f', '\u212a'].contains c

/-- `[A-Z0-9]`. -/
def upperOrDigit : Regex :=
  set fun c => c.isUpper || c.isDigit

/-- `\s`. -/
def space : Regex :=
  set Py.isSpace

/-- `[..]`. -/
def oneOf (cs : String) : Regex :=
  set fun c => cs.toList.contains c

variable (u : Unicode)

/-- `\d`. -/
def digit : Regex :=
  set u.isDigit

/-- `\d{min,max}`. -/
def digits (min max : ℕ) : Regex :=
  rep (digit u) min (some max)

def openaiKey : Regex :=
  cat [wordBoundary, lit "sk-", rep (alnumOr "_-") 20 none, wordBoundary]

def slackToken : Regex :=
  cat [wordBoundary, lit "xox", oneOf "bpar", lit "-", rep (alnumOr "-") 10 none, wordBoundary]

def githubToken : Regex :=
  cat [wordBoundary, lit "gh", oneOf "ps", lit "_", rep (alnumOr "") 20 none, wordBoundary]

def awsKeyId : Regex :=
  cat [wordBoundary, lit "AKIA", rep upperOrDigit 16 (some 16), wordBoundary]

def googleToken : Regex :=
  cat [wordBoundary, lit "ya29.", rep (alnumOr "_-") 20 none, wordBoundary]

def sshPublicKey : Regex :=
  cat [wordBoundary, lit "ssh-rsa", plus space, lit "AAAA", rep (alnumOr "+/=") 20 none,
    wordBoundary]

def bearerToken : Regex :=
  cat [litIgnoreCase "Authorization", star space, lit ":", star space, litIgnoreCase "Bearer",
    plus space, rep (alnumOrIgnoreCase "-._~+/=") 10 none]

def formSecret : Regex :=
  cat [wordBoundary,
    alt (litIgnoreCase "password") (alt (cat [litIgnoreCase "api", opt (lit "_"),
      litIgnoreCase "key"]) (alt (litIgnoreCase "secret") (litIgnoreCase "token"))),
    star space, lit "=", star space,
    rep (set fun c => !(Py.isSpace c || "&;#'\"".toList.contains c)) 2 none]

def email : Regex :=
  cat [wordBoundary, rep (alnumOr "._%+-") 1 (some 64), lit "@", rep (alnumOr ".-") 1 (some 253),
    lit ".", rep (set Char.isAlpha) 2 none, wordBoundary]

def phone : Regex :=
  alt (cat [wordBoundary, lit "01", oneOf "016789", lit "-", digits u 3 4, lit "-", digits u 4 4,
    wordBoundary]) <|
  alt (cat [wordBoundary, lit "0", oneOf "23456789", opt (digit u), lit "-", digits u 3 4, lit "-",
    digits u 4 4, wordBoundary]) <|
  alt (cat [lit "+", digits u 1 3, opt (alt space (oneOf "-.")), opt (lit "("), digits u 1 4,
    opt (lit ")"), opt (alt space (oneOf "-.")), digits u 2 4, opt (alt space (oneOf "-.")),
    digits u 2 4, opt (alt space (oneOf "-.")), digits u 0 4, wordBoundary]) <|
  alt (cat [lit "(", digits u 3 3, lit ")", star space, digits u 3 3, alt space (oneOf "-"),
    digits u 4 4])
  (cat [wordBoundary, digits u 3 3, oneOf "-.", digits u 3 3, oneOf "-.", digits u 4 4,
    wordBoundary])

/-- `25[0-5]|2[0-4]\d|[01]?\d\d?`. -/
def octet : Regex :=
  alt (cat [lit "25", oneOf "012345"]) (alt (cat [lit "2", oneOf "01234", digit u])
    (cat [opt (oneOf "01"), digit u, opt (digit u)]))

def ipv4 : Regex :=
  cat [wordBoundary, rep (cat [octet u, lit "."]) 3 (some 3), octet u, wordBoundary]

def ccPattern : Regex :=
  cat [wordBoundary, rep (cat [digit u, opt (oneOf " -")]) 12 (some 18), digit u, wordBoundary]

/-- `_luhn_check`, from the last digit on. -/
def luhnSum : List ℕ → ℕ
  | [] => 0
  | [n] => n
  | n :: n' :: ns => n + (if 9 < n' * 2 then n' * 2 - 9 else n' * 2) + luhnSum ns

def luhnCheck (ns : List ℕ) : Bool :=
  luhnSum ns.reverse % 10 == 0

/-- The digits of a match, without its separators. -/
def ccDigits (text : List Char) (m : ℕ × ℕ) : List ℕ :=
  (((text.drop m.1).take (m.2 - m.1)).filter fun c => !(c == ' ' || c == '-')).filterMap u.digit

/-- Credit cards, which Luhn's check has to confirm. -/
def creditCard : Rule where
  kind := "credit_card"
  levels := [.strict]
  finditer := fun text => ((ccPattern u).finditer u text).filter fun m =>
    let ns := ccDigits u text m
    decide (13 ≤ ns.length ∧ ns.length ≤ 19) && luhnCheck ns
  proper := fun _ _ h => Regex.mem_finditer (List.mem_of_mem_filter h)

/-- `_RULES`. -/
def rules : List Rule :=
  [.ofPattern u "api_key" [.light, .strict] openaiKey,
    .ofPattern u "api_key" [.light, .strict] slackToken,
    .ofPattern u "api_key" [.light, .strict] githubToken,
    .ofPattern u "api_key" [.light, .strict] awsKeyId,
    .ofPattern u "api_key" [.light, .strict] googleToken,
    .ofPattern u "api_key" [.light, .strict] sshPublicKey,
    .ofPattern u "bearer_token" [.light, .strict] bearerToken,
    .ofPattern u "form_secret" [.light, .strict] formSecret,
    .ofPattern u "email" [.light, .strict] email,
    .ofPattern u "phone" [.strict] (phone u),
    .ofPattern u "ipv4" [.strict] (ipv4 u)]

/-- The rules that fire at a level. -/
def activeRules (level : RedactLevel) : List Rule :=
  (creditCard u :: rules u).filter fun r => level ∈ r.levels

/-! ## Redaction -/

/-- A match, with the kind of its rule. -/
structure Candidate where
  start : ℕ
  stop : ℕ
  kind : String
  deriving DecidableEq

def Candidate.redaction (c : Candidate) : Redaction :=
  ⟨(c.start, c.stop), c.kind, "[REDACTED:" ++ c.kind ++ "]"⟩

def candidates (rules : List Rule) (text : List Char) : List Candidate :=
  rules.flatMap fun r => (r.finditer text).map fun m => ⟨m.1, m.2, r.kind⟩

/-- The candidates by where they start, the longer first. -/
def sorted (cs : List Candidate) : List Candidate :=
  cs.insertionSort (Intervals.Before Candidate.start Candidate.stop)

/-- The candidates that do not overlap one kept before. -/
def merged (rules : List Rule) (text : List Char) : List Candidate :=
  Intervals.takeDisjoint Candidate.start Candidate.stop 0 (sorted (candidates rules text))

/-- The loop that builds the output. -/
def build (text : List Char) : ℕ → List Candidate → List Char × List Redaction
  | cursor, [] => (text.drop cursor, [])
  | cursor, c :: cs =>
    let rest := build text c.stop cs
    ((text.drop cursor).take (c.start - cursor) ++ c.redaction.replacement.toList ++ rest.1,
      c.redaction :: rest.2)

/-- `redact`, with these rules active. -/
def redactWith (rules : List Rule) (text : List Char) : List Char × List Redaction :=
  if candidates rules text = [] then (text, []) else build text 0 (merged rules text)

end Privacy

def redact (u : Unicode) (level : RedactLevel) (text : List Char) : List Char × List Redaction :=
  if level = .off then (text, []) else Privacy.redactWith (Privacy.activeRules u level) text

namespace Privacy

/-! ## What is replaced -/

/-- A match of some rule. -/
def Matches (rules : List Rule) (text : List Char) (s e : ℕ) : Prop :=
  ∃ r ∈ rules, (s, e) ∈ r.finditer text

/-- The text with the spans of the redactions replaced, position by position. -/
def render (text : List Char) (redactions : List Redaction) : List Char :=
  (List.range (text.length + 1)).flatMap fun p =>
    (redactions.filter fun r => r.span.1 = p).flatMap (fun r => r.replacement.toList) ++
      if redactions.any fun r => r.span.1 ≤ p ∧ p < r.span.2 then [] else text[p]?.toList

/-- Each position in a match of some rule is replaced in the output. -/
def Replaced (rules : List Rule) (text : List Char) : Prop :=
  (redactWith rules text).1 = render text (redactWith rules text).2 ∧
    ∀ s e, Matches rules text s e → ∀ p, s ≤ p → p < e →
      ∃ r ∈ (redactWith rules text).2, r.span.1 ≤ p ∧ p < r.span.2

variable {rules : List Rule} {text : List Char}

theorem matches_iff (s e : ℕ) : Matches rules text s e ↔
    ∃ c ∈ sorted (candidates rules text), c.start = s ∧ c.stop = e := by
  constructor
  · rintro ⟨r, hr, hm⟩
    refine ⟨⟨s, e, r.kind⟩, ?_, rfl, rfl⟩
    exact (List.perm_insertionSort _ _).symm.subset
      (List.mem_flatMap.2 ⟨r, hr, List.mem_map.2 ⟨(s, e), hm, rfl⟩⟩)
  · rintro ⟨c, hc, rfl, rfl⟩
    obtain ⟨r, hr, hc⟩ := List.mem_flatMap.1 ((List.perm_insertionSort _ _).subset hc)
    obtain ⟨m, hm, rfl⟩ := List.mem_map.1 hc
    exact ⟨r, hr, hm⟩

theorem proper_sorted : ∀ c ∈ sorted (candidates rules text),
    c.start < c.stop ∧ c.stop ≤ text.length := by
  intro c hc
  obtain ⟨r, -, hm⟩ := (matches_iff c.start c.stop).2 ⟨c, hc, rfl, rfl⟩
  exact r.proper text _ hm

theorem build_snd (text : List Char) (cursor : ℕ) (cs : List Candidate) :
    (build text cursor cs).2 = cs.map Candidate.redaction := by
  induction cs generalizing cursor with
  | nil => rfl
  | cons c cs ih => exact congrArg (c.redaction :: ·) (ih c.stop)

theorem merged_of_candidates_nil (h : candidates rules text = []) : merged rules text = [] := by
  rw [merged, h]
  rfl

theorem redactWith_eq (rules : List Rule) (text : List Char) :
    redactWith rules text = build text 0 (merged rules text) := by
  unfold redactWith
  split_ifs with h
  · rw [merged_of_candidates_nil h, build, List.drop_zero]
  · rfl

/-- The characters from one position to another. -/
theorem flatMap_range' (text : List Char) (a n : ℕ) :
    (List.range' a n).flatMap (fun p => text[p]?.toList) = (text.drop a).take n := by
  induction n generalizing a with
  | zero => rfl
  | succ n ih =>
    rw [List.range'_succ, List.flatMap_cons, ih]
    rcases Nat.lt_or_ge a text.length with h | h
    · rw [List.drop_eq_getElem_cons h, List.take_succ_cons, List.getElem?_eq_getElem h]
      rfl
    · rw [List.drop_eq_nil_of_le h, List.drop_eq_nil_of_le (Nat.le_succ_of_le h),
        List.getElem?_eq_none h, List.take_nil, List.take_nil]
      rfl

/-- What is written for one position. -/
def written (text : List Char) (cs : List Candidate) (p : ℕ) : List Char :=
  (cs.filter fun c => c.start = p).flatMap (fun c => c.redaction.replacement.toList) ++
    if cs.any fun c => c.start ≤ p ∧ p < c.stop then [] else text[p]?.toList

theorem written_of_lt {cs : List Candidate} {p : ℕ} (h : ∀ c ∈ cs, p < c.start) :
    written text cs p = text[p]?.toList := by
  have hnone : cs.filter (fun c => c.start = p) = [] :=
    List.filter_eq_nil_iff.2 fun c hc => by simpa using (h c hc).ne'
  have hany : (cs.any fun c => c.start ≤ p ∧ p < c.stop) = false :=
    List.any_eq_false.2 fun c hc => by simp [Nat.not_le.2 (h c hc)]
  rw [written, hnone, hany]
  rfl

section

variable {c : Candidate} {cs : List Candidate} (hproper : c.start < c.stop)
  (hlater : ∀ c' ∈ cs, c.stop ≤ c'.start)

include hproper hlater in
/-- The replacement stands where the match starts. -/
theorem written_start : written text (c :: cs) c.start = c.redaction.replacement.toList := by
  have hnone : cs.filter (fun c' => c'.start = c.start) = [] :=
    List.filter_eq_nil_iff.2 fun c' hc' => by simpa using (hproper.trans_le (hlater c' hc')).ne'
  have hany : ((c :: cs).any fun c' => c'.start ≤ c.start ∧ c.start < c'.stop) = true :=
    List.any_eq_true.2 ⟨c, List.mem_cons_self, decide_eq_true ⟨le_rfl, hproper⟩⟩
  have hself : decide (c.start = c.start) = true := decide_eq_true rfl
  rw [written, List.filter_cons, if_pos hself, hnone, hany, if_pos rfl, List.append_nil,
    List.flatMap_cons, List.flatMap_nil, List.append_nil]

include hlater in
/-- Nothing stands for the rest of the match. -/
theorem written_inside {p : ℕ} (hstart : c.start < p) (hstop : p < c.stop) :
    written text (c :: cs) p = [] := by
  have hnone : (c :: cs).filter (fun c' => c'.start = p) = [] := by
    refine List.filter_eq_nil_iff.2 fun c' hc' => ?_
    rcases List.mem_cons.1 hc' with rfl | hc'
    · simpa using hstart.ne
    · simpa using (hstop.trans_le (hlater c' hc')).ne'
  have hany : ((c :: cs).any fun c' => c'.start ≤ p ∧ p < c'.stop) = true :=
    List.any_eq_true.2 ⟨c, List.mem_cons_self, decide_eq_true ⟨hstart.le, hstop⟩⟩
  rw [written, hnone, hany, if_pos rfl, List.flatMap_nil, List.append_nil]

include hproper in
/-- Behind the match it plays no part. -/
theorem written_behind {p : ℕ} (hp : c.stop ≤ p) :
    written text (c :: cs) p = written text cs p := by
  have hstart : ¬c.start = p := (hproper.trans_le hp).ne
  have hcover : ¬(c.start ≤ p ∧ p < c.stop) := fun h => absurd h.2 (not_lt.2 hp)
  rw [written, written, List.filter_cons_of_neg (by simpa using hstart), List.any_cons,
    decide_eq_false hcover, Bool.false_or]

end

/-- The loop writes each position once, from its cursor on. -/
theorem build_fst {cs : List Candidate} {cursor : ℕ}
    (hpairs : cs.Pairwise fun c c' => c.stop ≤ c'.start)
    (hproper : ∀ c ∈ cs, c.start < c.stop ∧ c.stop ≤ text.length)
    (hcursor : ∀ c ∈ cs, cursor ≤ c.start) : (build text cursor cs).1 =
      (List.range' cursor (text.length + 1 - cursor)).flatMap (written text cs) := by
  induction cs generalizing cursor with
  | nil =>
    have hall : (text.drop cursor).length ≤ text.length + 1 - cursor := by
      rw [List.length_drop]
      omega
    have hwritten : written text [] = fun p => text[p]?.toList := by
      ext1 p
      exact written_of_lt fun c hc => absurd hc List.not_mem_nil
    rw [hwritten, flatMap_range', List.take_of_length_le hall, build]
  | cons c cs ih =>
    obtain ⟨hstart, hstop⟩ := hproper c List.mem_cons_self
    obtain ⟨hbefore, hpairs⟩ := List.pairwise_cons.1 hpairs
    have hc := hcursor c List.mem_cons_self
    have hsplit : List.range' cursor (text.length + 1 - cursor) =
        List.range' cursor (c.start - cursor) ++ (c.start :: List.range' (c.start + 1)
          (c.stop - c.start - 1)) ++ List.range' c.stop (text.length + 1 - c.stop) := by
      have hfirst := List.range'_append_1 (s := cursor) (m := c.start - cursor)
        (n := text.length + 1 - c.start)
      have hsecond := List.range'_append_1 (s := c.start) (m := c.stop - c.start)
        (n := text.length + 1 - c.stop)
      rw [← List.range'_succ, show c.stop - c.start - 1 + 1 = c.stop - c.start by omega,
        List.append_assoc]
      rw [show c.start + (c.stop - c.start) = c.stop by omega,
        show c.stop - c.start + (text.length + 1 - c.stop) = text.length + 1 - c.start by omega]
        at hsecond
      rw [show cursor + (c.start - cursor) = c.start by omega,
        show c.start - cursor + (text.length + 1 - c.start) = text.length + 1 - cursor by omega]
        at hfirst
      rw [hsecond, hfirst]
    have hbehind : (build text c.stop cs).1 =
        (List.range' c.stop (text.length + 1 - c.stop)).flatMap (written text (c :: cs)) := by
      rw [ih hpairs (fun c' hc' => hproper c' (List.mem_cons_of_mem _ hc')) hbefore]
      refine List.flatMap_congr fun p hp => ?_
      rw [written_behind hstart (List.mem_range'_1.1 hp).1]
    have hinside : (List.range' (c.start + 1) (c.stop - c.start - 1)).flatMap
        (written text (c :: cs)) = [] := by
      refine List.flatMap_eq_nil_iff.2 fun p hp => ?_
      have hbounds := List.mem_range'_1.1 hp
      exact written_inside hbefore (by omega) (by omega)
    have hahead : (List.range' cursor (c.start - cursor)).flatMap (written text (c :: cs)) =
        (text.drop cursor).take (c.start - cursor) := by
      rw [← flatMap_range']
      refine List.flatMap_congr fun p hp => written_of_lt fun c' hc' => ?_
      have hbounds := List.mem_range'_1.1 hp
      rcases List.mem_cons.1 hc' with rfl | hc'
      · omega
      · have := hbefore c' hc'
        omega
    rw [hsplit, List.flatMap_append, List.flatMap_append, List.flatMap_cons, hinside, hahead,
      ← hbehind, written_start hstart hbefore, List.append_nil, build]

theorem build_eq_render {cs : List Candidate}
    (hpairs : cs.Pairwise fun c c' => c.stop ≤ c'.start)
    (hproper : ∀ c ∈ cs, c.start < c.stop ∧ c.stop ≤ text.length) :
    (build text 0 cs).1 = render text (build text 0 cs).2 := by
  rw [build_fst hpairs hproper fun c _ => c.start.zero_le, build_snd, render, List.range_eq_range',
    Nat.sub_zero]
  refine List.flatMap_congr fun p _ => ?_
  rw [written, List.filter_map, List.flatMap_map, List.any_map]
  rfl

/-- A match that runs across where a kept one ends is replaced to its end exactly if another
match starts there : where the kept ones end, going from left to right and always to the longest
of those that start first. -/
theorem replaced_iff (rules : List Rule) (text : List Char) : Replaced rules text ↔
    ∀ b, Intervals.Reached (Matches rules text) b →
      ∀ s e, Matches rules text s e → s < b → b < e → ∃ e', Matches rules text b e' := by
  have hproper : ∀ c ∈ sorted (candidates rules text), c.start < c.stop := fun c hc =>
    (proper_sorted c hc).1
  have hsorted : (sorted (candidates rules text)).Pairwise
      (Intervals.Before Candidate.start Candidate.stop) := List.pairwise_insertionSort _ _
  have hmerged : merged rules text ⊆ sorted (candidates rules text) :=
    (Intervals.takeDisjoint_sublist _ _).subset
  rw [← Intervals.covered_iff matches_iff hsorted hproper, Replaced, redactWith_eq]
  have hpairs : (merged rules text).Pairwise fun c c' => c.stop ≤ c'.start :=
    Intervals.pairwise_takeDisjoint hproper
  rw [and_iff_right (build_eq_render hpairs fun c hc => proper_sorted c (hmerged hc)), build_snd]
  refine forall_congr' fun s => forall_congr' fun e => forall_congr' fun _ =>
    forall_congr' fun p => forall_congr' fun _ => forall_congr' fun _ => ?_
  exact ⟨fun ⟨r, hr, hp⟩ => by
    obtain ⟨c, hc, rfl⟩ := List.mem_map.1 hr
    exact ⟨c, hc, hp⟩, fun ⟨c, hc, hp⟩ => ⟨c.redaction, List.mem_map_of_mem hc, hp⟩⟩

/-- An address runs into a password. -/
def leakingText : List Char :=
  "me@x.password=hunter2".toList

/-- The address is replaced, and the rest of the password stays : `[REDACTED:email]=hunter2`. -/
theorem leakingText_not_replaced :
    ¬∀ (rules : List Rule) (text : List Char), Replaced rules text := by
  intro h
  have hspans : (redactWith (activeRules .ascii .light) leakingText).2.map Redaction.span =
      [(0, 13)] := by decide +kernel
  have hsecret : (5, 21) ∈ formSecret.finditer .ascii leakingText := by decide +kernel
  have hrule : Rule.ofPattern .ascii "form_secret" [.light, .strict] formSecret ∈
      activeRules .ascii .light :=
    List.mem_filter.2 ⟨List.mem_of_getElem? (i := 8) rfl, by decide⟩
  obtain ⟨r, hr, -, hlt⟩ := (h (activeRules .ascii .light) leakingText).2 5 21
    ⟨_, hrule, hsecret⟩ 20 (by decide) (by decide)
  have hspan := List.mem_map_of_mem (f := Redaction.span) hr
  rw [hspans, List.mem_singleton] at hspan
  rw [hspan] at hlt
  exact absurd hlt (by decide)

end Privacy

/-- A level is the rules that fire at it. -/
theorem redact_eq (u : Unicode) (level : RedactLevel) (text : List Char) :
    redact u level text = Privacy.redactWith (Privacy.activeRules u level) text := by
  unfold redact
  split_ifs with hoff
  · subst hoff
    rfl
  · rfl

end OxenClaw
