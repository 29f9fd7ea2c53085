import OxenClaw.Lib.Cuts
import OxenClaw.Lib.Dict
import OxenClaw.Lib.Utf8
import OxenClaw.Pi.Messages

/-!
# Wiki pages as markdown

A page is rendered to a frontmatter in YAML, its body and a block of related pages, and parsed
back. The parser gives back the page exactly as it was where the body has no blank edge and no
related block of its own, the names have no bracket at an edge, and no field has a value that
counts as missing (`WikiPage.Stable`, `parseWikiMarkdown_render`).

Fields that the parser takes over from the YAML as they are hold any value, `None` is `null`. The
YAML codec is a parameter, with the built-ins that need the whole of Unicode.
-/

namespace OxenClaw

inductive WikiPageKind where
  | entity
  | concept
  | source
  | synthesis
  | report
  deriving DecidableEq

def WikiPageKind.value : WikiPageKind → String
  | .entity => "entity"
  | .concept => "concept"
  | .source => "source"
  | .synthesis => "synthesis"
  | .report => "report"

def parseWikiPageKind (value : String) : Option WikiPageKind :=
  [WikiPageKind.entity, .concept, .source, .synthesis, .report].find? fun k => k.value = value

/-- A single citation backing a claim. -/
structure WikiEvidence where
  sourceId : Json := .null
  path : Json := .null
  lines : Json := .null
  note : Json := .null
  weight : Json := .null
  updatedAt : Json := .null

/-- A statement the page asserts. -/
structure WikiClaim where
  text : String
  evidence : List WikiEvidence := []
  contested : Bool := false
  confidence : Json := .null
  assertedAt : Json := .null
  lastVerifiedAt : Json := .null
  claimId : Json := .null

/-- A single vault page. -/
structure WikiPage where
  kind : WikiPageKind
  name : String
  slug : String
  body : List Char := []
  aliases : List Json := []
  tags : List Json := []
  related : List (List Char) := []
  claims : List WikiClaim := []
  summary : Json := .null
  provenanceMode : Json := .null
  createdAt : ℚ
  updatedAt : ℚ

/-- The YAML codec, `str(v)` of what is not a `str`, `float(s)`, `str.lower`, and the first digits
of a SHA-1. A load that raises gives nothing. -/
structure WikiCodec where
  dump : Args → List Char
  load : List Char → Option Json
  str : Json → String
  float : String → Option ℚ
  lower : List Char → List Char
  digest : String → List Char

/-- `v is None`. -/
def Json.isNull : Json → Bool
  | .null => true
  | _ => false

/-! ## Slugs -/

/-- What a slug is made of. -/
def isSlugChar (c : Char) : Bool :=
  c.isLower || c.isDigit || c == '-'

/-- `_SLUG_NORMALIZE_RE.sub("-", s)`, behind a character it replaces or not. -/
def normalizeSlug : (replacing : Bool) → List Char → List Char
  | _, [] => []
  | replacing, c :: s =>
    if isSlugChar c then c :: normalizeSlug false s
    else if replacing then normalizeSlug true s
    else '-' :: normalizeSlug true s

/-- `re.sub(r"-{2,}", "-", s)`, behind a dash or not. -/
def collapseDashes : (behindDash : Bool) → List Char → List Char
  | _, [] => []
  | behindDash, c :: s =>
    if c = '-' ∧ behindDash then collapseDashes true s else c :: collapseDashes (c == '-') s

/-- `MAX_SLUG_BYTES`. -/
def maxSlugBytes : ℕ := 240

def slugifyWikiSegment (codec : WikiCodec) (name : String) : String :=
  if Py.strip name.toList = [] then "untitled"
  else
    let s := (codec.lower (Py.strip name.toList)).map fun c => if c = '_' then '-' else c
    let s := collapseDashes false (Py.stripChars ['-'] (normalizeSlug false s))
    if s = [] then "untitled"
    else if (utf8 s).length ≤ maxSlugBytes then String.ofList s
    -- all of it is ASCII, so what is cut off is whole characters
    else String.ofList ((s.take (maxSlugBytes - 9)).rdropWhile (· == '-') ++
      '.' :: codec.digest name)

/-! ## Rendering -/

def relatedStartMarker : List Char := "<!-- oxenclaw:wiki:related:start -->".toList

def relatedEndMarker : List Char := "<!-- oxenclaw:wiki:related:end -->".toList

/-- `_dump_evidence`. -/
def WikiEvidence.dump (e : WikiEvidence) : Json :=
  .obj (([("source_id", e.sourceId), ("path", e.path), ("lines", e.lines),
    ("note", e.note)] : Args).filter (fun f => f.2.truthy) ++
    ([("weight", e.weight), ("updated_at", e.updatedAt)] : Args).filter fun f => !f.2.isNull)

/-- `_dump_claim`. -/
def WikiClaim.dump (c : WikiClaim) : Json :=
  .obj (("text", .str c.text) ::
    (([("evidence", .arr (c.evidence.map WikiEvidence.dump)),
      ("contested", .bool c.contested)] : Args).filter (fun f => f.2.truthy) ++
    ([("confidence", c.confidence), ("asserted_at", c.assertedAt),
      ("last_verified_at", c.lastVerifiedAt), ("claim_id", c.claimId)] : Args).filter fun f =>
        !f.2.isNull))

/-- The `fm` of `render_wiki_markdown`. -/
def WikiPage.frontmatter (page : WikiPage) : Args :=
  [("kind", .str page.kind.value), ("name", .str page.name), ("slug", .str page.slug),
    ("created_at", .float page.createdAt), ("updated_at", .float page.updatedAt)] ++
  ([("aliases", .arr page.aliases), ("tags", .arr page.tags), ("summary", page.summary),
    ("provenance_mode", page.provenanceMode),
    ("claims", .arr (page.claims.map WikiClaim.dump))] : Args).filter fun f => f.2.truthy

/-- A line of the related block. -/
def relatedBullet (r : List Char) : List Char :=
  "- [[".toList ++ r ++ "]]".toList

def relatedBlock (related : List (List Char)) : List Char :=
  if related = [] then []
  else "\n\n".toList ++ relatedStartMarker ++ '\n' :: Py.unlines (related.map relatedBullet) ++
    '\n' :: relatedEndMarker

def renderWikiMarkdown (codec : WikiCodec) (page : WikiPage) : List Char :=
  "---\n".toList ++ codec.dump page.frontmatter ++ "\n---\n\n".toList ++ Py.rstrip page.body ++
    relatedBlock page.related ++ ['\n']

/-! ## Parsing -/

/-- `str(v)`. -/
def WikiCodec.pyStr (codec : WikiCodec) : Json → String
  | .str s => s
  | v => codec.str v

/-- `float(v)`. -/
def WikiCodec.pyFloat (codec : WikiCodec) : Json → Option ℚ
  | .bool b => some b.toNat
  | .int n => some n
  | .float x => some x
  | .str s => codec.float s
  | _ => none

/-- `tuple(v)`. -/
def pyTuple : Json → Option (List Json)
  | .str s => some (s.toList.map fun c => .str (String.singleton c))
  | .arr xs => some xs
  | .obj d => some (d.map fun f => .str f.1)
  | _ => none

/-- `d.get(key)`, with `None` for a key that is missing. -/
def Args.getOrNone (d : Args) (key : String) : Json :=
  (d.get key).getD .null

/-- `d.get(key) or default`. -/
def Args.getOr (d : Args) (key : String) (default : Json) : Json :=
  if (d.getOrNone key).truthy then d.getOrNone key else default

/-- The objects of a list of YAML values. -/
def readObjects {α : Type} (read : Args → α) : Json → List α
  | .arr xs => xs.filterMap fun x =>
    match x with
    | .obj d => some (read d)
    | _ => none
  | _ => []

def readEvidence (d : Args) : WikiEvidence where
  sourceId := d.getOrNone "source_id"
  path := d.getOrNone "path"
  lines := d.getOrNone "lines"
  note := d.getOrNone "note"
  weight := d.getOrNone "weight"
  updatedAt := d.getOrNone "updated_at"

def readClaim (codec : WikiCodec) (d : Args) : WikiClaim where
  text := codec.pyStr (d.getOr "text" (.str ""))
  evidence := readObjects readEvidence (d.getOr "evidence" (.arr []))
  contested := ((d.get "contested").getD (.bool false)).truthy
  confidence := d.getOrNone "confidence"
  assertedAt := d.getOrNone "asserted_at"
  lastVerifiedAt := d.getOrNone "last_verified_at"
  claimId := d.getOr "claim_id" .null

/-- What the frontmatter says of a page. -/
def readFrontmatter (codec : WikiCodec) (now : ℚ) (fm : Args) (body : List Char)
    (related : List (List Char)) : Option WikiPage := do
  let kind ← parseWikiPageKind (codec.pyStr ((fm.get "kind").getD (.str "concept")))
  let name := codec.pyStr (fm.getOr "name" (.str "Untitled"))
  let aliases ← pyTuple (fm.getOr "aliases" (.arr []))
  let tags ← pyTuple (fm.getOr "tags" (.arr []))
  let createdAt ← codec.pyFloat (fm.getOr "created_at" (.float now))
  let updatedAt ← codec.pyFloat (fm.getOr "updated_at" (.float createdAt))
  return {
    kind, name, body, aliases, tags, related, createdAt, updatedAt
    slug := codec.pyStr (fm.getOr "slug" (.str (slugifyWikiSegment codec name)))
    claims := readObjects (readClaim codec) (fm.getOr "claims" (.arr []))
    summary := fm.getOr "summary" .null
    provenanceMode := fm.getOr "provenance_mode" .null }

/-- What `_FRONTMATTER_RE` matches at the start, and what is behind it. -/
def splitFrontmatter (content : List Char) : Option (List Char × List Char) :=
  if "---\n".toList.isPrefixOf content then
    (Py.partition "\n---".toList (content.drop 4)).map fun cut =>
      (cut.1, if cut.2.head? = some '\n' then cut.2.tail else cut.2)
  else none

/-- The related pages that a line of the block names. -/
def readBullet (line : List Char) : Option (List Char) :=
  if "- ".toList.isPrefixOf (Py.strip line) then
    some (Py.stripChars ['[', ']'] (Py.strip ((Py.strip line).dropWhile (· == '-'))))
  else none

/-- The body with its related block, cut at the first block. -/
def splitRelated (text : List Char) : List Char × List (List Char) :=
  match Py.partition (relatedStartMarker ++ ['\n']) text with
  | none => (text, [])
  | some (before, after) =>
    match Py.partition ('\n' :: relatedEndMarker) after with
    | none => (text, [])
    | some (bullets, _) =>
      (Py.rstrip before ++ ['\n'], (Py.splitlines (Py.strip bullets)).filterMap readBullet)

/-- `_load_yaml`. -/
def WikiCodec.loadFields (codec : WikiCodec) (text : List Char) : Option Args :=
  (codec.load text).map fun v =>
    match v with
    | .obj d => d
    | _ => []

/-- The page, or nothing where it raises. The clock stands at `now`. -/
def parseWikiMarkdown (codec : WikiCodec) (now : ℚ) (content : List Char) : Option WikiPage := do
  let (fmText, rest) ← splitFrontmatter content
  let (body, related) := splitRelated (rest.dropWhile (· == '\n'))
  let fm ← codec.loadFields fmText
  readFrontmatter codec now fm (Py.stripChars ['\n'] body) related

/-! ## What is read -/

/-- `v or None`. -/
def Json.orNull (v : Json) : Json :=
  if v.truthy then v else .null

/-- The evidence as it is read back. -/
def WikiEvidence.reread (e : WikiEvidence) : WikiEvidence :=
  { e with
    sourceId := e.sourceId.orNull
    path := e.path.orNull
    lines := e.lines.orNull
    note := e.note.orNull }

/-- The claim as it is read back. -/
def WikiClaim.reread (c : WikiClaim) : WikiClaim :=
  { c with evidence := c.evidence.map WikiEvidence.reread, claimId := c.claimId.orNull }

/-- The page as it is read back, with its body and its related pages. -/
def WikiPage.reread (codec : WikiCodec) (page : WikiPage) (body : List Char)
    (related : List (List Char)) : WikiPage :=
  { page with
    body, related
    slug := if page.slug = "" then slugifyWikiSegment codec page.name else page.slug
    claims := page.claims.map WikiClaim.reread
    summary := page.summary.orNull
    provenanceMode := page.provenanceMode.orNull }

/-! ## What is read as it was -/

/-- Not a value that counts as missing, but `None`. -/
def Json.Kept (v : Json) : Prop :=
  v = .null ∨ v.truthy = true

structure WikiEvidence.Stable (e : WikiEvidence) : Prop where
  sourceId : e.sourceId.Kept
  path : e.path.Kept
  lines : e.lines.Kept
  note : e.note.Kept

structure WikiClaim.Stable (c : WikiClaim) : Prop where
  evidence : ∀ e ∈ c.evidence, e.Stable
  claimId : c.claimId.Kept

/-- A page that its own file gives back. -/
structure WikiPage.Stable (page : WikiPage) : Prop where
  name : page.name ≠ ""
  slug : page.slug ≠ ""
  createdAt : page.createdAt ≠ 0
  updatedAt : page.updatedAt ≠ 0
  summary : page.summary.Kept
  provenanceMode : page.provenanceMode.Kept
  claims : ∀ c ∈ page.claims, c.Stable
  /-- The body has no blank end, no line break at its start, and no carriage return. -/
  bodyEnd : Py.rstrip page.body = page.body
  bodyStart : page.body.head? ≠ some '\n'
  bodyReturn : '\r' ∉ page.body
  /-- The related pages are on a line each, with no bracket at an end. -/
  related : ∀ r ∈ page.related, (∀ c ∈ r, Py.isLineBreak c = false) ∧
    (∀ c ∈ r.head?, c ∉ ['[', ']']) ∧ ∀ c ∈ r.getLast?, c ∉ ['[', ']']
  /-- Without related pages the body has no such block. -/
  noBlock : page.related = [] → ∀ a b c, page.body ++ ['\n'] ≠
    a ++ (relatedStartMarker ++ ['\n']) ++ (b ++ '\n' :: relatedEndMarker ++ c)
  /-- With related pages it does not start one. -/
  noMarker : page.related ≠ [] → ¬relatedStartMarker ++ ['\n'] <:+: page.body ++ ['\n']

/-- The codec reads what it has dumped, which does not end the frontmatter. -/
structure WikiCodec.Reads (codec : WikiCodec) (fm : Args) : Prop where
  load : codec.load (codec.dump fm) = some (.obj fm)
  ends : ¬"\n---".toList <:+: codec.dump fm
  returns : '\r' ∉ codec.dump fm

/-! ## The fields -/

section Fields

variable {d : Args} {key k : String} {v : Json} {q : String × Json → Bool}

theorem Args.get_cons : Args.get ((k, v) :: d) key = if k = key then some v else d.get key := by
  rw [Args.get, List.find?_cons]
  by_cases h : k = key <;> simp [h, Args.get]

theorem Args.get_append (d d' : Args) (key : String) :
    Args.get (d ++ d') key = (d.get key).or (d'.get key) := by
  rw [Args.get, List.find?_append]
  cases h : d.find? fun e => e.1 = key <;> simp [Args.get, h]

theorem Args.get_filter_cons : Args.get (((k, v) :: d).filter q) key =
    if k = key ∧ q (k, v) = true then some v else Args.get (d.filter q) key := by
  rw [List.filter_cons]
  by_cases hq : q (k, v) = true
  · rw [if_pos hq, Args.get_cons]
    simp [hq]
  · rw [if_neg hq]
    simp [hq]

theorem Args.get_nil : Args.get ([] : Args) key = none :=
  rfl

/-- What is dumped only if it counts. -/
theorem getD_of_truthy (v : Json) :
    (if v.truthy = true then some v else none).getD .null = v.orNull := by
  rw [Json.orNull]
  split_ifs <;> rfl

/-- What is dumped unless it is `None`. -/
theorem getD_of_isNull (v : Json) : (if v.isNull = false then some v else none).getD .null = v := by
  cases v <;> rfl

end Fields

theorem readEvidence_dump (e : WikiEvidence) :
    ∃ d, e.dump = .obj d ∧ readEvidence d = e.reread := by
  refine ⟨_, rfl, ?_⟩
  simp [readEvidence, WikiEvidence.reread, Args.getOrNone, Args.get_append, Args.get_filter_cons,
    Args.get_nil, getD_of_truthy, getD_of_isNull]

theorem readObjects_map {α : Type} {read : Args → α} {dump : α → Json} {g : α → α}
    (h : ∀ x, ∃ d, dump x = .obj d ∧ read d = g x) (xs : List α) :
    readObjects read (.arr (xs.map dump)) = xs.map g := by
  induction xs with
  | nil => rfl
  | cons x xs ih =>
    obtain ⟨d, hd, hread⟩ := h x
    rw [readObjects] at ih ⊢
    rw [List.map_cons, hd, List.filterMap_cons]
    simp only [hread, ih, List.map_cons]

/-- What is dumped if it counts, and read with a default. -/
theorem getOr_of_truthy (v default : Json) :
    (if ((if v.truthy = true then some v else none).getD .null).truthy = true then
      (if v.truthy = true then some v else none).getD .null else default) =
        if v.truthy = true then v else default := by
  have hnull : Json.null.truthy = false := rfl
  by_cases h : v.truthy = true
  · simp [h]
  · simp [h, hnull]

theorem arr_or_nil (xs : List Json) :
    (if (Json.arr xs).truthy = true then Json.arr xs else .arr []) = .arr xs := by
  cases xs <;> rfl

theorem bool_or_false (b : Bool) : ((if (Json.bool b).truthy = true then some (Json.bool b)
    else none).getD (.bool false)).truthy = b := by
  cases b <;> rfl

theorem Json.Kept.orNull {v : Json} (h : v.Kept) : v.orNull = v := by
  rcases h with rfl | h
  · rfl
  · rw [Json.orNull, if_pos h]

theorem WikiEvidence.Stable.reread {e : WikiEvidence} (h : e.Stable) : e.reread = e := by
  rw [WikiEvidence.reread, h.sourceId.orNull, h.path.orNull, h.lines.orNull, h.note.orNull]

theorem WikiClaim.Stable.reread {c : WikiClaim} (h : c.Stable) : c.reread = c := by
  have hevidence : c.evidence.map WikiEvidence.reread = c.evidence :=
    (List.map_congr_left fun e he => (h.evidence e he).reread).trans (List.map_id _)
  rw [WikiClaim.reread, hevidence, h.claimId.orNull]

theorem readClaim_dump (codec : WikiCodec) (c : WikiClaim) :
    ∃ d, c.dump = .obj d ∧ readClaim codec d = c.reread := by
  refine ⟨_, rfl, ?_⟩
  have hevidence := readObjects_map readEvidence_dump c.evidence
  have htext : codec.pyStr (if (Json.str c.text).truthy = true then .str c.text else .str "") =
      c.text := by
    by_cases hempty : c.text = ""
    · simp [Json.truthy, hempty, WikiCodec.pyStr]
    · simp [Json.truthy, hempty, WikiCodec.pyStr]
  simp only [readClaim, Args.getOr, Args.getOrNone]
  simp [Args.get_cons, Args.get_append, Args.get_filter_cons, Args.get_nil, getD_of_isNull,
    getOr_of_truthy, arr_or_nil, bool_or_false, hevidence, htext, WikiClaim.reread, Json.orNull]

theorem parseWikiPageKind_value (k : WikiPageKind) : parseWikiPageKind k.value = some k := by
  cases k <;> decide

theorem str_truthy {s : String} (h : s ≠ "") : (Json.str s).truthy = true := by
  simpa [Json.truthy] using h

theorem float_truthy {x : ℚ} (h : x ≠ 0) : (Json.float x).truthy = true := by
  simpa [Json.truthy] using h

/-- What the frontmatter says of its page. -/
theorem readFrontmatter_frontmatter (codec : WikiCodec) (now : ℚ) {page : WikiPage}
    (hname : page.name ≠ "") (hcreated : page.createdAt ≠ 0) (hupdated : page.updatedAt ≠ 0)
    (body : List Char) (related : List (List Char)) :
    readFrontmatter codec now page.frontmatter body related =
      some (page.reread codec body related) := by
  have hclaims := readObjects_map (readClaim_dump codec) page.claims
  have hslug (default : String) : codec.pyStr (if (Json.str page.slug).truthy = true then
      .str page.slug else .str default) = if page.slug = "" then default else page.slug := by
    by_cases hempty : page.slug = ""
    · simp [Json.truthy, hempty, WikiCodec.pyStr]
    · simp [Json.truthy, hempty, WikiCodec.pyStr]
  simp only [readFrontmatter, WikiPage.frontmatter, Args.getOr, Args.getOrNone]
  simp [Args.get_cons, Args.get_filter_cons, Args.get_nil, getOr_of_truthy, arr_or_nil, hclaims,
    str_truthy hname, float_truthy hcreated, float_truthy hupdated, WikiCodec.pyStr,
    WikiCodec.pyFloat, pyTuple, parseWikiPageKind_value, WikiPage.reread, Json.orNull]
  exact hslug _

theorem WikiPage.Stable.reread {codec : WikiCodec} {page : WikiPage} (h : page.Stable) :
    page.reread codec page.body page.related = page := by
  have hclaims : page.claims.map WikiClaim.reread = page.claims :=
    (List.map_congr_left fun c hc => (h.claims c hc).reread).trans (List.map_id _)
  rw [WikiPage.reread, if_neg h.slug, hclaims, h.summary.orNull, h.provenanceMode.orNull]

/-! ## The text -/

theorem splitFrontmatter_append {y : List Char} (h : ¬"\n---".toList <:+: y) (rest : List Char) :
    splitFrontmatter ("---\n".toList ++ (y ++ "\n---".toList ++ '\n' :: rest)) =
      some (y, rest) := by
  have hfirst := Py.first_of_head (c := '\n') (t := "---".toList) (by decide) h ('\n' :: rest)
  have hcut : Py.partition "\n---".toList (y ++ "\n---".toList ++ '\n' :: rest) =
      some (y, '\n' :: rest) := Py.partition_append (by decide) hfirst
  have hbegins : "---\n".toList.isPrefixOf
      ("---\n".toList ++ (y ++ "\n---".toList ++ '\n' :: rest)) = true := by
    rw [List.isPrefixOf_iff_prefix]
    exact List.prefix_append _ _
  have hbehind : ("---\n".toList ++ (y ++ "\n---".toList ++ '\n' :: rest)).drop 4 =
      y ++ "\n---".toList ++ '\n' :: rest := rfl
  rw [splitFrontmatter, if_pos hbegins, hbehind, hcut]
  rfl

theorem relatedBullet_eq (r : List Char) :
    relatedBullet r = ('-' :: ' ' :: '[' :: '[' :: r ++ [']']) ++ [']'] := by
  unfold relatedBullet
  simp

theorem relatedBlock_eq {related : List (List Char)} (h : related ≠ []) :
    relatedBlock related = '\n' :: '\n' :: (relatedStartMarker ++ ['\n'] ++
      (Py.unlines (related.map relatedBullet) ++ '\n' :: relatedEndMarker)) := by
  rw [relatedBlock, if_neg h]
  simp only [List.append_assoc, List.cons_append, List.nil_append]
  rfl

/-- A line of the block names its page, without brackets at its ends. -/
theorem readBullet_relatedBullet (r : List Char) :
    readBullet (relatedBullet r) = some (Py.stripChars ['[', ']'] r) := by
  have hline : Py.strip (relatedBullet r) = relatedBullet r := by
    rw [relatedBullet_eq]
    refine Py.strip_of_ends (by simp; decide) fun c hc => ?_
    rw [List.getLast?_concat] at hc
    cases hc
    decide
  have hbegins : "- ".toList.isPrefixOf (relatedBullet r) = true := rfl
  have hdash : (relatedBullet r).dropWhile (· == '-') =
      [' '] ++ ("[[".toList ++ r ++ "]]".toList) := rfl
  have hname : Py.strip ([' '] ++ ("[[".toList ++ r ++ "]]".toList)) =
      "[[".toList ++ r ++ "]]".toList := by
    rw [Py.strip_append_left (Py.forall_of_all (by decide))]
    have hends : "[[".toList ++ r ++ "]]".toList = ('[' :: '[' :: r ++ [']']) ++ [']'] := by simp
    rw [hends]
    refine Py.strip_of_ends (by simp; decide) fun c hc => ?_
    rw [List.getLast?_concat] at hc
    cases hc
    decide
  have hbare : Py.stripChars ['[', ']'] ("[[".toList ++ r ++ "]]".toList) =
      Py.stripChars ['[', ']'] r :=
    Py.stripChars_append_append (Py.forall_of_all (by decide)) (Py.forall_of_all (by decide)) r
  rw [readBullet, hline, if_pos hbegins, hdash, hname, hbare]

section Related

variable {related : List (List Char)} {text before bullets : List Char}

theorem isLineBreak_relatedBullet {r : List Char} (h : ∀ c ∈ r, Py.isLineBreak c = false) :
    ∀ c ∈ relatedBullet r, Py.isLineBreak c = false := by
  intro c hc
  unfold relatedBullet at hc
  rw [List.mem_append, List.mem_append] at hc
  rcases hc with (hc | hc) | hc
  · exact Py.forall_of_all (p := (Py.isLineBreak · = false)) (by decide) c hc
  · exact h c hc
  · exact Py.forall_of_all (p := (Py.isLineBreak · = false)) (by decide) c hc

theorem mem_map_relatedBullet {line : List Char} (h : line ∈ related.map relatedBullet) :
    line.head? = some '-' ∧ line.getLast? = some ']' := by
  obtain ⟨r, -, rfl⟩ := List.mem_map.1 h
  exact ⟨rfl, by rw [relatedBullet_eq, List.getLast?_concat]⟩

/-- The lines of a block name the pages, without brackets at their ends. -/
theorem readBullets (h : ∀ r ∈ related, ∀ c ∈ r, Py.isLineBreak c = false) :
    (Py.splitlines (Py.strip (Py.unlines (related.map relatedBullet)))).filterMap readBullet =
      related.map (Py.stripChars ['[', ']']) := by
  have hlines : ∀ line ∈ related.map relatedBullet,
      line ≠ [] ∧ ∀ c ∈ line, Py.isLineBreak c = false := by
    intro line hline
    obtain ⟨r, hr, rfl⟩ := List.mem_map.1 hline
    exact ⟨by simp [relatedBullet_eq], isLineBreak_relatedBullet (h r hr)⟩
  have hstrip : Py.strip (Py.unlines (related.map relatedBullet)) =
      Py.unlines (related.map relatedBullet) := by
    rcases related with _ | ⟨r, related⟩
    · rfl
    · refine Py.strip_of_ends (fun c hc => ?_) fun c hc => ?_
      · have hhead : (Py.unlines ((r :: related).map relatedBullet)).head? = some '-' := by
          rcases related with _ | ⟨r', related⟩ <;> rfl
        rw [hhead] at hc
        cases hc
        decide
      · have hne : (r :: related).map relatedBullet ≠ [] := by simp
        rw [Py.getLast?_unlines hne fun line hline => (hlines line hline).1,
          (mem_map_relatedBullet (List.getLast_mem hne)).2] at hc
        cases hc
        decide
  rw [hstrip, Py.splitlines_unlines hlines, List.filterMap_map]
  have hread : ∀ r ∈ related,
      (readBullet ∘ relatedBullet) r = some (Py.stripChars ['[', ']'] r) :=
    fun r _ => readBullet_relatedBullet r
  rw [List.filterMap_congr hread, List.filterMap_eq_map']

theorem splitRelated_of_absent (h : ∀ a b c, text ≠
    a ++ (relatedStartMarker ++ ['\n']) ++ (b ++ '\n' :: relatedEndMarker ++ c)) :
    splitRelated text = (text, []) := by
  rw [splitRelated]
  rcases hstart : Py.partition (relatedStartMarker ++ ['\n']) text with _ | ⟨a, after⟩
  · rfl
  · rcases hend : Py.partition ('\n' :: relatedEndMarker) after with _ | ⟨b, c⟩
    · simp only [hend]
    · refine absurd ?_ (h a b c)
      rw [Py.partition_eq_some hstart, Py.partition_eq_some hend]

theorem splitRelated_append (hbefore : ¬relatedStartMarker ++ ['\n'] <:+: before)
    (hbullets : ¬ '\n' :: relatedEndMarker <:+: bullets) (after : List Char) :
    splitRelated (before ++ (relatedStartMarker ++ ['\n']) ++
      (bullets ++ '\n' :: relatedEndMarker ++ after)) =
        (Py.rstrip before ++ ['\n'], (Py.splitlines (Py.strip bullets)).filterMap readBullet) := by
  have hfirst : Holes.First (relatedStartMarker ++ ['\n']) before
      (bullets ++ '\n' :: relatedEndMarker ++ after) :=
    Py.first_of_head (c := '<') (by decide) hbefore _
  have hend : Py.partition ('\n' :: relatedEndMarker)
      (bullets ++ '\n' :: relatedEndMarker ++ after) = some (bullets, after) :=
    Py.partition_append (by decide) (Py.first_of_head (by decide) hbullets after)
  rw [splitRelated, Py.partition_append (by decide) hfirst]
  simp only [hend]

/-- A line of the block starts with a dash, so no line of it ends the block. -/
theorem relatedEnd_not_within (h : ∀ r ∈ related, ∀ c ∈ r, Py.isLineBreak c = false) :
    ¬ '\n' :: relatedEndMarker <:+: Py.unlines (related.map relatedBullet) := by
  intro hinfix
  have hlines : ∀ line ∈ related.map relatedBullet, '\n' ∉ line := by
    intro line hline hmem
    obtain ⟨r, hr, rfl⟩ := List.mem_map.1 hline
    exact absurd (isLineBreak_relatedBullet (h r hr) _ hmem) (by decide)
  obtain ⟨line, hline, hhead⟩ := Py.exists_line_of_infix (c := '<') (by decide) hlines hinfix
  rw [(mem_map_relatedBullet hline).1] at hhead
  exact absurd hhead (by decide)

end Related

/-- A body that is followed by line breaks, without them. -/
theorem stripChars_append_newline {body : List Char} (hend : Py.rstrip body = body)
    (hstart : body.head? ≠ some '\n') : Py.stripChars ['\n'] (body ++ ['\n']) = body := by
  have hlast := Py.getLast?_rstrip_ne (c := '\n') (by decide) body
  rw [hend] at hlast
  refine Py.trim_append (a := []) (by simp) (by simp) (fun c hc => ?_) fun c hc => ?_
  · have hne : c ≠ '\n' := fun he => hstart (he ▸ hc)
    simpa using hne
  · have hne : c ≠ '\n' := fun he => hlast (he ▸ hc)
    simpa using hne

/-- The marker is not put together by the line breaks behind the body. -/
theorem relatedStart_not_within {body : List Char}
    (h : ¬relatedStartMarker ++ ['\n'] <:+: body ++ ['\n']) :
    ¬relatedStartMarker ++ ['\n'] <:+: body ++ ['\n'] ++ ['\n'] := by
  intro hinfix
  rcases List.infix_concat_iff.1 hinfix with hsuffix | hinfix
  · obtain ⟨a, ha⟩ := hsuffix
    rw [← List.append_assoc, List.append_left_inj] at ha
    have hlast := congrArg List.getLast? ha
    have hmarker : relatedStartMarker.getLast? = some '>' := by decide
    rw [List.getLast?_concat, List.getLast?_append, hmarker] at hlast
    exact absurd hlast (by simp)
  · exact h hinfix

/-- The line break before a body is dropped, and none of the body. -/
theorem dropWhile_newline_append {body : List Char} (hstart : body.head? ≠ some '\n')
    (hne : body ≠ []) (s : List Char) :
    ('\n' :: (body ++ s)).dropWhile (· == '\n') = body ++ s := by
  obtain ⟨c, tail, hbody⟩ := List.exists_cons_of_ne_nil hne
  have hc : c ≠ '\n' := fun he => hstart (by rw [hbody, he]; rfl)
  rw [hbody, List.dropWhile_cons_of_pos (by simp), List.cons_append,
    List.dropWhile_cons_of_neg (by simpa using hc)]

/-- What is behind the frontmatter is the body and its related pages. -/
theorem splitRelated_page {body : List Char} {related : List (List Char)}
    (hend : Py.rstrip body = body) (hstart : body.head? ≠ some '\n')
    (hlines : ∀ r ∈ related, (∀ c ∈ r, Py.isLineBreak c = false) ∧
      (∀ c ∈ r.head?, c ∉ ['[', ']']) ∧ ∀ c ∈ r.getLast?, c ∉ ['[', ']'])
    (hnoBlock : related = [] → ∀ a b c, body ++ ['\n'] ≠
      a ++ (relatedStartMarker ++ ['\n']) ++ (b ++ '\n' :: relatedEndMarker ++ c))
    (hnoMarker : related ≠ [] → ¬relatedStartMarker ++ ['\n'] <:+: body ++ ['\n']) :
    ∃ text, splitRelated (('\n' :: (body ++ relatedBlock related ++ ['\n'])).dropWhile
      (· == '\n')) = (text, related) ∧ Py.stripChars ['\n'] text = body := by
  have hstrip := stripChars_append_newline hend hstart
  by_cases hrelated : related = []
  · rw [hrelated, relatedBlock, if_pos rfl, List.append_nil]
    by_cases hbody : body = []
    · exact ⟨[], by rw [hbody]; rfl, by rw [hbody]; rfl⟩
    · rw [dropWhile_newline_append hstart hbody, splitRelated_of_absent (hnoBlock hrelated)]
      exact ⟨_, rfl, hstrip⟩
  · obtain ⟨bullets, hbullets⟩ :
        ∃ bullets, bullets = Py.unlines (related.map relatedBullet) := ⟨_, rfl⟩
    have hnone := relatedEnd_not_within fun r hr => (hlines r hr).1
    have hread := readBullets fun r hr => (hlines r hr).1
    have hnames : related.map (Py.stripChars ['[', ']']) = related :=
      (List.map_congr_left fun r hr => Py.stripChars_eq_self_iff.2 (hlines r hr).2).trans
        (List.map_id _)
    rw [hnames] at hread
    rw [← hbullets] at hnone hread
    have hblock := relatedBlock_eq hrelated
    rw [← hbullets] at hblock
    have hcut (before : List Char) (hbefore : ¬relatedStartMarker ++ ['\n'] <:+: before)
        (hbody : Py.rstrip before = body) : splitRelated (before ++
          (relatedStartMarker ++ ['\n']) ++ (bullets ++ '\n' :: relatedEndMarker ++ ['\n'])) =
            (body ++ ['\n'], related) := by
      rw [splitRelated_append hbefore hnone, hread, hbody]
    refine ⟨body ++ ['\n'], ?_, hstrip⟩
    by_cases hbody : body = []
    · rw [← hcut [] (by decide) (by rw [hbody]; rfl), hblock, hbody]
      rfl
    · have hbefore := relatedStart_not_within (hnoMarker hrelated)
      have hblank : Py.rstrip (body ++ ['\n'] ++ ['\n']) = body := by
        rw [List.append_assoc, Py.rstrip_append_right _ (Py.forall_of_all (by decide)), hend]
      rw [← hcut _ hbefore hblank, List.append_assoc body,
        dropWhile_newline_append hstart hbody, hblock]
      simp only [List.append_assoc, List.cons_append, List.nil_append]

/-- What is read from the text of a page. -/
theorem parseWikiMarkdown_eq {codec : WikiCodec} {page : WikiPage}
    (hload : codec.load (codec.dump page.frontmatter) = some (.obj page.frontmatter))
    (hends : ¬"\n---".toList <:+: codec.dump page.frontmatter) (hname : page.name ≠ "")
    (hcreated : page.createdAt ≠ 0) (hupdated : page.updatedAt ≠ 0) (now : ℚ)
    {text : List Char} {related : List (List Char)}
    (hcut : splitRelated (('\n' :: (Py.rstrip page.body ++ relatedBlock page.related ++
      ['\n'])).dropWhile (· == '\n')) = (text, related)) :
    parseWikiMarkdown codec now (renderWikiMarkdown codec page) =
      some (page.reread codec (Py.stripChars ['\n'] text) related) := by
  have htext : renderWikiMarkdown codec page = "---\n".toList ++ (codec.dump page.frontmatter ++
      "\n---".toList ++ '\n' :: '\n' :: (Py.rstrip page.body ++ relatedBlock page.related ++
        ['\n'])) := by
    unfold renderWikiMarkdown
    simp
  have hfields : codec.loadFields (codec.dump page.frontmatter) = some page.frontmatter := by
    rw [WikiCodec.loadFields, hload]
    rfl
  rw [parseWikiMarkdown, htext, splitFrontmatter_append hends]
  simp only [Option.bind_eq_bind, Option.bind_some, hcut, hfields]
  exact readFrontmatter_frontmatter codec now hname hcreated hupdated _ _

/-- A page is read from its own text as it was. -/
theorem parseWikiMarkdown_render {codec : WikiCodec} {page : WikiPage} (h : page.Stable)
    (hcodec : codec.Reads page.frontmatter) (now : ℚ) :
    parseWikiMarkdown codec now (renderWikiMarkdown codec page) = some page := by
  obtain ⟨text, hcut, hbody⟩ := splitRelated_page h.bodyEnd h.bodyStart h.related h.noBlock
    h.noMarker
  rw [← h.bodyEnd] at hcut
  rw [parseWikiMarkdown_eq hcodec.load hcodec.ends h.name h.createdAt h.updatedAt now hcut, hbody,
    h.reread]

/-- The text of a page is read from its file as it was written. -/
theorem universalNewlines_render {codec : WikiCodec} {page : WikiPage} (h : page.Stable)
    (hcodec : codec.Reads page.frontmatter) :
    Py.universalNewlines (renderWikiMarkdown codec page) = renderWikiMarkdown codec page := by
  have hbullets : ∀ line ∈ page.related.map relatedBullet, '\r' ∉ line := by
    intro line hline hmem
    obtain ⟨r, hr, rfl⟩ := List.mem_map.1 hline
    exact absurd (isLineBreak_relatedBullet (h.related r hr).1 _ hmem) (by decide)
  have hblock : '\r' ∉ relatedBlock page.related := by
    rw [relatedBlock]
    split_ifs
    · exact List.not_mem_nil
    · have hlines : '\r' ∉ '\n' :: Py.unlines (page.related.map relatedBullet) := by
        rw [List.mem_cons, not_or]
        exact ⟨by decide, Py.not_mem_unlines (by decide) hbullets⟩
      have hstart : '\r' ∉ "\n\n".toList ++ relatedStartMarker := by decide
      have hend : '\r' ∉ '\n' :: relatedEndMarker := by decide
      rw [List.mem_append, List.mem_append, not_or, not_or]
      exact ⟨⟨hstart, hlines⟩, hend⟩
  have hopen : '\r' ∉ "---\n".toList := by decide
  have hclose : '\r' ∉ "\n---\n\n".toList := by decide
  refine Py.universalNewlines_eq_self ?_
  unfold renderWikiMarkdown
  rw [h.bodyEnd]
  simp only [List.mem_append, not_or]
  exact ⟨⟨⟨⟨⟨hopen, hcodec.returns⟩, hclose⟩, h.bodyReturn⟩, hblock⟩, by decide⟩

end OxenClaw
