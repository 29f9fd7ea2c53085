import OxenClaw.Lib.Runs
import OxenClaw.Wiki.Markdown

/-!
# Pages that are put into a vault

`upsert_simple` writes a page under the slug of its name, merged with the page that is there. Two
names can have one slug, and the page of the one is then replaced by that of the other. Along a run
in which no two names of a kind do, and every page that is found can be parsed, the file of each
kind and name has the body of the last call with them (`stored_of_lastCall`).
-/

namespace OxenClaw

/-- The files `<kind>/<slug>.md` of a vault, nothing for one that is no UTF-8. -/
abbrev WikiVault := Dict (WikiPageKind × String) (Option (List Char))

/-- What the keys of a `dict` are told apart by. -/
inductive HashKey where
  | none
  | num (x : ℚ)
  | str (s : String)
  deriving DecidableEq

/-- Nothing where `hash(v)` raises. -/
def Json.hashKey : Json → Option HashKey
  | .null => some .none
  | .bool b => some (.num b.toNat)
  | .int n => some (.num n)
  | .float x => some (.num x)
  | .str s => some (.str s)
  | .arr _ => none
  | .obj _ => none

/-- The keys of a `dict` that is made of items one after the other. -/
def firstOfEach {κ α : Type} [DecidableEq κ] (entries : List (κ × α)) : List α :=
  (entries.foldl (fun (d : Dict κ α) e => if (d.get? e.1).isSome then d else d.set e.1 e.2) []).map
    Prod.snd

/-- `tuple(dict.fromkeys(values))`, nothing where it raises. -/
def fromkeys (values : List Json) : Option (List Json) :=
  (values.mapM fun v : Json => v.hashKey.map (·, v)).map firstOfEach

/-- `_merge_claims`. -/
def mergeClaims (existing incoming : List WikiClaim) : List WikiClaim :=
  (Dict.ofList ((existing ++ incoming).map fun c => (c.text, c))).map Prod.snd

namespace WikiVault

variable (codec : WikiCodec) (vault : WikiVault)

/-- `read_page`, nothing where it raises. -/
def readPage (kind : WikiPageKind) (slug : String) (now : ℚ) : Option (Option WikiPage) :=
  match vault.get? (kind, slug) with
  | none => some none
  | some none => none
  | some (some text) => (parseWikiMarkdown codec now (Py.universalNewlines text)).map some

/-- `write_page`. -/
def writePage (page : WikiPage) : WikiVault :=
  vault.set (page.kind, page.slug) (some (renderWikiMarkdown codec page))

/-- The page with what it is merged with, nothing where it raises. -/
def merged (page : WikiPage) (existing : Option WikiPage) (now : ℚ) : Option WikiPage :=
  match existing with
  | none => some { page with createdAt := now, updatedAt := now }
  | some old => do
    let aliases ← fromkeys (old.aliases ++ page.aliases)
    let tags ← fromkeys (old.tags ++ page.tags)
    return { page with
      createdAt := old.createdAt
      updatedAt := now
      claims := mergeClaims old.claims page.claims
      related := firstOfEach ((old.related ++ page.related).map fun r => (r, r))
      aliases, tags }

/-- `upsert_wiki_page`, nothing where it raises. -/
def upsertWikiPage (page : WikiPage) (now : ℚ) : Option (WikiVault × WikiPage) := do
  let slug := if page.slug = "" then slugifyWikiSegment codec page.name else page.slug
  let page := { page with slug }
  let existing ← vault.readPage codec page.kind slug now
  let page ← merged page existing now
  return (vault.writePage codec page, page)

end WikiVault

/-- A call of `upsert_simple`, at the time `now`. -/
structure UpsertCall where
  kind : WikiPageKind
  name : String
  body : List Char := []
  summary : Option String := none
  tags : List String := []
  now : ℚ

/-- The page that a call puts into the vault. -/
def UpsertCall.page (codec : WikiCodec) (c : UpsertCall) : WikiPage where
  kind := c.kind
  name := c.name
  slug := slugifyWikiSegment codec c.name
  body := c.body
  summary := (c.summary.map Json.str).getD .null
  tags := c.tags.map .str
  createdAt := c.now
  updatedAt := c.now

/-- `upsert_simple`. -/
def WikiVault.upsertSimple (codec : WikiCodec) (vault : WikiVault) (c : UpsertCall) :
    Option (WikiVault × WikiPage) :=
  vault.upsertWikiPage codec (c.page codec) c.now

/-! ## Runs -/

/-- The vault, and the calls that were made. -/
structure UpsertRun where
  vault : WikiVault
  calls : List UpsertCall := []

namespace UpsertRun

variable (codec : WikiCodec)

/-- A call that raises changes nothing. -/
def step (run : UpsertRun) (c : UpsertCall) : UpsertRun where
  vault := ((run.vault.upsertSimple codec c).map Prod.fst).getD run.vault
  calls := run.calls ++ [c]

/-- The last call with a kind and a name. -/
def lastCall (run : UpsertRun) (kind : WikiPageKind) (name : String) : Option UpsertCall :=
  run.calls.reverse.find? fun c => c.kind = kind ∧ c.name = name

/-- The file of a kind and a name has a page of them with the body. -/
def Stored (run : UpsertRun) (kind : WikiPageKind) (name : String) (body : List Char) : Prop :=
  ∃ page : WikiPage, page.kind = kind ∧ page.name = name ∧ page.body = body ∧
    run.vault.get? (kind, slugifyWikiSegment codec name) =
      some (some (renderWikiMarkdown codec page))

/-- No other name of the kind has had the slug, and the file that is there is merged with. -/
def Fresh (run : UpsertRun) (c : UpsertCall) : Prop :=
  (∀ c' ∈ run.calls, c'.kind = c.kind →
    slugifyWikiSegment codec c'.name = slugifyWikiSegment codec c.name → c'.name = c.name) ∧
  ((run.vault.readPage codec c.kind (slugifyWikiSegment codec c.name) c.now).any fun existing =>
    (WikiVault.merged (c.page codec) existing c.now).isSome) = true

instance (run : UpsertRun) (c : UpsertCall) : Decidable (run.Fresh codec c) :=
  inferInstanceAs (Decidable (_ ∧ _))

variable {codec} {run : UpsertRun} {c : UpsertCall}

theorem merged_eq_some {page page' : WikiPage} {existing : Option WikiPage} {now : ℚ}
    (h : WikiVault.merged page existing now = some page') :
    page'.kind = page.kind ∧ page'.name = page.name ∧ page'.slug = page.slug ∧
      page'.body = page.body := by
  cases existing with
  | none =>
    obtain rfl := Option.some.inj h
    exact ⟨rfl, rfl, rfl, rfl⟩
  | some old =>
    obtain ⟨aliases, -, h⟩ := Option.bind_eq_some_iff.1 h
    obtain ⟨tags, -, h⟩ := Option.bind_eq_some_iff.1 h
    obtain rfl := Option.some.inj h
    exact ⟨rfl, rfl, rfl, rfl⟩

/-- What a call writes, when it does not raise. -/
theorem vault_step (h : run.Fresh codec c) : ∃ page : WikiPage, page.kind = c.kind ∧
    page.name = c.name ∧ page.body = c.body ∧ (run.step codec c).vault =
      run.vault.set (c.kind, slugifyWikiSegment codec c.name)
        (some (renderWikiMarkdown codec page)) := by
  obtain ⟨existing, hread, hmerged⟩ := (Option.any_eq_true _ _).1 h.2
  obtain ⟨page, hpage⟩ := Option.isSome_iff_exists.1 hmerged
  obtain ⟨hkind, hname, hslug, hbody⟩ := merged_eq_some hpage
  refine ⟨page, hkind, hname, hbody, ?_⟩
  have hupsert : run.vault.upsertSimple codec c =
      some (run.vault.writePage codec page, page) := by
    have hself : (if (c.page codec).slug = "" then slugifyWikiSegment codec (c.page codec).name
        else (c.page codec).slug) = (c.page codec).slug := by
      split_ifs
      · rfl
      · rfl
    rw [WikiVault.upsertSimple, WikiVault.upsertWikiPage]
    simp only [hself]
    have hread' : run.vault.readPage codec (c.page codec).kind (c.page codec).slug c.now =
        some existing := hread
    rw [hread']
    simp only [Option.bind_eq_bind, Option.bind_some]
    rw [show ({ c.page codec with slug := (c.page codec).slug } : WikiPage) = c.page codec from rfl,
      hpage]
    rfl
  rw [step, hupsert, Option.map_some, Option.getD_some, WikiVault.writePage, hkind, hslug]
  rfl

theorem lastCall_step (kind : WikiPageKind) (name : String) :
    (run.step codec c).lastCall kind name =
      if c.kind = kind ∧ c.name = name then some c else run.lastCall kind name := by
  rw [lastCall, step, List.reverse_append, List.reverse_singleton, List.singleton_append,
    List.find?_cons]
  split_ifs with h
  · simp [h]
  · simp [h, lastCall]

/-- What one call keeps. -/
theorem stored_step (h : run.Fresh codec c)
    (hstored : ∀ kind name, ∀ c' ∈ run.lastCall kind name, run.Stored codec kind name c'.body) :
    ∀ kind name, ∀ c' ∈ (run.step codec c).lastCall kind name,
      (run.step codec c).Stored codec kind name c'.body := by
  intro kind name c' hc'
  obtain ⟨page, hkind, hname, hbody, hvault⟩ := vault_step h
  rw [lastCall_step] at hc'
  split_ifs at hc' with hself
  · obtain rfl := Option.some.inj hc'
    obtain ⟨rfl, rfl⟩ := hself
    exact ⟨page, hkind, hname, hbody, by rw [hvault, Dict.get?_set_self]⟩
  · obtain ⟨old, holdKind, holdName, holdBody, hold⟩ := hstored kind name c' hc'
    refine ⟨old, holdKind, holdName, holdBody, ?_⟩
    have hmem : c' ∈ run.calls := List.mem_reverse.1 (List.mem_of_find?_eq_some hc')
    have hmatch : c'.kind = kind ∧ c'.name = name := by
      simpa using List.find?_some hc'
    have hne : (kind, slugifyWikiSegment codec name) ≠
        (c.kind, slugifyWikiSegment codec c.name) := by
      intro heq
      obtain ⟨hk, hs⟩ := Prod.mk.inj heq
      have hn := h.1 c' hmem (hmatch.1.trans hk) (by rw [hmatch.2, hs])
      exact hself ⟨hk.symm, by rw [← hn, hmatch.2]⟩
    rw [hvault, Dict.get?_set_of_ne hne, hold]

/-- **Independence of names.** When no two names of a kind share a slug, and every page that is
found can be merged with, the file of each kind and name has the body of the last call with
them. -/
theorem stored_of_lastCall (codec : WikiCodec) (vault : WikiVault) (calls : List UpsertCall)
    (hfresh : EachStep (step codec) (Fresh codec) { vault } calls) :
    ∀ run ∈ trail (step codec) { vault } calls, ∀ kind name, ∀ c ∈ run.lastCall kind name,
      run.Stored codec kind name c.body := by
  refine EachStep.forall_mem_trail (C := Fresh codec) (fun run c hstored h => stored_step h hstored)
    hfresh ?_
  intro kind name c hc
  cases hc

/-! ## Two names with one slug -/

def cpp : UpsertCall where
  kind := .concept
  name := "C++"
  body := "Classes.".toList
  now := 1

/-- The frontmatter of pages like the first one. -/
def conceptYaml (fm : Args) : List Char :=
  let name := match fm.get "name" with
    | some (.str name) => name.toList
    | _ => []
  "kind: concept\nname: ".toList ++ (name ++ "\nslug: c\ncreated_at: 1.0\nupdated_at: 1.0".toList)

/-- The codec on pages like the first one. -/
def conceptCodec : WikiCodec where
  dump := conceptYaml
  load _ := some (.obj (cpp.page ⟨fun _ => [], fun _ => none, fun _ => "", fun _ => none,
    fun s => s.map Char.toLower, fun _ => []⟩).frontmatter)
  str _ := ""
  float _ := none
  lower s := s.map Char.toLower
  digest _ := []

/-- How the text of a page begins. -/
theorem render_conceptCodec {page : WikiPage} {name : String}
    (hname : page.frontmatter.get "name" = some (.str name)) :
    ∃ rest, renderWikiMarkdown conceptCodec page =
      "---\n".toList ++ ("kind: concept\nname: ".toList ++ (name.toList ++ rest)) := by
  have hdump : conceptCodec.dump page.frontmatter = conceptYaml page.frontmatter := rfl
  unfold renderWikiMarkdown
  rw [hdump]
  unfold conceptYaml
  rw [hname]
  simp only [List.append_assoc]
  exact ⟨_, rfl⟩

/-- The last of two calls with a name counts, whatever is between them. -/
theorem stored_cpp :
    ([cpp, { cpp with name := "Go" }, { cpp with body := "Templates.".toList }].foldl
      (step conceptCodec) { vault := [] }).Stored conceptCodec .concept "C++"
        "Templates.".toList := by
  refine stored_of_lastCall conceptCodec [] _ (by decide +kernel) _ (foldl_mem_trail _ _) _ _
    { cpp with body := "Templates.".toList } ?_
  rfl

/-- A page is replaced by one of another name. -/
theorem replaced_by_other_name :
    ¬∀ (codec : WikiCodec) (vault : WikiVault) (calls : List UpsertCall),
      ∀ run ∈ trail (step codec) { vault } calls, ∀ kind name, ∀ c ∈ run.lastCall kind name,
        run.Stored codec kind name c.body := by
  intro h
  obtain ⟨page, -, hname, -, hfile⟩ := h conceptCodec []
    [cpp, { cpp with name := "C", body := "Pointers.".toList }] _ (foldl_mem_trail _ _) .concept
    "C++" cpp rfl
  have hstored : (([cpp, { cpp with name := "C", body := "Pointers.".toList }].foldl
      (step conceptCodec) { vault := [] }).vault.get?
        (.concept, slugifyWikiSegment conceptCodec "C++")).map (Option.map (·.take 26)) =
      some (some "---\nkind: concept\nname: C\n".toList) := by
    decide +kernel
  have hget : page.frontmatter.get "name" = some (.str "C++") := by
    rw [← hname]
    rfl
  obtain ⟨rest, hrest⟩ := render_conceptCodec hget
  have hlit : "---\n".toList ++ ("kind: concept\nname: ".toList ++ "C++".toList) =
      "---\nkind: concept\nname: C+".toList ++ ['+'] := by
    decide
  have hrender : (renderWikiMarkdown conceptCodec page).take 26 =
      "---\nkind: concept\nname: C+".toList := by
    rw [hrest, ← List.append_assoc "kind: concept\nname: ".toList, ← List.append_assoc, hlit,
      List.append_assoc]
    exact List.take_left' (by decide)
  rw [hfile, Option.map_some, Option.map_some, hrender] at hstored
  exact absurd hstored (by decide)

end UpsertRun

end OxenClaw
