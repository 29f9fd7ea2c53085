import Mathlib.Data.Char
import Mathlib.Data.List.Lex
import Mathlib.Data.List.Sort
import OxenClaw.Lib.Runs
import OxenClaw.Wiki.Markdown

/-!
# The wiki vault

A page is a file of the root directory, named by its slug. `_page_path` takes any slug: one with a
slash is a path of its own, which may lead out of the root (`wikiVaultStore_escapes`). Side by side
with the map of the pages written last, the store answers as the map does while slugs are plain
names, or lead to nothing, and written pages are such that their own file gives them back
(`wikiVaultStore_refines`).

The disk has no links, and only a name has a bound.
-/

namespace OxenClaw

/-- The names from the root of the file system. -/
abbrev WikiPath := List (List Char)

/-- The files with their text, and the directories. -/
structure WikiDisk where
  files : Dict WikiPath (List Char)
  dirs : List WikiPath

/-- Where the lookup of a path ends. What it ends at may be missing. -/
inductive WikiPlace where
  | nowhere
  | tooLong
  | path (p : WikiPath)
  deriving DecidableEq

/-- `NAME_MAX`. -/
def maxNameBytes : ℕ := 255

namespace WikiDisk

variable (disk : WikiDisk) (codec : WikiCodec) (root : WikiPath) (slug : String)

/-! ## Paths -/

/-- Look the names up one after the other, from a directory that is there. -/
def walk (disk : WikiDisk) : WikiPath → List (List Char) → WikiPlace
  | dir, [] => .path dir
  | dir, name :: names =>
    if name = "..".toList then disk.walk dir.dropLast names
    else if maxNameBytes < (utf8 name).length then .tooLong
    else if names = [] then .path (dir ++ [name])
    else if dir ++ [name] ∈ disk.dirs then disk.walk (dir ++ [name]) names
    else .nowhere

/-- `self._root / name`. -/
def place (name : List Char) : WikiPlace :=
  -- `stat` of a name with a NUL is a `ValueError`, which `exists` takes for a missing file
  if Char.ofNat 0 ∈ name then .nowhere
  else disk.walk (if name.head? = some '/' then [] else root)
    ((name.splitOn '/').filter fun part => part ≠ [] ∧ part ≠ ['.'])

/-- `_page_path`. -/
def pagePlace : WikiPlace :=
  disk.place root (slug.toList ++ ".md".toList)

/-- The `tmp` of `_atomic_write`. -/
def tmpPlace : WikiPlace :=
  disk.place root (slug.toList ++ ".md.tmp".toList)

def isDir (p : WikiPath) : Bool :=
  p = [] ∨ p ∈ disk.dirs

/-- `path.exists()`. -/
def exists? (p : WikiPath) : Bool :=
  (disk.files.get? p).isSome || disk.isDir p

end WikiDisk

/-! ## The operations -/

/-- What an operation returns, and whether it raises. -/
inductive WikiReply where
  | saved (page : WikiPage)
  | conflict (slug : String)
  | found (page : Option WikiPage)
  | deleted (existed : Bool)
  | pages (pages : List WikiPage)
  | raised

/-- The reply, with the files that were read, written or deleted. -/
structure WikiAnswer where
  reply : WikiReply
  touched : List WikiPath := []

/-- `_derive_slug`. -/
def deriveSlug (codec : WikiCodec) (page : WikiPage) : String :=
  if Py.strip page.slug.toList = [] then slugifyWikiSegment codec page.name
  else String.ofList (Py.strip page.slug.toList)

/-- The page as `create` saves it. -/
def WikiPage.created (codec : WikiCodec) (page : WikiPage) (now : ℚ) : WikiPage :=
  { page with slug := deriveSlug codec page, createdAt := now, updatedAt := now }

/-- The page as `update` saves it. -/
def WikiPage.updated (page : WikiPage) (slug : String) (existing : Option WikiPage)
    (now later : ℚ) : WikiPage :=
  { page with slug, createdAt := (existing.map (·.createdAt)).getD now, updatedAt := later }

namespace WikiDisk

variable (codec : WikiCodec) (root : WikiPath) (disk : WikiDisk)

/-- What `get` returns, unless it raises, and what it reads. -/
def read (slug : String) (now : ℚ) : Option (Option WikiPage) × List WikiPath :=
  match disk.pagePlace root slug with
  | .nowhere => (some none, [])
  | .tooLong => (none, [])
  | .path p =>
    match disk.files.get? p with
    -- a directory is there, but cannot be read
    | none => (some none, [])
    | some text => (some (parseWikiMarkdown codec now (Py.universalNewlines text)), [p])

/-- `_atomic_write`, whether it is done, and the files it writes. -/
def atomicWrite (slug : String) (content : List Char) : WikiDisk × Bool × List WikiPath :=
  match disk.tmpPlace root slug with
  | .path tmp =>
    if disk.isDir tmp then (disk, false, [])
    else
      let written := disk.files.set tmp content
      match disk.pagePlace root slug with
      | .path p =>
        if disk.isDir p then ({ disk with files := written }, false, [tmp])
        else ({ disk with files := (written.erase tmp).set p content }, true, [tmp, p])
      | _ => ({ disk with files := written }, false, [tmp])
  | _ => (disk, false, [])

/-- Write the page, after what was read. -/
def save (read : List WikiPath) (slug : String) (page : WikiPage) : WikiDisk × WikiAnswer :=
  let (disk', done, written) := disk.atomicWrite root slug (renderWikiMarkdown codec page)
  (disk', { reply := if done then .saved page else .raised, touched := read ++ written })

def create (page : WikiPage) (now : ℚ) : WikiDisk × WikiAnswer :=
  let slug := deriveSlug codec page
  match disk.pagePlace root slug with
  | .nowhere => disk.save codec root [] slug (page.created codec now)
  | .tooLong => (disk, { reply := .raised })
  | .path p =>
    if disk.exists? p then (disk, { reply := .conflict slug })
    else disk.save codec root [] slug (page.created codec now)

def update (slug : String) (page : WikiPage) (now later : ℚ) : WikiDisk × WikiAnswer :=
  match disk.read codec root slug now with
  | (none, touched) => (disk, { reply := .raised, touched })
  | (some existing, touched) =>
    disk.save codec root touched slug (page.updated slug existing now later)

def get (slug : String) (now : ℚ) : WikiDisk × WikiAnswer :=
  match disk.read codec root slug now with
  | (none, touched) => (disk, { reply := .raised, touched })
  | (some page, touched) => (disk, { reply := .found page, touched })

def delete (slug : String) : WikiDisk × WikiAnswer :=
  match disk.pagePlace root slug with
  | .nowhere => (disk, { reply := .deleted false })
  | .tooLong => (disk, { reply := .raised })
  | .path p =>
    match disk.files.get? p with
    | some _ => ({ disk with files := disk.files.erase p },
        { reply := .deleted true, touched := [p] })
    | none => (disk, { reply := if disk.isDir p then .raised else .deleted false })

end WikiDisk

/-- A file that lies directly in the directory. -/
def isDirectlyIn (root p : WikiPath) : Bool :=
  p ≠ [] ∧ p.dropLast = root

/-- What `self._root.glob("*.md")` finds. -/
def isPageFile (root p : WikiPath) : Bool :=
  isDirectlyIn root p && ".md".toList.isSuffixOf (p.getLast?.getD [])

/-- `kind is None or page.kind == kind`. -/
def ofKind (kind : Option WikiPageKind) (page : WikiPage) : Bool :=
  kind = none ∨ kind = some page.kind

namespace WikiDisk

variable (codec : WikiCodec) (root : WikiPath) (disk : WikiDisk)

/-- The page files, in the order of their names. -/
def pageFiles : List (WikiPath × List Char) :=
  (disk.files.filter fun f => isPageFile root f.1).insertionSort fun f g => f.1 ≤ g.1

def list (kind : Option WikiPageKind) (now : ℚ) : WikiDisk × WikiAnswer :=
  let pages := (disk.pageFiles root).filterMap fun f =>
    parseWikiMarkdown codec now (Py.universalNewlines f.2)
  (disk, { reply := .pages (pages.filter (ofKind kind)),
           touched := (disk.pageFiles root).map Prod.fst })

end WikiDisk

/-- An operation, with the readings of the clock it takes. -/
inductive WikiOp where
  | create (page : WikiPage) (now : ℚ)
  | update (slug : String) (page : WikiPage) (now later : ℚ)
  | get (slug : String) (now : ℚ)
  | delete (slug : String)
  | list (kind : Option WikiPageKind) (now : ℚ)

def WikiDisk.step (codec : WikiCodec) (root : WikiPath) (disk : WikiDisk) :
    WikiOp → WikiDisk × WikiAnswer
  | .create page now => disk.create codec root page now
  | .update slug page now later => disk.update codec root slug page now later
  | .get slug now => disk.get codec root slug now
  | .delete slug => disk.delete root slug
  | .list kind now => disk.list codec root kind now

/-! ## The map of the pages -/

/-- The page last written under each slug. -/
abbrev WikiMap := Dict String WikiPage

def WikiMap.step (codec : WikiCodec) (pages : WikiMap) : WikiOp → WikiMap × WikiReply
  | .create page now =>
    let slug := deriveSlug codec page
    match pages.get? slug with
    | some _ => (pages, .conflict slug)
    | none => (pages.set slug (page.created codec now), .saved (page.created codec now))
  | .update slug page now later =>
    let saved := page.updated slug (pages.get? slug) now later
    (pages.set slug saved, .saved saved)
  | .get slug _ => (pages, .found (pages.get? slug))
  | .delete slug => (pages.erase slug, .deleted (pages.get? slug).isSome)
  | .list kind _ => (pages, .pages ((pages.map Prod.snd).filter (ofKind kind)))

/-- The same reply, where pages are listed in any order. -/
def WikiReply.Agrees : WikiReply → WikiReply → Prop
  | .pages ps, .pages qs => ps.Perm qs
  | a, b => a = b

/-- The store and the map, given the same operation. -/
def stepBoth (codec : WikiCodec) (root : WikiPath) (s : WikiDisk × WikiMap) (op : WikiOp) :
    (WikiDisk × WikiMap) × WikiAnswer × WikiReply :=
  (((s.1.step codec root op).1, (WikiMap.step codec s.2 op).1),
    (s.1.step codec root op).2, (WikiMap.step codec s.2 op).2)

/-- The store replies as the map does, and keeps to the files of the root. -/
def AnswersAlike (root : WikiPath) (out : WikiAnswer × WikiReply) : Prop :=
  out.1.reply.Agrees out.2 ∧ ∀ p ∈ out.1.touched, isDirectlyIn root p = true

/-! ## The condition -/

/-- The name of a file of the root. -/
def PlainName (name : List Char) : Prop :=
  '/' ∉ name ∧ Char.ofNat 0 ∉ name ∧ (utf8 name).length ≤ maxNameBytes

instance (name : List Char) : Decidable (PlainName name) :=
  inferInstanceAs (Decidable (_ ∧ _ ∧ _))

/-- A page that its own file gives back. -/
def WikiPage.Savable (codec : WikiCodec) (page : WikiPage) : Prop :=
  page.Stable ∧ codec.Reads page.frontmatter

/-- Slugs name files of the root, or lead to nothing, and pages are written that can be read. -/
def WikiOp.Fine (codec : WikiCodec) (root : WikiPath) (s : WikiDisk × WikiMap) : WikiOp → Prop
  | .create page now => PlainName ((deriveSlug codec page).toList ++ ".md.tmp".toList) ∧
      (s.2.get? (deriveSlug codec page) = none → (page.created codec now).Savable codec)
  | .update slug page now later => PlainName (slug.toList ++ ".md.tmp".toList) ∧
      (page.updated slug (s.2.get? slug) now later).Savable codec
  | .get slug _ => PlainName (slug.toList ++ ".md".toList) ∨
      s.1.pagePlace root slug ≠ .tooLong ∧
        ∀ p, s.1.pagePlace root slug = .path p → s.1.files.get? p = none
  | .delete slug => PlainName (slug.toList ++ ".md".toList) ∨
      s.1.pagePlace root slug ≠ .tooLong ∧
        ∀ p, s.1.pagePlace root slug = .path p → s.1.exists? p = false
  | .list _ _ => True

def pagePath (root : WikiPath) (slug : String) : WikiPath :=
  root ++ [slug.toList ++ ".md".toList]

def tmpPath (root : WikiPath) (slug : String) : WikiPath :=
  root ++ [slug.toList ++ ".md.tmp".toList]

/-- The page files of the root are the pages of the map. -/
structure Represents (codec : WikiCodec) (root : WikiPath) (s : WikiDisk × WikiMap) : Prop where
  files : s.1.files.filter (fun f => isPageFile root f.1) =
    Dict.rename (pagePath root) (renderWikiMarkdown codec) s.2
  dirs : ∀ slug, s.1.isDir (pagePath root slug) = false ∧ s.1.isDir (tmpPath root slug) = false
  pages : ∀ e ∈ s.2, PlainName (e.1.toList ++ ".md.tmp".toList) ∧ e.2.Savable codec

section Places

variable {root : WikiPath} {disk : WikiDisk} {slug : String} {name : List Char}

/-- A plain name is looked up in the root. -/
theorem place_of_plain (h : PlainName name) (hlen : 3 ≤ name.length) :
    disk.place root name = .path (root ++ [name]) := by
  obtain ⟨hslash, hnul, hbytes⟩ := h
  have hpart : name ≠ [] ∧ name ≠ ['.'] ∧ name ≠ "..".toList := by
    refine ⟨?_, ?_, ?_⟩ <;> rintro rfl <;> exact absurd hlen (by decide)
  have hhead : name.head? ≠ some '/' := fun he => hslash (List.mem_of_head? he)
  rw [WikiDisk.place, if_neg hnul, if_neg hhead, List.splitOn_eq_singleton hslash,
    List.filter_cons_of_pos (by simp [hpart.1, hpart.2.1]), List.filter_nil, WikiDisk.walk,
    if_neg hpart.2.2, if_neg (by omega), if_pos rfl]

theorem length_suffix (s : List Char) : 3 ≤ (s ++ ".md".toList).length ∧
    3 ≤ (s ++ ".md.tmp".toList).length := by
  have hmd : ".md".toList.length = 3 := rfl
  have htmp : ".md.tmp".toList.length = 7 := rfl
  rw [List.length_append, List.length_append, hmd, htmp]
  omega

theorem pagePlace_of_plain (h : PlainName (slug.toList ++ ".md".toList)) :
    disk.pagePlace root slug = .path (pagePath root slug) :=
  place_of_plain h (length_suffix _).1

theorem tmpPlace_of_plain (h : PlainName (slug.toList ++ ".md.tmp".toList)) :
    disk.tmpPlace root slug = .path (tmpPath root slug) :=
  place_of_plain h (length_suffix _).2

/-- With room for the suffix of the temporary file there is room for the page. -/
theorem PlainName.page (h : PlainName (slug.toList ++ ".md.tmp".toList)) :
    PlainName (slug.toList ++ ".md".toList) := by
  obtain ⟨hslash, hnul, hbytes⟩ := h
  have hname : slug.toList ++ ".md.tmp".toList =
      slug.toList ++ ".md".toList ++ ".tmp".toList := by
    rw [List.append_assoc]
    rfl
  rw [hname] at hslash hnul hbytes
  refine ⟨fun h => hslash (List.mem_append_left _ h), fun h => hnul (List.mem_append_left _ h), ?_⟩
  rw [utf8_append, List.length_append] at hbytes
  omega

theorem pagePath_injective (root : WikiPath) : Function.Injective (pagePath root) := by
  intro a b h
  rw [pagePath, pagePath, List.append_right_inj, List.cons.injEq, List.append_left_inj] at h
  exact String.toList_inj.1 h.1

theorem isDirectlyIn_concat (root : WikiPath) (name : List Char) :
    isDirectlyIn root (root ++ [name]) = true := by
  simp [isDirectlyIn]

theorem isPageFile_pagePath (root : WikiPath) (slug : String) :
    isPageFile root (pagePath root slug) = true := by
  rw [isPageFile, pagePath, isDirectlyIn_concat, Bool.true_and, List.getLast?_concat]
  exact List.isSuffixOf_iff_suffix.2 (List.suffix_append _ _)

theorem isPageFile_tmpPath (root : WikiPath) (slug : String) :
    isPageFile root (tmpPath root slug) = false := by
  rw [isPageFile, tmpPath, isDirectlyIn_concat, Bool.true_and, List.getLast?_concat,
    Option.getD_some, Bool.eq_false_iff, ne_eq, List.isSuffixOf_iff_suffix]
  intro h
  have hend : ".md.tmp".toList <:+ slug.toList ++ ".md.tmp".toList := List.suffix_append _ _
  have hshort := List.suffix_of_suffix_length_le h hend (by decide)
  exact absurd hshort (by decide)

end Places

/-! ## The files that are touched -/

section Touched

variable {codec : WikiCodec} {root : WikiPath} {disk : WikiDisk} {p : WikiPath}

theorem get?_atomicWrite (slug : String) (content : List Char)
    (hp : p ∉ (disk.atomicWrite root slug content).2.2) :
    (disk.atomicWrite root slug content).1.files.get? p = disk.files.get? p := by
  rw [WikiDisk.atomicWrite] at hp ⊢
  rcases htmpPlace : disk.tmpPlace root slug with _ | _ | tmp
  · rfl
  · rfl
  · simp only [htmpPlace] at hp ⊢
    by_cases htmp : disk.isDir tmp = true
    · rw [if_pos htmp]
    · rw [if_neg htmp] at hp ⊢
      rcases hplace : disk.pagePlace root slug with _ | _ | page
      · simp only [hplace, List.mem_singleton] at hp ⊢
        exact Dict.get?_set_of_ne hp _ _
      · simp only [hplace, List.mem_singleton] at hp ⊢
        exact Dict.get?_set_of_ne hp _ _
      · simp only [hplace] at hp ⊢
        by_cases hpage : disk.isDir page = true
        · rw [if_pos hpage] at hp ⊢
          exact Dict.get?_set_of_ne (List.mem_singleton.not.1 hp) _ _
        · rw [if_neg hpage, List.mem_pair, not_or] at hp
          rw [if_neg hpage, Dict.get?_set_of_ne hp.2, Dict.get?_erase_of_ne hp.1,
            Dict.get?_set_of_ne hp.1]

theorem get?_save {read : List WikiPath} {slug : String} {page : WikiPage}
    (hp : p ∉ (disk.save codec root read slug page).2.touched) :
    (disk.save codec root read slug page).1.files.get? p = disk.files.get? p :=
  get?_atomicWrite slug _ fun h => hp (List.mem_append_right _ h)

/-- An operation leaves the files as they are that it does not touch. -/
theorem get?_step (op : WikiOp) (hp : p ∉ (disk.step codec root op).2.touched) :
    (disk.step codec root op).1.files.get? p = disk.files.get? p := by
  cases op with
  | create page now =>
    simp only [WikiDisk.step, WikiDisk.create] at hp ⊢
    rcases hplace : disk.pagePlace root (deriveSlug codec page) with _ | _ | path
    · simp only [hplace] at hp ⊢
      exact get?_save hp
    · rfl
    · simp only [hplace] at hp ⊢
      by_cases hexists : disk.exists? path = true
      · rw [if_pos hexists]
      · rw [if_neg hexists] at hp ⊢
        exact get?_save hp
  | update slug page now later =>
    simp only [WikiDisk.step, WikiDisk.update] at hp ⊢
    rcases hread : disk.read codec root slug now with ⟨_ | existing, touched⟩
    · rfl
    · simp only [hread] at hp ⊢
      exact get?_save hp
  | get slug now =>
    simp only [WikiDisk.step, WikiDisk.get]
    rcases disk.read codec root slug now with ⟨_ | page, touched⟩ <;> rfl
  | delete slug =>
    simp only [WikiDisk.step, WikiDisk.delete] at hp ⊢
    rcases hplace : disk.pagePlace root slug with _ | _ | path
    · rfl
    · rfl
    · simp only [hplace] at hp ⊢
      rcases hfile : disk.files.get? path with _ | text
      · rfl
      · simp only [hfile, List.mem_singleton] at hp ⊢
        exact Dict.get?_erase_of_ne hp _
  | list kind now => rfl

end Touched

/-! ## Step by step -/

section Steps

variable {codec : WikiCodec} {root : WikiPath} {disk : WikiDisk} {pages : WikiMap} {slug : String}
  {page : WikiPage}

theorem parse_render (h : page.Savable codec) (now : ℚ) :
    parseWikiMarkdown codec now (Py.universalNewlines (renderWikiMarkdown codec page)) =
      some page := by
  rw [universalNewlines_render h.1 h.2, parseWikiMarkdown_render h.1 h.2]

theorem Represents.get? (h : Represents codec root (disk, pages)) (slug : String) :
    disk.files.get? (pagePath root slug) = (pages.get? slug).map (renderWikiMarkdown codec) := by
  have hget := Dict.get?_filter (isPageFile root) (pagePath root slug) disk.files
  rw [if_pos (isPageFile_pagePath root slug)] at hget
  rw [← hget, h.files, Dict.get?_rename (pagePath_injective root)]

/-- A slug under which a page is written is plain. -/
theorem Represents.get?_of_not_plain (h : Represents codec root (disk, pages))
    (hplain : ¬PlainName (slug.toList ++ ".md".toList)) : pages.get? slug = none := by
  by_contra hne
  obtain ⟨page, hpage⟩ := Option.ne_none_iff_exists'.1 hne
  exact hplain (h.pages _ (Dict.mem_of_get? hpage)).1.page

/-- `get` finds the page that was written last. -/
theorem Represents.read (h : Represents codec root (disk, pages)) (now : ℚ)
    (hslug : PlainName (slug.toList ++ ".md".toList) ∨
      disk.pagePlace root slug ≠ .tooLong ∧
        ∀ p, disk.pagePlace root slug = .path p → disk.files.get? p = none) :
    ∃ touched, disk.read codec root slug now = (some (pages.get? slug), touched) ∧
      ∀ p ∈ touched, isDirectlyIn root p = true := by
  by_cases hplain : PlainName (slug.toList ++ ".md".toList)
  · rw [WikiDisk.read, pagePlace_of_plain hplain]
    simp only [h.get? slug]
    rcases hpage : pages.get? slug with _ | page
    · exact ⟨[], rfl, by simp⟩
    · have hsavable := (h.pages _ (Dict.mem_of_get? hpage)).2
      refine ⟨[pagePath root slug], ?_, ?_⟩
      · rw [Option.map_some]
        simp only [parse_render hsavable]
      · intro p hp
        rw [List.mem_singleton.1 hp]
        exact isDirectlyIn_concat root _
  · obtain ⟨hshort, hmissing⟩ := hslug.resolve_left hplain
    refine ⟨[], ?_, by simp⟩
    rw [WikiDisk.read, h.get?_of_not_plain hplain]
    rcases hplace : disk.pagePlace root slug with _ | _ | p
    · rfl
    · exact absurd hplace hshort
    · simp only [hmissing p hplace]

/-- A written page is in the map, and the temporary file is gone. -/
theorem Represents.set (h : Represents codec root (disk, pages))
    (hslug : PlainName (slug.toList ++ ".md.tmp".toList)) (hpage : page.Savable codec)
    (read : List WikiPath) : ∃ disk',
    disk.save codec root read slug page =
      (disk', { reply := .saved page, touched := read ++ [tmpPath root slug, pagePath root slug] })
      ∧ Represents codec root (disk', pages.set slug page) := by
  obtain ⟨hdir, htmp⟩ : disk.isDir (pagePath root slug) = false ∧
      disk.isDir (tmpPath root slug) = false := h.dirs slug
  let content := renderWikiMarkdown codec page
  let written := (disk.files.set (tmpPath root slug) content).erase (tmpPath root slug)
  refine ⟨{ disk with files := written.set (pagePath root slug) content }, ?_, ?_, h.dirs, ?_⟩
  · rw [WikiDisk.save, WikiDisk.atomicWrite, tmpPlace_of_plain hslug,
      pagePlace_of_plain hslug.page]
    simp only [hdir, htmp, Bool.false_eq_true, if_false, if_true]
    rfl
  · have hgone : Dict.get? (disk.files.filter fun f => isPageFile root f.1) (tmpPath root slug) =
        none := by
      rw [Dict.get?_filter, isPageFile_tmpPath, if_neg Bool.false_ne_true]
    have hfiles : disk.files.filter (fun f => isPageFile root f.1) =
        Dict.rename (pagePath root) (renderWikiMarkdown codec) pages := h.files
    change (written.set (pagePath root slug) content).filter _ = _
    rw [Dict.filter_set_of_pos (isPageFile_pagePath root slug), Dict.filter_erase,
      Dict.filter_set_of_neg (isPageFile_tmpPath root slug), Dict.erase_of_get?_eq_none hgone,
      hfiles, Dict.set_rename (pagePath_injective root)]
  · intro e he
    rcases Dict.mem_set he with rfl | he
    · exact ⟨hslug, hpage⟩
    · exact h.pages e he

theorem Represents.erase (h : Represents codec root (disk, pages)) (slug : String) :
    Represents codec root ({ disk with files := disk.files.erase (pagePath root slug) },
      pages.erase slug) := by
  have hfiles : disk.files.filter (fun f => isPageFile root f.1) =
      Dict.rename (pagePath root) (renderWikiMarkdown codec) pages := h.files
  refine ⟨?_, h.dirs, fun e he => h.pages e (List.mem_of_mem_filter he)⟩
  change (disk.files.erase (pagePath root slug)).filter _ = _
  rw [Dict.filter_erase, hfiles, Dict.erase_rename (pagePath_injective root)]

/-- The pages that are listed are those of the map. -/
theorem Represents.perm_pages (h : Represents codec root (disk, pages)) (now : ℚ) :
    ((disk.pageFiles root).filterMap fun f =>
      parseWikiMarkdown codec now (Py.universalNewlines f.2)).Perm (pages.map Prod.snd) := by
  have hsort : (disk.pageFiles root).Perm
      (Dict.rename (pagePath root) (renderWikiMarkdown codec) pages) := by
    rw [← h.files]
    exact List.perm_insertionSort _ _
  refine (hsort.filterMap _).trans (List.Perm.of_eq ?_)
  rw [Dict.rename, List.filterMap_map, ← List.filterMap_eq_map]
  exact List.filterMap_congr fun e he => parse_render (h.pages e he).2 now

theorem isDirectlyIn_of_mem_written {p : WikiPath}
    (h : p ∈ [tmpPath root slug, pagePath root slug]) :
    isDirectlyIn root p = true := by
  rcases List.mem_pair.1 h with rfl | rfl <;> exact isDirectlyIn_concat root _

theorem Represents.create (h : Represents codec root (disk, pages)) {now : ℚ}
    (hfine : (WikiOp.create page now).Fine codec root (disk, pages)) :
    Represents codec root (stepBoth codec root (disk, pages) (.create page now)).1 ∧
      AnswersAlike root (stepBoth codec root (disk, pages) (.create page now)).2 := by
  obtain ⟨hslug, hsavable⟩ := hfine
  have hexists : disk.exists? (pagePath root (deriveSlug codec page)) =
      (pages.get? (deriveSlug codec page)).isSome := by
    have hdir : disk.isDir (pagePath root (deriveSlug codec page)) = false := (h.dirs _).1
    rw [WikiDisk.exists?, h.get?, hdir, Bool.or_false, Option.isSome_map]
  rw [stepBoth, WikiDisk.step, WikiDisk.create, WikiMap.step, pagePlace_of_plain hslug.page]
  rcases hpage : pages.get? (deriveSlug codec page) with _ | old
  · obtain ⟨disk', hsave, hnext⟩ := h.set hslug (hsavable hpage) []
    simp only [hexists, hpage, Option.isSome_none, Bool.false_eq_true, if_false, hsave]
    exact ⟨hnext, rfl, fun p hp => isDirectlyIn_of_mem_written hp⟩
  · simp only [hexists, hpage, Option.isSome_some, if_true]
    exact ⟨h, rfl, by simp⟩

theorem Represents.update (h : Represents codec root (disk, pages)) {now later : ℚ}
    (hfine : (WikiOp.update slug page now later).Fine codec root (disk, pages)) :
    Represents codec root (stepBoth codec root (disk, pages) (.update slug page now later)).1 ∧
      AnswersAlike root (stepBoth codec root (disk, pages) (.update slug page now later)).2 := by
  obtain ⟨hslug, hsavable⟩ := hfine
  obtain ⟨touched, hread, htouched⟩ := h.read now (.inl hslug.page)
  obtain ⟨disk', hsave, hnext⟩ := h.set hslug hsavable touched
  rw [stepBoth, WikiDisk.step, WikiDisk.update, WikiMap.step, hread]
  simp only [hsave]
  refine ⟨hnext, rfl, fun p hp => ?_⟩
  rcases List.mem_append.1 hp with hp | hp
  · exact htouched p hp
  · exact isDirectlyIn_of_mem_written hp

theorem Represents.get (h : Represents codec root (disk, pages)) {now : ℚ}
    (hfine : (WikiOp.get slug now).Fine codec root (disk, pages)) :
    Represents codec root (stepBoth codec root (disk, pages) (.get slug now)).1 ∧
      AnswersAlike root (stepBoth codec root (disk, pages) (.get slug now)).2 := by
  obtain ⟨touched, hread, htouched⟩ := h.read now hfine
  rw [stepBoth, WikiDisk.step, WikiDisk.get, WikiMap.step, hread]
  exact ⟨h, rfl, htouched⟩

theorem Represents.delete (h : Represents codec root (disk, pages))
    (hfine : (WikiOp.delete slug).Fine codec root (disk, pages)) :
    Represents codec root (stepBoth codec root (disk, pages) (.delete slug)).1 ∧
      AnswersAlike root (stepBoth codec root (disk, pages) (.delete slug)).2 := by
  rw [stepBoth, WikiDisk.step, WikiDisk.delete, WikiMap.step]
  by_cases hplain : PlainName (slug.toList ++ ".md".toList)
  · have hdir : disk.isDir (pagePath root slug) = false := (h.dirs slug).1
    have herased := h.erase slug
    simp only [pagePlace_of_plain hplain, h.get? slug, hdir]
    rcases hpage : pages.get? slug with _ | page
    · rw [Dict.erase_of_get?_eq_none hpage]
      exact ⟨h, rfl, by simp⟩
    · refine ⟨herased, rfl, fun p hp => ?_⟩
      rw [List.mem_singleton.1 hp]
      exact isDirectlyIn_concat root _
  · obtain ⟨hshort, hmissing⟩ := hfine.resolve_left hplain
    have hpage := h.get?_of_not_plain hplain
    rw [hpage, Dict.erase_of_get?_eq_none hpage]
    rcases hplace : disk.pagePlace root slug with _ | _ | p
    · exact ⟨h, rfl, by simp⟩
    · exact absurd hplace hshort
    · have hnone := hmissing p hplace
      rw [WikiDisk.exists?, Bool.or_eq_false_iff, Option.isSome_eq_false_iff,
        Option.isNone_iff_eq_none] at hnone
      simp only [hnone.1, hnone.2]
      exact ⟨h, rfl, by simp⟩

theorem Represents.list (h : Represents codec root (disk, pages))
    (kind : Option WikiPageKind) (now : ℚ) :
    Represents codec root (stepBoth codec root (disk, pages) (.list kind now)).1 ∧
      AnswersAlike root (stepBoth codec root (disk, pages) (.list kind now)).2 := by
  refine ⟨h, (h.perm_pages now).filter _, fun p hp => ?_⟩
  obtain ⟨f, hf, rfl⟩ := List.mem_map.1 hp
  have hmem := (List.perm_insertionSort _ _).mem_iff.1 hf
  have hpage : isPageFile root f.1 = true := (List.mem_filter.1 hmem).2
  rw [isPageFile, Bool.and_eq_true] at hpage
  exact hpage.1

/-- An operation that meets the condition. -/
theorem Represents.step {s : WikiDisk × WikiMap} (h : Represents codec root s) (op : WikiOp)
    (hfine : op.Fine codec root s) :
    Represents codec root (stepBoth codec root s op).1 ∧
      AnswersAlike root (stepBoth codec root s op).2 := by
  cases op with
  | create page now => exact h.create hfine
  | update slug page now later => exact h.update hfine
  | get slug now => exact h.get hfine
  | delete slug => exact h.delete hfine
  | list kind now => exact h.list kind now

end Steps

/-- Along a run whose operations meet the condition, the store replies as the map of the pages
does, and keeps to the files of its root. -/
theorem wikiVaultStore_refines {codec : WikiCodec} {root : WikiPath} {disk : WikiDisk}
    {pages : WikiMap} (h : Represents codec root (disk, pages)) {ops : List WikiOp}
    (hfine : EachStep (fun s op => (stepBoth codec root s op).1) (fun s op => op.Fine codec root s)
      (disk, pages) ops) :
    ∀ out ∈ outputs (stepBoth codec root) (disk, pages) ops, AnswersAlike root out :=
  hfine.forall_mem_outputs (fun _ op hs hop => hs.step op hop) h

/-! ## A run, and a slug that leaves the root -/

/-- `/home/wiki`. -/
def homeWiki : WikiPath := ["home".toList, "wiki".toList]

/-- An empty vault beside a file. -/
def homeDisk : WikiDisk where
  files := [(["home".toList, "notes.md".toList], "mine".toList)]
  dirs := [["home".toList], homeWiki]

def notePage : WikiPage where
  kind := .concept
  name := "A"
  slug := "a"
  body := "Hello.".toList
  createdAt := 1
  updatedAt := 1

/-- The codec on the page. -/
def noteCodec : WikiCodec where
  dump _ := "kind: concept\nname: A\nslug: a\ncreated_at: 1.0\nupdated_at: 1.0".toList
  load _ := some (.obj notePage.frontmatter)
  str _ := ""
  float _ := none
  lower s := s.map Char.toLower
  digest _ := []

theorem deriveSlug_notePage : deriveSlug noteCodec notePage = "a" := by
  decide

theorem savable_notePage : (notePage.created noteCodec 1).Savable noteCodec := by
  rw [WikiPage.created, deriveSlug_notePage]
  refine ⟨?_, rfl, by decide, by decide⟩
  exact {
    name := by decide
    slug := by decide
    createdAt := by decide
    updatedAt := by decide
    summary := .inl rfl
    provenanceMode := .inl rfl
    claims := by simp [notePage]
    bodyEnd := by decide
    bodyStart := by decide
    bodyReturn := by decide
    related := by simp [notePage]
    noBlock := fun _ a b c heq => by
      have hlen := congrArg List.length heq
      have hmarker : relatedStartMarker.length = 36 := by decide
      have hbody : (notePage.body ++ ['\n']).length = 7 := by decide
      simp only [List.length_append, hmarker] at hlen
      simp only [List.length_append] at hbody
      omega
    noMarker := fun h => absurd rfl h }

theorem represents_homeDisk : Represents noteCodec homeWiki (homeDisk, []) where
  files := by decide
  dirs slug := by simp [WikiDisk.isDir, homeDisk, homeWiki, pagePath, tmpPath]
  pages := by simp

theorem wikiVaultStore_refines_note :
    (outputs (stepBoth noteCodec homeWiki) (homeDisk, [])
      [.create notePage 1, .get "a" 2, .list none 3, .delete "a", .get "../wiki/a" 4]).Forall
      (AnswersAlike homeWiki) := by
  refine List.forall_iff_forall_mem.2 (wikiVaultStore_refines represents_homeDisk
    ⟨⟨?_, fun _ => savable_notePage⟩, .inl (by decide), trivial, .inl (by decide), ?_, trivial⟩)
  · rw [deriveSlug_notePage]
    decide
  · refine .inr ⟨nofun, fun p hp => ?_⟩
    cases hp
    rfl

/-- A file beside the root is deleted. -/
theorem wikiVaultStore_escapes : ¬∀ ops, ∀ out ∈ outputs (stepBoth noteCodec homeWiki)
    (homeDisk, []) ops, AnswersAlike homeWiki out := by
  intro h
  obtain ⟨hreply, -⟩ := h [.delete "../notes"] _ List.mem_cons_self
  cases hreply

end OxenClaw
