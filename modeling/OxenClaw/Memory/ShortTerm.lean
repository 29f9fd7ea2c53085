import Mathlib.Algebra.Order.Ring.Rat
import Mathlib.Data.List.Nodup
import Mathlib.Data.List.Sort
import OxenClaw.Lib.Like
import OxenClaw.Lib.Lines
import OxenClaw.Lib.Python
import OxenClaw.Lib.Runs
import OxenClaw.Lib.StableSort

/-!
# The curated tier

A row of `short_term` has its tags as one text, with commas between them, and `short_term_list`
finds a tag in it by `LIKE`. What it finds is a run of the texts between the commas that is like
the tag (`like_tagPattern`), so a tag with a wildcard, a comma or other letter case finds entries
that do not have it.

`shortTermList_tagged_iff` : what is listed for a tag is the active entries with the tag exactly
if each of them has such a run, they are not more than the limit, and any other entry that has one
is behind as many of them as the limit lets through.
-/

namespace OxenClaw.Memory

open Py Sqlite

/-! ## The table -/

/-- A row of `short_term`. -/
structure ShortTermRow where
  id : String
  sourceChunkId : Option String
  text : String
  tags : List Char
  confidence : ℚ
  promotedAt : ℚ
  lastReviewedAt : Option ℚ := none
  reviewCount : ℕ := 0
  archivedAt : Option ℚ := none
  deriving DecidableEq

/-- `",".join(t.strip() for t in tags if t.strip())`. -/
def joinTags (tags : List (List Char)) : List Char :=
  [','].intercalate ((tags.filter (strip · ≠ [])).map strip)

/-- The arguments of `short_term_add`. -/
structure Promotion where
  text : String
  tags : List (List Char) := []
  confidence : ℚ := 1 / 2
  sourceChunkId : Option String := none

def Promotion.row (p : Promotion) (newId : String) (now : ℚ) : ShortTermRow where
  id := newId
  sourceChunkId := p.sourceChunkId
  text := p.text
  tags := joinTags p.tags
  confidence := p.confidence
  promotedAt := now

/-- `short_term_add`, where the new id is no row's. -/
def shortTermAdd (table : List ShortTermRow) (p : Promotion) (newId : String) (now : ℚ) :
    Option (List ShortTermRow) :=
  if newId ∈ table.map ShortTermRow.id then none else some (table ++ [p.row newId now])

/-- `UPDATE short_term SET .. WHERE id = ?`, under a condition on the row. -/
def updateRow (id : String) (cond : ShortTermRow → Bool) (set : ShortTermRow → ShortTermRow)
    (r : ShortTermRow) : ShortTermRow :=
  if r.id = id ∧ cond r then set r else r

def reviewed (now : ℚ) (r : ShortTermRow) : ShortTermRow :=
  { r with lastReviewedAt := some now, reviewCount := r.reviewCount + 1 }

def archived (now : ℚ) (r : ShortTermRow) : ShortTermRow :=
  { r with archivedAt := some now }

/-- `short_term_review`. -/
def shortTermReview (table : List ShortTermRow) (id : String) (now : ℚ) :
    List ShortTermRow × Bool :=
  (table.map (updateRow id (fun _ => true) (reviewed now)), table.any (·.id = id))

/-- `short_term_archive`. -/
def shortTermArchive (table : List ShortTermRow) (id : String) (now : ℚ) :
    List ShortTermRow × Bool :=
  (table.map (updateRow id (·.archivedAt.isNone) (archived now)),
    table.any fun r => r.id = id ∧ r.archivedAt.isNone)

/-- What `short_term_list` gives of a row. -/
structure ShortTermEntry where
  id : String
  sourceChunkId : Option String
  text : String
  tags : List (List Char)
  confidence : ℚ
  promotedAt : ℚ
  lastReviewedAt : Option ℚ
  reviewCount : ℕ
  archived : Bool
  deriving DecidableEq

def ShortTermRow.entry (r : ShortTermRow) : ShortTermEntry where
  id := r.id
  sourceChunkId := r.sourceChunkId
  text := r.text
  tags := (r.tags.splitOn ',').filter (· ≠ [])
  confidence := r.confidence
  promotedAt := r.promotedAt
  lastReviewedAt := r.lastReviewedAt.filter (· ≠ 0)
  reviewCount := r.reviewCount
  archived := r.archivedAt.isSome

/-- `f"%,{tag},%"`. -/
def tagPattern (tag : List Char) : List Char :=
  '%' :: (',' :: tag ++ [',']) ++ ['%']

/-- `(',' || tags || ',') LIKE ?`, where a tag is asked for. -/
def tagClause (tag : Option (List Char)) (r : ShortTermRow) : Bool :=
  match tag with
  | none => true
  | some tag => tag.isEmpty || like (tagPattern tag) (',' :: r.tags ++ [','])

/-- `ORDER BY promoted_at DESC`. -/
def newestRows (rows : List ShortTermRow) : List ShortTermRow :=
  rows.insertionSort fun a b => b.promotedAt ≤ a.promotedAt

/-- `LIMIT ?`, which a negative number lifts. -/
def limitRows (limit : ℤ) (rows : List ShortTermRow) : List ShortTermRow :=
  if limit < 0 then rows else rows.take limit.toNat

def shortTermList (table : List ShortTermRow) (tag : Option (List Char)) (includeArchived : Bool)
    (limit : ℤ) : List ShortTermEntry :=
  let kept := table.filter fun r => (includeArchived || r.archivedAt.isNone) && tagClause tag r
  (limitRows limit (newestRows kept)).map ShortTermRow.entry

/-! ## Entries with their tags -/

/-- A row, with the tags it was added with. -/
structure Curated where
  tags : List (List Char)
  row : ShortTermRow
  joined : row.tags = joinTags tags
  deriving DecidableEq

namespace Curated

def active (c : Curated) : Bool :=
  c.row.archivedAt.isNone

/-- The texts between the commas of its row. -/
def texts (c : Curated) : List (List Char) :=
  (joinTags c.tags).splitOn ','

/-- `LIKE` takes a run of these texts for the tag, or no tag is asked for. -/
def ReadsAs (tag : List Char) (c : Curated) : Prop :=
  tag = [] ∨ ∃ run, run ≠ [] ∧ run <:+: c.texts ∧ like tag ([','].intercalate run) = true

/-- A row that changes elsewhere. -/
def update (id : String) (cond : ShortTermRow → Bool) (set : ShortTermRow → ShortTermRow)
    (hset : ∀ r, (set r).tags = r.tags) (c : Curated) : Curated where
  tags := c.tags
  row := updateRow id cond set c.row
  joined := by
    rw [updateRow]
    split_ifs
    · rw [hset, c.joined]
    · exact c.joined

end Curated

/-- What happens to the curated tier. -/
inductive ShortTermEvent where
  | add (p : Promotion) (newId : String) (now : ℚ)
  | review (id : String) (now : ℚ)
  | archive (id : String) (now : ℚ)

def shortTermStep (table : List ShortTermRow) : ShortTermEvent → List ShortTermRow
  | .add p newId now => (shortTermAdd table p newId now).getD table
  | .review id now => (shortTermReview table id now).1
  | .archive id now => (shortTermArchive table id now).1

/-- The same, with the tags that were given. -/
def curatedStep (entries : List Curated) : ShortTermEvent → List Curated
  | .add p newId now =>
    if newId ∈ entries.map (·.row.id) then entries
    else entries ++ [⟨p.tags, p.row newId now, rfl⟩]
  | .review id now => entries.map (.update id (fun _ => true) (reviewed now) fun _ => rfl)
  | .archive id now => entries.map (.update id (·.archivedAt.isNone) (archived now) fun _ => rfl)

theorem updateRow_id (id : String) (cond : ShortTermRow → Bool)
    (set : ShortTermRow → ShortTermRow) (hset : ∀ r, (set r).id = r.id) (r : ShortTermRow) :
    (updateRow id cond set r).id = r.id := by
  rw [updateRow]
  split_ifs
  · exact hset r
  · rfl

/-- An event does the same to the rows and to the entries, and keeps the ids apart. -/
theorem map_row_curatedStep {entries : List Curated} (h : (entries.map (·.row.id)).Nodup)
    (e : ShortTermEvent) :
    (curatedStep entries e).map Curated.row = shortTermStep (entries.map Curated.row) e ∧
      ((curatedStep entries e).map (·.row.id)).Nodup := by
  rcases e with ⟨p, newId, now⟩ | ⟨id, now⟩ | ⟨id, now⟩
  · have hids : (entries.map Curated.row).map ShortTermRow.id = entries.map (·.row.id) := by
      rw [List.map_map]
      rfl
    rw [curatedStep, shortTermStep, shortTermAdd, hids]
    split_ifs with hid
    · exact ⟨rfl, h⟩
    · refine ⟨by simp, ?_⟩
      rw [List.map_append, List.nodup_append]
      refine ⟨h, List.nodup_singleton _, fun a ha b hb hab => hid ?_⟩
      obtain rfl : b = newId := List.mem_singleton.1 hb
      exact hab ▸ ha
  · have hids (c : Curated) := updateRow_id id (fun _ => true) (reviewed now)
      (fun _ => rfl) c.row
    refine ⟨by simp [curatedStep, shortTermStep, shortTermReview, Curated.update], ?_⟩
    simpa [curatedStep, Function.comp_def, Curated.update, hids] using h
  · have hids (c : Curated) := updateRow_id id (·.archivedAt.isNone) (archived now)
      (fun _ => rfl) c.row
    refine ⟨by simp [curatedStep, shortTermStep, shortTermArchive, Curated.update], ?_⟩
    simpa [curatedStep, Function.comp_def, Curated.update, hids] using h

/-- Every table is that of entries with ids of their own. -/
theorem exists_curated (es : List ShortTermEvent) :
    (es.foldl curatedStep []).map Curated.row = es.foldl shortTermStep [] ∧
      ((es.foldl curatedStep []).map (·.row.id)).Nodup := by
  induction es using List.reverseRecOn with
  | nil => exact ⟨rfl, List.nodup_nil⟩
  | append_singleton es e ih =>
    rw [List.foldl_concat, List.foldl_concat, ← ih.1]
    exact map_row_curatedStep ih.2 e

/-! ## What `LIKE` finds -/

theorem like_comma {s : List Char} : like [','] s = true ↔ s = [','] :=
  like_singleton (by decide) (by decide) (by decide)

/-- The pattern of a tag finds a run of the texts between the commas. -/
theorem like_tagPattern {tag joined : List Char} :
    like (tagPattern tag) (',' :: joined ++ [',']) = true ↔ ∃ run, run ≠ [] ∧
      run <:+: joined.splitOn ',' ∧ like tag ([','].intercalate run) = true := by
  have hpattern : tagPattern tag = '%' :: ((([','] ++ tag) ++ [',']) ++ ['%']) := rfl
  rw [hpattern, like_contains]
  simp only [like_append, like_comma]
  constructor
  · rintro ⟨_, hinfix, _, _, rfl, ⟨_, w, rfl, rfl, hw⟩, rfl⟩
    obtain ⟨run, hne, hrun, rfl⟩ := Lines.infix_between_iff.1 hinfix
    exact ⟨run, hne, hrun, hw⟩
  · rintro ⟨run, hne, hrun, hw⟩
    refine ⟨_, Lines.infix_between_iff.2 ⟨run, hne, hrun, rfl⟩, _, _, rfl, ⟨_, _, rfl, rfl, hw⟩,
      rfl⟩

theorem tagClause_iff (tag : List Char) (c : Curated) :
    tagClause (some tag) c.row = true ↔ c.ReadsAs tag := by
  rw [tagClause, Bool.or_eq_true, List.isEmpty_iff, c.joined, like_tagPattern]
  rfl

instance (tag : List Char) (c : Curated) : Decidable (c.ReadsAs tag) :=
  decidable_of_iff _ (tagClause_iff tag c)

/-- A tag without blanks around it is found where it was given. -/
theorem Curated.readsAs_of_mem {tag : List Char} {c : Curated} (h : tag ∈ c.tags)
    (hstrip : strip tag = tag) : c.ReadsAs tag := by
  by_cases hnil : tag = []
  · exact .inl hnil
  · right
    have hmem : tag ∈ (c.tags.filter (strip · ≠ [])).map strip :=
      List.mem_map.2 ⟨tag, List.mem_filter.2 ⟨h, by simpa [hstrip] using hnil⟩, hstrip⟩
    have hne := List.ne_nil_of_mem hmem
    obtain ⟨before, behind, hsplit⟩ := List.append_of_mem hmem
    refine ⟨tag.splitOn ',', List.splitOn_ne_nil _ _, ?_, ?_⟩
    · rw [texts, joinTags, Lines.splitOn_intercalate_eq_flatMap hne, hsplit, List.flatMap_append,
        List.flatMap_cons]
      exact ⟨before.flatMap (List.splitOn ','), behind.flatMap (List.splitOn ','),
        List.append_assoc ..⟩
    · rw [List.intercalate_splitOn]
      exact like_self tag

/-! ## What is listed -/

section
variable {α : Type*} {m p : α → Bool} {l : List α} {n : ℕ}

theorem forall_split_cons {Q : List α → α → Prop} {x : α} :
    (∀ a c b, x :: l = a ++ c :: b → Q a c) ↔
      Q [] x ∧ ∀ a c b, l = a ++ c :: b → Q (x :: a) c := by
  constructor
  · intro h
    refine ⟨h [] x l rfl, ?_⟩
    rintro a c b rfl
    exact h (x :: a) c b rfl
  · rintro ⟨hx, h⟩ a c b heq
    rcases a with _ | ⟨y, a⟩
    · obtain ⟨rfl, -⟩ := List.cons.inj heq
      exact hx
    · obtain ⟨rfl, hl⟩ := List.cons.inj heq
      exact h a c b hl

/-- The first `n` with `m` are those with `p` exactly if these have `m`, are not more than `n`, and
any other with `m` is behind `n` of them. -/
theorem take_filter_eq_filter_iff : (l.filter m).take n = l.filter p ↔
    (∀ x ∈ l, p x = true → m x = true) ∧ (l.filter p).length ≤ n ∧
      ∀ a c b, l = a ++ c :: b → m c = true → p c = false → n ≤ (a.filter p).length := by
  induction l generalizing n with
  | nil => simp
  | cons x l ih =>
    rw [forall_split_cons, List.forall_mem_cons]
    rcases hp : p x with _ | _
    · rcases hm : m x with _ | _
      · simp [hp, hm, ih]
      · rcases n with _ | n
        · have hnone : (∀ a ∈ l, p a = false) → ∀ x ∈ l, p x = true → m x = true := by
            intro hall x hx hpx
            rw [hall x hx] at hpx
            cases hpx
          simpa [hp, hm] using hnone
        · have hne : x :: (l.filter m).take n ≠ l.filter p := by
            intro heq
            have hx : x ∈ l.filter p := heq ▸ List.mem_cons_self
            rw [(List.mem_filter.1 hx).2] at hp
            cases hp
          simp [hp, hm, hne]
    · rcases hm : m x with _ | _
      · have hne : (l.filter m).take n ≠ x :: l.filter p := by
          intro heq
          have hx : x ∈ (l.filter m).take n := heq ▸ List.mem_cons_self
          rw [(List.mem_filter.1 (List.mem_of_mem_take hx)).2] at hm
          cases hm
        simp [hp, hm, hne]
      · rcases n with _ | n
        · simp [hp, hm]
        · simp [hp, hm, ih]

end

/-- The active entries, the latest first. -/
def listing (entries : List Curated) : List Curated :=
  (entries.filter Curated.active).insertionSort fun a b => b.row.promotedAt ≤ a.row.promotedAt

theorem listing_perm (entries : List Curated) :
    (listing entries).Perm (entries.filter Curated.active) :=
  List.perm_insertionSort _ _

/-- What is listed for a tag : of the active entries, those that read as it, up to the limit. -/
theorem shortTermList_eq (entries : List Curated) (tag : List Char) :
    shortTermList (entries.map Curated.row) (some tag) false 100 =
      (((listing entries).filter (Curated.ReadsAs tag)).take 100).map fun c => c.row.entry := by
  have : Std.Total fun a b : Curated => b.row.promotedAt ≤ a.row.promotedAt :=
    ⟨fun a b => le_total b.row.promotedAt a.row.promotedAt⟩
  have : IsTrans Curated fun a b => b.row.promotedAt ≤ a.row.promotedAt :=
    ⟨fun _ _ _ h h' => h'.trans h⟩
  have hkept : (entries.map Curated.row).filter
      (fun r => (false || r.archivedAt.isNone) && tagClause (some tag) r) =
      ((entries.filter Curated.active).filter (Curated.ReadsAs tag)).map Curated.row := by
    rw [List.filter_map, List.filter_filter]
    congr 1
    refine List.filter_congr fun c _ => ?_
    rw [Function.comp_apply, Bool.false_or, Bool.and_comm]
    congr 1
    exact Bool.eq_iff_iff.2 ((tagClause_iff tag c).trans decide_eq_true_iff.symm)
  have hsorted (l : List Curated) : newestRows (l.map Curated.row) =
      (l.insertionSort fun a b => b.row.promotedAt ≤ a.row.promotedAt).map Curated.row :=
    (List.map_insertionSort _ _ Curated.row l fun _ _ _ _ => Iff.rfl).symm
  rw [shortTermList, hkept, hsorted, ← StableSort.filter_insertionSort, limitRows,
    if_neg (by decide), ← List.map_take, List.map_map]
  rfl

/-- What is listed for the tag is the active entries that were given it. -/
def ListsTagged (entries : List Curated) (tag : List Char) : Prop :=
  ∀ c ∈ entries,
    c.row.id ∈ (shortTermList (entries.map Curated.row) (some tag) false 100).map
      ShortTermEntry.id ↔ c.active = true ∧ tag ∈ c.tags

/-- Whether an entry was given the tag. -/
def Curated.tagged (tag : List Char) (c : Curated) : Bool :=
  c.tags.contains tag

/-- What is listed for a tag is the active entries with the tag exactly if each of them has a run
of texts that `LIKE` takes for the tag, they are at most a hundred, and any other active entry with
such a run is behind a hundred of them. -/
theorem shortTermList_tagged_iff (entries : List Curated)
    (h : (entries.map (·.row.id)).Nodup) (tag : List Char) :
    ListsTagged entries tag ↔
      (∀ c ∈ listing entries, c.tagged tag = true → c.ReadsAs tag) ∧
        ((listing entries).filter (Curated.tagged tag)).length ≤ 100 ∧
          ∀ before c behind, listing entries = before ++ c :: behind → c.ReadsAs tag →
            c.tagged tag = false → 100 ≤ (before.filter (Curated.tagged tag)).length := by
  have hmem (c : Curated) : c ∈ listing entries ↔ c ∈ entries ∧ c.active = true :=
    (listing_perm entries).mem_iff.trans List.mem_filter
  have hnodup : (listing entries).Nodup :=
    (listing_perm entries).nodup_iff.2 (List.Nodup.of_map _ h |>.filter _)
  set found := ((listing entries).filter (Curated.ReadsAs tag)).take 100 with hfound
  have hsub : ∀ c ∈ found, c ∈ entries := fun c hc =>
    ((hmem c).1 (List.mem_of_mem_filter (List.mem_of_mem_take hc))).1
  have hid : ∀ c ∈ entries, (c.row.id ∈ (shortTermList (entries.map Curated.row) (some tag) false
      100).map ShortTermEntry.id ↔ c ∈ found) := by
    intro c hc
    rw [shortTermList_eq, List.map_map]
    refine ⟨fun hmem => ?_, fun hmem => List.mem_map_of_mem hmem⟩
    obtain ⟨c', hc', heq⟩ := List.mem_map.1 hmem
    rwa [← List.inj_on_of_nodup_map h (hsub c' hc') hc heq]
  have hlists : ListsTagged entries tag ↔
      found = (listing entries).filter (Curated.tagged tag) := by
    constructor
    · intro hlists
      rw [hfound, (hnodup.filter _).take_eq_filter_mem, ← hfound, List.filter_filter]
      refine List.filter_congr fun c hc => ?_
      obtain ⟨hentry, hactive⟩ := (hmem c).1 hc
      have htagged : c ∈ found ↔ tag ∈ c.tags := by
        rw [← hid c hentry, hlists c hentry, hactive]
        simp
      have hreads : c ∈ found → c.ReadsAs tag := fun hc => by
        simpa using (List.mem_filter.1 (List.mem_of_mem_take hc)).2
      rw [Curated.tagged, Bool.eq_iff_iff, Bool.and_eq_true, decide_eq_true_iff,
        List.contains_iff_mem, List.elem_iff, htagged]
      exact and_iff_left_of_imp fun hc => hreads (htagged.2 hc)
    · intro heq c hc
      rw [hid c hc, heq, List.mem_filter, hmem]
      simp [hc, Curated.tagged]
  rw [hlists, take_filter_eq_filter_iff]
  simp

/-! ## A tag in capitals -/

/-- An entry with one tag. -/
def oneTag (tag : List Char) : Curated :=
  ⟨[tag], { text := "x", tags := [tag] : Promotion }.row "e1" 0, rfl⟩

theorem shortTermList_tagged_iff_one :
    ListsTagged [oneTag ['a']] ['a'] ↔
      (∀ c ∈ listing [oneTag ['a']], c.tagged ['a'] = true → c.ReadsAs ['a']) ∧
        ((listing [oneTag ['a']]).filter (Curated.tagged ['a'])).length ≤ 100 ∧
          ∀ before c behind, listing [oneTag ['a']] = before ++ c :: behind → c.ReadsAs ['a'] →
            c.tagged ['a'] = false → 100 ≤ (before.filter (Curated.tagged ['a'])).length :=
  shortTermList_tagged_iff [oneTag ['a']] (List.nodup_singleton _) ['a']

/-- The entry is listed for its tag in small letters, which it does not have. -/
theorem capitalTag_listed :
    ¬∀ (entries : List Curated) (tag : List Char), (entries.map (·.row.id)).Nodup →
      ListsTagged entries tag := by
  intro h
  have hlisted : "e1" ∈ (shortTermList ([oneTag ['A']].map Curated.row) (some ['a']) false
      100).map ShortTermEntry.id := by decide +kernel
  have htagged := (h [oneTag ['A']] ['a'] (List.nodup_singleton _) _ List.mem_cons_self).1 hlisted
  exact absurd htagged.2 (by decide)

end OxenClaw.Memory
