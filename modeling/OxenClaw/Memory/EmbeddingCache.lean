import Mathlib.Data.List.Forall2
import OxenClaw.Lib.Dict
import OxenClaw.Lib.Runs

/-!
# The cache of embeddings

`embed` looks every text up, embeds the texts it did not find in one batch and puts their vectors
back by position. A table whose rows are vectors of the providers (`CacheTable.Sound`) gives a
vector or nothing, and stays such a table, so that the cache answers as the provider does
(`embed_refines_provider`).

Texts are hashed and vectors stored by functions that are parameters (`EmbeddingHost`), and a float
is whatever `α` is.
-/

namespace OxenClaw.Memory

/-- What the cache depends on besides its arguments. -/
structure EmbeddingHost (α β : Type*) where
  /-- `sha256_text`. -/
  sha256Text : String → String
  /-- `_encode_vector`. -/
  encodeVector : List α → β
  /-- `struct.unpack` of so many floats. -/
  unpack : ℕ → β → List α
  /-- `abs(x) > 1e-6`. -/
  nonTrivial : α → Bool

structure EmbeddingProvider (α : Type*) where
  providerName : String
  model : String
  embed : List String → List (List α)

/-- A row of `embedding_cache`, without its key. -/
structure CacheRow (β : Type*) where
  embedding : β
  dims : ℕ

/-- `embedding_cache`, by provider, model and content hash. -/
abbrev CacheTable (β : Type*) := Dict (String × String × String) (CacheRow β)

variable {α β : Type*} (host : EmbeddingHost α β)

def cacheGet (t : CacheTable β) (provider model contentHash : String) : Option (List α) :=
  (t.get? (provider, model, contentHash)).map fun row => host.unpack row.dims row.embedding

def cachePutMany (t : CacheTable β) (provider model : String) (items : List (String × List α)) :
    CacheTable β :=
  items.foldl (fun t e =>
    t.set (provider, model, e.1) ⟨host.encodeVector e.2, e.2.length⟩) t

/-- `_is_meaningful_vector`. -/
def isMeaningfulVector (vec : List α) : Bool :=
  vec.any host.nonTrivial

/-- A text that is not cached. -/
structure Miss where
  idx : ℕ
  text : String
  hash : String

/-- What the first loop of `embed` has found. -/
structure Scan (α : Type*) where
  out : List (Option (List α))
  misses : List Miss := []
  hits : ℕ := 0

/-- One round of the first loop. -/
def scanStep (cached : String → Option (List α)) (s : Scan α) (e : String × ℕ) : Scan α :=
  let h := host.sha256Text e.1
  match cached h with
  | some vec => { s with out := s.out.set e.2 (some vec), hits := s.hits + 1 }
  | none => { s with misses := s.misses ++ [⟨e.2, e.1, h⟩] }

/-- The first loop. -/
def scanTexts (t : CacheTable β) (p : EmbeddingProvider α) (texts : List String) : Scan α :=
  texts.zipIdx.foldl (scanStep host (cacheGet host t p.providerName p.model))
    { out := List.replicate texts.length none }

/-- What the second loop has filled in. -/
structure Filled (α : Type*) where
  out : List (Option (List α))
  putBatch : List (String × List α) := []

/-- One round of the second loop. -/
def fillStep (s : Filled α) (e : Miss × List α) : Filled α :=
  { out := s.out.set e.1.idx (some e.2)
    putBatch := if isMeaningfulVector host e.2 then s.putBatch ++ [(e.1.hash, e.2)]
      else s.putBatch }

/-- A call of `embed` on the cache of a provider, and what fails in it. -/
structure EmbedCall (α : Type*) where
  provider : EmbeddingProvider α
  texts : List String
  /-- The provider raises. -/
  providerRaises : Bool := false
  /-- The write raises behind so many rows. -/
  putFault : Option ℕ := none

/-- What `embed` returns, with `cache_hits`. -/
structure Embedded (α : Type*) where
  vectors : List (List α)
  cacheHits : ℕ
  deriving DecidableEq

/-- `EmbeddingCache.embed`, `none` where it raises. -/
def embed (t : CacheTable β) (c : EmbedCall α) : CacheTable β × Option (Embedded α) :=
  if c.texts = [] then (t, some ⟨[], 0⟩)
  else
    let p := c.provider
    let scan := scanTexts host t p c.texts
    if scan.misses = [] then (t, some ⟨scan.out.filterMap id, scan.hits⟩)
    else if c.providerRaises then (t, none)
    else
      let fresh := p.embed (scan.misses.map Miss.text)
      if scan.misses.length ≠ fresh.length then (t, none)
      else
        let filled := (scan.misses.zip fresh).foldl (fillStep host) { out := scan.out }
        match c.putFault with
        | some n => (cachePutMany host t p.providerName p.model (filled.putBatch.take n), none)
        | none => (cachePutMany host t p.providerName p.model filled.putBatch,
            some ⟨filled.out.filterMap id, scan.hits⟩)

/-! ## The providers without a cache -/

/-- Providers of one name and model give every text one vector, in any batch. -/
def Pure (vector : String → String → String → List α) (p : EmbeddingProvider α) : Prop :=
  ∀ texts, p.embed texts = texts.map (vector p.providerName p.model)

/-- The call goes to the provider. -/
def embedDirectly (c : EmbedCall α) : List (List α) :=
  c.provider.embed c.texts

/-- What is returned is what the provider gives, and something is unless a part fails. -/
def AnswersAs (c : EmbedCall α) (result : Option (Embedded α)) : Prop :=
  (∀ r ∈ result, r.vectors = embedDirectly c) ∧
    (c.providerRaises = false → c.putFault = none → result.isSome)

/-! ## Soundness of the table -/

/-- Every row is the vector of a text with the hash. -/
def CacheTable.Sound (vector : String → String → String → List α) (t : CacheTable β) : Prop :=
  ∀ provider model contentHash row, t.get? (provider, model, contentHash) = some row →
    ∃ text, host.sha256Text text = contentHash ∧
      host.unpack row.dims row.embedding = vector provider model text

variable {host} {vector : String → String → String → List α} {t : CacheTable β}

theorem CacheTable.Sound.cacheGet (h : t.Sound host vector)
    (hhash : Function.Injective host.sha256Text) {provider model text : String} {vec : List α}
    (hget : cacheGet host t provider model (host.sha256Text text) = some vec) :
    vec = vector provider model text := by
  obtain ⟨row, hrow, rfl⟩ := Option.map_eq_some_iff.1 hget
  obtain ⟨text', htext, hvec⟩ := h _ _ _ _ hrow
  rw [hvec, hhash htext]

theorem CacheTable.Sound.cachePutMany (h : t.Sound host vector)
    (hcodec : ∀ vec, host.unpack vec.length (host.encodeVector vec) = vec)
    {provider model : String} {items : List (String × List α)}
    (hitems : ∀ e ∈ items, ∃ text, host.sha256Text text = e.1 ∧ e.2 = vector provider model text) :
    (cachePutMany host t provider model items).Sound host vector := by
  rw [Memory.cachePutMany]
  induction items generalizing t with
  | nil => exact h
  | cons e items ih =>
    refine ih ?_ fun e' he' => hitems e' (List.mem_cons_of_mem _ he')
    obtain ⟨text, htext, hvec⟩ := hitems e List.mem_cons_self
    intro provider' model' contentHash row hrow
    rw [Dict.get?_set] at hrow
    split_ifs at hrow with hkey
    · obtain rfl := Option.some.inj hrow
      obtain ⟨rfl, hrest⟩ := Prod.mk.inj hkey
      obtain ⟨rfl, rfl⟩ := Prod.mk.inj hrest
      exact ⟨text, htext, (hcodec e.2).trans hvec⟩
    · exact h _ _ _ _ hrow

/-! ## The loops -/

section Loops

variable {texts : List String} {cached : String → Option (List α)}

/-- The first loop after some of the texts : what is found stands at the position of its text, and
what is not is a miss. -/
structure Scanned (host : EmbeddingHost α β) (texts : List String)
    (cached : String → Option (List α)) (s : Scan α) (n : ℕ) (rest : List String) : Prop where
  drop : texts.drop n = rest
  length : s.out.length = texts.length
  out : ∀ i text, texts[i]? = some text →
    s.out[i]? = some (if i < n then cached (host.sha256Text text) else none)
  missed : ∀ i < n, ∀ text, texts[i]? = some text → cached (host.sha256Text text) = none →
    ∃ m ∈ s.misses, m.idx = i
  misses : ∀ m ∈ s.misses, texts[m.idx]? = some m.text ∧ m.hash = host.sha256Text m.text

theorem Scanned.step {s : Scan α} {n : ℕ} {text : String} {rest : List String}
    (h : Scanned host texts cached s n (text :: rest)) :
    Scanned host texts cached (scanStep host cached s (text, n)) (n + 1) rest := by
  have htext : texts[n]? = some text := by
    rw [← List.head?_drop, h.drop, List.head?_cons]
  have hn : n < s.out.length := h.length ▸ (List.getElem?_eq_some_iff.1 htext).1
  have hdrop : texts.drop (n + 1) = rest := by
    rw [← List.drop_drop, h.drop, List.drop_one, List.tail_cons]
  unfold scanStep
  dsimp only
  rcases hcached : cached (host.sha256Text text) with _ | vec
  · refine ⟨hdrop, h.length, fun i text' hi => ?_, fun i hi text' hi' hnone => ?_, fun m hm => ?_⟩
    · rw [h.out i text' hi]
      rcases Nat.lt_trichotomy i n with hlt | rfl | hgt
      · rw [if_pos hlt, if_pos (by omega)]
      · obtain rfl := Option.some.inj (htext.symm.trans hi)
        rw [if_neg (Nat.lt_irrefl _), if_pos (Nat.lt_succ_self _), hcached]
      · rw [if_neg (by omega), if_neg (by omega)]
    · rcases Nat.lt_succ_iff_lt_or_eq.1 hi with hlt | rfl
      · obtain ⟨m, hm, hidx⟩ := h.missed i hlt text' hi' hnone
        exact ⟨m, List.mem_append_left _ hm, hidx⟩
      · exact ⟨_, List.mem_append_right _ (List.mem_singleton_self _), rfl⟩
    · rcases List.mem_append.1 hm with hm | hm
      · exact h.misses m hm
      · rw [List.mem_singleton.1 hm]
        exact ⟨htext, rfl⟩
  · refine ⟨hdrop, (List.length_set).trans h.length, fun i text' hi => ?_,
      fun i hi text' hi' hnone => ?_, h.misses⟩
    · rcases eq_or_ne i n with rfl | hne
      · obtain rfl := Option.some.inj (htext.symm.trans hi)
        rw [List.getElem?_set_self hn, if_pos (Nat.lt_succ_self _), hcached]
      · rw [List.getElem?_set_ne hne.symm, h.out i text' hi]
        congr 1
        exact if_congr (by omega) rfl rfl
    · rcases Nat.lt_succ_iff_lt_or_eq.1 hi with hlt | rfl
      · exact h.missed i hlt text' hi' hnone
      · obtain rfl := Option.some.inj (htext.symm.trans hi')
        rw [hcached] at hnone
        cases hnone

theorem scanned (host : EmbeddingHost α β) (t : CacheTable β) (p : EmbeddingProvider α)
    (texts : List String) : Scanned host texts (cacheGet host t p.providerName p.model)
      (scanTexts host t p texts) texts.length [] := by
  have hstart : Scanned host texts (cacheGet host t p.providerName p.model)
      { out := List.replicate texts.length none } 0 texts := by
    refine ⟨rfl, List.length_replicate, fun i text hi => ?_, fun i hi => absurd hi (by omega),
      fun m hm => absurd hm List.not_mem_nil⟩
    rw [if_neg (Nat.not_lt_zero i),
      List.getElem?_replicate_of_lt (List.getElem?_eq_some_iff.1 hi).1]
  have hend := foldl_zipIdx_remaining
    (I := fun s n rest => Scanned host texts (cacheGet host t p.providerName p.model) s n rest)
    (fun _ _ _ _ h => h.step) hstart
  rwa [Nat.zero_add] at hend

/-- The second loop with some misses left : a position holds the vector of its text, unless it is
that of a miss. -/
structure Filling (host : EmbeddingHost α β) (texts : List String) (vec : String → List α)
    (s : Filled α) (rest : List (Miss × List α)) : Prop where
  length : s.out.length = texts.length
  out : ∀ i text, texts[i]? = some text →
    s.out[i]? = some (some (vec text)) ∨ s.out[i]? = some none ∧ ∃ e ∈ rest, e.1.idx = i
  rest : ∀ e ∈ rest, texts[e.1.idx]? = some e.1.text ∧ e.1.hash = host.sha256Text e.1.text ∧
    e.2 = vec e.1.text
  putBatch : ∀ e ∈ s.putBatch, ∃ text, host.sha256Text text = e.1 ∧ e.2 = vec text

theorem Filling.step {vec : String → List α} {s : Filled α} {e : Miss × List α}
    {rest : List (Miss × List α)} (h : Filling host texts vec s (e :: rest)) :
    Filling host texts vec (fillStep host s e) rest := by
  obtain ⟨hidx, hhash, hvec⟩ := h.rest e List.mem_cons_self
  have hlt : e.1.idx < s.out.length := h.length ▸ (List.getElem?_eq_some_iff.1 hidx).1
  refine ⟨(List.length_set).trans h.length, fun i text hi => ?_,
    fun e' he' => h.rest e' (List.mem_cons_of_mem _ he'), fun e' he' => ?_⟩
  · unfold fillStep
    dsimp only
    rcases eq_or_ne i e.1.idx with rfl | hne
    · obtain rfl := Option.some.inj (hidx.symm.trans hi)
      rw [List.getElem?_set_self hlt, hvec]
      exact Or.inl rfl
    · rw [List.getElem?_set_ne hne.symm]
      refine (h.out i text hi).imp_right fun ⟨hnone, e', he', hi'⟩ => ⟨hnone, e', ?_, hi'⟩
      refine (List.mem_cons.1 he').resolve_left ?_
      rintro rfl
      exact hne hi'.symm
  · unfold fillStep at he'
    dsimp only at he'
    split_ifs at he'
    · rcases List.mem_append.1 he' with he' | he'
      · exact h.putBatch e' he'
      · rw [List.mem_singleton.1 he']
        exact ⟨e.1.text, hhash.symm, hvec⟩
    · exact h.putBatch e' he'

/-- With nothing left, every text has its vector. -/
theorem Filling.vectors {vec : String → List α} {s : Filled α}
    (h : Filling host texts vec s []) : s.out.filterMap id = texts.map vec := by
  have hout : s.out = texts.map fun text => some (vec text) := by
    refine List.ext_getElem? fun i => ?_
    rw [List.getElem?_map]
    rcases hi : texts[i]? with _ | text
    · rw [List.getElem?_eq_none_iff] at hi
      exact List.getElem?_eq_none_iff.2 (h.length ▸ hi)
    · rcases h.out i text hi with hsome | ⟨-, e, he, -⟩
      · exact hsome
      · exact absurd he List.not_mem_nil
  rw [hout, List.filterMap_map]
  exact congrFun List.filterMap_eq_map texts

/-- Behind the first loop, what is found is right, and what is not found is owed by a miss. -/
theorem CacheTable.Sound.filling (h : t.Sound host vector)
    (hhash : Function.Injective host.sha256Text) (p : EmbeddingProvider α) (texts : List String) :
    Filling host texts (vector p.providerName p.model) { out := (scanTexts host t p texts).out }
      ((scanTexts host t p texts).misses.map fun m =>
        (m, vector p.providerName p.model m.text)) := by
  have hscan := scanned host t p texts
  refine ⟨hscan.length, fun i text hi => ?_, fun e he => ?_,
    fun e he => absurd he List.not_mem_nil⟩
  · have hlt := (List.getElem?_eq_some_iff.1 hi).1
    have hout := hscan.out i text hi
    rw [if_pos hlt] at hout
    rcases hcached : Memory.cacheGet host t p.providerName p.model (host.sha256Text text) with
      _ | found
    · obtain ⟨m, hm, hidx⟩ := hscan.missed i hlt text hi hcached
      exact Or.inr ⟨hcached ▸ hout, _, List.mem_map_of_mem hm, hidx⟩
    · rw [hout, hcached, h.cacheGet hhash hcached]
      exact Or.inl rfl
  · obtain ⟨m, hm, rfl⟩ := List.mem_map.1 he
    exact ⟨(hscan.misses m hm).1, (hscan.misses m hm).2, rfl⟩

end Loops

/-! ## The cache and the provider -/

/-- A call keeps the table sound, and answers as the provider does. -/
theorem sound_embed (h : t.Sound host vector) (hhash : Function.Injective host.sha256Text)
    (hcodec : ∀ vec, host.unpack vec.length (host.encodeVector vec) = vec) {c : EmbedCall α}
    (hpure : Pure vector c.provider) :
    (embed host t c).1.Sound host vector ∧ AnswersAs c (embed host t c).2 := by
  have hdirect : embedDirectly c =
      c.texts.map (vector c.provider.providerName c.provider.model) := hpure c.texts
  have hstart := h.filling hhash c.provider c.texts
  unfold embed
  dsimp only
  by_cases hnil : c.texts = []
  · rw [if_pos hnil]
    refine ⟨h, fun r hr => ?_, fun _ _ => rfl⟩
    obtain rfl := Option.some.inj hr
    rw [hdirect, hnil, List.map_nil]
  rw [if_neg hnil]
  generalize scanTexts host t c.provider c.texts = scan at hstart ⊢
  by_cases hmisses : scan.misses = []
  · rw [if_pos hmisses]
    rw [hmisses, List.map_nil] at hstart
    refine ⟨h, fun r hr => ?_, fun _ _ => rfl⟩
    obtain rfl := Option.some.inj hr
    exact hstart.vectors.trans hdirect.symm
  rw [if_neg hmisses]
  by_cases hraises : c.providerRaises = true
  · rw [if_pos hraises]
    refine ⟨h, fun r hr => ?_, fun hfalse => ?_⟩
    · cases hr
    · rw [hraises] at hfalse
      cases hfalse
  have hfresh : c.provider.embed (scan.misses.map Miss.text) =
      scan.misses.map fun m => vector c.provider.providerName c.provider.model m.text := by
    rw [hpure, List.map_map]
    rfl
  have hzip : (scan.misses.zip (scan.misses.map fun m =>
      vector c.provider.providerName c.provider.model m.text)) =
      scan.misses.map fun m => (m, vector c.provider.providerName c.provider.model m.text) :=
    List.map_prod_left_eq_zip.symm
  rw [if_neg hraises, hfresh, if_neg (by simp), hzip]
  have hfilled := foldl_remaining (I := fun s rest => Filling host c.texts
    (vector c.provider.providerName c.provider.model) s rest) (fun _ _ _ h => h.step) hstart
  rcases hfault : c.putFault with _ | n
  · refine ⟨h.cachePutMany hcodec hfilled.putBatch, fun r hr => ?_, fun _ _ => rfl⟩
    obtain rfl := Option.some.inj hr
    exact hfilled.vectors.trans hdirect.symm
  · refine ⟨h.cachePutMany hcodec fun e he => hfilled.putBatch e (List.mem_of_mem_take he),
      fun r hr => ?_, fun _ hnone => ?_⟩
    · cases hr
    · rw [hfault] at hnone
      cases hnone

/-- Calls of any caches over one table, from an empty one on, return what their providers give for
the same texts. -/
theorem embed_refines_provider (host : EmbeddingHost α β)
    (vector : String → String → String → List α) (hhash : Function.Injective host.sha256Text)
    (hcodec : ∀ vec, host.unpack vec.length (host.encodeVector vec) = vec)
    (calls : List (EmbedCall α)) (hpure : ∀ c ∈ calls, Pure vector c.provider) :
    List.Forall₂ AnswersAs calls (outputs (embed host) [] calls) := by
  have hrun : ∀ t : CacheTable β, t.Sound host vector →
      List.Forall₂ AnswersAs calls (outputs (embed host) t calls) := by
    induction calls with
    | nil => exact fun _ _ => .nil
    | cons c calls ih =>
      intro t h
      obtain ⟨hsound, hanswer⟩ := sound_embed h hhash hcodec (hpure c List.mem_cons_self)
      exact .cons hanswer (ih (fun c' hc' => hpure c' (List.mem_cons_of_mem _ hc')) _ hsound)
  refine hrun [] fun _ _ _ row hrow => ?_
  cases hrow

/-- A provider that gives the length of a text. -/
def lengthProvider : EmbeddingProvider ℕ where
  providerName := "p"
  model := "m"
  embed texts := texts.map fun text => [text.length]

/-- Hashes that are the texts, and rows that are the vectors. -/
def plainHost : EmbeddingHost ℕ (List ℕ) where
  sha256Text := id
  encodeVector := id
  unpack _ vec := vec
  nonTrivial n := n ≠ 0

/-- A text that is embedded twice in a batch and found in the next one, between others. -/
theorem embed_refines_provider_lengths :
    List.Forall₂ AnswersAs
      [⟨lengthProvider, ["ab", "c", "ab"], false, none⟩,
        ⟨lengthProvider, ["d", "ab", "", "c"], false, none⟩]
      (outputs (embed plainHost) []
        [⟨lengthProvider, ["ab", "c", "ab"], false, none⟩,
          ⟨lengthProvider, ["d", "ab", "", "c"], false, none⟩]) := by
  refine embed_refines_provider plainHost (fun _ _ text => [text.length]) (fun _ _ h => h)
    (fun _ => rfl) _ fun c hc => ?_
  obtain rfl | rfl : c = _ ∨ c = _ := by simpa using hc
  · exact fun _ => rfl
  · exact fun _ => rfl

example : outputs (embed plainHost) [] [⟨lengthProvider, ["ab", "c", "ab"], false, none⟩,
    ⟨lengthProvider, ["d", "ab", "", "c"], false, none⟩] =
    [some ⟨[[2], [1], [2]], 0⟩, some ⟨[[1], [2], [0], [1]], 2⟩] := by decide +kernel

end OxenClaw.Memory
