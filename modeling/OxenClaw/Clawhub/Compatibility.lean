import OxenClaw.Lib.Dict
import OxenClaw.Lib.JsonValue

/-!
# What a skill requires

The frontmatter of a `SKILL.md` is read twice. `parse_skill_text` moves the block of `metadata` to
the top level and has the model validated; `check_skill_dict_compatibility` takes the block
`_walk_manifest` finds in what a registry sends. Operating systems, binaries and environment
variables are the same in both readings exactly if the blocks that the readers choose between agree
where both are there, and `anyBins` is not an empty list before another `any_bins`
(`requirements_eq_iff`).

The validation is a parameter. What is relied on is that a manifest has been validated field by
field as its model declares (`Validated`).
-/

namespace OxenClaw.Clawhub

open CodePoints

/-- A mapping, in the order of its keys. -/
abbrev Fields := Dict CodePoints JsonValue

/-- `d.get(key)`. -/
def field (d : Fields) (key : String) : Option JsonValue :=
  d.get? (lit key)

/-- `x or y`, of what `get` gives. -/
def pyOr (x y : Option JsonValue) : Option JsonValue :=
  match x with
  | some v => if v.truthy then some v else y
  | none => y

/-- `v if isinstance(v, dict) else None`. -/
def asDict : Option JsonValue → Option Fields
  | some (.obj fields) => some fields
  | _ => none

/-- `v if isinstance(v, list) else []`. -/
def asList : Option JsonValue → List JsonValue
  | some (.arr xs) => xs
  | _ => []

/-- The four lists of a block. -/
structure Requirements where
  os : List JsonValue := []
  bins : List JsonValue := []
  anyBins : List JsonValue := []
  env : List JsonValue := []

/-! ## The compatibility check -/

/-- `_metadata_oc_block`. -/
def metadataOcBlock (d : Fields) : Option Fields := do
  let md ← asDict (field d "metadata")
  asDict (field md "openclaw") <|> asDict (field md "clawdbot")

/-- The block of a manifest, at either level of a payload. -/
def manifestBlock (manifest : Option JsonValue) : Option Fields := do
  let m ← asDict manifest
  asDict (pyOr (field m "openclaw") ((metadataOcBlock m).map .obj))

/-- `_walk_manifest`. -/
def walkManifest (skill : Fields) : Option Fields :=
  ((asDict (field skill "latestVersion")).bind fun lv =>
      manifestBlock (field lv "manifest"))
    <|> manifestBlock (field skill "manifest")
    <|> asDict (field skill "openclaw")
    <|> metadataOcBlock skill
    <|> if (field skill "requires").isSome || (field skill "os").isSome then some skill
      else none

/-- What `check_skill_dict_compatibility` reads from a block. -/
def readBlock (block : Fields) : Requirements :=
  let requires := (asDict (pyOr (field block "requires") (some (.obj [])))).getD []
  { os := asList (pyOr (field block "os") (some (.arr [])))
    bins := asList (pyOr (field requires "bins") (some (.arr [])))
    anyBins := asList (pyOr (pyOr (field requires "anyBins") (field requires "any_bins"))
      (some (.arr [])))
    env := asList (pyOr (field requires "env") (some (.arr []))) }

/-- What `check_skill_dict_compatibility` hands to `check_compatibility`. -/
def checkedRequirements (skill : Fields) : Requirements :=
  readBlock ((walkManifest skill).getD [])

/-! ## The manifest -/

/-- `SkillRequires`. -/
structure SkillRequires where
  bins : List CodePoints := []
  anyBins : List CodePoints := []
  env : List CodePoints := []
  config : List CodePoints := []

/-- `SkillOpenClawMetadata`, as far as it is read here. -/
structure SkillOpenClawMetadata where
  os : List CodePoints := []
  requires : SkillRequires := {}

/-- `SkillManifest`, as far as it is read here. -/
structure SkillManifest where
  openclaw : SkillOpenClawMetadata := {}

def SkillManifest.requirements (m : SkillManifest) : Requirements where
  os := m.openclaw.os.map .str
  bins := m.openclaw.requires.bins.map .str
  anyBins := m.openclaw.requires.anyBins.map .str
  env := m.openclaw.requires.env.map .str

/-- `data` as it is validated, with the block of `metadata` at the top level. -/
def promote (data : Fields) : Fields :=
  let rest := data.erase (lit "metadata")
  match asDict (field data "metadata") with
  | some md =>
    match asDict (pyOr (field md "openclaw") (field md "clawdbot")) with
    | some block => rest.set (lit "openclaw") (.obj block)
    | none => rest
  | none => rest

/-- `parse_skill_text`, once the frontmatter is loaded. `none` where it raises. -/
def parseLoaded (validate : Fields → Option SkillManifest) (loaded : JsonValue) :
    Option SkillManifest :=
  match if loaded.truthy then loaded else .obj [] with
  | .obj data => validate (promote data)
  | _ => none

def str? : JsonValue → Option CodePoints
  | .str s => some s
  | _ => none

/-- A field `list[str] = Field(default_factory=list)`, `none` where it is not valid. -/
def listField : Option JsonValue → Option (List CodePoints)
  | none => some []
  | some (.arr xs) => xs.mapM str?
  | some _ => none

/-- The fields of `SkillRequires`, with the alias of `any_bins`. -/
def requiresField : Option JsonValue → Option SkillRequires
  | none => some {}
  | some (.obj q) => do
    let bins ← listField (field q "bins")
    let anyBins ← listField (field q "anyBins" <|> field q "any_bins")
    let env ← listField (field q "env")
    let config ← listField (field q "config")
    return { bins, anyBins, env, config }
  | some _ => none

/-- The field `openclaw` of `SkillManifest`. -/
def openclawField : Option JsonValue → Option SkillOpenClawMetadata
  | none => some {}
  | some (.obj b) => do
    let os ← listField (field b "os")
    let requires ← requiresField (field b "requires")
    return { os, requires }
  | some _ => none

/-- What is accepted has been validated field by field. -/
def Validated (validate : Fields → Option SkillManifest) : Prop :=
  ∀ data m, validate data = some m →
    openclawField (field data "openclaw") = some m.openclaw

/-! ## Which block is read -/

/-- The payload of a registry. -/
def payload (data : Fields) : Fields :=
  [(lit "manifest", .obj data)]

def metadataField (data : Fields) (key : String) : Option JsonValue :=
  (asDict (field data "metadata")).bind fun md => field md key

/-- The block of `metadata` that replaces the one at the top level. -/
def promoted (data : Fields) : Option Fields :=
  asDict (pyOr (metadataField data "openclaw") (metadataField data "clawdbot"))

/-- There is a block at the top level, and not an empty one. -/
def HasTop (data : Fields) : Prop :=
  ((field data "openclaw").any JsonValue.truthy) = true

instance (data : Fields) : Decidable (HasTop data) :=
  inferInstanceAs (Decidable (_ = true))

/-- The block `requires` of a block. -/
def requiresOf (block : Fields) : Fields :=
  (asDict (field block "requires")).getD []

/-- The lists of a block as its fields are declared. -/
def declared (block : Fields) : Requirements :=
  let requires := requiresOf block
  { os := asList (field block "os")
    bins := asList (field requires "bins")
    anyBins := asList (field requires "anyBins" <|> field requires "any_bins")
    env := asList (field requires "env") }

/-- An empty `anyBins` beside a list `any_bins` that is not empty. -/
def EmptyAlias (block : Fields) : Prop :=
  ∃ q x xs, asDict (field block "requires") = some q ∧
    field q "anyBins" = some (.arr []) ∧ field q "any_bins" = some (.arr (x :: xs))

/-- The block that both readers take. -/
def common (data : Fields) : Option Fields :=
  if HasTop data then
    if (promoted data).isSome then none else asDict (field data "openclaw")
  else
    match asDict (metadataField data "openclaw") with
    | some b => if b.isEmpty then none else some b
    | none =>
      if (metadataField data "openclaw").any JsonValue.truthy then none
      else asDict (metadataField data "clawdbot")

/-- Where the readers take different blocks these say the same, and where they take one it has no
empty alias. -/
structure Agree (data : Fields) : Prop where
  /-- A block at the top level beside one of `metadata`. -/
  beside : HasTop data → ∀ b, promoted data = some b →
    readBlock ((asDict (field data "openclaw")).getD []) = declared b
  /-- An empty `metadata.openclaw` before a `metadata.clawdbot`. -/
  emptyBlock : ¬HasTop data → asDict (metadataField data "openclaw") = some [] →
    ∀ b, asDict (metadataField data "clawdbot") = some b → declared b = {}
  /-- A `metadata.openclaw` that is no mapping before a `metadata.clawdbot`. -/
  noMapping : ¬HasTop data → (metadataField data "openclaw").any JsonValue.truthy = true →
    asDict (metadataField data "openclaw") = none →
      ∀ b, asDict (metadataField data "clawdbot") = some b → readBlock b = {}
  noAlias : ∀ b, common data = some b → ¬EmptyAlias b

/-! ## The lists of a block -/

theorem pyOr_of_truthy {v : JsonValue} (h : v.truthy = true) (y : Option JsonValue) :
    pyOr (some v) y = some v :=
  if_pos h

theorem pyOr_of_not_truthy {x : Option JsonValue} (h : x.any JsonValue.truthy ≠ true)
    (y : Option JsonValue) : pyOr x y = y := by
  cases x with
  | none => rfl
  | some v => exact if_neg h

theorem eq_of_asDict {v : Option JsonValue} {b : Fields} (h : asDict v = some b) :
    v = some (.obj b) := by
  rcases v with _ | v
  · cases h
  · cases v with
    | obj b' => rw [Option.some.inj h]
    | _ => cases h

/-- A default for what is falsy is no matter. -/
theorem asList_pyOr_nil (v : Option JsonValue) : asList (pyOr v (some (.arr []))) = asList v := by
  rcases v with _ | v
  · rfl
  · rw [pyOr]
    split_ifs with h
    · rfl
    · rcases v with _ | _ | _ | _ | _ | (_ | _) | _
      all_goals first | rfl | exact absurd rfl h

theorem asDict_pyOr_nil (v : Option JsonValue) :
    (asDict (pyOr v (some (.obj [])))).getD [] = (asDict v).getD [] := by
  rcases v with _ | v
  · rfl
  · rw [pyOr]
    split_ifs with h
    · rfl
    · rcases v with _ | _ | _ | _ | _ | _ | (_ | _)
      all_goals first | rfl | exact absurd rfl h

theorem asList_of_mapM {xs : List JsonValue} {ss : List CodePoints} (h : xs.mapM str? = some ss) :
    xs = ss.map .str := by
  induction xs generalizing ss with
  | nil =>
    obtain rfl := Option.some.inj h
    rfl
  | cons x xs ih =>
    rw [List.mapM_cons] at h
    obtain ⟨s, hs, h⟩ := Option.bind_eq_some_iff.1 h
    obtain ⟨ss', hss, h⟩ := Option.bind_eq_some_iff.1 h
    obtain rfl := Option.some.inj h
    obtain rfl : x = .str s := by
      cases x <;> simp_all [str?]
    rw [ih hss, List.map_cons]

theorem asList_of_listField {v : Option JsonValue} {ss : List CodePoints}
    (h : listField v = some ss) : asList v = ss.map .str := by
  rcases v with _ | v
  · obtain rfl := Option.some.inj h
    rfl
  · cases v with
    | arr xs => exact asList_of_mapM h
    | _ => cases h

/-- A list that is valid is missing or a list. -/
theorem listField_cases {v : Option JsonValue} {ss : List CodePoints} (h : listField v = some ss) :
    v = none ∨ ∃ xs, v = some (.arr xs) := by
  rcases v with _ | v
  · exact Or.inl rfl
  · cases v with
    | arr xs => exact Or.inr ⟨xs, rfl⟩
    | _ => cases h

/-- A valid block holds what it declares. -/
theorem requirements_of_openclawField {b : Fields} {m : SkillManifest}
    (h : openclawField (some (.obj b)) = some m.openclaw) : m.requirements = declared b := by
  obtain ⟨os, hos, h⟩ := Option.bind_eq_some_iff.1 h
  obtain ⟨requires, hrequires, h⟩ := Option.bind_eq_some_iff.1 h
  have hm := Option.some.inj h
  rw [SkillManifest.requirements, ← hm, declared, requiresOf, asList_of_listField hos]
  rcases hq : field b "requires" with _ | v
  · rw [hq] at hrequires
    obtain rfl := Option.some.inj hrequires
    rfl
  · rw [hq] at hrequires
    cases v with
    | obj q =>
      obtain ⟨bins, hbins, hrequires⟩ := Option.bind_eq_some_iff.1 hrequires
      obtain ⟨anyBins, hany, hrequires⟩ := Option.bind_eq_some_iff.1 hrequires
      obtain ⟨env, henv, hrequires⟩ := Option.bind_eq_some_iff.1 hrequires
      obtain ⟨config, -, hrequires⟩ := Option.bind_eq_some_iff.1 hrequires
      obtain rfl := Option.some.inj hrequires
      simp only [asDict, Option.getD_some, asList_of_listField hbins, asList_of_listField hany,
        asList_of_listField henv]
    | _ => cases hrequires

/-- The check reads what a valid block declares, unless it has an empty alias. -/
theorem readBlock_eq_declared_iff {b : Fields} {o : SkillOpenClawMetadata}
    (h : openclawField (some (.obj b)) = some o) : readBlock b = declared b ↔ ¬EmptyAlias b := by
  obtain ⟨os, -, h⟩ := Option.bind_eq_some_iff.1 h
  obtain ⟨requires, hrequires, -⟩ := Option.bind_eq_some_iff.1 h
  have hiff : readBlock b = declared b ↔
      asList (pyOr (field (requiresOf b) "anyBins") (field (requiresOf b) "any_bins")) =
        asList (field (requiresOf b) "anyBins" <|> field (requiresOf b) "any_bins") := by
    simp only [readBlock, declared, requiresOf, asDict_pyOr_nil, asList_pyOr_nil,
      Requirements.mk.injEq, true_and, and_true]
  rw [hiff, EmptyAlias, requiresOf]
  rcases hq : field b "requires" with _ | v
  · simp [asDict, pyOr, field]
  · rw [hq] at hrequires
    cases v with
    | obj q =>
      obtain ⟨bins, -, hrequires⟩ := Option.bind_eq_some_iff.1 hrequires
      obtain ⟨anyBins, hany, -⟩ := Option.bind_eq_some_iff.1 hrequires
      simp only [asDict, Option.getD_some, Option.some.injEq, exists_eq_left', exists_and_left]
      rcases halias : field q "anyBins" with _ | w
      · simp [pyOr]
      · rw [halias] at hany
        obtain h | ⟨xs, h⟩ := listField_cases hany
        · cases h
        · obtain rfl := Option.some.inj h
          rcases xs with _ | ⟨x, xs⟩
          · rw [pyOr_of_not_truthy (by simp [JsonValue.truthy])]
            rcases field q "any_bins" with _ | u
            · simp [asList]
            · rcases u with _ | _ | _ | _ | _ | (_ | _) | _ <;> simp [asList]
          · rw [pyOr_of_truthy (by simp [JsonValue.truthy])]
            simp
    | _ => cases hrequires

/-! ## The two readings -/

section

variable {validate : Fields → Option SkillManifest} {data : Fields} {m : SkillManifest}

/-- The block the check finds in the payload. -/
theorem checkedRequirements_payload (data : Fields) :
    checkedRequirements (payload data) = readBlock
      ((asDict (pyOr (field data "openclaw") ((metadataOcBlock data).map .obj))).getD []) := by
  have hwalk : walkManifest (payload data) =
      asDict (pyOr (field data "openclaw") ((metadataOcBlock data).map .obj)) := by
    have hmanifest : manifestBlock (field (payload data) "manifest") =
        asDict (pyOr (field data "openclaw") ((metadataOcBlock data).map .obj)) := rfl
    rw [walkManifest, hmanifest]
    cases asDict (pyOr (field data "openclaw") ((metadataOcBlock data).map .obj)) <;> rfl
  rw [checkedRequirements, hwalk]

theorem metadataOcBlock_eq (data : Fields) :
    metadataOcBlock data = (asDict (metadataField data "openclaw") <|>
      asDict (metadataField data "clawdbot")) := by
  rw [metadataOcBlock, metadataField, metadataField]
  cases asDict (field data "metadata") <;> rfl

/-- The block that is validated. -/
theorem field_promote (data : Fields) :
    field (promote data) "openclaw" =
      ((promoted data).map .obj <|> field data "openclaw") := by
  have hrest : field (data.erase (lit "metadata")) "openclaw" = field data "openclaw" :=
    Dict.get?_erase_of_ne (by decide) data
  rw [promote, promoted, metadataField, metadataField]
  cases asDict (field data "metadata") with
  | none => exact hrest
  | some md =>
    dsimp only [Option.bind_some]
    cases asDict (pyOr (field md "openclaw") (field md "clawdbot")) with
    | none => exact hrest
    | some b => exact Dict.get?_set_self _ _ _

theorem openclawField_of_parseLoaded (hvalidate : Validated validate)
    (h : parseLoaded validate (.obj data) = some m) :
    openclawField ((promoted data).map .obj <|> field data "openclaw") = some m.openclaw := by
  rw [← field_promote]
  refine hvalidate _ _ ?_
  rw [← h, parseLoaded]
  cases data <;> rfl

/-- A block that is missing or empty requires nothing. -/
theorem requirements_of_not_hasTop (htop : ¬HasTop data)
    (h : openclawField (field data "openclaw") = some m.openclaw) : m.requirements = {} := by
  rw [HasTop] at htop
  rcases hv : field data "openclaw" with _ | v
  · rw [hv] at h
    rw [SkillManifest.requirements, ← Option.some.inj h]
    rfl
  · rw [hv] at h htop
    cases v with
    | obj b =>
      rw [requirements_of_openclawField h]
      cases b with
      | nil => rfl
      | cons => exact absurd rfl htop
    | _ => cases h

/-- The readings with a block at the top level. -/
theorem requirements_eq_iff_of_hasTop (htop : HasTop data)
    (h : openclawField ((promoted data).map .obj <|> field data "openclaw") = some m.openclaw) :
    m.requirements = readBlock
        ((asDict (pyOr (field data "openclaw") ((metadataOcBlock data).map .obj))).getD []) ↔
      Agree data := by
  obtain ⟨v, hv, htruthy⟩ := (Option.any_eq_true _ _).1 htop
  rw [hv, pyOr_of_truthy htruthy]
  cases hb : promoted data with
  | some b =>
    rw [hb] at h
    have hcommon : common data = none := by rw [common, if_pos htop, hb]; rfl
    rw [requirements_of_openclawField h]
    constructor
    · intro heq
      refine ⟨fun _ b' hb' => ?_, fun hn => absurd htop hn, fun hn => absurd htop hn, ?_⟩
      · rw [hv, ← Option.some.inj (hb.symm.trans hb'), heq]
      · simp [hcommon]
    · intro hagree
      rw [← hagree.beside htop b hb, hv]
  | none =>
    rw [hb, hv] at h
    cases v with
    | obj x =>
      have hcommon : common data = some x := by rw [common, if_pos htop, hb, hv]; rfl
      rw [requirements_of_openclawField h]
      refine (eq_comm.trans (readBlock_eq_declared_iff h)).trans ⟨fun hx => ?_, fun hagree => ?_⟩
      · refine ⟨by simp [hb], fun hn => absurd htop hn, fun hn => absurd htop hn, ?_⟩
        intro b hb'
        rwa [← Option.some.inj (hcommon.symm.trans hb')]
      · exact hagree.noAlias x hcommon
    | _ => cases h

/-- The readings of one block of `metadata`. -/
theorem requirements_eq_iff_of_common {b : Fields} (htop : ¬HasTop data)
    (hb : common data = some b) (h : openclawField (some (.obj b)) = some m.openclaw) :
    m.requirements = readBlock b ↔ Agree data := by
  rw [requirements_of_openclawField h]
  refine (eq_comm.trans (readBlock_eq_declared_iff h)).trans ⟨fun hx => ?_, fun hagree => ?_⟩
  · refine ⟨fun ht => absurd ht htop, fun _ hempty => ?_, fun _ ht hn => ?_, fun b' hb' => ?_⟩
    · rw [common, if_neg htop, hempty] at hb
      cases hb
    · simp [common, htop, hn, ht] at hb
    · rwa [← Option.some.inj (hb.symm.trans hb')]
  · exact hagree.noAlias b hb

/-- The readings without a block at the top level. -/
theorem requirements_eq_iff_of_not_hasTop (htop : ¬HasTop data)
    (h : openclawField ((promoted data).map .obj <|> field data "openclaw") = some m.openclaw) :
    m.requirements = readBlock
        ((asDict (pyOr (field data "openclaw") ((metadataOcBlock data).map .obj))).getD []) ↔
      Agree data := by
  have hblock : asDict (pyOr (field data "openclaw") ((metadataOcBlock data).map .obj)) =
      metadataOcBlock data := by
    rw [pyOr_of_not_truthy htop]
    cases metadataOcBlock data <;> rfl
  rw [hblock, metadataOcBlock_eq]
  rw [promoted] at h
  cases hdict : asDict (metadataField data "openclaw") with
  | some b =>
    have hx := eq_of_asDict hdict
    cases b with
    | nil =>
      -- The check takes the empty block, the manifest the other one.
      rw [hx, pyOr_of_not_truthy (by simp [JsonValue.truthy])] at h
      have hcommon : common data = none := by rw [common, if_neg htop, hdict]; rfl
      have hagree : Agree data ↔
          ∀ b, asDict (metadataField data "clawdbot") = some b → declared b = {} := by
        refine ⟨fun hagree => hagree.emptyBlock htop hdict, fun hb => ⟨fun ht => absurd ht htop,
          fun _ _ => hb, fun _ _ hn => ?_, by simp [hcommon]⟩⟩
        rw [hdict] at hn
        cases hn
      rw [hagree]
      cases hy : asDict (metadataField data "clawdbot") with
      | none =>
        rw [hy] at h
        exact iff_of_true (requirements_of_not_hasTop htop h) (by simp)
      | some b =>
        rw [hy] at h
        rw [requirements_of_openclawField h]
        simp only [Option.some.injEq, forall_eq']
        rfl
    | cons e b =>
      rw [hx, pyOr_of_truthy (by simp [JsonValue.truthy])] at h
      exact requirements_eq_iff_of_common htop (by rw [common, if_neg htop, hdict]; rfl) h
  | none =>
    by_cases htruthy : (metadataField data "openclaw").any JsonValue.truthy = true
    · -- The check passes over what is no mapping, the manifest stops there.
      obtain ⟨v, hx, hv⟩ := (Option.any_eq_true _ _).1 htruthy
      rw [hx, pyOr_of_truthy hv, ← hx, hdict] at h
      have hcommon : common data = none := by
        rw [common, if_neg htop, hdict]
        exact if_pos htruthy
      rw [requirements_of_not_hasTop htop h]
      have hagree : Agree data ↔
          ∀ b, asDict (metadataField data "clawdbot") = some b → readBlock b = {} := by
        refine ⟨fun hagree => hagree.noMapping htop htruthy hdict, fun hb =>
          ⟨fun ht => absurd ht htop, fun _ hempty => ?_, fun _ _ _ => hb, by simp [hcommon]⟩⟩
        rw [hdict] at hempty
        cases hempty
      rw [hagree]
      cases asDict (metadataField data "clawdbot") with
      | none =>
        simp only [reduceCtorEq, false_implies, implies_true, iff_true]
        rfl
      | some b =>
        simp only [Option.some.injEq, forall_eq']
        exact eq_comm
    · rw [pyOr_of_not_truthy htruthy] at h
      have hcommon : common data = asDict (metadataField data "clawdbot") := by
        rw [common, if_neg htop, hdict]
        exact if_neg htruthy
      cases hy : asDict (metadataField data "clawdbot") with
      | none =>
        rw [hy] at h hcommon
        rw [requirements_of_not_hasTop htop h]
        refine iff_of_true rfl ⟨fun ht => absurd ht htop, fun _ hempty => ?_,
          fun _ ht => absurd ht htruthy, by simp [hcommon]⟩
        rw [hdict] at hempty
        cases hempty
      | some b =>
        rw [hy] at h hcommon
        exact requirements_eq_iff_of_common htop hcommon h

/-- **Both readings.** The manifest of a frontmatter has the requirements that the check reads from
the payload with the same frontmatter exactly if the blocks agree. -/
theorem requirements_eq_iff (hvalidate : Validated validate)
    (h : parseLoaded validate (.obj data) = some m) :
    m.requirements = checkedRequirements (payload data) ↔ Agree data := by
  have hfield := openclawField_of_parseLoaded hvalidate h
  rw [checkedRequirements_payload]
  by_cases htop : HasTop data
  · exact requirements_eq_iff_of_hasTop htop hfield
  · exact requirements_eq_iff_of_not_hasTop htop hfield

end

/-- The validation of the field `openclaw`, where the other fields are valid. -/
def validateOpenclaw (data : Fields) : Option SkillManifest :=
  (openclawField (field data "openclaw")).map fun o => { openclaw := o }

theorem validated_validateOpenclaw : Validated validateOpenclaw := by
  intro data m h
  obtain ⟨o, ho, rfl⟩ := Option.map_eq_some_iff.1 h
  exact ho

/-- A block that requires a binary. -/
def requiring (bin : String) : JsonValue :=
  .obj [(lit "requires", .obj [(lit "bins", .arr [.str (lit bin)])])]

def frontmatter (rest : Fields) : Fields :=
  (lit "name", .str (lit "stocks")) :: (lit "description", .str (lit "Stocks.")) :: rest

/-- A block of `metadata` alone is read twice. -/
theorem requirements_eq_clawdbot :
    SkillManifest.requirements ⟨⟨[], { bins := [lit "uv"] }⟩⟩ = checkedRequirements (payload
      (frontmatter [(lit "metadata", .obj [(lit "clawdbot", requiring "uv")])])) := by
  refine (requirements_eq_iff validated_validateOpenclaw rfl).2 ⟨fun h => ?_, fun _ h => ?_,
    fun _ h => ?_, fun b hb => ?_⟩
  · cases h
  · cases h
  · cases h
  · obtain rfl := Option.some.inj hb
    rintro ⟨q, x, xs, hq, halias, -⟩
    obtain rfl := Option.some.inj hq
    cases halias

/-- With a block at the top level as well, the manifest has one and the check the other. -/
theorem requirements_ne :
    ¬∀ (validate : Fields → Option SkillManifest), Validated validate →
      ∀ (data : Fields) (m : SkillManifest), parseLoaded validate (.obj data) = some m →
        m.requirements = checkedRequirements (payload data) := by
  intro h
  have heq := h validateOpenclaw validated_validateOpenclaw (frontmatter
    [(lit "openclaw", requiring "git"), (lit "metadata", .obj [(lit "openclaw", requiring "uv")])])
    ⟨⟨[], { bins := [lit "uv"] }⟩⟩ rfl
  have hbins := congrArg Requirements.bins heq
  have hbin : lit "uv" = lit "git" := JsonValue.str.inj (List.singleton_inj.1 hbins)
  exact absurd hbin (by decide)

end OxenClaw.Clawhub
