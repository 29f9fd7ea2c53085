import OxenClaw.Lib.RegexSearch

/-!
# The plan to install what a skill needs

`plan_install` builds an argv for each install spec of a manifest, or refuses it. A value is checked
with the pattern of its kind, by `re.match` with `$` : a line break at the end gets through. The
manager that is run can be another one (`brew` falls back to `apt-get`), and a module of `go` is
completed behind the check. `plan_safe_iff` says which specs are run with an argument that the
pattern of the manager has whole.
-/

namespace OxenClaw.BinInstaller

/-- What `plan_install` reads of `SkillInstallSpec`. -/
structure SkillInstallSpec where
  kind : String
  formula : Option String := none
  package : Option String := none
  module : Option String := none

inductive Decision where
  | run
  | skip
  deriving DecidableEq

/-- One install step, ready or refused. -/
structure PlannedStep where
  index : ℕ
  total : ℕ
  spec : SkillInstallSpec
  decision : Decision
  argv : Option (List String)
  reason : String
  effectiveKind : String

/-! ## The patterns -/

/-- `[A-Za-z0-9][A-Za-z0-9..]*`, with the characters that may come after the first. -/
def nameRe (more : List Char) : Regex :=
  .seq (.set Char.isAlphanum) (.star (.set fun c => c.isAlphanum || more.contains c))

/-- `_SAFE_BREW_FORMULA`, between `^` and `$`. -/
def safeBrewFormula : Regex := nameRe ['.', '_', '@', '/', '-']

/-- `_SAFE_APT_PACKAGE`. -/
def safeAptPackage : Regex := nameRe ['.', '_', '+', '-']

/-- `_SAFE_NPM_PACKAGE`. -/
def safeNpmPackage : Regex :=
  .seq (.opt (.seq (.set (· == '@')) (.seq (nameRe ['.', '_', '-']) (.set (· == '/')))))
    (nameRe ['.', '_', '-'])

/-- `_SAFE_PIP_PACKAGE`. -/
def safePipPackage : Regex := nameRe ['.', '_', '-']

/-- `_SAFE_GO_MODULE`. -/
def safeGoModule : Regex := nameRe ['.', '_', '/', '-']

/-- The pattern matches the value from its start. The patterns ask nothing of Unicode. -/
def Accepts (r : Regex) (value : String) : Prop :=
  (Pattern.anchored r).matchStart .ascii value.toList = true

instance (r : Regex) (value : String) : Decidable (Accepts r value) :=
  inferInstanceAs (Decidable (_ = true))

/-- The pattern has the value whole. -/
def Satisfies (r : Regex) (value : String) : Prop :=
  r.fullmatch .ascii value.toList = true

instance (r : Regex) (value : String) : Decidable (Satisfies r value) :=
  inferInstanceAs (Decidable (_ = true))

/-! ## The plan -/

/-- `a or b`. -/
def orElse (a b : Option String) : Option String :=
  (a.filter (· ≠ "")).or b

section

/- `repr(s)` and `s.lower()`. -/
variable (repr lower : String → String)

/-- `_check`. -/
def check (value : Option String) (pattern : Regex) (label : String) : Except String String :=
  match value.filter (· ≠ "") with
  | none => .error ("missing " ++ label)
  | some v => if Accepts pattern v then .ok v else .error ("unsafe " ++ label ++ ": " ++ repr v)

/-- `_build_argv` : the effective kind, the summary and the argv. -/
def buildArgv (spec : SkillInstallSpec) (hostOs : String) (brewPresent : Bool) :
    Except String (String × String × List String) :=
  let kind := lower spec.kind
  if kind = "brew" then do
    let formula ← check repr (orElse spec.formula spec.package) safeBrewFormula "brew formula"
    if brewPresent then
      .ok ("brew", "brew install " ++ formula, ["brew", "install", formula])
    else if hostOs = "linux" then
      .ok ("brew→apt-fallback",
        "apt-get install -y " ++ formula ++ "  (brew not on PATH — using apt fallback)",
        ["apt-get", "install", "-y", formula])
    else .error ("brew not on PATH and no fallback available for " ++ hostOs)
  else if kind = "apt" then do
    let pkg ← check repr (orElse spec.package spec.formula) safeAptPackage "apt package"
    .ok ("apt", "apt-get install -y " ++ pkg, ["apt-get", "install", "-y", pkg])
  else if kind = "node" ∨ kind = "npm" then do
    let pkg ← check repr spec.package safeNpmPackage "npm package"
    .ok ("node", "npm install -g " ++ pkg, ["npm", "install", "-g", pkg])
  else if kind = "pip" then do
    let pkg ← check repr spec.package safePipPackage "pip package"
    .ok ("pip", "pip install " ++ pkg, ["pip", "install", pkg])
  else if kind = "uv" then do
    let pkg ← check repr spec.package safePipPackage "uv tool"
    .ok ("uv", "uv tool install " ++ pkg, ["uv", "tool", "install", pkg])
  else if kind = "go" then do
    let module ← check repr (orElse spec.module spec.package) safeGoModule "go module"
    let module := if '@' ∈ module.toList then module else module ++ "@latest"
    .ok ("go", "go install " ++ module, ["go", "install", module])
  else if kind = "exec" then .error "exec specs are not auto-run; install manually"
  else if kind = "download" then .error "download specs are not auto-run; install manually"
  else .error ("unknown install kind: " ++ repr kind)

/-- The step of one spec. -/
def planStep (hostOs : String) (brewPresent : Bool) (total : ℕ) (spec : SkillInstallSpec)
    (index : ℕ) : PlannedStep :=
  match buildArgv repr lower spec hostOs brewPresent with
  | .ok (kind, summary, argv) => ⟨index, total, spec, .run, some argv, summary, kind⟩
  | .error message =>
    ⟨index, total, spec, .skip, none, message, if spec.kind = "" then "?" else spec.kind⟩

/-- What the machine is asked for. -/
structure Host where
  /-- `platform.system()`. -/
  system : String
  /-- `brew` is on the path. -/
  brewOnPath : Bool

/-- `plan_install`. -/
def planInstall (host : Host) (specs : List SkillInstallSpec) (hostOs : Option String := none)
    (brewPresent : Option Bool := none) : List PlannedStep :=
  let osId := lower ((hostOs.filter (· ≠ "")).getD host.system)
  let brewOk := brewPresent.getD host.brewOnPath
  (specs.zipIdx 1).map fun e => planStep repr lower osId brewOk specs.length e.1 e.2

end

/-! ## What a plan has to be -/

/-- The pattern of a package manager. -/
def safePattern (command : String) : Option Regex :=
  if command = "brew" then some safeBrewFormula
  else if command = "apt-get" then some safeAptPackage
  else if command = "npm" then some safeNpmPackage
  else if command = "pip" ∨ command = "uv" then some safePipPackage
  else if command = "go" then some safeGoModule
  else none

/-- The last argument is what the pattern of the command has whole. -/
def Fits (argv : List String) : Prop :=
  ∃ command r pkg, argv.head? = some command ∧ safePattern command = some r ∧
    argv.getLast? = some pkg ∧ Satisfies r pkg

/-- The step is run with an argv that fits, or it is skipped and has none. -/
def PlannedStep.Safe (s : PlannedStep) : Prop :=
  (s.decision = .run ∧ ∃ argv, s.argv = some argv ∧ Fits argv) ∨ (s.decision = .skip ∧ s.argv = none)

/-- What the kind of a spec is checked with, and the value. -/
def checked (kind : String) (spec : SkillInstallSpec) : Option (Regex × Option String) :=
  if kind = "brew" then some (safeBrewFormula, orElse spec.formula spec.package)
  else if kind = "apt" then some (safeAptPackage, orElse spec.package spec.formula)
  else if kind = "node" ∨ kind = "npm" then some (safeNpmPackage, spec.package)
  else if kind = "pip" ∨ kind = "uv" then some (safePipPackage, spec.package)
  else if kind = "go" then some (safeGoModule, orElse spec.module spec.package)
  else none

/-- A value that gets through the check ends in no line break, is not one of `go`, and has nothing
of `brew` that `apt-get` has not where this one is run. -/
def Meets (kind hostOs : String) (brewPresent : Bool) (spec : SkillInstallSpec) : Prop :=
  ∀ r v, checked kind spec = some (r, some v) → Accepts r v →
    (kind = "brew" ∧ brewPresent = false ∧ hostOs ≠ "linux") ∨
      (kind ≠ "go" ∧ '\n' ∉ v.toList ∧
        (kind = "brew" → brewPresent = false → '@' ∉ v.toList ∧ '/' ∉ v.toList))

/-! ## What the patterns have -/

/-- A first character, and more of the others. -/
def Name (more m : List Char) : Prop :=
  ∃ c cs, m = c :: cs ∧ c.isAlphanum = true ∧
    ∀ d ∈ cs, (d.isAlphanum || more.contains d) = true

theorem reads_nameRe (more : List Char) : Regex.Reads .ascii (nameRe more) (Name more) := by
  refine ((Regex.Reads.set _).seq (Regex.Reads.star_set _)).congr fun m => ?_
  constructor
  · rintro ⟨-, cs, rfl, ⟨c, rfl, hc⟩, hcs⟩
    exact ⟨c, cs, rfl, hc, hcs⟩
  · rintro ⟨c, cs, rfl, hc, hcs⟩
    exact ⟨[c], cs, rfl, ⟨c, rfl, hc⟩, hcs⟩

/-- A character that is neither a letter or digit nor one of the others. -/
theorem not_mem_of_name {more m : List Char} (h : Name more m) {d : Char}
    (hd : d.isAlphanum = false) (hmore : d ∉ more) : d ∉ m := by
  obtain ⟨c, cs, rfl, hc, hcs⟩ := h
  intro hmem
  rcases List.mem_cons.1 hmem with rfl | hmem
  · rw [hd] at hc
    cases hc
  · have hok := hcs d hmem
    rw [hd, Bool.false_or, List.contains_iff_mem] at hok
    exact hmore hok

/-- What the pattern has is a text of one line. -/
def Lineless (r : Regex) : Prop :=
  ∃ P, Regex.Reads .ascii r P ∧ ∀ m, P m → m ≠ [] ∧ '\n' ∉ m

theorem lineless_nameRe {more : List Char} (h : '\n' ∉ more) : Lineless (nameRe more) := by
  refine ⟨_, reads_nameRe more, fun m hm => ⟨?_, not_mem_of_name hm (by decide) h⟩⟩
  obtain ⟨c, cs, rfl, -⟩ := hm
  exact List.cons_ne_nil _ _

theorem lineless_safeNpmPackage : Lineless safeNpmPackage := by
  have hmore : '\n' ∉ ['.', '_', '-'] := by decide
  refine ⟨_, (((Regex.Reads.set _).seq ((reads_nameRe _).seq (Regex.Reads.set _))).opt).seq
    (reads_nameRe _), fun m hm => ?_⟩
  obtain ⟨scope, name, rfl, hscope, hname⟩ := hm
  have hnewline := not_mem_of_name hname (by decide) hmore
  constructor
  · obtain ⟨c, cs, rfl, -⟩ := hname
    exact List.append_ne_nil_of_right_ne_nil _ (List.cons_ne_nil _ _)
  · rcases hscope with rfl | ⟨-, -, rfl, ⟨c, rfl, hc⟩, part, -, rfl, hpart, d, rfl, hd⟩
    · exact hnewline
    · rw [beq_iff_eq] at hc hd
      subst hc hd
      have hpart := not_mem_of_name hpart (by decide) hmore
      simp [hpart, hnewline]

section

variable {r : Regex} {v : String}

/-- A value that is let through is whole but for a line break. -/
theorem accepts_iff {P : List Char → Prop} (h : Regex.Reads .ascii r P) :
    Accepts r v ↔ P v.toList ∨ ∃ m, P m ∧ v.toList = m ++ ['\n'] :=
  Pattern.matchStart_anchored_iff h

theorem satisfies_iff_of_accepts (hr : Lineless r) (hv : Accepts r v) :
    Satisfies r v ↔ '\n' ∉ v.toList := by
  obtain ⟨P, hP, hline⟩ := hr
  rw [Satisfies, Regex.fullmatch_iff hP]
  refine ⟨fun h => (hline _ h).2, fun h => ?_⟩
  rcases (accepts_iff hP).1 hv with hv | ⟨m, -, hm⟩
  · exact hv
  · rw [hm] at h
    exact absurd (List.mem_append_right m (List.mem_singleton_self _)) h

/-- The check lets a value through. -/
theorem check_eq_ok_iff (hr : Lineless r) {repr : String → String} {value : Option String}
    {label w : String} : check repr value r label = .ok w ↔ value = some w ∧ Accepts r w := by
  have hne : ∀ w, Accepts r w → w ≠ "" := by
    rintro w hw rfl
    obtain ⟨P, hP, hline⟩ := hr
    rcases (accepts_iff hP).1 hw with h | ⟨m, hm, h⟩
    · exact (hline _ h).1 rfl
    · exact (hline m hm).1 (List.append_eq_nil_iff.1 h.symm).1
  rw [check]
  constructor
  · intro h
    rcases hv : value.filter (· ≠ "") with _ | v
    · rw [hv] at h
      cases h
    · simp only [hv] at h
      split_ifs at h with haccepts
      obtain rfl := Except.ok.inj h
      exact ⟨(Option.filter_eq_some_iff.1 hv).1, haccepts⟩
  · rintro ⟨rfl, hw⟩
    rw [Option.filter_some, if_pos (decide_eq_true (hne w hw))]
    exact if_pos hw

/-- A formula of `brew` is one of `apt-get` if it has no `@` and no `/`. -/
theorem satisfies_apt_iff_of_brew (hv : Accepts safeBrewFormula v) :
    Satisfies safeAptPackage v ↔ '\n' ∉ v.toList ∧ '@' ∉ v.toList ∧ '/' ∉ v.toList := by
  rw [Satisfies, safeAptPackage, Regex.fullmatch_iff (reads_nameRe _)]
  constructor
  · intro h
    exact ⟨not_mem_of_name h (by decide) (by decide), not_mem_of_name h (by decide) (by decide),
      not_mem_of_name h (by decide) (by decide)⟩
  · rintro ⟨hnewline, hat, hslash⟩
    rcases (accepts_iff (reads_nameRe _)).1 hv with ⟨c, cs, hcs, hc, hrest⟩ | ⟨m, -, hm⟩
    · refine ⟨c, cs, hcs, hc, fun d hd => ?_⟩
      have hmem : d ∈ v.toList := hcs ▸ List.mem_cons_of_mem c hd
      have hdat : d ≠ '@' := fun h => hat (h ▸ hmem)
      have hdslash : d ≠ '/' := fun h => hslash (h ▸ hmem)
      have hok := hrest d hd
      rw [Bool.or_eq_true, List.contains_iff_mem] at hok ⊢
      refine hok.imp_right fun h => ?_
      simp only [List.mem_cons, hdat, hdslash, false_or] at h ⊢
      tauto
    · rw [hm] at hnewline
      exact absurd (List.mem_append_right m (List.mem_singleton_self _)) hnewline

/-- What is completed has an `@`, that the pattern has not. -/
theorem not_satisfies_go (v : String) :
    ¬Satisfies safeGoModule (if '@' ∈ v.toList then v else v ++ "@latest") := by
  rw [Satisfies, safeGoModule, Regex.fullmatch_iff (reads_nameRe _)]
  intro h
  refine not_mem_of_name h (d := '@') (by decide) (by decide) ?_
  split_ifs with hat
  · exact hat
  · rw [String.toList_append]
    exact List.mem_append_right _ (by decide)

end

/-! ## The steps -/

theorem fits_iff {argv : List String} {command pkg : String} {r : Regex}
    (hcommand : argv.head? = some command) (hr : safePattern command = some r)
    (hpkg : argv.getLast? = some pkg) : Fits argv ↔ Satisfies r pkg := by
  constructor
  · rintro ⟨command', r', pkg', hcommand', hr', hpkg', h⟩
    rw [hcommand, Option.some_inj] at hcommand'
    rw [hpkg, Option.some_inj] at hpkg'
    rw [← hcommand', hr, Option.some_inj] at hr'
    rwa [hr', hpkg']
  · exact fun h => ⟨command, r, pkg, hcommand, hr, hpkg, h⟩

/-- What is run fits, whatever is run. -/
def FitsIfRun (built : Except String (String × String × List String)) : Prop :=
  ∀ kind summary argv, built = .ok (kind, summary, argv) → Fits argv

theorem fitsIfRun_error (message : String) : FitsIfRun (.error message) := by
  intro kind summary argv h
  cases h

/-- A checked value, and what becomes of it. -/
theorem fitsIfRun_check {r : Regex} (hr : Lineless r) (repr : String → String)
    (value : Option String) (label : String)
    {f : String → Except String (String × String × List String)} {C : String → Prop}
    (hf : ∀ v, Accepts r v → (FitsIfRun (f v) ↔ C v)) :
    FitsIfRun (check repr value r label >>= f) ↔ ∀ v, value = some v → Accepts r v → C v := by
  have hbind : ∀ v, value = some v → Accepts r v → (check repr value r label >>= f) = f v := by
    intro v hvalue hv
    rw [(check_eq_ok_iff hr).2 ⟨hvalue, hv⟩]
    rfl
  constructor
  · intro h v hvalue hv
    rw [hbind v hvalue hv] at h
    exact (hf v hv).1 h
  · intro h kind summary argv hargv
    rcases hcheck : check repr value r label with message | v
    · rw [hcheck] at hargv
      cases hargv
    · obtain ⟨hvalue, hv⟩ := (check_eq_ok_iff hr).1 hcheck
      rw [hbind v hvalue hv] at hargv
      exact (hf v hv).2 (h v hvalue hv) kind summary argv hargv

theorem fitsIfRun_ok {kind summary : String} {argv : List String} :
    FitsIfRun (.ok (kind, summary, argv)) ↔ Fits argv := by
  constructor
  · exact fun h => h kind summary argv rfl
  · intro h kind' summary' argv' heq
    obtain ⟨-, -, rfl⟩ : kind = kind' ∧ summary = summary' ∧ argv = argv' := by
      simpa using heq
    exact h

variable (repr lower : String → String)

/-- What a check of one kind asks for. -/
theorem meets_iff {kind hostOs : String} {brewPresent : Bool} {r : Regex} {value : Option String}
    {spec : SkillInstallSpec} (hchecked : checked kind spec = some (r, value)) :
    Meets kind hostOs brewPresent spec ↔ ∀ v, value = some v → Accepts r v →
      (kind = "brew" ∧ brewPresent = false ∧ hostOs ≠ "linux") ∨
        (kind ≠ "go" ∧ '\n' ∉ v.toList ∧
          (kind = "brew" → brewPresent = false → '@' ∉ v.toList ∧ '/' ∉ v.toList)) := by
  constructor
  · exact fun h v hvalue hv => h r v (hchecked.trans (by rw [hvalue])) hv
  · intro h r' v hv haccepts
    rw [hchecked, Option.some_inj, Prod.mk.injEq] at hv
    obtain ⟨rfl, hvalue⟩ := hv
    exact h v hvalue haccepts

/-- A kind whose manager is the one of its pattern. -/
theorem fitsIfRun_plain_iff {kind command name label hostOs : String} {brewPresent : Bool}
    {r : Regex} {value : Option String} {spec : SkillInstallSpec} (mid : List String)
    {summary : String → String} (hr : Lineless r) (hcommand : safePattern command = some r)
    (hchecked : checked kind spec = some (r, value)) (hbrew : kind ≠ "brew") (hgo : kind ≠ "go") :
    FitsIfRun (check repr value r label >>= fun v =>
        .ok (name, summary v, command :: (mid ++ [v]))) ↔
      Meets kind hostOs brewPresent spec := by
  have hlast : ∀ v, (command :: (mid ++ [v])).getLast? = some v := fun v =>
    List.getLast?_concat (l := command :: mid)
  rw [meets_iff hchecked]
  refine (fitsIfRun_check hr repr value label fun v hv => fitsIfRun_ok.trans
    ((fits_iff rfl hcommand (hlast v)).trans (satisfies_iff_of_accepts hr hv))).trans ?_
  refine forall_congr' fun v => imp_congr_right fun _ => imp_congr_right fun _ => ?_
  simp [hbrew, hgo]

/-- `brew`, and `apt-get` in its place. -/
theorem fitsIfRun_brew_iff (spec : SkillInstallSpec) (hostOs : String) (brewPresent : Bool) :
    FitsIfRun (check repr (orElse spec.formula spec.package) safeBrewFormula "brew formula" >>=
        fun formula =>
          if brewPresent then
            .ok ("brew", "brew install " ++ formula, ["brew", "install", formula])
          else if hostOs = "linux" then
            .ok ("brew→apt-fallback",
              "apt-get install -y " ++ formula ++ "  (brew not on PATH — using apt fallback)",
              ["apt-get", "install", "-y", formula])
          else .error ("brew not on PATH and no fallback available for " ++ hostOs)) ↔
      Meets "brew" hostOs brewPresent spec := by
  have hchecked : checked "brew" spec =
      some (safeBrewFormula, orElse spec.formula spec.package) := rfl
  have hbrewName : Lineless safeBrewFormula := lineless_nameRe (by decide)
  have hgo : "brew" ≠ "go" := by decide
  rw [meets_iff hchecked]
  refine fitsIfRun_check hbrewName repr _ _ fun v hv => ?_
  by_cases hpresent : brewPresent = true
  · have hfits : Fits ["brew", "install", v] ↔ Satisfies safeBrewFormula v := fits_iff rfl rfl rfl
    rw [if_pos hpresent, fitsIfRun_ok, hfits, satisfies_iff_of_accepts hbrewName hv]
    simp [hpresent, hgo]
  rw [if_neg hpresent]
  rw [Bool.not_eq_true] at hpresent
  by_cases hlinux : hostOs = "linux"
  · have hfits : Fits ["apt-get", "install", "-y", v] ↔ Satisfies safeAptPackage v :=
      fits_iff rfl rfl rfl
    rw [if_pos hlinux, fitsIfRun_ok, hfits, satisfies_apt_iff_of_brew hv]
    simp [hlinux, hpresent, hgo]
  · rw [if_neg hlinux]
    exact iff_of_true (fitsIfRun_error _) (.inl ⟨rfl, hpresent, hlinux⟩)

/-- No value of `go` is run as it should be. -/
theorem fitsIfRun_go_iff (spec : SkillInstallSpec) (hostOs : String) (brewPresent : Bool) :
    FitsIfRun (check repr (orElse spec.module spec.package) safeGoModule "go module" >>=
        fun module =>
          let module := if '@' ∈ module.toList then module else module ++ "@latest"
          .ok ("go", "go install " ++ module, ["go", "install", module])) ↔
      Meets "go" hostOs brewPresent spec := by
  have hchecked : checked "go" spec =
      some (safeGoModule, orElse spec.module spec.package) := rfl
  have hbrew : "go" ≠ "brew" := by decide
  rw [meets_iff hchecked]
  refine fitsIfRun_check (lineless_nameRe (by decide)) repr _ _ fun v hv => ?_
  have hfits : Fits ["go", "install", if '@' ∈ v.toList then v else v ++ "@latest"] ↔
      Satisfies safeGoModule (if '@' ∈ v.toList then v else v ++ "@latest") := fits_iff rfl rfl rfl
  exact fitsIfRun_ok.trans (hfits.trans (iff_of_false (not_satisfies_go v) (by simp [hbrew])))

/-- A spec is run with what fits, or refused. -/
theorem fitsIfRun_buildArgv_iff (spec : SkillInstallSpec) (hostOs : String) (brewPresent : Bool) :
    FitsIfRun (buildArgv repr lower spec hostOs brewPresent) ↔
      Meets (lower spec.kind) hostOs brewPresent spec := by
  rw [buildArgv]
  generalize lower spec.kind = kind
  by_cases hbrew : kind = "brew"
  · subst hbrew
    rw [if_pos rfl]
    exact fitsIfRun_brew_iff repr spec hostOs brewPresent
  rw [if_neg hbrew]
  by_cases hapt : kind = "apt"
  · subst hapt
    rw [if_pos rfl]
    exact fitsIfRun_plain_iff repr ["install", "-y"] (lineless_nameRe (by decide)) rfl rfl hbrew
      (by decide)
  rw [if_neg hapt]
  by_cases hnode : kind = "node" ∨ kind = "npm"
  · have hchecked : checked kind spec = some (safeNpmPackage, spec.package) := by
      rw [checked, if_neg hbrew, if_neg hapt, if_pos hnode]
    rw [if_pos hnode]
    refine fitsIfRun_plain_iff repr ["install", "-g"] lineless_safeNpmPackage rfl hchecked hbrew ?_
    rintro rfl
    exact absurd hnode (by decide)
  rw [if_neg hnode]
  by_cases hpip : kind = "pip"
  · subst hpip
    rw [if_pos rfl]
    exact fitsIfRun_plain_iff repr ["install"] (lineless_nameRe (by decide)) rfl rfl hbrew
      (by decide)
  rw [if_neg hpip]
  by_cases huv : kind = "uv"
  · subst huv
    rw [if_pos rfl]
    exact fitsIfRun_plain_iff repr ["tool", "install"] (lineless_nameRe (by decide)) rfl rfl hbrew
      (by decide)
  rw [if_neg huv]
  by_cases hgo : kind = "go"
  · subst hgo
    rw [if_pos rfl]
    exact fitsIfRun_go_iff repr spec hostOs brewPresent
  rw [if_neg hgo]
  have hunchecked : checked kind spec = none := by
    have hpipuv : ¬(kind = "pip" ∨ kind = "uv") := not_or.2 ⟨hpip, huv⟩
    rw [checked, if_neg hbrew, if_neg hapt, if_neg hnode, if_neg hpipuv, if_neg hgo]
  refine iff_of_true ?_ fun r v hv => ?_
  · split_ifs
    · exact fitsIfRun_error _
    · exact fitsIfRun_error _
    · exact fitsIfRun_error _
  · rw [hunchecked] at hv
    cases hv

/-- A step is safe if what it is built to run fits. -/
theorem safe_planStep_iff (hostOs : String) (brewPresent : Bool) (total : ℕ)
    (spec : SkillInstallSpec) (index : ℕ) :
    (planStep repr lower hostOs brewPresent total spec index).Safe ↔
      Meets (lower spec.kind) hostOs brewPresent spec := by
  rw [← fitsIfRun_buildArgv_iff repr, planStep]
  rcases buildArgv repr lower spec hostOs brewPresent with message | ⟨kind, summary, argv⟩
  · exact iff_of_true (.inr ⟨rfl, rfl⟩) (fitsIfRun_error message)
  · rw [fitsIfRun_ok]
    simp [PlannedStep.Safe]

/-- Each spec of a manifest is run with an argument that the pattern of the manager has whole, or
skipped, exactly if the values that get through the checks are as they should be. -/
theorem plan_safe_iff (host : Host) (specs : List SkillInstallSpec) (hostOs : Option String)
    (brewPresent : Option Bool) :
    (∀ step ∈ planInstall repr lower host specs hostOs brewPresent, step.Safe) ↔
      ∀ spec ∈ specs, Meets (lower spec.kind) (lower ((hostOs.filter (· ≠ "")).getD host.system))
        (brewPresent.getD host.brewOnPath) spec := by
  simp only [planInstall, List.forall_mem_map, safe_planStep_iff]
  constructor
  · intro h spec hspec
    obtain ⟨i, hi, rfl⟩ := List.getElem_of_mem hspec
    exact h (specs[i], 1 + i) (List.mk_add_mem_zipIdx_iff_getElem?.2 (List.getElem?_eq_getElem hi))
  · exact fun h e he => h e.1 (List.fst_mem_of_mem_zipIdx he)

/-- A line break behind the name. -/
def brokenSpec : SkillInstallSpec where
  kind := "pip"
  package := some "jq\n"

/-- It is given to `pip`. -/
theorem lineBreak_not_safe :
    ¬∀ step ∈ planInstall id id ⟨"linux", true⟩ [brokenSpec], step.Safe := by
  intro h
  have hstep := h (planStep id id "linux" true 1 brokenSpec 1) (List.mem_singleton_self _)
  have haccepts : Accepts safePipPackage "jq\n" := by decide +kernel
  rcases (safe_planStep_iff id id "linux" true 1 brokenSpec 1).1 hstep safePipPackage "jq\n" rfl
    haccepts with ⟨hkind, -⟩ | ⟨-, hline, -⟩
  · exact absurd hkind (by decide)
  · exact hline (by decide)

end OxenClaw.BinInstaller
