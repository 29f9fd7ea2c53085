import OxenClaw.Lib.FileTree
import OxenClaw.Lib.Glob
import OxenClaw.Lib.Runs
import OxenClaw.Lib.Text

/-!
# Checkpoints of a project

`CheckpointManager` keeps snapshots of a work tree in a shadow repository. What git does is a
parameter (`Git`), with what is relied on (`Git.Documented`). `restore` runs
`git checkout <commit> -- .`, which writes the files of the commit and takes nothing away : the files
are those of the snapshot exactly if no other file has come since (`restores_iff`).
-/

namespace OxenClaw.Checkpoint

abbrev Path := List String

/-- `DEFAULT_EXCLUDES`. -/
def defaultExcludes : List String :=
  [".git/", "node_modules/", "dist/", "build/", ".env", ".env.*", ".env.local", "__pycache__/",
    "*.pyc", "*.pyo", ".DS_Store", "*.log", ".cache/", ".pytest_cache/", ".venv/", "venv/"]

structure Commit (β : Type) where
  parent : Option String
  message : String
  date : ℕ
  tree : FileTree String β

/-- The shadow repository : `HEAD` and the commits by their names. -/
structure Repo (β : Type) where
  head : Option String := none
  commits : Dict String (Commit β) := []

/-- What git does. -/
structure Git (β : Type) where
  /-- The path is left out, under the patterns of `info/exclude`. -/
  excludes : List String → Path → Bool
  /-- The hash of a commit. -/
  name : Commit β → String
  /-- The commit that a hash, or the start of one, stands for. -/
  find : Dict String (Commit β) → String → Option (Commit β)
  /-- `git checkout <commit> -- .` over a work tree. -/
  checkout : FileTree String β → FileTree String β → Option (FileTree String β)

def hexDigits : List Char :=
  ['0', '1', '2', '3', '4', '5', '6', '7', '8', '9', 'a', 'b', 'c', 'd', 'e', 'f']

/-- What git is relied on for. -/
structure Git.Documented {β : Type} (git : Git β) : Prop where
  /-- A hash is of 40 lower-case hex digits. -/
  name_length : ∀ c, (git.name c).length = 40
  name_hex : ∀ c, ∀ d ∈ (git.name c).toList, d ∈ hexDigits
  find_name : ∀ (commits : Dict String (Commit β)) c c',
    commits.get? (git.name c) = some c' → git.find commits (git.name c) = some c'
  /-- `.` has to match a file of the commit. -/
  checkout_isSome : ∀ s t, (∃ t', git.checkout s t = some t') ↔ ∃ p, s.Has p
  checkout_writes : ∀ s t t', git.checkout s t = some t' → ∀ p, s.Has p → t'.get? p = s.get? p
  /-- Nothing is removed but what stands where a file is written. -/
  checkout_keeps : ∀ s t t', git.checkout s t = some t' →
    ∀ p, (∀ q, s.Has q → ¬FileTree.Clash p q) → t'.get? p = t.get? p

/-! ## The manager -/

structure Project (β : Type) where
  tree : FileTree String β
  /-- Nothing before `init`. -/
  repo : Option (Repo β) := none

/-- What `restore` raises. -/
inductive RestoreError where
  /-- `Empty commit hash`. -/
  | empty
  /-- `Invalid commit hash (must not start with '-')`. -/
  | dash (hash : String)
  /-- `Invalid commit hash (shell metachar)`. -/
  | shellMeta (hash : String)
  /-- `Invalid commit hash (expected 4-64 hex characters)`. -/
  | notHex (hash : String)
  /-- `no checkpoints exist for this directory`. -/
  | noCheckpoints
  /-- `checkpoint .. not found`. -/
  | notFound (hash : String)
  /-- `restore failed`. -/
  | failed
  deriving DecidableEq

/-- `_SHELL_META`. -/
def shellMeta : List Char :=
  "|&;<>$\x60\"\\\n\r\t ()*?[]\x7b\x7d".toList

/-- `[0-9a-fA-F]`. -/
def isHex (c : Char) : Bool :=
  c.isDigit || ('a' ≤ c && c ≤ 'f') || ('A' ≤ c && c ≤ 'F')

/-- `_validate_commit_hash`. -/
def validateCommitHash (hash : String) : Option RestoreError :=
  if Py.strip hash.toList = [] then some .empty
  else if hash.toList.head? = some '-' then some (.dash hash)
  else if hash.toList.any (shellMeta.contains ·) then some (.shellMeta hash)
  else if ¬(4 ≤ hash.length ∧ hash.length ≤ 64 ∧ hash.toList.all isHex) then some (.notHex hash)
  else none

section

variable {β : Type} (git : Git β)

/-- A file of the project that is not left out. -/
def Git.tracks (p : Path) : Bool :=
  !git.excludes defaultExcludes p

/-- `git add -A`, `git commit`. -/
def Repo.commit (r : Repo β) (tree : FileTree String β) (message : String) (date : ℕ) : Repo β :=
  let c : Commit β := ⟨r.head, message, date, tree.filter git.tracks⟩
  ⟨some (git.name c), r.commits.set (git.name c) c⟩

namespace Project

/-- `init`. -/
def init (p : Project β) (date : ℕ) : Repo β :=
  p.repo.getD (({} : Repo β).commit git p.tree "init" date)

/-- `snapshot`, with what `git rev-parse HEAD` prints. -/
def snapshot (p : Project β) (label : String) (initDate date : ℕ) : Project β × String :=
  let repo := (p.init git initDate).commit git p.tree label date
  ({ p with repo := some repo }, repo.head.getD "")

/-- `restore`, without a file path. -/
def restore (p : Project β) (hash : String) : Except RestoreError (Project β) :=
  match validateCommitHash hash with
  | some err => .error err
  | none =>
    match p.repo with
    | none => .error .noCheckpoints
    | some repo =>
      match git.find repo.commits hash with
      | none => .error (.notFound hash)
      | some c =>
        match git.checkout c.tree p.tree with
        | none => .error .failed
        | some tree => .ok { p with tree := tree }

end Project

/-- What can happen between a snapshot and `restore`. -/
inductive Event (β : Type) where
  | write (path : Path) (content : β)
  | remove (path : Path)
  | snapshot (label : String) (initDate date : ℕ)

def Project.step (p : Project β) : Event β → Project β
  | .write path content => { p with tree := p.tree.write path content }
  | .remove path => { p with tree := p.tree.remove path }
  | .snapshot label initDate date => (p.snapshot git label initDate date).1

/-- A commit that is made is not of the hash. -/
def Project.Renames (hash : String) (p : Project β) : Event β → Prop
  | .snapshot label initDate date => (p.snapshot git label initDate date).2 ≠ hash
  | _ => True

/-- After a snapshot and what comes later, `restore` makes the files that are not left out what they
were. -/
def Restores (p : Project β) (label : String) (initDate date : ℕ) (later : List (Event β)) : Prop :=
  let taken := p.snapshot git label initDate date
  ∃ restored, (later.foldl (Project.step git) taken.1).restore git taken.2 = .ok restored ∧
    ∀ path, git.tracks path = true → restored.tree.get? path = p.tree.get? path

/-- The project has the commit of a snapshot, of the files of a tree. -/
def Project.Keeps (hash : String) (tree : FileTree String β) (p : Project β) : Prop :=
  ∃ repo c, p.repo = some repo ∧ repo.commits.get? hash = some c ∧ c.tree = tree

variable {git}

/-! ## A snapshot and its commit -/

theorem not_mem_of_hex : ∀ d ∈ hexDigits,
    Py.isSpace d = false ∧ d ≠ '-' ∧ shellMeta.contains d = false ∧ isHex d = true :=
  Py.forall_of_all (by decide +kernel)

/-- A hash that git gives is accepted. -/
theorem validateCommitHash_name (hgit : git.Documented) (c : Commit β) :
    validateCommitHash (git.name c) = none := by
  have hhex : ∀ d ∈ (git.name c).toList, Py.isSpace d = false ∧ d ≠ '-' ∧
      shellMeta.contains d = false ∧ isHex d = true := fun d hd =>
    not_mem_of_hex d (hgit.name_hex c d hd)
  have hlength := hgit.name_length c
  have hne : Py.strip (git.name c).toList ≠ [] := by
    intro h
    rw [Py.strip_eq_nil_iff, Py.ink_eq_nil] at h
    rcases hchars : (git.name c).toList with _ | ⟨d, ds⟩
    · rw [← String.length_toList, hchars] at hlength
      cases hlength
    · have hd : d ∈ (git.name c).toList := by simp [hchars]
      exact Bool.false_ne_true ((hhex d hd).1.symm.trans (h d hd))
  have hdash : (git.name c).toList.head? ≠ some '-' := fun h =>
    (hhex '-' (List.mem_of_head? h)).2.1 rfl
  have hmeta : ¬(git.name c).toList.any (shellMeta.contains ·) = true := by
    rw [List.any_eq_true]
    rintro ⟨d, hd, hmem⟩
    exact Bool.false_ne_true ((hhex d hd).2.2.1.symm.trans hmem)
  have hall : (git.name c).toList.all isHex = true :=
    List.all_eq_true.2 fun d hd => (hhex d hd).2.2.2
  rw [validateCommitHash, if_neg hne, if_neg hdash, if_neg hmeta, if_neg]
  rw [not_not, hlength]
  exact ⟨by decide, by decide, hall⟩

/-- The commit of a snapshot. -/
theorem exists_commit_of_snapshot (git : Git β) (p : Project β) (label : String)
    (initDate date : ℕ) : ∃ c : Commit β, (p.snapshot git label initDate date).2 = git.name c ∧
      (p.snapshot git label initDate date).1.Keeps (git.name c) (p.tree.filter git.tracks) :=
  ⟨_, rfl, _, _, rfl, Dict.get?_set_self _ _ _, rfl⟩

/-- Later commits leave it. -/
theorem keeps_step {hash : String} {tree : FileTree String β} {p : Project β} {e : Event β}
    (h : p.Keeps hash tree) (he : p.Renames git hash e) : (p.step git e).Keeps hash tree := by
  obtain ⟨repo, c, hrepo, hc, htree⟩ := h
  rcases e with ⟨path, content⟩ | path | ⟨label, initDate, date⟩
  · exact ⟨repo, c, hrepo, hc, htree⟩
  · exact ⟨repo, c, hrepo, hc, htree⟩
  · have hinit : p.init git initDate = repo := by rw [Project.init, hrepo, Option.getD_some]
    have hname : (p.snapshot git label initDate date).2 =
        git.name ⟨repo.head, label, date, p.tree.filter git.tracks⟩ := by
      rw [Project.snapshot, hinit]
      rfl
    rw [Project.Renames, hname] at he
    refine ⟨_, c, rfl, ?_, htree⟩
    rw [hinit]
    exact (Dict.get?_set_of_ne (Ne.symm he) _ _).trans hc

theorem keeps_run {hash : String} {tree : FileTree String β} {p : Project β}
    {later : List (Event β)} (h : p.Keeps hash tree)
    (hnew : EachStep (Project.step git) (Project.Renames git hash) p later) :
    (later.foldl (Project.step git) p).Keeps hash tree :=
  EachStep.forall_mem_trail (fun _ _ hp he => keeps_step hp he) hnew h _ (foldl_mem_trail later p)

/-! ## What is restored -/

/-- `restore` of a commit that is kept is its checkout. -/
theorem restore_eq (hgit : git.Documented) {p : Project β} {c : Commit β}
    {tree : FileTree String β} (h : p.Keeps (git.name c) tree) : p.restore git (git.name c) =
      match git.checkout tree p.tree with
      | none => .error .failed
      | some t => .ok { p with tree := t } := by
  obtain ⟨repo, c', hrepo, hc', rfl⟩ := h
  rw [Project.restore, validateCommitHash_name hgit c]
  simp only [hrepo, hgit.find_name _ _ _ hc']

/-- The files of a tree are what they were in another, after the checkout of it, if no other file has
come that the checkout leaves. -/
theorem checkout_iff (hgit : git.Documented) (old new : FileTree String β) :
    (∃ t, git.checkout (old.filter git.tracks) new = some t ∧
        ∀ path, git.tracks path = true → t.get? path = old.get? path) ↔
      (∃ path, git.tracks path = true ∧ old.Has path) ∧
        ∀ path, git.tracks path = true → new.Has path → ¬old.Has path →
          ∃ q, git.tracks q = true ∧ old.Has q ∧ FileTree.Clash path q := by
  have hsome : (∃ t, git.checkout (old.filter git.tracks) new = some t) ↔
      ∃ path, git.tracks path = true ∧ old.Has path :=
    (hgit.checkout_isSome _ _).trans (exists_congr fun _ => FileTree.has_filter)
  constructor
  · rintro ⟨t, ht, hsame⟩
    refine ⟨hsome.1 ⟨t, ht⟩, fun path hpath hnew hold => ?_⟩
    by_contra hfree
    obtain ⟨c, hc⟩ := FileTree.has_iff.1 hnew
    have hkept := hgit.checkout_keeps _ _ _ ht path fun q hq hclash =>
      hfree ⟨q, (FileTree.has_filter.1 hq).1, (FileTree.has_filter.1 hq).2, hclash⟩
    rw [hsame path hpath, FileTree.get?_eq_none_iff.2 hold, hc] at hkept
    cases hkept
  · rintro ⟨hsomething, hcome⟩
    obtain ⟨t, ht⟩ := hsome.2 hsomething
    refine ⟨t, ht, fun path hpath => ?_⟩
    have hwrites : ∀ q, git.tracks q = true → old.Has q → t.get? q = old.get? q := by
      intro q hq hold
      rw [hgit.checkout_writes _ _ _ ht q (FileTree.has_filter.2 ⟨hq, hold⟩),
        FileTree.get?_filter, if_pos hq]
    by_cases hold : old.Has path
    · exact hwrites path hpath hold
    rw [FileTree.get?_eq_none_iff.2 hold, FileTree.get?_eq_none_iff]
    intro hleft
    by_cases hclash : ∃ q, git.tracks q = true ∧ old.Has q ∧ FileTree.Clash path q
    · -- a file of the snapshot stands at a directory of it, or under it
      obtain ⟨q, hq, hqold, hpq⟩ := hclash
      have hqleft : t.Has q := by
        obtain ⟨c, hc⟩ := FileTree.has_iff.1 hqold
        exact FileTree.has_iff.2 ⟨c, (hwrites q hq hqold).trans hc⟩
      exact hold (FileTree.eq_of_clash hleft hqleft hpq ▸ hqold)
    · have hkept := hgit.checkout_keeps _ _ _ ht path fun q hq hpq => hclash
        ⟨q, (FileTree.has_filter.1 hq).1, (FileTree.has_filter.1 hq).2, hpq⟩
      obtain ⟨c, hc⟩ := FileTree.has_iff.1 hleft
      have hnew : new.Has path := FileTree.has_iff.2 ⟨c, hkept.symm.trans hc⟩
      exact hclash (hcome path hpath hnew hold)

theorem restores_iff_checkout (hgit : git.Documented) (p : Project β) (label : String)
    (initDate date : ℕ) {later : List (Event β)}
    (hnew : EachStep (Project.step git)
      (Project.Renames git (p.snapshot git label initDate date).2)
      (p.snapshot git label initDate date).1 later) :
    Restores git p label initDate date later ↔
      ∃ t, git.checkout (p.tree.filter git.tracks)
          (later.foldl (Project.step git) (p.snapshot git label initDate date).1).tree = some t ∧
        ∀ path, git.tracks path = true → t.get? path = p.tree.get? path := by
  obtain ⟨c, hname, hkeeps⟩ := exists_commit_of_snapshot git p label initDate date
  rw [hname] at hnew
  rw [Restores]
  simp only [hname, restore_eq hgit (keeps_run hkeeps hnew)]
  rcases git.checkout _ _ with _ | t
  · simp
  · simp

/-- The files are those of the snapshot exactly if there were any and no other has come since, where
none of them stands in its way. -/
theorem restores_iff (hgit : git.Documented) (p : Project β) (label : String) (initDate date : ℕ)
    {later : List (Event β)}
    (hnew : EachStep (Project.step git)
      (Project.Renames git (p.snapshot git label initDate date).2)
      (p.snapshot git label initDate date).1 later) :
    Restores git p label initDate date later ↔
      (∃ path, git.tracks path = true ∧ p.tree.Has path) ∧
        ∀ path, git.tracks path = true →
          (later.foldl (Project.step git) (p.snapshot git label initDate date).1).tree.Has path →
          ¬p.tree.Has path →
            ∃ q, git.tracks q = true ∧ p.tree.Has q ∧ FileTree.Clash path q :=
  (restores_iff_checkout hgit p label initDate date hnew).trans (checkout_iff hgit _ _)

end

/-! ## A file that comes after the snapshot -/

/-- A pattern of `info/exclude` : a part of the path, or a directory of it, is matched. -/
def ignores (pattern : String) (path : Path) : Bool :=
  path.any (fnmatchcase · pattern) || path.dropLast.any fun dir => fnmatchcase (dir ++ "/") pattern

def checkoutAll (s t : FileTree String String) : Option (FileTree String String) :=
  if s.files = [] then none else some (s.overlay t)

/-- Commits are told apart by their dates. -/
def plainGit : Git String where
  excludes patterns path := patterns.any (ignores · path)
  name c := String.ofList (List.replicate 39 '0' ++ [Nat.digitChar (c.date % 10)])
  find commits hash := commits.get? hash
  checkout := checkoutAll

theorem documented_plainGit : plainGit.Documented where
  name_length c := by
    change (String.ofList (List.replicate 39 '0' ++ [Nat.digitChar (c.date % 10)])).length = 40
    rw [String.length_ofList, List.length_append, List.length_replicate, List.length_singleton]
  name_hex c d hd := by
    have hdigit : ∀ n < 10, Nat.digitChar n ∈ hexDigits := by decide
    change d ∈ (String.ofList (List.replicate 39 '0' ++ [Nat.digitChar (c.date % 10)])).toList at hd
    rw [String.toList_ofList, List.mem_append, List.mem_singleton] at hd
    rcases hd with hd | rfl
    · rw [List.eq_of_mem_replicate hd]
      decide
    · exact hdigit _ (Nat.mod_lt _ (by decide))
  find_name _ _ _ h := h
  checkout_isSome s t := by
    have hhas : (∃ p, s.Has p) ↔ s.files ≠ [] := by
      have hkeys : Dict.keys s.files = [] ↔ s.files = [] := List.map_eq_nil_iff
      rw [Ne, ← hkeys, List.eq_nil_iff_forall_not_mem]
      exact not_forall_not.symm
    rw [hhas]
    change (∃ t', checkoutAll s t = some t') ↔ _
    rw [checkoutAll]
    split_ifs with h <;> simp [h]
  checkout_writes s t t' h p hp := by
    change checkoutAll s t = some t' at h
    rw [checkoutAll] at h
    split_ifs at h
    rw [← Option.some.inj h, FileTree.get?_overlay_of_has hp]
  checkout_keeps s t t' h p hp := by
    change checkoutAll s t = some t' at h
    rw [checkoutAll] at h
    split_ifs at h
    rw [← Option.some.inj h, FileTree.get?_overlay_of_free hp]

/-- One file. -/
def notes : Project String where
  tree := { files := [(["a.txt"], "old")], apart := by decide }

/-- The file is changed, and a log comes. -/
def edits : List (Event String) :=
  [.write ["a.txt"] "new", .write ["run.log"] "", .snapshot "later" 2 2]

theorem restores_iff_edits :
    Restores plainGit notes "first" 0 1 edits ↔
      (∃ path, plainGit.tracks path = true ∧ notes.tree.Has path) ∧
        ∀ path, plainGit.tracks path = true →
          (edits.foldl (Project.step plainGit)
            (notes.snapshot plainGit "first" 0 1).1).tree.Has path →
          ¬notes.tree.Has path →
            ∃ q, plainGit.tracks q = true ∧ notes.tree.Has q ∧ FileTree.Clash path q :=
  restores_iff documented_plainGit notes "first" 0 1
    ⟨trivial, trivial, fun h => absurd (String.ofList_injective h) (by decide), trivial⟩

/-- A file that is created stays. -/
theorem created_not_restored :
    ¬Restores plainGit notes "first" 0 1 [.write ["b.txt"] "new"] := by
  have hnew : EachStep (Project.step plainGit)
      (Project.Renames plainGit (notes.snapshot plainGit "first" 0 1).2)
      (notes.snapshot plainGit "first" 0 1).1 [.write ["b.txt"] "new"] := ⟨trivial, trivial⟩
  rw [restores_iff_checkout documented_plainGit notes "first" 0 1 hnew,
    checkout_iff documented_plainGit]
  rintro ⟨-, h⟩
  obtain ⟨q, -, hq, hclash⟩ := h ["b.txt"] (by decide +kernel) (by decide) (by decide)
  obtain rfl := List.mem_singleton.1 hq
  exact absurd hclash (by decide)

end OxenClaw.Checkpoint
