import OxenClaw.Backup.Archive

/-!
# Backup and restore

A home is restored as it was exactly if the archive can hold it : every file that is not transient
is kept, its snapshot is taken, its name has no backslash, and nothing but the manifest itself is
called `MANIFEST.json` (`roundTrips_iff`). What a restore with `overwrite` does to another home
depends in addition on what lies at the same paths and beside them (`overwrites_iff`).
-/

namespace OxenClaw.Backup

open OxenClaw

/-- A path a file can have : parts that are no `.` and hold no slash. -/
structure Valid (p : Path) : Prop where
  nonempty : p ≠ []
  parts : ∀ n ∈ p, n ≠ [] ∧ n ≠ lit "." ∧ 47 ∉ n

/-- A tree of regular files. -/
structure Home where
  files : Files
  nodup : files.keys.Nodup
  valid : ∀ p ∈ files.keys, Valid p
  /-- No file is a directory of another. -/
  apart : ∀ p ∈ files.keys, ∀ q ∈ files.keys, p <+: q → p = q

/-- The path of a file beside another one. -/
def sibling (p : Path) (suffix : Name) : Path :=
  p.dropLast ++ [nameOf p ++ suffix]

/-- What the documentation calls transient : `.DS_Store`, what is below a `__pycache__`, and the
siblings of databases. -/
def transient (home : Files) (p : Path) : Bool :=
  nameOf p = lit ".DS_Store" || p.dropLast.contains pycache ||
    home.any fun e => isSqlite e.1 e.2 && transientSuffixes.any (sibling e.1 · = p)

/-- `create_backup`, and `restore_backup` into an empty home, give back every file. -/
def RoundTrips (host : Host) (home : Home) : Prop :=
  ∃ a r, createBackup host home.files = some a ∧ restoreBackup host a {} false false = some r ∧
    ∀ e ∈ home.files, transient home.files e.1 = false →
      ∃ c, stagedContent host home.files e = .done c ∧ r.target.files.get? e.1 = some c

/-- The database at a path of the target is replaced by a file of the backup, or a file there by a
database. -/
def ReplacesDatabase (target : Target) (e : Path × Content) : Prop :=
  ∃ c, target.files.get? e.1 = some c ∧ (isSqlite e.1 e.2 = true ∨ isSqlite e.1 c = true)

/-- `restore_backup` with `overwrite` writes every file that was backed up, and leaves no sibling
beside a database it replaced. -/
def Overwrites (host : Host) (home : Home) (target : Target) : Prop :=
  ∃ a r, createBackup host home.files = some a ∧ restoreBackup host a target false true = some r ∧
    ∀ e ∈ home.files, keeps host e.1 = true → ∀ c, stagedContent host home.files e = .done c →
      relName e.1 ∈ r.restoredFiles ∧ r.target.files.get? e.1 = some c ∧
        (ReplacesDatabase target e → ∀ suffix ∈ transientSuffixes,
          r.target.files.get? (sibling e.1 suffix) = none)

/-- The files of the manifest. -/
def manifestFiles (host : Host) (home : Files) : Dict Name String :=
  ((walkHome host home).foldl (stage host home) {}).manifestFiles

/-- The archive can hold what is kept : no directory is called `MANIFEST.json`, and of the files that
are staged none has a backslash in its path or is called so, unless it is that very manifest. -/
def Recordable (host : Host) (home : Files) : Prop :=
  ∀ e ∈ home, keeps host e.1 = true → [manifestName] ∉ parents e.1 ∧
    ∀ c, stagedContent host home e = .done c → 92 ∉ relName e.1 ∧
      (e.1 = [manifestName] → c = .manifest (manifestOf host (manifestFiles host home)))

/-- Every file that is not transient is kept and can be copied. -/
def AllStaged (host : Host) (home : Files) : Prop :=
  ∀ e ∈ home, transient home e.1 = false →
    keeps host e.1 = true ∧ ∃ c, stagedContent host home e = .done c

/-- Nothing of another kind is in the way of a file of the backup, and no sibling lies beside a
database that is replaced. -/
def Accepts (host : Host) (home : Files) (target : Target) : Prop :=
  ∀ e ∈ home, keeps host e.1 = true → ∀ c, stagedContent host home e = .done c →
    (∀ q ∈ target.files.keys, q <+: e.1 → q = e.1) ∧ target.isDir e.1 = false ∧
      (ReplacesDatabase target e → ∀ suffix ∈ transientSuffixes,
        target.files.get? (sibling e.1 suffix) = none)

/-! ## Names -/

variable {host : Host} {home : Home} {p q : Path} {a : Archive} {target : Target}

theorem splitOn_relName (hp : Valid p) : (relName p).splitOn 47 = p :=
  List.splitOn_intercalate 47 (fun n hn => (hp.parts n hn).2.2) hp.nonempty

theorem relName_inj (hp : Valid p) (hq : Valid q) (h : relName p = relName q) : p = q := by
  rw [← splitOn_relName hp, h, splitOn_relName hq]

theorem pathOf_relName (hp : Valid p) : pathOf (relName p) = p := by
  rw [pathOf, splitOn_relName hp]
  refine List.filter_eq_self.2 fun n hn => ?_
  obtain ⟨hne, hdot, -⟩ := hp.parts n hn
  simp [hne, hdot]

theorem manifestKey_of_notMem (h : 92 ∉ relName p) : manifestKey p = relName p := by
  rw [manifestKey]
  refine (List.map_congr_left fun c hc => if_neg ?_).trans (List.map_id _)
  rintro rfl
  exact h hc

theorem notMem_manifestKey (p : Path) : 92 ∉ manifestKey p := by
  intro h
  obtain ⟨c, -, hc⟩ := List.mem_map.1 h
  split_ifs at hc with h92
  · cases hc
  · exact h92 hc

/-- A path read off a name without backslashes has none. -/
theorem notMem_relName_of_pathOf {rel : Name} (hrel : 92 ∉ rel) (h : pathOf rel = p) :
    92 ∉ relName p := by
  intro hmem
  rcases Lines.mem_intercalate hmem with h47 | ⟨n, hn, hc⟩
  · cases h47
  · rw [← h] at hn
    exact hrel (Lines.subset_of_mem_splitOn (List.mem_of_mem_filter hn) hc)

theorem valid_singleton {n : Name} (h : n ≠ [] ∧ n ≠ lit "." ∧ 47 ∉ n) : Valid [n] := by
  refine ⟨List.cons_ne_nil _ _, fun m hm => ?_⟩
  rwa [List.mem_singleton.1 hm]

theorem valid_manifestName : Valid [manifestName] :=
  valid_singleton (by decide)

/-- A name ends as its last part does. -/
theorem exists_relName_eq (init : Path) (front : Name) (c : ℕ) :
    ∃ rest, relName (init ++ [front ++ [c]]) = rest ++ [c] := by
  induction init with
  | nil => exact ⟨front, by simp [relName]⟩
  | cons first init ih =>
    obtain ⟨rest, hrest⟩ := ih
    refine ⟨first ++ [47] ++ rest, ?_⟩
    rw [relName] at hrest ⊢
    rw [List.cons_append, List.intercalate_cons_of_ne_nil (by simp), hrest, List.append_assoc,
      List.append_assoc, List.append_assoc]

/-- The name of a file does not end with a slash. -/
theorem rstripSlash_memberName (hp : Valid p) :
    rstripSlash (memberName (relName p)) = memberName (relName p) := by
  obtain ⟨init, n, rfl⟩ : ∃ init n, p = init ++ [n] :=
    ⟨p.dropLast, p.getLast hp.nonempty, (List.dropLast_append_getLast hp.nonempty).symm⟩
  obtain ⟨hne, -, h47⟩ := hp.parts n (by simp)
  obtain ⟨front, c, rfl⟩ : ∃ front c, n = front ++ [c] :=
    ⟨n.dropLast, n.getLast hne, (List.dropLast_append_getLast hne).symm⟩
  have hc : c ≠ 47 := by
    rintro rfl
    exact h47 (by simp)
  obtain ⟨rest, hrest⟩ := exists_relName_eq init front c
  rw [memberName, hrest, ← List.append_assoc, rstripSlash, List.reverse_append,
    List.reverse_singleton, List.singleton_append, List.dropWhile_cons_of_neg (by simpa using hc),
    List.reverse_cons, List.reverse_reverse]

/-! ## Members -/

/-- A file of an archive is the member of its name. -/
theorem getmember_memberName (hvalid : ∀ p ∈ a.files.keys, Valid p) (hp : p ∈ a.files.keys) :
    a.getmember (memberName (relName p)) = some (a.files.get? p) := by
  have hfind : ∀ files : Files, (∀ q ∈ files.keys, Valid q) →
      (files.find? fun e => memberName (relName e.1) = memberName (relName p)).map Prod.snd =
        files.get? p := by
    intro files hfiles
    induction files with
    | nil => rfl
    | cons e files ih =>
      have hiff : memberName (relName e.1) = memberName (relName p) ↔ e.1 = p := by
        rw [memberName, memberName, List.append_cancel_left_eq]
        exact ⟨relName_inj (hfiles e.1 List.mem_cons_self) (hvalid p hp), congrArg relName⟩
      rw [List.find?_cons, Dict.get?_cons]
      by_cases he : e.1 = p
      · simp [he]
      · simpa [he, hiff] using ih fun q hq => hfiles q (List.mem_cons_of_mem _ hq)
  obtain ⟨c, hc⟩ := Dict.mem_keys_iff.1 hp
  have hfound := hfind a.files hvalid
  rw [hc] at hfound
  obtain ⟨e, he, hsnd⟩ := Option.map_eq_some_iff.1 hfound
  rw [Archive.getmember, rstripSlash_memberName (hvalid p hp), he, hc, ← hsnd]

/-! ## What is staged -/

theorem mem_walkHome {home : Files} {e : Path × Content} :
    e ∈ walkHome host home ↔ e ∈ home ∧ keeps host e.1 = true := by
  rw [walkHome, List.mem_mergeSort, List.mem_filter]

theorem nodup_walkHome (host : Host) (home : Home) : (walkHome host home.files).keys.Nodup := by
  have hperm := List.mergeSort_perm (home.files.filter fun e => keeps host e.1)
    fun a b => decide (a.1 ≤ b.1)
  refine ((hperm.map Prod.fst).nodup_iff).2 ?_
  exact home.nodup.sublist (List.filter_sublist.map _)

/-- The files that are staged, with what is staged for them. -/
def backedUp (host : Host) (home : Files) : Files :=
  (walkHome host home).filterMap fun e =>
    match stagedContent host home e with
    | .done c => some (e.1, c)
    | .failed _ => none

theorem mem_backedUp {home : Files} {c : Content} : (p, c) ∈ backedUp host home ↔
    ∃ c₀, (p, c₀) ∈ home ∧ keeps host p = true ∧ stagedContent host home (p, c₀) = .done c := by
  simp only [backedUp, List.mem_filterMap, mem_walkHome]
  constructor
  · rintro ⟨⟨q, c₀⟩, ⟨hmem, hkeeps⟩, h⟩
    split at h
    · next c' hstaged =>
      obtain ⟨rfl, rfl⟩ := Prod.mk.inj (Option.some.inj h)
      exact ⟨c₀, hmem, hkeeps, hstaged⟩
    · cases h
  · rintro ⟨c₀, hmem, hkeeps, hstaged⟩
    exact ⟨(p, c₀), ⟨hmem, hkeeps⟩, by rw [hstaged]⟩

theorem manifestFiles_eq (host : Host) (home : Files) : manifestFiles host home =
    (backedUp host home).foldl (fun d e => Dict.set d (manifestKey e.1) (host.sha256 e.2))
      ([] : Dict Name String) := by
  have hfold : ∀ (l : Files) (s : Staging), (l.foldl (stage host home) s).manifestFiles =
      (l.filterMap fun e =>
        match stagedContent host home e with
        | .done c => some (e.1, c)
        | .failed _ => none).foldl (fun d e => Dict.set d (manifestKey e.1) (host.sha256 e.2))
          s.manifestFiles := by
    intro l
    induction l with
    | nil => exact fun _ => rfl
    | cons e l ih =>
      intro s
      rw [List.foldl_cons, ih, List.filterMap_cons]
      rcases hstaged : stagedContent host home e with c | _ | c <;> simp [stage, hstaged]
  exact hfold _ _

/-- The files of the staging directory. -/
def stagedFiles (host : Host) (home : Files) : Files :=
  ((walkHome host home).foldl (stage host home) {}).files

theorem stage_cases (home : Files) (s : Staging) (e : Path × Content) :
    (stage host home s e).files = s.files ∨ ∃ c, (stage host home s e).files = s.files.set e.1 c := by
  unfold stage
  split
  · exact Or.inr ⟨_, rfl⟩
  · exact Or.inr ⟨_, rfl⟩
  · exact Or.inl rfl

theorem mem_keys_stagedFiles {home : Files} (h : p ∈ (stagedFiles host home).keys) :
    ∃ c, (p, c) ∈ home ∧ keeps host p = true := by
  have hfold : ∀ (l : Files) (s : Staging), p ∈ (l.foldl (stage host home) s).files.keys →
      p ∈ s.files.keys ∨ p ∈ l.keys := by
    intro l
    induction l with
    | nil => exact fun _ h => Or.inl h
    | cons e l ih =>
      intro s h
      rcases ih _ h with h | h
      · rcases stage_cases home s e with heq | ⟨c, heq⟩
        · exact Or.inl (heq ▸ h)
        · rw [heq, Dict.mem_keys_set] at h
          refine h.imp_right fun hp => ?_
          rw [hp]
          exact List.mem_map_of_mem List.mem_cons_self
      · exact Or.inr (List.mem_cons_of_mem _ h)
  have hmem : p ∈ (walkHome host home).keys := (hfold _ _ h).resolve_left List.not_mem_nil
  obtain ⟨⟨q, c⟩, hin, rfl⟩ := List.mem_map.1 hmem
  exact ⟨c, mem_walkHome.1 hin⟩

theorem get?_stagedFiles {c : Content} (h : (p, c) ∈ backedUp host home.files) :
    (stagedFiles host home.files).get? p = some c := by
  obtain ⟨c₀, hmem, hkeeps, hstaged⟩ := mem_backedUp.1 h
  have hfold : ∀ (l : Files) (s : Staging), p ∉ l.keys →
      (l.foldl (stage host home.files) s).files.get? p = s.files.get? p := by
    intro l
    induction l with
    | nil => exact fun _ _ => rfl
    | cons e l ih =>
      intro s hnot
      obtain ⟨hne, hnot⟩ := not_or.1 (List.mem_cons.not.1 hnot)
      rw [List.foldl_cons, ih _ hnot]
      rcases stage_cases home.files s e with heq | ⟨c, heq⟩
      · rw [heq]
      · rw [heq, Dict.get?_set_of_ne hne]
  obtain ⟨before, after, hsplit⟩ := List.append_of_mem (mem_walkHome.2 ⟨hmem, hkeeps⟩)
  have hnodup := nodup_walkHome host home
  rw [hsplit] at hnodup
  have hafter : p ∉ Dict.keys after := by
    have hnodup : ((before.map Prod.fst) ++ p :: after.map Prod.fst).Nodup := by
      simpa [Dict.keys] using hnodup
    exact (List.nodup_cons.1 (List.nodup_append.1 hnodup).2.1).1
  rw [stagedFiles, hsplit, List.foldl_append, List.foldl_cons, hfold _ _ hafter]
  simp [stage, hstaged]

/-! ## Writing into a target -/

/-- No file is in the way of the path, and it is no directory. -/
def Target.Free (t : Target) (p : Path) : Prop :=
  (∀ q ∈ t.files.keys, q <+: p → q = p) ∧ t.isDir p = false

theorem isDir_iff {t : Target} : t.isDir p = true ↔
    (∃ d ∈ t.dirs, p <+: d) ∨ ∃ q ∈ t.files.keys, p <+: q ∧ p ≠ q := by
  simp only [Target.isDir, Bool.or_eq_true, List.any_eq_true, Bool.and_eq_true, List.isPrefixOf_iff_prefix,
    decide_eq_true_eq, Dict.keys, List.mem_map, exists_exists_and_eq_and]

theorem write_of_free {t : Target} (h : t.Free p) (c : Content) :
    t.write p c = some { t with files := t.files.set p c } := by
  rw [Target.write, if_neg]
  rw [Bool.or_eq_true, h.2, List.any_eq_true]
  rintro (⟨e, he, hboth⟩ | hdir)
  · obtain ⟨hpre, hne⟩ := Bool.and_eq_true_iff.1 hboth
    exact of_decide_eq_true hne
      (h.1 e.1 (List.mem_map_of_mem he) (List.isPrefixOf_iff_prefix.1 hpre))
  · cases hdir

theorem write_of_not_free {t : Target} (h : ¬t.Free p) (c : Content) : t.write p c = none := by
  rw [Target.write, if_pos]
  by_contra hnot
  rw [Bool.or_eq_true, not_or, Bool.not_eq_true (t.isDir p)] at hnot
  refine h ⟨fun q hq hpre => ?_, hnot.2⟩
  by_contra hne
  obtain ⟨e, he, rfl⟩ := List.mem_map.1 hq
  refine hnot.1 (List.any_eq_true.2 ⟨e, he, ?_⟩)
  rw [Bool.and_eq_true]
  exact ⟨List.isPrefixOf_iff_prefix.2 hpre, decide_eq_true hne⟩

/-- A file that is not above or below the path does not matter. -/
theorem free_set_iff {t : Target} (hpq : p <+: q → p = q) (hqp : q <+: p → q = p) (c : Content) :
    ({ t with files := t.files.set q c } : Target).Free p ↔ t.Free p := by
  refine and_congr ⟨fun h k hk => h k (Dict.mem_keys_set.2 (Or.inl hk)), fun h k hk => ?_⟩ ?_
  · rcases Dict.mem_keys_set.1 hk with hk | rfl
    · exact h k hk
    · exact hqp
  · rw [← Bool.not_eq_true, ← Bool.not_eq_true, isDir_iff, isDir_iff, not_iff_not]
    refine or_congr_right ⟨?_, fun ⟨k, hk, h⟩ => ⟨k, Dict.mem_keys_set.2 (Or.inl hk), h⟩⟩
    rintro ⟨k, hk, hpre, hne⟩
    rcases Dict.mem_keys_set.1 hk with hk | rfl
    · exact ⟨k, hk, hpre, hne⟩
    · exact absurd (hpq hpre) hne

/-- The content an archive has for a file of the manifest. -/
def Archive.contentOf (a : Archive) (rel : Name) : Content :=
  (a.files.get? (pathOf rel)).getD (.bytes [])

/-- What a run of the loop of `restore_backup` leaves, where it does not raise. -/
def restoredAll (a : Archive) (r : RestoreResult) (entries : Dict Name String) : RestoreResult where
  restoredFiles := r.restoredFiles ++ entries.keys
  skippedFiles := r.skippedFiles
  target := { r.target with
    files := entries.foldl (fun d e => Dict.set d (pathOf e.1) (a.contentOf e.1)) r.target.files }

/-- The entry is of a file that the archive has. -/
def Present (a : Archive) (e : Name × String) : Prop :=
  ∃ p c, e.1 = relName p ∧ Valid p ∧ a.files.get? p = some c

theorem restoreOne_of_present (hvalid : ∀ p ∈ a.files.keys, Valid p) {e : Name × String}
    (he : Present a e) (r : RestoreResult) : restoreOne a r e =
      (r.target.write (pathOf e.1) (a.contentOf e.1)).map fun target =>
        { r with restoredFiles := r.restoredFiles ++ [e.1], target } := by
  obtain ⟨p, c, hrel, hp, hc⟩ := he
  have hmem : p ∈ a.files.keys := Dict.mem_keys_iff.2 ⟨c, hc⟩
  rw [restoreOne, Archive.contentOf, hrel, getmember_memberName hvalid hmem, pathOf_relName hp, hc,
    Option.getD_some]
  rcases hwrite : r.target.write p c <;> simp [hwrite]

/-- The loop of `restore_backup`, over files none of which is above another. -/
theorem foldlM_restoreOne (hvalid : ∀ p ∈ a.files.keys, Valid p) :
    ∀ (entries : Dict Name String) (r : RestoreResult), (∀ e ∈ entries, Present a e) →
      (entries.Pairwise fun e f => pathOf e.1 ≠ pathOf f.1 ∧ ¬pathOf e.1 <+: pathOf f.1 ∧
        ¬pathOf f.1 <+: pathOf e.1) →
      ((∀ e ∈ entries, r.target.Free (pathOf e.1)) →
        entries.foldlM (restoreOne a) r = some (restoredAll a r entries)) ∧
      ((∃ e ∈ entries, ¬r.target.Free (pathOf e.1)) →
        entries.foldlM (restoreOne a) r = none) := by
  intro entries
  induction entries with
  | nil =>
    intro r _ _
    refine ⟨fun _ => ?_, fun ⟨e, he, _⟩ => absurd he List.not_mem_nil⟩
    simp [restoredAll, Dict.keys]
  | cons e entries ih =>
    intro r hpresent hapart
    obtain ⟨hfirst, hrest⟩ := List.pairwise_cons.1 hapart
    rw [List.foldlM_cons, restoreOne_of_present hvalid (hpresent e List.mem_cons_self)]
    by_cases hfree : r.target.Free (pathOf e.1)
    · rw [write_of_free hfree]
      obtain ⟨r', hr'⟩ : ∃ r', r' = { r with
          restoredFiles := r.restoredFiles ++ [e.1]
          target := { r.target with
            files := r.target.files.set (pathOf e.1) (a.contentOf e.1) } } := ⟨_, rfl⟩
      have hsame : ∀ f ∈ entries, (r'.target.Free (pathOf f.1) ↔ r.target.Free (pathOf f.1)) := by
        intro f hf
        obtain ⟨-, hef, hfe⟩ := hfirst f hf
        rw [hr']
        exact free_set_iff (fun h => absurd h hfe) (fun h => absurd h hef) _
      obtain ⟨hall, hsome⟩ := ih r' (fun f hf => hpresent f (List.mem_cons_of_mem _ hf)) hrest
      simp only [Option.map_some, Option.bind_eq_bind, Option.bind_some]
      rw [← hr']
      refine ⟨fun h => ?_, ?_⟩
      · rw [hall fun f hf => (hsame f hf).2 (h f (List.mem_cons_of_mem _ hf)), hr']
        simp [restoredAll, Dict.keys]
      · rintro ⟨f, hf, hnot⟩
        rcases List.mem_cons.1 hf with rfl | hf
        · exact absurd hfree hnot
        · exact hsome ⟨f, hf, fun h => hnot ((hsame f hf).1 h)⟩
    · rw [write_of_not_free hfree]
      exact ⟨fun h => absurd (h e List.mem_cons_self) hfree, fun _ => rfl⟩

/-! ## The archive of a home -/

/-- The manifest of a home, as it is read again. -/
def manifestOfHome (host : Host) (home : Files) : BackupManifest :=
  manifestOf host (manifestFiles host home)

/-- The archive of a home. -/
def archiveOf (host : Host) (home : Files) : Archive where
  files := (stagedFiles host home).set [manifestName] (.manifest (manifestOfHome host home))
  dirs := (walkHome host home).flatMap fun e => parents e.1

theorem createBackup_eq_some_iff {home : Files} : createBackup host home = some a ↔
    (∀ e ∈ home, keeps host e.1 = true → [manifestName] ∉ parents e.1) ∧
      archiveOf host home = a := by
  have hany : ((walkHome host home).any fun e => (parents e.1).contains [manifestName]) = false ↔
      ∀ e ∈ home, keeps host e.1 = true → [manifestName] ∉ parents e.1 := by
    rw [List.any_eq_false]
    simp only [mem_walkHome, List.contains_eq_mem, decide_eq_true_eq, and_imp]
  rw [← hany, createBackup]
  rcases h : (walkHome host home).any fun e => (parents e.1).contains [manifestName] with _ | _
  · rw [if_neg (by simp)]
    simp only [Option.some.injEq, true_and]
    rfl
  · rw [if_pos (by simp)]
    simp

theorem valid_archiveOf (home : Home) : ∀ p ∈ (archiveOf host home.files).files.keys, Valid p := by
  intro p hp
  rcases Dict.mem_keys_set.1 hp with hp | rfl
  · obtain ⟨c, hmem, -⟩ := mem_keys_stagedFiles hp
    exact home.valid p (List.mem_map_of_mem hmem)
  · exact valid_manifestName

theorem readManifest_archiveOf (host : Host) (home : Home) :
    readManifest (archiveOf host home.files) = some (manifestOfHome host home.files) := by
  have hmem : [manifestName] ∈ (archiveOf host home.files).files.keys :=
    Dict.mem_keys_set.2 (Or.inr rfl)
  have hname : relName [manifestName] = manifestName := List.intercalate_singleton
  have hmember := getmember_memberName (valid_archiveOf home) hmem
  rw [hname] at hmember
  rw [readManifest, hmember, archiveOf, Dict.get?_set_self]

/-- What the archive has for a file that is staged. -/
theorem get?_archiveOf {c : Content} (h : (p, c) ∈ backedUp host home.files) :
    (archiveOf host home.files).files.get? p =
      some (if p = [manifestName] then .manifest (manifestOfHome host home.files) else c) := by
  rw [archiveOf, Dict.get?_set, get?_stagedFiles h]
  split_ifs <;> rfl

theorem mem_sortKeys {files : Dict Name String} {e : Name × String} :
    e ∈ sortKeys files ↔ e ∈ files :=
  List.mem_mergeSort

/-- A file of the manifest was staged, under some name. -/
theorem exists_of_mem_manifest {e : Name × String}
    (h : e ∈ (manifestOfHome host home.files).files) :
    ∃ p c, (p, c) ∈ backedUp host home.files ∧ e.1 = manifestKey p := by
  have hkey : e.1 ∈ (manifestFiles host home.files).keys :=
    List.mem_map_of_mem (mem_sortKeys.1 h)
  rw [manifestFiles_eq, Dict.mem_keys_foldl_set] at hkey
  rcases hkey with hkey | ⟨⟨p, c⟩, hmem, heq⟩
  · cases hkey
  · exact ⟨p, c, hmem, heq.symm⟩

theorem valid_of_mem_backedUp {c : Content} (h : (p, c) ∈ backedUp host home.files) : Valid p := by
  obtain ⟨c₀, hmem, -⟩ := mem_backedUp.1 h
  exact home.valid p (List.mem_map_of_mem hmem)

/-- One content is staged for a path. -/
theorem backedUp_unique {c c' : Content} (h : (p, c) ∈ backedUp host home.files)
    (h' : (p, c') ∈ backedUp host home.files) : c = c' :=
  Option.some.inj ((get?_stagedFiles h).symm.trans (get?_stagedFiles h'))

/-- The names in the archive are those of the files. -/
def NoBackslash (host : Host) (home : Files) : Prop :=
  ∀ e ∈ backedUp host home, 92 ∉ relName e.1

theorem mem_manifest_iff (hclean : NoBackslash host home.files) {e : Name × String} :
    e ∈ (manifestOfHome host home.files).files ↔
      ∃ p c, (p, c) ∈ backedUp host home.files ∧ e = (relName p, host.sha256 c) := by
  have hsame : ∀ x ∈ backedUp host home.files, ∀ y ∈ backedUp host home.files,
      manifestKey y.1 = manifestKey x.1 → host.sha256 y.2 = host.sha256 x.2 := by
    rintro ⟨p, c⟩ hx ⟨q, c'⟩ hy heq
    rw [manifestKey_of_notMem (hclean _ hx), manifestKey_of_notMem (hclean _ hy)] at heq
    obtain rfl : q = p := relName_inj (valid_of_mem_backedUp hy) (valid_of_mem_backedUp hx) heq
    rw [backedUp_unique hy hx]
  have hget : ∀ x ∈ backedUp host home.files,
      (manifestFiles host home.files).get? (manifestKey x.1) = some (host.sha256 x.2) := by
    intro x hx
    rw [manifestFiles_eq]
    exact Dict.get?_foldl_set_of_mem (f := fun e : Path × Content => manifestKey e.1)
      (g := fun e : Path × Content => host.sha256 e.2) hx [] (hsame x hx)
  have hnodup : (manifestFiles host home.files).keys.Nodup := by
    rw [manifestFiles_eq]
    exact Dict.nodup_keys_foldl_set _ List.nodup_nil
  constructor
  · intro h
    obtain ⟨p, c, hmem, hkey⟩ := exists_of_mem_manifest h
    refine ⟨p, c, hmem, ?_⟩
    have hvalue := Dict.get?_of_mem hnodup (mem_sortKeys.1 h)
    rw [hkey, hget _ hmem] at hvalue
    rw [manifestKey_of_notMem (hclean _ hmem)] at hkey
    exact Prod.ext hkey (Option.some.inj hvalue).symm
  · rintro ⟨p, c, hmem, rfl⟩
    refine mem_sortKeys.2 (Dict.mem_of_get? ?_)
    rw [← manifestKey_of_notMem (hclean _ hmem)]
    exact hget _ hmem

theorem nodup_manifest (host : Host) (home : Home) :
    (manifestOfHome host home.files).files.keys.Nodup := by
  have hnodup : (manifestFiles host home.files).keys.Nodup := by
    rw [manifestFiles_eq]
    exact Dict.nodup_keys_foldl_set _ List.nodup_nil
  exact (((List.mergeSort_perm _ _).map Prod.fst).nodup_iff).2 hnodup

/-! ## Restoring it -/

/-- What decides about the restore : the checksums, then the loop. -/
theorem restoreBackup_archiveOf {overwrite : Bool} (h : overwrite = true ∨ target = {}) :
    restoreBackup host (archiveOf host home.files) target false overwrite =
      if (manifestOfHome host home.files).files.all
          (checks host (archiveOf host home.files)) = true then
        (manifestOfHome host home.files).files.foldlM
          (restoreOne (archiveOf host home.files)) { target }
      else none := by
  have hallowed : (!(target.files.isEmpty && target.dirs.isEmpty) && !overwrite && !false) =
      false := by
    rcases h with rfl | rfl <;> simp
  rw [restoreBackup, verifyBackup, readManifest_archiveOf, Option.filter_some]
  simp only [hallowed, Bool.false_eq_true, if_false]
  split_ifs <;> rfl

/-- What the loop has restored are files of the manifest. -/
theorem foldlM_restoreOne_subset {entries : Dict Name String} {r r' : RestoreResult}
    (h : entries.foldlM (restoreOne a) r = some r') :
    (∀ k ∈ r'.restoredFiles, k ∈ r.restoredFiles ∨ k ∈ entries.keys) ∧
      ∀ p ∈ r'.target.files.keys, p ∈ r.target.files.keys ∨ ∃ k ∈ entries.keys, pathOf k = p := by
  induction entries generalizing r with
  | nil =>
    obtain rfl : r = r' := by simpa using h
    exact ⟨fun _ => Or.inl, fun _ => Or.inl⟩
  | cons e entries ih =>
    rw [List.foldlM_cons] at h
    obtain ⟨r₁, hone, hrest⟩ := Option.bind_eq_some_iff.1 h
    obtain ⟨hrestored, hkeys⟩ := ih hrest
    have hstep : (∀ k ∈ r₁.restoredFiles, k ∈ r.restoredFiles ∨ k = e.1) ∧
        ∀ p ∈ r₁.target.files.keys, p ∈ r.target.files.keys ∨ pathOf e.1 = p := by
      unfold restoreOne at hone
      split at hone
      · obtain ⟨t, hwrite, heq⟩ := Option.bind_eq_some_iff.1 hone
        obtain rfl := Option.some.inj heq
        refine ⟨fun k hk => by simpa using hk, fun p hp => ?_⟩
        unfold Target.write at hwrite
        split_ifs at hwrite
        obtain rfl := Option.some.inj hwrite
        exact (Dict.mem_keys_set.1 hp).imp_right Eq.symm
      · obtain rfl := Option.some.inj hone
        exact ⟨fun _ => Or.inl, fun _ => Or.inl⟩
    refine ⟨fun k hk => ?_, fun p hp => ?_⟩
    · rcases hrestored k hk with hk | hk
      · refine (hstep.1 k hk).imp_right fun heq => ?_
        rw [heq]
        exact List.mem_map_of_mem List.mem_cons_self
      · exact Or.inr (List.mem_cons_of_mem _ hk)
    · rcases hkeys p hp with hp | ⟨k, hk, hpath⟩
      · exact (hstep.2 p hp).imp_right fun heq =>
          ⟨e.1, List.mem_map_of_mem List.mem_cons_self, heq⟩
      · exact Or.inr ⟨k, List.mem_cons_of_mem _ hk, hpath⟩

/-- No restored file has a backslash in its path. -/
theorem restored_notMem {overwrite : Bool} (h : overwrite = true ∨ target = {})
    {r : RestoreResult}
    (hr : restoreBackup host (archiveOf host home.files) target false overwrite = some r) :
    (∀ k ∈ r.restoredFiles, 92 ∉ k) ∧
      ∀ p ∈ r.target.files.keys, p ∈ target.files.keys ∨ 92 ∉ relName p := by
  rw [restoreBackup_archiveOf h] at hr
  split_ifs at hr
  obtain ⟨hrestored, hkeys⟩ := foldlM_restoreOne_subset hr
  have hclean : ∀ k ∈ (manifestOfHome host home.files).files.keys, 92 ∉ k := by
    intro k hk
    obtain ⟨e, he, rfl⟩ := List.mem_map.1 hk
    obtain ⟨p, c, -, hkey⟩ := exists_of_mem_manifest he
    rw [hkey]
    exact notMem_manifestKey p
  refine ⟨fun k hk => hclean k ((hrestored k hk).resolve_left List.not_mem_nil), fun p hp => ?_⟩
  exact (hkeys p hp).imp_right fun ⟨k, hk, hpath⟩ => notMem_relName_of_pathOf (hclean k hk) hpath

/-- Entries of the manifest are of files that lie apart. -/
theorem pairwise_manifest (hclean : NoBackslash host home.files) :
    (manifestOfHome host home.files).files.Pairwise fun e f => pathOf e.1 ≠ pathOf f.1 ∧
      ¬pathOf e.1 <+: pathOf f.1 ∧ ¬pathOf f.1 <+: pathOf e.1 := by
  have hnodup : (manifestOfHome host home.files).files.Pairwise fun e f => e.1 ≠ f.1 :=
    List.pairwise_map.1 (nodup_manifest host home)
  refine hnodup.imp_of_mem fun {e f} he hf hne => ?_
  obtain ⟨p, c, hp, rfl⟩ := (mem_manifest_iff hclean).1 he
  obtain ⟨q, c', hq, rfl⟩ := (mem_manifest_iff hclean).1 hf
  rw [pathOf_relName (valid_of_mem_backedUp hp), pathOf_relName (valid_of_mem_backedUp hq)]
  have hpq : p ≠ q := fun heq => hne (congrArg relName heq)
  obtain ⟨c₀, hmem, -⟩ := mem_backedUp.1 hp
  obtain ⟨c₁, hmem', -⟩ := mem_backedUp.1 hq
  have hp' : p ∈ home.files.keys := List.mem_map_of_mem hmem
  have hq' : q ∈ home.files.keys := List.mem_map_of_mem hmem'
  exact ⟨hpq, fun h => hpq (home.apart p hp' q hq' h), fun h => hpq (home.apart q hq' p hp' h).symm⟩

/-- The content that is restored for a file. -/
def recorded (host : Host) (home : Files) (p : Path) (c : Content) : Content :=
  if p = [manifestName] then .manifest (manifestOfHome host home) else c

theorem checks_iff {c : Content} (h : (p, c) ∈ backedUp host home.files) :
    checks host (archiveOf host home.files) (relName p, host.sha256 c) = true ↔
      host.sha256 (recorded host home.files p c) = host.sha256 c := by
  have hget := get?_archiveOf h
  have hmem : p ∈ (archiveOf host home.files).files.keys := Dict.mem_keys_iff.2 ⟨_, hget⟩
  rw [checks, getmember_memberName (valid_archiveOf home) hmem, hget, ← recorded]
  exact decide_eq_true_iff

/-- The archive has every file of its manifest. -/
theorem present_of_mem_manifest (hclean : NoBackslash host home.files) :
    ∀ e ∈ (manifestOfHome host home.files).files, Present (archiveOf host home.files) e := by
  intro e he
  obtain ⟨p, c, hp, rfl⟩ := (mem_manifest_iff hclean).1 he
  exact ⟨p, _, rfl, valid_of_mem_backedUp hp, get?_archiveOf hp⟩

/-- A restore of names without backslashes : it writes what the archive has for every file, and
nothing else. -/
theorem restore_spec (hclean : NoBackslash host home.files) {overwrite : Bool}
    (h : overwrite = true ∨ target = {}) {r : RestoreResult}
    (hr : restoreBackup host (archiveOf host home.files) target false overwrite = some r) :
    (∀ p c, (p, c) ∈ backedUp host home.files → target.Free p ∧ relName p ∈ r.restoredFiles ∧
      r.target.files.get? p = some (recorded host home.files p c)) ∧
    ∀ q, q ∉ (backedUp host home.files).keys → r.target.files.get? q = target.files.get? q := by
  rw [restoreBackup_archiveOf h] at hr
  split_ifs at hr
  obtain ⟨hall, hsome⟩ := foldlM_restoreOne (valid_archiveOf home) _ { target }
    (present_of_mem_manifest hclean) (pairwise_manifest hclean)
  have hfree : ∀ e ∈ (manifestOfHome host home.files).files, target.Free (pathOf e.1) := by
    by_contra hnot
    push Not at hnot
    rw [hsome hnot] at hr
    cases hr
  rw [hall hfree] at hr
  obtain rfl := Option.some.inj hr
  refine ⟨fun p c hp => ?_, fun q hq => ?_⟩
  · have he := (mem_manifest_iff hclean).2 ⟨p, c, hp, rfl⟩
    have hpath := pathOf_relName (valid_of_mem_backedUp hp)
    refine ⟨?_, ?_, ?_⟩
    · have hp' := hfree _ he
      rwa [hpath] at hp'
    · exact List.mem_append_right _ (List.mem_map_of_mem he)
    · have hset := Dict.get?_foldl_set_of_mem (f := fun e : Name × String => pathOf e.1)
        (g := fun e => (archiveOf host home.files).contentOf e.1) he target.files
        (fun e' _ heq => by rw [Archive.contentOf, heq, Archive.contentOf])
      simp only [hpath, Archive.contentOf, get?_archiveOf hp, Option.getD_some] at hset
      exact hset
  · refine Dict.get?_foldl_set_of_notMem _ _ fun e he hpath => ?_
    obtain ⟨p, c, hp, rfl⟩ := (mem_manifest_iff hclean).1 he
    rw [pathOf_relName (valid_of_mem_backedUp hp)] at hpath
    exact hq (hpath ▸ List.mem_map_of_mem hp)

/-- It succeeds where nothing is in the way and the manifest is what it says of itself. -/
theorem exists_restore (target : Target) (hclean : NoBackslash host home.files) {overwrite : Bool}
    (h : overwrite = true ∨ target = {})
    (hrecorded : ∀ p c, (p, c) ∈ backedUp host home.files → recorded host home.files p c = c)
    (hfree : ∀ p ∈ (backedUp host home.files).keys, target.Free p) :
    ∃ r, restoreBackup host (archiveOf host home.files) target false overwrite = some r := by
  rw [restoreBackup_archiveOf h, if_pos]
  · refine ⟨_, (foldlM_restoreOne (valid_archiveOf home) _ { target }
      (present_of_mem_manifest hclean) (pairwise_manifest hclean)).1 fun e he => ?_⟩
    obtain ⟨p, c, hp, rfl⟩ := (mem_manifest_iff hclean).1 he
    rw [pathOf_relName (valid_of_mem_backedUp hp)]
    exact hfree p (List.mem_map_of_mem hp)
  · refine List.all_eq_true.2 fun e he => ?_
    obtain ⟨p, c, hp, rfl⟩ := (mem_manifest_iff hclean).1 he
    rw [checks_iff hp, hrecorded p c hp]

/-! ## The round trip -/

theorem nameOf_sibling (p : Path) (suffix : Name) : nameOf (sibling p suffix) = nameOf p ++ suffix := by
  rw [nameOf, sibling, List.getLast?_concat]
  rfl

/-- No sibling is kept. -/
theorem keeps_sibling {suffix : Name} (h : suffix ∈ transientSuffixes) :
    keeps host (sibling p suffix) = false := by
  rw [← Bool.not_eq_true]
  intro hkeeps
  simp only [keeps, Bool.and_eq_true, Bool.not_eq_true', List.any_eq_false] at hkeeps
  refine hkeeps.1.2 suffix h ?_
  rw [nameOf_sibling, List.isSuffixOf_iff_suffix]
  exact List.suffix_append _ _

/-- What is kept is not transient. -/
theorem transient_of_keeps {home : Files} (h : keeps host p = true) : transient home p = false := by
  rw [← Bool.not_eq_true]
  intro htransient
  have hkeeps := h
  simp only [keeps, Bool.and_eq_true, Bool.not_eq_true', List.contains_eq_mem,
    decide_eq_false_iff_not] at h
  obtain ⟨⟨hname, -⟩, hparts⟩ := h
  simp only [transient, Bool.or_eq_true, decide_eq_true_eq, List.contains_eq_mem,
    List.any_eq_true, Bool.and_eq_true] at htransient
  rcases htransient with (hstore | hcache) | ⟨e, -, -, suffix, hsuffix, rfl⟩
  · exact hname (by simp [hstore])
  · exact hparts (List.mem_append_right _ (List.dropLast_subset _ hcache))
  · rw [keeps_sibling hsuffix] at hkeeps
    cases hkeeps

theorem noBackslash_of_recordable (h : Recordable host home.files) :
    NoBackslash host home.files := by
  rintro ⟨p, c⟩ hp
  obtain ⟨c₀, hmem, hkeeps, hstaged⟩ := mem_backedUp.1 hp
  exact ((h _ hmem hkeeps).2 c hstaged).1

theorem recorded_of_recordable (h : Recordable host home.files) {c : Content}
    (hp : (p, c) ∈ backedUp host home.files) : recorded host home.files p c = c := by
  obtain ⟨c₀, hmem, hkeeps, hstaged⟩ := mem_backedUp.1 hp
  rw [recorded]
  split_ifs with hname
  · exact (((h _ hmem hkeeps).2 c hstaged).2 hname).symm
  · rfl

/-- A restore of every file to its content is one of a recordable home. -/
theorem recordable_of_restore (hclean : NoBackslash host home.files)
    (hparents : ∀ e ∈ home.files, keeps host e.1 = true → [manifestName] ∉ parents e.1)
    {overwrite : Bool} (h : overwrite = true ∨ target = {}) {r : RestoreResult}
    (hr : restoreBackup host (archiveOf host home.files) target false overwrite = some r)
    (hget : ∀ p c, (p, c) ∈ backedUp host home.files → r.target.files.get? p = some c) :
    Recordable host home.files := by
  rintro ⟨p, c₀⟩ hmem hkeeps
  refine ⟨hparents _ hmem hkeeps, fun c hstaged => ?_⟩
  have hp : (p, c) ∈ backedUp host home.files := mem_backedUp.2 ⟨c₀, hmem, hkeeps, hstaged⟩
  refine ⟨hclean (p, c) hp, fun hname => ?_⟩
  have hrecorded := ((restore_spec hclean h hr).1 p c hp).2.2
  rw [hget p c hp, recorded, if_pos hname] at hrecorded
  exact Option.some.inj hrecorded

/-- Files come back as they were exactly if every file that is not transient is kept and copied and
the archive can hold what is kept. -/
theorem roundTrips_iff (host : Host) (home : Home) : RoundTrips host home ↔
    AllStaged host home.files ∧ Recordable host home.files := by
  constructor
  · rintro ⟨a, r, hcreate, hr, hall⟩
    obtain ⟨hparents, rfl⟩ := createBackup_eq_some_iff.1 hcreate
    have hget : ∀ p c, (p, c) ∈ backedUp host home.files → r.target.files.get? p = some c := by
      intro p c hp
      obtain ⟨c₀, hmem, hkeeps, hstaged⟩ := mem_backedUp.1 hp
      obtain ⟨c', hstaged', hget⟩ := hall _ hmem (transient_of_keeps hkeeps)
      rw [hstaged] at hstaged'
      rwa [Snapshot.done.inj hstaged']
    have hclean : NoBackslash host home.files := by
      rintro ⟨p, c⟩ hp
      have hmem := Dict.mem_keys_iff.2 ⟨c, hget p c hp⟩
      exact ((restored_notMem (Or.inr rfl) hr).2 p hmem).resolve_left List.not_mem_nil
    refine ⟨fun e he htransient => ?_,
      recordable_of_restore hclean hparents (Or.inr rfl) hr hget⟩
    obtain ⟨c, hstaged, hc⟩ := hall e he htransient
    refine ⟨?_, c, hstaged⟩
    -- what is not staged is not in the target
    have hmem : e.1 ∈ (backedUp host home.files).keys := by
      by_contra hnot
      rw [(restore_spec hclean (Or.inr rfl) hr).2 e.1 hnot] at hc
      cases hc
    obtain ⟨⟨p, c'⟩, hp, heq⟩ := List.mem_map.1 hmem
    obtain ⟨-, -, hkeeps, -⟩ := mem_backedUp.1 hp
    rwa [← heq]
  · rintro ⟨hstaged, hrecordable⟩
    have hclean := noBackslash_of_recordable hrecordable
    obtain ⟨r, hr⟩ := exists_restore {} hclean (Or.inr rfl)
      (fun p c => recorded_of_recordable hrecordable)
      (fun p _ => ⟨nofun, rfl⟩)
    refine ⟨archiveOf host home.files, r, createBackup_eq_some_iff.2
      ⟨fun e he hkeeps => (hrecordable e he hkeeps).1, rfl⟩, hr, fun e he htransient => ?_⟩
    obtain ⟨hkeeps, c, hc⟩ := hstaged e he htransient
    have hp : (e.1, c) ∈ backedUp host home.files := mem_backedUp.2 ⟨e.2, he, hkeeps, hc⟩
    refine ⟨c, hc, ?_⟩
    rw [((restore_spec hclean (Or.inr rfl) hr).1 e.1 c hp).2.2,
      recorded_of_recordable hrecordable hp]

/-- A restore with `overwrite` gives every file of the backup its content, and leaves no sibling of a
database it replaced, exactly if the archive can hold the files and the target has nothing of
another kind in their places and no such sibling. -/
theorem overwrites_iff (host : Host) (home : Home) (target : Target) :
    Overwrites host home target ↔
      Recordable host home.files ∧ Accepts host home.files target := by
  have hsibling : ∀ e : Path × Content, ∀ suffix ∈ transientSuffixes,
      sibling e.1 suffix ∉ (backedUp host home.files).keys := by
    intro e suffix hsuffix hmem
    obtain ⟨⟨p, c⟩, hp, heq⟩ := List.mem_map.1 hmem
    obtain ⟨-, -, hkeeps, -⟩ := mem_backedUp.1 hp
    have heq : p = sibling e.1 suffix := heq
    rw [heq, keeps_sibling hsuffix] at hkeeps
    cases hkeeps
  constructor
  · rintro ⟨a, r, hcreate, hr, hall⟩
    obtain ⟨hparents, rfl⟩ := createBackup_eq_some_iff.1 hcreate
    have hclean : NoBackslash host home.files := by
      rintro ⟨p, c⟩ hp
      obtain ⟨c₀, hmem, hkeeps, hstaged⟩ := mem_backedUp.1 hp
      exact (restored_notMem (Or.inl rfl) hr).1 _ (hall _ hmem hkeeps c hstaged).1
    refine ⟨recordable_of_restore hclean hparents (Or.inl rfl) hr fun p c hp => ?_,
      fun e he hkeeps c hstaged => ?_⟩
    · obtain ⟨c₀, hmem, hkeeps, hstaged⟩ := mem_backedUp.1 hp
      exact (hall _ hmem hkeeps c hstaged).2.1
    · have hp : (e.1, c) ∈ backedUp host home.files := mem_backedUp.2 ⟨e.2, he, hkeeps, hstaged⟩
      obtain ⟨hspec, hframe⟩ := restore_spec hclean (Or.inl rfl) hr
      obtain ⟨hfiles, hdir⟩ := (hspec e.1 c hp).1
      refine ⟨hfiles, hdir, fun hreplaces suffix hsuffix => ?_⟩
      rw [← hframe _ (hsibling e suffix hsuffix)]
      exact (hall e he hkeeps c hstaged).2.2 hreplaces suffix hsuffix
  · rintro ⟨hrecordable, haccepts⟩
    have hclean := noBackslash_of_recordable hrecordable
    obtain ⟨r, hr⟩ := exists_restore target hclean (Or.inl rfl)
      (fun p c => recorded_of_recordable hrecordable) (fun p hp => by
        obtain ⟨⟨q, c⟩, hq, rfl⟩ := List.mem_map.1 hp
        obtain ⟨c₀, hmem, hkeeps, hstaged⟩ := mem_backedUp.1 hq
        obtain ⟨hfiles, hdir, -⟩ := haccepts _ hmem hkeeps c hstaged
        exact ⟨hfiles, hdir⟩)
    obtain ⟨hspec, hframe⟩ := restore_spec hclean (Or.inl rfl) hr
    refine ⟨archiveOf host home.files, r, createBackup_eq_some_iff.2
      ⟨fun e he hkeeps => (hrecordable e he hkeeps).1, rfl⟩, hr, fun e he hkeeps c hstaged => ?_⟩
    have hp : (e.1, c) ∈ backedUp host home.files := mem_backedUp.2 ⟨e.2, he, hkeeps, hstaged⟩
    obtain ⟨-, hrestored, hget⟩ := hspec e.1 c hp
    refine ⟨hrestored, ?_, fun hreplaces suffix hsuffix => ?_⟩
    · rw [hget, recorded_of_recordable hrecordable hp]
    · rw [hframe _ (hsibling e suffix hsuffix)]
      exact (haccepts e he hkeeps c hstaged).2.2 hreplaces suffix hsuffix

/-- When a backup restores into an empty home, and when it does into any other. -/
theorem backup_restores_iff (host : Host) (home : Home) (target : Target) :
    (RoundTrips host home ↔ AllStaged host home.files ∧ Recordable host home.files) ∧
      (Overwrites host home target ↔
        Recordable host home.files ∧ Accepts host home.files target) :=
  ⟨roundTrips_iff host home, overwrites_iff host home target⟩

/-- A home with one file. -/
def Home.single (n : Name) (h : n ≠ [] ∧ n ≠ lit "." ∧ 47 ∉ n) (c : Content) : Home where
  files := [([n], c)]
  nodup := List.nodup_singleton _
  valid p hp := by
    rw [List.mem_singleton.1 hp]
    exact valid_singleton h
  apart p hp q hq _ := by
    rw [List.mem_singleton.1 hp, List.mem_singleton.1 hq]

/-- A host that tells texts apart by their lengths and copies databases. -/
def plainHost : Host where
  sha256
    | .manifest m => toString m.files.length
    | .bytes b => toString (b.length + 2)
  snapshot home p :=
    match home.get? p with
    | some c => .done c
    | none => .failed none
  homeParts := [lit "root", lit ".oxenclaw"]
  home := lit "/root/.oxenclaw"
  now := "2026-01-01"

/-- A file called `MANIFEST.json`, one with a backslash in its name and one called as a journal do
not come back, and a restored database has the old write-ahead log beside it. -/
theorem backup_loses :
    ¬RoundTrips plainHost (.single manifestName (by decide) (.bytes [1])) ∧
    ¬RoundTrips plainHost (.single (lit "a\\b") (by decide) (.bytes [1])) ∧
    ¬RoundTrips plainHost (.single (lit "trip-journal") (by decide) (.bytes [1])) ∧
    ¬Overwrites plainHost (.single (lit "memory.db") (by decide) (.bytes sqliteMagic))
      { files := [([lit "memory.db"], .bytes sqliteMagic),
          ([lit "memory.db-wal"], .bytes [1])] } := by
  refine ⟨fun h => ?_, fun h => ?_, fun h => ?_, fun h => ?_⟩
  · have hfile := ((roundTrips_iff _ _).1 h).2 _ (List.mem_singleton.2 rfl) (by decide +kernel)
    cases (hfile.2 (.bytes [1]) rfl).2 rfl
  · have hfile := ((roundTrips_iff _ _).1 h).2 _ (List.mem_singleton.2 rfl) (by decide +kernel)
    exact absurd (hfile.2 (.bytes [1]) rfl).1 (by decide +kernel)
  · have hfile := ((roundTrips_iff _ _).1 h).1 _ (List.mem_singleton.2 rfl) (by decide +kernel)
    exact absurd hfile.1 (by decide +kernel)
  · have hfile := ((overwrites_iff _ _ _).1 h).2 _ (List.mem_singleton.2 rfl) (by decide +kernel)
    have hsibling := (hfile (.bytes sqliteMagic) (by decide +kernel)).2.2
      ⟨.bytes sqliteMagic, by decide +kernel, Or.inl (by decide +kernel)⟩ (lit "-wal") (by decide)
    exact absurd hsibling (by decide +kernel)

end OxenClaw.Backup
