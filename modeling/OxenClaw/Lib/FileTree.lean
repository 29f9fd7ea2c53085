import Mathlib.Data.List.Infix
import OxenClaw.Lib.Dict

/-!
# Trees of files

A tree has its files by their paths. Where a file is there is no directory, so no path of a tree
leads on from another (`eq_of_clash`). What is written over a tree takes away what stands in its
way (`overlay`).
-/

/-- Contents at paths. -/
structure FileTree (κ β : Type*) [DecidableEq κ] where
  files : Dict (List κ) β
  apart : ∀ p ∈ Dict.keys files, ∀ q ∈ Dict.keys files, p <+: q → p = q

namespace FileTree

variable {κ β : Type*} [DecidableEq κ]

/-- One path is the other, or a directory of it. -/
def Clash (p q : List κ) : Prop :=
  p <+: q ∨ q <+: p

instance (p q : List κ) : Decidable (Clash p q) :=
  inferInstanceAs (Decidable (p <+: q ∨ q <+: p))

def get? (t : FileTree κ β) (p : List κ) : Option β :=
  t.files.get? p

/-- There is a file at the path. -/
def Has (t : FileTree κ β) (p : List κ) : Prop :=
  p ∈ Dict.keys t.files

instance (t : FileTree κ β) (p : List κ) : Decidable (t.Has p) :=
  inferInstanceAs (Decidable (p ∈ Dict.keys t.files))

theorem has_iff {t : FileTree κ β} {p : List κ} : t.Has p ↔ ∃ c, t.get? p = some c :=
  Dict.mem_keys_iff

theorem get?_eq_none_iff {t : FileTree κ β} {p : List κ} : t.get? p = none ↔ ¬t.Has p :=
  Dict.get?_eq_none_iff

theorem eq_of_clash {t : FileTree κ β} {p q : List κ} (hp : t.Has p) (hq : t.Has q)
    (h : Clash p q) : p = q :=
  h.elim (t.apart p hp q hq) fun hqp => (t.apart q hq p hp hqp).symm

/-- A tree with some of the files of another. -/
def sub (t : FileTree κ β) (files : Dict (List κ) β)
    (h : ∀ p ∈ Dict.keys files, p ∈ Dict.keys t.files) : FileTree κ β where
  files := files
  apart p hp q hq := t.apart p (h p hp) q (h q hq)

/-- The files whose paths are kept. -/
def filter (t : FileTree κ β) (keep : List κ → Bool) : FileTree κ β :=
  t.sub (List.filter (fun e => keep e.1) t.files) fun p hp => by
    obtain ⟨e, he, rfl⟩ := List.mem_map.1 hp
    exact List.mem_map_of_mem (List.mem_filter.1 he).1

theorem get?_filter (t : FileTree κ β) (keep : List κ → Bool) (p : List κ) :
    (t.filter keep).get? p = if keep p then t.get? p else none :=
  Dict.get?_filter keep p t.files

theorem has_filter {t : FileTree κ β} {keep : List κ → Bool} {p : List κ} :
    (t.filter keep).Has p ↔ keep p = true ∧ t.Has p := by
  rw [has_iff, has_iff, get?_filter]
  split_ifs with h <;> simp [h]

def remove (t : FileTree κ β) (p : List κ) : FileTree κ β :=
  t.sub (t.files.erase p) fun q hq => by
    rw [Dict.keys_erase] at hq
    exact (List.mem_filter.1 hq).1

/-- A file is written, with its directories. The path has to be free : nothing is done where another
file stands at a directory of it, or under it. -/
def write (t : FileTree κ β) (p : List κ) (c : β) : FileTree κ β :=
  if h : ∀ q ∈ Dict.keys t.files, Clash p q → p = q then {
    files := t.files.set p c
    apart := by
      intro q hq r hr hqr
      rcases Dict.mem_keys_set.1 hq with hq' | rfl <;>
        rcases Dict.mem_keys_set.1 hr with hr' | rfl
      · exact t.apart q hq' r hr' hqr
      · exact (h q hq' (.inr hqr)).symm
      · exact h r hr' (.inl hqr)
      · rfl }
  else t

/-- The files of `s` over those of `t`. -/
def overlay (s t : FileTree κ β) : FileTree κ β where
  files := s.files ++ List.filter (fun e => ∀ q ∈ Dict.keys s.files, ¬Clash e.1 q) t.files
  apart := by
    intro p hp q hq hpq
    rw [Dict.keys, List.map_append, List.mem_append] at hp hq
    have hothers : ∀ {p}, p ∈ (List.filter (fun e : List κ × β => ∀ q ∈ Dict.keys s.files,
        ¬Clash e.1 q) t.files).map Prod.fst → p ∈ Dict.keys t.files ∧
          ∀ q ∈ Dict.keys s.files, ¬Clash p q := by
      intro p hp
      obtain ⟨e, he, rfl⟩ := List.mem_map.1 hp
      obtain ⟨he, hfree⟩ := List.mem_filter.1 he
      exact ⟨List.mem_map_of_mem he, of_decide_eq_true hfree⟩
    rcases hp with hp | hp <;> rcases hq with hq | hq
    · exact s.apart p hp q hq hpq
    · exact absurd (.inr hpq) ((hothers hq).2 p hp)
    · exact absurd (.inl hpq) ((hothers hp).2 q hq)
    · exact t.apart p (hothers hp).1 q (hothers hq).1 hpq

theorem get?_overlay_of_has {s : FileTree κ β} {p : List κ} (h : s.Has p) (t : FileTree κ β) :
    (s.overlay t).get? p = s.get? p := by
  obtain ⟨c, hc⟩ := has_iff.1 h
  have hc' : s.files.get? p = some c := hc
  rw [get?, overlay, Dict.get?_append, hc', Option.some_or, hc]

theorem get?_overlay_of_free {s t : FileTree κ β} {p : List κ}
    (h : ∀ q ∈ Dict.keys s.files, ¬Clash p q) : (s.overlay t).get? p = t.get? p := by
  have hnone : s.files.get? p = none :=
    Dict.get?_eq_none_iff.2 fun hp => h p hp (.inl (List.prefix_refl p))
  have hfilter := Dict.get?_filter (fun q => decide (∀ r ∈ Dict.keys s.files, ¬Clash q r)) p t.files
  rw [if_pos (decide_eq_true h)] at hfilter
  rw [get?, overlay, Dict.get?_append, hnone, Option.none_or, hfilter, get?]

end FileTree
