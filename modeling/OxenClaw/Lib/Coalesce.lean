import Mathlib.Data.List.SplitBy
import OxenClaw.Lib.Traverse

/-!
# Merging what stands side by side

A list is read from the left. An element like the last one of the output is merged into it,
any other is appended (`Coalesce.add`). If a merged element is like whatever its second half
is like, every run of like elements becomes one (`foldlM_add`), no two neighbours of the output
are alike (`isChain_foldlM_add`), and such a list stays as it is (`foldlM_add_of_isChain`).
-/

namespace Coalesce

variable {α : Type*} (alike : α → α → Bool) (merge : α → α → Option α)

/-- Merge `a` into the last element, or append it. -/
def add (out : List α) (a : α) : Option (List α) :=
  match out.getLast? with
  | none => some [a]
  | some b =>
    if alike b a then (merge b a).map fun c => out.dropLast ++ [c] else some (out ++ [a])

/-- What a run of like elements becomes. -/
def mergeRun : List α → Option α
  | [] => none
  | a :: l => l.foldlM merge a

/-- A merged element is like whatever its second half is like. -/
def KeepsAlike : Prop :=
  ∀ b a c, alike b a = true → merge b a = some c → ∀ d, alike c d = alike a d

variable {alike merge}

theorem add_append_singleton (out : List α) (b a : α) :
    add alike merge (out ++ [b]) a =
      if alike b a then (merge b a).map fun c => out ++ [c] else some (out ++ [b] ++ [a]) := by
  simp [add]

theorem add_of_not_alike {out : List α} {a : α} (h : ∀ b ∈ out.getLast?, alike b a = false) :
    add alike merge out a = some (out ++ [a]) := by
  rcases List.eq_nil_or_concat' out with rfl | ⟨out, b, rfl⟩
  · rfl
  · rw [add_append_singleton, h b (by simp)]
    rfl

/-- A run merges into its first element, whatever stands before. -/
theorem foldlM_add_append_singleton (hkeeps : KeepsAlike alike merge) (out : List α)
    {l : List α} {b b' : α} (hb : ∀ d, alike b' d = alike b d)
    (hl : (b :: l).IsChain fun x y => alike x y = true) :
    l.foldlM (add alike merge) (out ++ [b']) =
      (l.foldlM merge b').map fun c => out ++ [c] := by
  induction l generalizing b b' with
  | nil => rfl
  | cons a l ih =>
    obtain ⟨hba, hl⟩ := List.isChain_cons_cons.1 hl
    have halike : alike b' a = true := (hb a).trans hba
    rw [List.foldlM_cons, List.foldlM_cons, add_append_singleton, if_pos halike]
    rcases hmerge : merge b' a with _ | c
    · rfl
    · exact ih (hkeeps b' a c halike hmerge) hl

theorem alike_mergeRun (hkeeps : KeepsAlike alike merge) {l : List α} {b b' c : α}
    (hb : ∀ d, alike b' d = alike b d) (hl : (b :: l).IsChain fun x y => alike x y = true)
    (hc : l.foldlM merge b' = some c) (d : α) :
    alike c d = alike ((b :: l).getLast (List.cons_ne_nil b l)) d := by
  induction l generalizing b b' with
  | nil =>
    obtain rfl := Option.some.inj hc
    exact hb d
  | cons a l ih =>
    obtain ⟨hba, hl⟩ := List.isChain_cons_cons.1 hl
    rw [List.foldlM_cons] at hc
    obtain ⟨c', hmerge, hc⟩ := Option.bind_eq_some_iff.1 hc
    rw [List.getLast_cons (List.cons_ne_nil a l)]
    exact ih (hkeeps b' a c' ((hb a).trans hba) hmerge) hl hc

theorem foldlM_add_flatten (hkeeps : KeepsAlike alike merge) {runs : List (List α)}
    (hnil : [] ∉ runs) (hruns : ∀ run ∈ runs, run.IsChain fun x y => alike x y = true)
    (hnext : runs.IsChain fun r s => ∃ hr hs, alike (r.getLast hr) (s.head hs) = false)
    (out : List α)
    (hout : ∀ b ∈ out.getLast?, ∀ a ∈ runs.flatten.head?, alike b a = false) :
    runs.flatten.foldlM (add alike merge) out =
      (runs.mapM (mergeRun merge)).map fun merged => out ++ merged := by
  induction runs generalizing out with
  | nil => simp
  | cons run runs ih =>
    rcases run with _ | ⟨a, l⟩
    · exact absurd List.mem_cons_self hnil
    have hrun := hruns _ List.mem_cons_self
    have hstart : add alike merge out a = some (out ++ [a]) :=
      add_of_not_alike fun b hb => hout b hb a (by simp)
    have hfirst : (a :: l).foldlM (add alike merge) out =
        (l.foldlM merge a).map fun c => out ++ [c] := by
      rw [List.foldlM_cons, hstart]
      exact foldlM_add_append_singleton hkeeps out (fun _ => rfl) hrun
    rw [List.flatten_cons, List.foldlM_append, hfirst, List.mapM_cons, mergeRun]
    rcases hc : l.foldlM merge a with _ | c
    · rfl
    have hlast := alike_mergeRun hkeeps (fun _ => rfl) hrun hc
    have hrest := ih (fun h => hnil (List.mem_cons_of_mem _ h))
      (fun r hr => hruns r (List.mem_cons_of_mem _ hr)) hnext.tail (out ++ [c]) fun b hb d hd => by
        obtain rfl : c = b := by simpa using hb
        rcases runs with _ | ⟨_ | ⟨x, s⟩, runs⟩
        · cases hd
        · exact absurd (List.mem_cons_of_mem _ List.mem_cons_self) hnil
        · obtain rfl : x = d := by simpa using hd
          obtain ⟨_, _, hx⟩ := (List.isChain_cons_cons.1 hnext).1
          exact (hlast x).trans hx
    change runs.flatten.foldlM (add alike merge) (out ++ [c]) = _
    rw [hrest]
    rcases runs.mapM (mergeRun merge) with _ | merged
    · rfl
    · exact congrArg some (List.append_assoc out [c] merged)

/-- Every run of like elements is merged into one. -/
theorem foldlM_add (hkeeps : KeepsAlike alike merge) (l : List α) :
    l.foldlM (add alike merge) [] = (l.splitBy alike).mapM (mergeRun merge) := by
  have h := foldlM_add_flatten hkeeps (List.nil_notMem_splitBy alike l)
    (fun _ => List.isChain_of_mem_splitBy) (List.isChain_getLast_head_splitBy alike l)
    [] (by simp)
  rw [List.flatten_splitBy] at h
  simpa using h

/-- Merging fails exactly in a run. -/
theorem foldlM_add_eq_none_iff (hkeeps : KeepsAlike alike merge) {l : List α} :
    l.foldlM (add alike merge) [] = none ↔ ∃ run ∈ l.splitBy alike, mergeRun merge run = none := by
  rw [foldlM_add hkeeps, Traverse.mapM_eq_none_iff]

/-- No two neighbours of the output are alike. -/
theorem isChain_foldlM_add
    (hleft : ∀ b a c, alike b a = true → merge b a = some c → ∀ d, alike d c = alike d b)
    {l out merged : List α} (hout : out.IsChain fun x y => alike x y = false)
    (h : l.foldlM (add alike merge) out = some merged) :
    merged.IsChain fun x y => alike x y = false := by
  induction l generalizing out with
  | nil =>
    obtain rfl := Option.some.inj h
    exact hout
  | cons a l ih =>
    rw [List.foldlM_cons] at h
    obtain ⟨out', hadd, h⟩ := Option.bind_eq_some_iff.1 h
    refine ih ?_ h
    rcases List.eq_nil_or_concat' out with rfl | ⟨out, b, rfl⟩
    · obtain rfl := Option.some.inj hadd
      exact List.isChain_singleton a
    rw [add_append_singleton] at hadd
    by_cases hba : alike b a = true
    · rw [if_pos hba] at hadd
      obtain ⟨c, hc, rfl⟩ := Option.map_eq_some_iff.1 hadd
      refine List.isChain_append.2
        ⟨(List.isChain_append.1 hout).1, List.isChain_singleton c, fun x hx y hy => ?_⟩
      obtain rfl : c = y := by simpa using hy
      exact (hleft b a c hba hc x).trans ((List.isChain_append.1 hout).2.2 x hx b (by simp))
    · rw [if_neg hba] at hadd
      obtain rfl := Option.some.inj hadd
      refine List.isChain_append.2 ⟨hout, List.isChain_singleton a, fun x hx y hy => ?_⟩
      obtain rfl : b = x := by simpa using hx
      obtain rfl : a = y := by simpa using hy
      exact Bool.eq_false_iff.2 hba

theorem foldlM_add_of_isChain {l : List α} (h : l.IsChain fun x y => alike x y = false) :
    l.foldlM (add alike merge) [] = some l := by
  induction l using List.reverseRecOn with
  | nil => rfl
  | append_singleton l a ih =>
    obtain ⟨hl, -, hla⟩ := List.isChain_append.1 h
    have hadd : add alike merge l a = some (l ++ [a]) :=
      add_of_not_alike fun b hb => hla b hb a (by simp)
    simp [List.foldlM_append, ih hl, hadd]

end Coalesce
