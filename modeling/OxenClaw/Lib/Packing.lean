import Mathlib.Algebra.Ring.Nat
import Mathlib.Data.List.Chain
import Mathlib.Tactic.SplitIfs

/-!
# Packing a list into parts

A list is cut into parts in order, each as full as a capacity allows (`pack`) : an item opens a
new part where it does not fit into the last one, unless that is empty. There is one packing of a
list (`Packed.unique`), and the loop finds it (`packed_pack`).
-/

namespace Packing

variable {α : Type*} (size : α → ℕ) (cap : ℤ)

def total (part : List α) : ℕ :=
  (part.map size).sum

/-- The parts that are closed, the last one, and what fills it. -/
structure State (α : Type*) where
  closed : List (List α)
  current : List α
  filled : ℕ

def State.parts (st : State α) : List (List α) :=
  st.closed ++ [st.current]

def place (st : State α) (a : α) : State α :=
  if cap < st.filled + size a ∧ st.current ≠ [] then
    ⟨st.closed ++ [st.current], [a], size a⟩
  else ⟨st.closed, st.current ++ [a], st.filled + size a⟩

def pack (l : List α) : List (List α) :=
  (l.foldl (place size cap) ⟨[], [], 0⟩).parts

/-- No part is empty, those of more than one item are within the capacity, and none has room for
the item behind it. -/
structure Packed (parts : List (List α)) : Prop where
  nonempty : ∀ p ∈ parts, p ≠ []
  fits : ∀ p ∈ parts, 1 < p.length → (total size p : ℤ) ≤ cap
  full : parts.IsChain fun p q => ∀ a ∈ q.head?, cap < total size p + size a

variable {size cap} {parts ps qs : List (List α)} {p q : List α} {a : α} {st : State α}

theorem total_cons (a : α) (p : List α) : total size (a :: p) = size a + total size p := by
  simp [total]

theorem total_append (p q : List α) : total size (p ++ q) = total size p + total size q := by
  simp [total]

theorem total_singleton (a : α) : total size [a] = size a := by
  simp [total]

/-! ## One packing -/

theorem Packed.tail (h : Packed size cap (p :: ps)) : Packed size cap ps :=
  ⟨fun q hq => h.nonempty q (List.mem_cons_of_mem p hq),
    fun q hq => h.fits q (List.mem_cons_of_mem p hq), h.full.tail⟩

theorem packed_nil : Packed size cap [] :=
  ⟨by simp, by simp, List.isChain_nil⟩

/-- A part that goes on where the first part of a packing ends is too big. -/
theorem Packed.eq_of_append (hp : Packed size cap (p :: ps)) (hq : Packed size cap (q :: qs))
    {rest : List α} (hle : q = p ++ rest) (h : (p :: ps).flatten = (q :: qs).flatten) : q = p := by
  rcases rest with _ | ⟨a, rest⟩
  · rw [hle, List.append_nil]
  exfalso
  rw [hle, List.flatten_cons, List.flatten_cons, List.append_assoc, List.append_right_inj] at h
  rcases ps with _ | ⟨p', ps⟩
  · simp at h
  have hp' := hp.nonempty p' (by simp)
  have hhead : p'.head? = some a := by
    rcases p' with _ | ⟨b, p'⟩
    · exact absurd rfl hp'
    · rw [List.flatten_cons, List.cons_append, List.cons_append, List.cons.injEq] at h
      rw [List.head?_cons, h.1]
  have hroom := (List.isChain_cons_cons.1 hp.full).1 a hhead
  have hpos := List.length_pos_iff.2 (hp.nonempty p (by simp))
  have hfits := hq.fits q (by simp) (by rw [hle]; simp; omega)
  rw [hle, List.append_cons, total_append, total_append, total_singleton] at hfits
  push_cast at hfits
  omega

theorem Packed.unique (hps : Packed size cap ps) (hqs : Packed size cap qs)
    (h : ps.flatten = qs.flatten) : ps = qs := by
  have hempty {rs : List (List α)} (hrs : Packed size cap rs) (hnil : rs.flatten = []) :
      rs = [] := by
    rcases rs with _ | ⟨r, rs⟩
    · rfl
    · rw [List.flatten_cons, List.append_eq_nil_iff] at hnil
      exact absurd hnil.1 (hrs.nonempty r (by simp))
  induction ps generalizing qs with
  | nil => exact (hempty hqs h.symm).symm
  | cons p ps ih =>
    rcases qs with _ | ⟨q, qs⟩
    · exact hempty hps h
    have hpq : p = q := by
      rw [List.flatten_cons, List.flatten_cons] at h
      rcases List.append_eq_append_iff.1 h with ⟨rest, hrest, -⟩ | ⟨rest, hrest, -⟩
      · exact (hps.eq_of_append hqs hrest (by simpa using h)).symm
      · exact hqs.eq_of_append hps hrest (by simpa using h.symm)
    subst hpq
    rw [ih hps.tail hqs.tail (by simpa using h)]

/-! ## The loop -/

theorem place_cases (size : α → ℕ) (cap : ℤ) (st : State α) (a : α) :
    (cap < st.filled + size a ∧ st.current ≠ [] ∧
      place size cap st a = ⟨st.closed ++ [st.current], [a], size a⟩) ∨
    ((st.current = [] ∨ st.filled + size a ≤ cap) ∧
      place size cap st a = ⟨st.closed, st.current ++ [a], st.filled + size a⟩) := by
  rw [place]
  split_ifs with h
  · exact Or.inl ⟨h.1, h.2, rfl⟩
  · refine Or.inr ⟨?_, rfl⟩
    by_cases hempty : st.current = []
    · exact Or.inl hempty
    · exact Or.inr (Int.not_lt.1 fun hlt => h ⟨hlt, hempty⟩)

/-- What holds of the state between two items. -/
structure State.Ok (size : α → ℕ) (cap : ℤ) (st : State α) : Prop where
  filled : st.filled = total size st.current
  packed : st.current ≠ [] → Packed size cap st.parts
  start : st.current = [] → st.closed = []

theorem flatten_place (st : State α) (a : α) :
    (place size cap st a).parts.flatten = st.parts.flatten ++ [a] := by
  obtain ⟨-, -, heq⟩ | ⟨-, heq⟩ := place_cases size cap st a
  all_goals
    rw [heq]
    simp [State.parts]

theorem current_place_ne_nil (st : State α) (a : α) : (place size cap st a).current ≠ [] := by
  obtain ⟨-, -, heq⟩ | ⟨-, heq⟩ := place_cases size cap st a
  all_goals
    rw [heq]
    simp

/-- A part that is put behind. -/
theorem Packed.append_singleton (h : Packed size cap parts) (hq : q ≠ [])
    (hfits : 1 < q.length → (total size q : ℤ) ≤ cap)
    (hfull : ∀ p ∈ parts.getLast?, ∀ a ∈ q.head?, cap < total size p + size a) :
    Packed size cap (parts ++ [q]) := by
  refine ⟨fun p hp => ?_, fun p hp => ?_, ?_⟩
  · rcases List.mem_append.1 hp with hp | hp
    · exact h.nonempty p hp
    · rwa [List.mem_singleton.1 hp]
  · rcases List.mem_append.1 hp with hp | hp
    · exact h.fits p hp
    · rwa [List.mem_singleton.1 hp]
  · refine List.isChain_append.2 ⟨h.full, List.isChain_singleton q, fun p hp r hr => ?_⟩
    cases hr
    exact hfull p hp

/-- The parts ahead of the last one are packed, and it is. -/
theorem Packed.of_append_singleton (h : Packed size cap (parts ++ [q])) :
    Packed size cap parts ∧ ∀ p ∈ parts.getLast?, ∀ a ∈ q.head?, cap < total size p + size a := by
  obtain ⟨hfull, -, hlast⟩ := List.isChain_append.1 h.full
  exact ⟨⟨fun p hp => h.nonempty p (List.mem_append_left _ hp),
    fun p hp => h.fits p (List.mem_append_left _ hp), hfull⟩, fun p hp => hlast p hp q rfl⟩

theorem State.Ok.place (h : st.Ok size cap) (a : α) : (place size cap st a).Ok size cap := by
  obtain ⟨hover, hcurrent, heq⟩ | ⟨hroom, heq⟩ := place_cases size cap st a
  · rw [heq]
    refine ⟨(total_singleton a).symm, fun _ => ?_, by simp⟩
    refine (h.packed hcurrent).append_singleton (by simp) (by simp) fun p hp b hb => ?_
    cases hb
    rw [State.parts, List.getLast?_concat] at hp
    cases hp
    rwa [← h.filled]
  · have htotal : total size (st.current ++ [a]) = st.filled + size a := by
      rw [total_append, total_singleton, h.filled]
    rw [heq]
    refine ⟨htotal.symm, fun _ => ?_, by simp⟩
    by_cases hempty : st.current = []
    · rw [State.parts, h.start hempty, hempty]
      exact packed_nil.append_singleton (by simp) (by simp) (by simp)
    · obtain ⟨hclosed, hlast⟩ := (h.packed hempty).of_append_singleton
      refine hclosed.append_singleton (by simp) (fun _ => ?_) fun p hp b hb => ?_
      · rw [htotal]
        exact_mod_cast hroom.resolve_left hempty
      · rw [List.head?_append_of_ne_nil _ hempty] at hb
        exact hlast p hp b hb

theorem foldl_place (h : st.Ok size cap) (l : List α) :
    (l.foldl (Packing.place size cap) st).Ok size cap ∧
      (l.foldl (Packing.place size cap) st).parts.flatten = st.parts.flatten ++ l := by
  induction l generalizing st with
  | nil => exact ⟨h, (List.append_nil _).symm⟩
  | cons a l ih =>
    obtain ⟨hok, hflatten⟩ := ih (h.place a)
    refine ⟨hok, ?_⟩
    rw [List.foldl_cons, hflatten, flatten_place, List.append_assoc, List.singleton_append]

theorem ok_start : State.Ok size cap (⟨[], [], 0⟩ : State α) :=
  ⟨rfl, fun h => absurd rfl h, fun _ => rfl⟩

/-- The loop keeps every item, in order. -/
theorem flatten_pack (size : α → ℕ) (cap : ℤ) (l : List α) : (pack size cap l).flatten = l := by
  rw [pack, (foldl_place ok_start l).2]
  rfl

/-- The loop packs. -/
theorem packed_pack (size : α → ℕ) (cap : ℤ) {l : List α} (hl : l ≠ []) :
    Packed size cap (pack size cap l) := by
  obtain ⟨l, a, rfl⟩ := (List.eq_nil_or_concat' l).resolve_left hl
  refine (foldl_place ok_start _).1.packed ?_
  rw [List.foldl_append]
  exact current_place_ne_nil _ a

end Packing
