import Mathlib.Algebra.Order.BigOperators.Group.List
import Mathlib.Algebra.Order.Field.Rat
import Mathlib.Tactic.Linarith
import Mathlib.Tactic.Positivity
import Mathlib.Tactic.Ring
import OxenClaw.Lib.Dict
import OxenClaw.Lib.Python
import OxenClaw.Pi.Messages

/-!
# The usage accumulator

`UsageAccumulator` of `pi/extras.py`, over exact rationals. Each call of `add` that is not empty
charges the totals it leaves, those of all calls so far (`costUsd_adds`), so that the cost is that
of the totals exactly when the calls before the last charged nothing
(`costUsd_eq_iff`, and `costUsd_eq_iff_of_nonneg` where nothing is negative).
-/

namespace OxenClaw

/-- `UsageAccumulator`. -/
structure UsageAccumulator where
  totals : Dict String ℤ := []
  costUsd : ℚ := 0

namespace UsageAccumulator

/-- The tokens under a key, `totals.get(key, 0)`. -/
def tokens (totals : Dict String ℤ) (key : String) : ℤ :=
  (totals.get? key).getD 0

/-- `isinstance(value, (int, float))`, with its value. -/
def number : Json → Option ℚ
  | .int n => some n
  | .float x => some x
  | .bool b => some (if b then 1 else 0)
  | _ => none

/-- The totals with one entry of a usage. -/
def addEntry (totals : Dict String ℤ) (entry : String × Json) : Dict String ℤ :=
  match number entry.2 with
  | some value => totals.set entry.1 (Py.int (tokens totals entry.1 + value))
  | none => totals

/-- `(tokens / 1_000_000) * per_million`. -/
def worth (totals : Dict String ℤ) (entry : String × ℚ) : ℚ :=
  ((tokens totals entry.1 : ℚ) / 1000000) * entry.2

/-- The cost with that of one priced key. -/
def chargeEntry (totals : Dict String ℤ) (costUsd : ℚ) (entry : String × ℚ) : ℚ :=
  if 0 < tokens totals entry.1 then costUsd + worth totals entry else costUsd

/-- `UsageAccumulator.add`. -/
def add (acc : UsageAccumulator) (usage : Option Args) (pricing : Dict String ℚ) :
    UsageAccumulator :=
  match usage with
  | none => acc
  | some [] => acc
  | some usage =>
    let totals := usage.foldl addEntry acc.totals
    { totals, costUsd := pricing.foldl (chargeEntry totals) acc.costUsd }

/-- A new accumulator after a sequence of calls with one pricing table. -/
def adds (usages : List (Option Args)) (pricing : Dict String ℚ) : UsageAccumulator :=
  usages.foldl (fun acc usage => acc.add usage pricing) {}

/-! ## What the calls are worth -/

/-- The usages that are not empty. -/
def reported (usages : List (Option Args)) : List Args :=
  usages.filterMap fun usage => usage.filter fun u => !u.isEmpty

/-- The totals after some usages. -/
def totalsOf (usages : List Args) : Dict String ℤ :=
  usages.foldl (fun totals usage => usage.foldl addEntry totals) []

/-- The totals times the prices per million. -/
def price (pricing : Dict String ℚ) (totals : Dict String ℤ) : ℚ :=
  (pricing.map (worth totals)).sum

/-- The part of it of the totals above zero. -/
def charge (pricing : Dict String ℚ) (totals : Dict String ℤ) : ℚ :=
  (pricing.map fun e => if 0 < tokens totals e.1 then worth totals e else 0).sum

/-- The part of it of the totals that are not. -/
def credit (pricing : Dict String ℚ) (totals : Dict String ℤ) : ℚ :=
  (pricing.map fun e => if 0 < tokens totals e.1 then 0 else worth totals e).sum

theorem price_eq (pricing : Dict String ℚ) (totals : Dict String ℤ) :
    price pricing totals = charge pricing totals + credit pricing totals := by
  rw [price, charge, credit, ← List.sum_map_add]
  congr 1
  refine List.map_congr_left fun e _ => ?_
  split_ifs <;> ring

theorem foldl_chargeEntry (totals : Dict String ℤ) :
    ∀ (pricing : Dict String ℚ) (costUsd : ℚ),
      pricing.foldl (chargeEntry totals) costUsd = costUsd + charge pricing totals
  | [], costUsd => by simp [charge]
  | e :: pricing, costUsd => by
    rw [List.foldl_cons, foldl_chargeEntry totals pricing, charge, charge, List.map_cons,
      List.sum_cons, chargeEntry]
    split_ifs <;> ring

/-- Without usages there is nothing to charge. -/
theorem charge_totalsOf_nil (pricing : Dict String ℚ) : charge pricing (totalsOf []) = 0 := by
  refine List.sum_eq_zero fun x hx => ?_
  obtain ⟨e, -, rfl⟩ := List.mem_map.1 hx
  exact if_neg (lt_irrefl _)

/-! ## Whole sequences -/

section
variable (usages : List (Option Args)) (pricing : Dict String ℚ)

/-- An empty usage changes nothing, any other adds its tokens and charges the totals. -/
theorem add_cases (acc : UsageAccumulator) (usage : Option Args) :
    (reported [usage] = [] ∧ acc.add usage pricing = acc) ∨
      ∃ u, reported [usage] = [u] ∧ acc.add usage pricing =
        ⟨u.foldl addEntry acc.totals,
          acc.costUsd + charge pricing (u.foldl addEntry acc.totals)⟩ := by
  rcases usage with _ | _ | ⟨e, u⟩
  · exact Or.inl ⟨rfl, rfl⟩
  · exact Or.inl ⟨rfl, rfl⟩
  · refine Or.inr ⟨e :: u, rfl, ?_⟩
    rw [← foldl_chargeEntry]
    rfl

theorem reported_append_singleton (usage : Option Args) :
    reported (usages ++ [usage]) = reported usages ++ reported [usage] :=
  List.filterMap_append

theorem totalsOf_append_singleton (us : List Args) (u : Args) :
    totalsOf (us ++ [u]) = u.foldl addEntry (totalsOf us) := by
  rw [totalsOf, List.foldl_append]
  rfl

/-- The totals are those of the usages that are not empty. -/
theorem totals_adds : (adds usages pricing).totals = totalsOf (reported usages) := by
  induction usages using List.reverseRecOn with
  | nil => rfl
  | append_singleton usages usage ih =>
    rw [adds, List.foldl_append, List.foldl_cons, List.foldl_nil, ← adds,
      reported_append_singleton]
    obtain ⟨hempty, hadd⟩ | ⟨u, hu, hadd⟩ := add_cases pricing (adds usages pricing) usage
    · rw [hadd, hempty, List.append_nil, ih]
    · rw [hadd, hu, totalsOf_append_singleton, ← ih]

/-- The cost is the sum of what each call charges : the totals of the calls up to it. -/
theorem costUsd_adds : (adds usages pricing).costUsd =
    ((reported usages).inits.map fun us => charge pricing (totalsOf us)).sum := by
  induction usages using List.reverseRecOn with
  | nil =>
    simp [adds, reported, charge_totalsOf_nil]
  | append_singleton usages usage ih =>
    rw [adds, List.foldl_append, List.foldl_cons, List.foldl_nil, ← adds,
      reported_append_singleton]
    obtain ⟨hempty, hadd⟩ | ⟨u, hu, hadd⟩ := add_cases pricing (adds usages pricing) usage
    · rw [hadd, hempty, List.append_nil, ih]
    · rw [hadd, hu, List.inits_append, List.map_append, List.sum_append, ← ih, totals_adds,
        ← totalsOf_append_singleton]
      simp

end

/-! ## Usages and prices that are not negative -/

/-- Rounding towards zero does not fall below a natural part. -/
theorem le_int_add {n : ℤ} {x : ℚ} (hn : 0 ≤ n) (hx : 0 ≤ x) : n ≤ Py.int (n + x) := by
  have hpos : (0 : ℚ) ≤ n + x := by positivity
  rw [Py.int, if_pos hpos, Int.le_floor]
  linarith

/-- No total is negative. -/
def Nonneg (totals : Dict String ℤ) : Prop :=
  ∀ key, 0 ≤ tokens totals key

/-- No count of the usage is negative. -/
def NonnegUsage (usage : Args) : Prop :=
  ∀ e ∈ usage, ∀ x, number e.2 = some x → 0 ≤ x

theorem le_tokens_addEntry {totals : Dict String ℤ} (h : Nonneg totals) {e : String × Json}
    (he : ∀ x, number e.2 = some x → 0 ≤ x) (key : String) :
    tokens totals key ≤ tokens (addEntry totals e) key := by
  unfold addEntry
  cases hx : number e.2 with
  | none => exact le_rfl
  | some x =>
    dsimp only
    rw [tokens, tokens, Dict.get?_set]
    split_ifs with hkey
    · rw [hkey]
      exact le_int_add (h _) (he x hx)
    · exact le_rfl

/-- A usage without negative counts lowers no total. -/
theorem le_tokens_foldl_addEntry {totals : Dict String ℤ} (h : Nonneg totals) {usage : Args}
    (husage : NonnegUsage usage) (key : String) :
    tokens totals key ≤ tokens (usage.foldl addEntry totals) key := by
  induction usage generalizing totals with
  | nil => exact le_rfl
  | cons e usage ih =>
    have hstep := le_tokens_addEntry h (husage e List.mem_cons_self)
    have hnext : Nonneg (addEntry totals e) := fun k => (h k).trans (hstep k)
    exact (hstep key).trans (ih hnext fun e' he' => husage e' (List.mem_cons_of_mem _ he'))

theorem nonneg_totalsOf {us : List Args} (h : ∀ u ∈ us, NonnegUsage u) : Nonneg (totalsOf us) := by
  induction us using List.reverseRecOn with
  | nil => exact fun _ => le_rfl
  | append_singleton us u ih =>
    rw [totalsOf_append_singleton]
    have hus := ih fun v hv => h v (List.mem_append_left _ hv)
    exact fun key => (hus key).trans (le_tokens_foldl_addEntry hus (h u (by simp)) key)

/-- The totals of the first usages are at most those of all. -/
theorem tokens_totalsOf_le_of_prefix {us vs : List Args} (hbegins : us <+: vs)
    (h : ∀ v ∈ vs, NonnegUsage v) (key : String) :
    tokens (totalsOf us) key ≤ tokens (totalsOf vs) key := by
  obtain ⟨rest, rfl⟩ := hbegins
  induction rest using List.reverseRecOn with
  | nil => rw [List.append_nil]
  | append_singleton rest u ih =>
    rw [← List.append_assoc] at h ⊢
    have hbefore : ∀ v ∈ us ++ rest, NonnegUsage v := fun v hv => h v (List.mem_append_left _ hv)
    rw [totalsOf_append_singleton]
    exact (ih hbefore).trans
      (le_tokens_foldl_addEntry (nonneg_totalsOf hbefore) (h u (by simp)) key)

section
variable {pricing : Dict String ℚ} {totals : Dict String ℤ}

theorem worth_nonneg (h : Nonneg totals) {e : String × ℚ} (he : 0 ≤ e.2) : 0 ≤ worth totals e := by
  have htokens : (0 : ℚ) ≤ tokens totals e.1 := by exact_mod_cast h e.1
  unfold worth
  positivity

/-- Totals that are not negative give no credit. -/
theorem credit_of_nonneg (h : Nonneg totals) : credit pricing totals = 0 := by
  refine List.sum_eq_zero fun x hx => ?_
  obtain ⟨e, -, rfl⟩ := List.mem_map.1 hx
  split_ifs with htokens
  · rfl
  · have hzero : tokens totals e.1 = 0 := le_antisymm (not_lt.1 htokens) (h e.1)
    simp [worth, hzero]

theorem chargeTerm_nonneg (h : Nonneg totals) (hpricing : ∀ e ∈ pricing, 0 ≤ e.2) :
    ∀ x ∈ pricing.map fun e => if 0 < tokens totals e.1 then worth totals e else 0, 0 ≤ x := by
  intro x hx
  obtain ⟨e, he, rfl⟩ := List.mem_map.1 hx
  split_ifs
  · exact worth_nonneg h (hpricing e he)
  · exact le_rfl

theorem charge_nonneg (h : Nonneg totals) (hpricing : ∀ e ∈ pricing, 0 ≤ e.2) :
    0 ≤ charge pricing totals :=
  List.sum_nonneg (chargeTerm_nonneg h hpricing)

/-- Nothing is charged exactly when no key with a price has tokens. -/
theorem charge_eq_zero_iff (h : Nonneg totals) (hpricing : ∀ e ∈ pricing, 0 ≤ e.2) :
    charge pricing totals = 0 ↔ ∀ e ∈ pricing, e.2 = 0 ∨ tokens totals e.1 = 0 := by
  constructor
  · intro hzero e he
    by_cases htokens : 0 < tokens totals e.1
    · have hle := List.single_le_sum (chargeTerm_nonneg h hpricing) _
        (List.mem_map.2 ⟨e, he, rfl⟩)
      rw [← charge, hzero, if_pos htokens] at hle
      have hworth : worth totals e = 0 := le_antisymm hle (worth_nonneg h (hpricing e he))
      have hne : ((tokens totals e.1 : ℚ) / 1000000) ≠ 0 := by positivity
      exact Or.inl ((mul_eq_zero.1 hworth).resolve_left hne)
    · exact Or.inr (le_antisymm (not_lt.1 htokens) (h e.1))
  · intro hnone
    refine List.sum_eq_zero fun x hx => ?_
    obtain ⟨e, he, rfl⟩ := List.mem_map.1 hx
    rcases hnone e he with hprice | htokens
    · simp [worth, hprice]
    · exact if_neg (by simp [htokens])

end

/-- The cost is what the calls before the last charged and the charge of all totals. -/
theorem costUsd_eq_add_charge (usages : List (Option Args)) (pricing : Dict String ℚ) :
    (adds usages pricing).costUsd =
      ((reported usages).dropLast.inits.map fun us => charge pricing (totalsOf us)).sum +
        charge pricing (totalsOf (reported usages)) := by
  rw [costUsd_adds]
  rcases List.eq_nil_or_concat (reported usages) with hnil | ⟨us, u, hlast⟩
  · simp [hnil, charge_totalsOf_nil]
  · rw [hlast, List.concat_eq_append, List.dropLast_concat, List.inits_append, List.map_append,
      List.sum_append]
    simp

/-- The cost is that of the totals exactly when what the calls before the last charged is the
price of the totals that are not above zero. -/
theorem costUsd_eq_iff (usages : List (Option Args)) (pricing : Dict String ℚ) :
    (adds usages pricing).costUsd = price pricing (adds usages pricing).totals ↔
      ((reported usages).dropLast.inits.map fun us => charge pricing (totalsOf us)).sum =
        credit pricing (totalsOf (reported usages)) := by
  rw [costUsd_eq_add_charge, totals_adds, price_eq, add_comm, add_right_inj]

/-- Where no count and no price is negative, the cost is that of the totals exactly when no key
with a price has tokens before the last usage that is not empty. -/
theorem costUsd_eq_iff_of_nonneg {usages : List (Option Args)} {pricing : Dict String ℚ}
    (husages : ∀ u ∈ reported usages, NonnegUsage u) (hpricing : ∀ e ∈ pricing, 0 ≤ e.2) :
    (adds usages pricing).costUsd = price pricing (adds usages pricing).totals ↔
      ∀ e ∈ pricing, e.2 = 0 ∨ tokens (totalsOf (reported usages).dropLast) e.1 = 0 := by
  have hbefore : ∀ u ∈ (reported usages).dropLast, NonnegUsage u := fun u hu =>
    husages u (List.mem_of_mem_dropLast hu)
  have hnonneg (us : List Args) (hus : us <+: (reported usages).dropLast) :
      Nonneg (totalsOf us) :=
    nonneg_totalsOf fun u hu => hbefore u (hus.subset hu)
  have hcharges : ∀ x ∈ (reported usages).dropLast.inits.map fun us =>
      charge pricing (totalsOf us), 0 ≤ x := by
    intro x hx
    obtain ⟨us, hus, rfl⟩ := List.mem_map.1 hx
    exact charge_nonneg (hnonneg us ((List.mem_inits _ _).1 hus)) hpricing
  rw [costUsd_eq_add_charge, totals_adds, price_eq, credit_of_nonneg (nonneg_totalsOf husages),
    add_zero, add_eq_right, ← charge_eq_zero_iff (hnonneg _ (List.prefix_refl _)) hpricing]
  constructor
  · intro hsum
    have hle := List.single_le_sum hcharges _
      (List.mem_map.2 ⟨_, (List.mem_inits _ _).2 (List.prefix_refl _), rfl⟩)
    rw [hsum] at hle
    exact le_antisymm hle (charge_nonneg (hnonneg _ (List.prefix_refl _)) hpricing)
  · intro hzero
    rw [charge_eq_zero_iff (hnonneg _ (List.prefix_refl _)) hpricing] at hzero
    refine List.sum_eq_zero fun x hx => ?_
    obtain ⟨us, hus, rfl⟩ := List.mem_map.1 hx
    have hbegins := (List.mem_inits _ _).1 hus
    refine (charge_eq_zero_iff (hnonneg us hbegins) hpricing).2 fun e he => ?_
    rcases hzero e he with hprice | htokens
    · exact Or.inl hprice
    · have hle := tokens_totalsOf_le_of_prefix hbegins hbefore e.1
      exact Or.inr (le_antisymm (hle.trans htokens.le) (hnonneg us hbegins e.1))

/-- A million tokens in two calls cost half as much again. -/
theorem costUsd_ne_price :
    ¬∀ (usages : List (Option Args)) (pricing : Dict String ℚ),
      (adds usages pricing).costUsd = price pricing (adds usages pricing).totals := by
  intro h
  let half : Option Args := some [("input_tokens", .int 500000)]
  exact absurd (h [half, half] [("input_tokens", 3)]) (by decide +kernel)

end UsageAccumulator

end OxenClaw
