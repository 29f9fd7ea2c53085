import Mathlib.Algebra.Order.Field.Rat
import Mathlib.Data.Int.Log
import Mathlib.Data.Rat.Floor
import Mathlib.Order.WithBot

/-!
# Floating-point numbers of 64 bits

A number is rational, infinite or not a number. An operation rounds what it has exactly to 53
significant bits, ties to even, subnormal numbers to the multiples of `2 ^ -1074`, and goes to
infinity beyond the range (`Binary64.ofRat`). Rounding keeps the order (`ofRat_le_ofRat`), so that
what is taken from two numbers leaves them in order (`sub_le_sub`).
-/

/-- The nearest integer, and the even one of two. -/
def roundEven (x : ℚ) : ℤ :=
  if Int.fract x < 1 / 2 then ⌊x⌋
  else if 1 / 2 < Int.fract x then ⌊x⌋ + 1
  else if Even ⌊x⌋ then ⌊x⌋ else ⌊x⌋ + 1

theorem floor_le_roundEven (x : ℚ) : ⌊x⌋ ≤ roundEven x ∧ roundEven x ≤ ⌊x⌋ + 1 := by
  rw [roundEven]
  split_ifs <;> omega

theorem roundEven_mono {x y : ℚ} (h : x ≤ y) : roundEven x ≤ roundEven y := by
  have hx := floor_le_roundEven x
  have hy := floor_le_roundEven y
  have hfloor := Int.floor_le_floor h
  rcases hfloor.lt_or_eq with hlt | heq
  · omega
  · have hfract : Int.fract x ≤ Int.fract y := by
      rw [Int.fract, Int.fract, heq]
      exact sub_le_sub_right h _
    rw [roundEven, roundEven, heq]
    split_ifs <;> first | omega | (exfalso; linarith)

theorem roundEven_intCast (n : ℤ) : roundEven n = n := by
  rw [roundEven, if_pos (by rw [Int.fract_intCast]; norm_num), Int.floor_intCast]

/-- A floating-point number. -/
inductive Binary64 where
  | nan
  | inf (negative : Bool)
  | fin (q : ℚ)
  deriving DecidableEq

namespace Binary64

/-! ## Rounding -/

/-- The exponent of the last of 53 bits, or of the subnormal numbers. -/
def lastExponent (q : ℚ) : ℤ :=
  max (Int.log 2 q - 52) (-1074)

/-- A number that is not negative, rounded, without a bound for its exponent. -/
def roundMagnitude (q : ℚ) : ℚ :=
  roundEven (q / 2 ^ lastExponent q) * 2 ^ lastExponent q

theorem roundMagnitude_nonneg {q : ℚ} (h : 0 ≤ q) : 0 ≤ roundMagnitude q := by
  have hpow : (0 : ℚ) < 2 ^ lastExponent q := zpow_pos (by norm_num) _
  have hround := roundEven_mono (div_nonneg h hpow.le)
  have hzero : roundEven 0 = 0 := roundEven_intCast 0
  rw [hzero] at hround
  exact mul_nonneg (Int.cast_nonneg hround) hpow.le

/-- What is on the grid of another number is rounded towards on the same side. -/
theorem roundMagnitude_le_of_le {q r : ℚ} {n : ℤ} (h : q ≤ r)
    (hr : r = n * 2 ^ lastExponent q) : roundMagnitude q ≤ r := by
  have hpow : (0 : ℚ) < 2 ^ lastExponent q := zpow_pos (by norm_num) _
  have hround : roundEven (q / 2 ^ lastExponent q) ≤ n := by
    rw [← roundEven_intCast n]
    exact roundEven_mono ((div_le_iff₀ hpow).2 (h.trans_eq hr))
  rw [hr]
  exact mul_le_mul_of_nonneg_right (Int.cast_le.2 hround) hpow.le

theorem le_roundMagnitude_of_le {q r : ℚ} {n : ℤ} (h : r ≤ q)
    (hr : r = n * 2 ^ lastExponent q) : r ≤ roundMagnitude q := by
  have hpow : (0 : ℚ) < 2 ^ lastExponent q := zpow_pos (by norm_num) _
  have hround : n ≤ roundEven (q / 2 ^ lastExponent q) := by
    rw [← roundEven_intCast n]
    exact roundEven_mono ((le_div_iff₀ hpow).2 (hr.symm.trans_le h))
  rw [hr]
  exact mul_le_mul_of_nonneg_right (Int.cast_le.2 hround) hpow.le

/-- Between two numbers of different exponents is a power of two, and both are rounded towards
it. -/
theorem roundMagnitude_mono {p q : ℚ} (hp : 0 ≤ p) (h : p ≤ q) :
    roundMagnitude p ≤ roundMagnitude q := by
  rcases hp.eq_or_lt with rfl | hp
  · have hzero : roundMagnitude 0 = 0 := by
      have hround : roundEven 0 = 0 := roundEven_intCast 0
      rw [roundMagnitude, zero_div, hround, Int.cast_zero, zero_mul]
    rw [hzero]
    exact roundMagnitude_nonneg h
  have hlog : Int.log 2 p ≤ Int.log 2 q := Int.log_mono_right hp h
  rcases (max_le_max_right (-1074) (sub_le_sub_right hlog 52)).eq_or_lt with heq | hlt
  · have heq : lastExponent p = lastExponent q := heq
    have hpow : (0 : ℚ) < 2 ^ lastExponent q := zpow_pos (by norm_num) _
    rw [roundMagnitude, roundMagnitude, heq]
    exact mul_le_mul_of_nonneg_right
      (Int.cast_le.2 (roundEven_mono (div_le_div_of_nonneg_right h hpow.le))) hpow.le
  · have hlt : lastExponent p < lastExponent q := hlt
    have hexp : lastExponent q = Int.log 2 q - 52 := by
      rw [lastExponent, lastExponent] at hlt
      rw [lastExponent]
      omega
    have hcut : (2 : ℚ) ^ Int.log 2 q ≤ q := Int.zpow_log_le_self (by norm_num) (hp.trans_le h)
    have hbelow : p ≤ (2 : ℚ) ^ Int.log 2 q := by
      have hp' : p < (2 : ℚ) ^ (Int.log 2 p + 1) := Int.lt_zpow_succ_log_self (by norm_num) p
      refine hp'.le.trans (zpow_le_zpow_right₀ (by norm_num) ?_)
      rw [lastExponent, lastExponent] at hlt
      omega
    have hgrid : ∀ e, e ≤ Int.log 2 q →
        ∃ n : ℤ, (2 : ℚ) ^ Int.log 2 q = n * 2 ^ e := fun e he =>
      ⟨2 ^ (Int.log 2 q - e).toNat, by
        rw [Int.cast_pow, Int.cast_ofNat, ← zpow_natCast, ← zpow_add₀ (by norm_num),
          Int.toNat_of_nonneg (by omega), sub_add_cancel]⟩
    obtain ⟨n, hn⟩ := hgrid (lastExponent p) (by omega)
    obtain ⟨m, hm⟩ := hgrid (lastExponent q) (by omega)
    exact (roundMagnitude_le_of_le hbelow hn).trans (le_roundMagnitude_of_le hcut hm)

/-- A number, rounded, without a bound for its exponent. -/
def roundRat (q : ℚ) : ℚ :=
  if q < 0 then -roundMagnitude (-q) else roundMagnitude q

theorem roundRat_mono {p q : ℚ} (h : p ≤ q) : roundRat p ≤ roundRat q := by
  rw [roundRat, roundRat]
  split_ifs with hp hq hq
  · exact neg_le_neg (roundMagnitude_mono (neg_nonneg.2 hq.le) (neg_le_neg h))
  · exact (neg_nonpos.2 (roundMagnitude_nonneg (neg_nonneg.2 hp.le))).trans
      (roundMagnitude_nonneg (not_lt.1 hq))
  · exact absurd (h.trans_lt hq) hp
  · exact roundMagnitude_mono (not_lt.1 hp) h

/-- The first power of two out of range. -/
def overflow : ℚ := 2 ^ 1024

/-- What is exact, as a number. -/
def ofRat (q : ℚ) : Binary64 :=
  if overflow ≤ roundRat q then .inf false
  else if roundRat q ≤ -overflow then .inf true
  else .fin (roundRat q)

/-- A natural number of 53 bits is exact. -/
theorem ofRat_natCast {n : ℕ} (h : n < 2 ^ 53) : ofRat n = .fin n := by
  have hround : roundRat n = n := by
    rw [roundRat, if_neg (not_lt.2 (Nat.cast_nonneg n))]
    have hlast : lastExponent (n : ℚ) ≤ 0 := by
      have hlog : Int.log 2 (n : ℚ) < 53 := by
        rcases n.eq_zero_or_pos with rfl | hn
        · rw [Nat.cast_zero, Int.log_zero_right]
          decide
        · refine (Int.lt_zpow_iff_log_lt (by norm_num) (Nat.cast_pos.2 hn)).1 ?_
          exact_mod_cast h
      rw [lastExponent]
      omega
    have hpow : (2 : ℚ) ^ lastExponent (n : ℚ) ≠ 0 := zpow_ne_zero _ (by norm_num)
    have hgrid : (n : ℚ) / 2 ^ lastExponent (n : ℚ) =
        ((n * 2 ^ (-lastExponent (n : ℚ)).toNat : ℕ) : ℤ) := by
      rw [Int.cast_natCast, Nat.cast_mul, Nat.cast_pow, Nat.cast_ofNat, ← zpow_natCast,
        Int.toNat_of_nonneg (by omega), zpow_neg, div_eq_mul_inv]
    rw [roundMagnitude, hgrid, roundEven_intCast, ← hgrid, div_mul_cancel₀ _ hpow]
  have hlt : (n : ℚ) < overflow := by
    have hn : (n : ℚ) < 2 ^ 53 := by exact_mod_cast h
    exact hn.trans_le (pow_le_pow_right₀ (by norm_num) (by norm_num))
  have hneg : -overflow < (n : ℚ) := by
    have hpos : 0 < overflow := pow_pos (by norm_num) _
    exact (neg_neg_of_pos hpos).trans_le (Nat.cast_nonneg n)
  rw [ofRat, hround, if_neg (not_le.2 hlt), if_neg (not_le.2 hneg)]

/-! ## Order -/

/-- Where a number stands, which NaN does not. -/
def place : Binary64 → Option (WithBot (WithTop ℚ))
  | .nan => none
  | .inf true => some ⊥
  | .inf false => some ⊤
  | .fin q => some ((q : WithTop ℚ) : WithBot (WithTop ℚ))

/-- `x < y`. -/
def lt (x y : Binary64) : Bool :=
  match x.place, y.place with
  | some a, some b => a < b
  | _, _ => false

/-- `x <= y`. -/
def le (x y : Binary64) : Bool :=
  match x.place, y.place with
  | some a, some b => a ≤ b
  | _, _ => false

theorem lt_iff {x y : Binary64} :
    x.lt y = true ↔ ∃ a b, x.place = some a ∧ y.place = some b ∧ a < b := by
  rw [lt]
  rcases x.place with _ | a <;> rcases y.place with _ | b <;> simp

theorem le_iff {x y : Binary64} :
    x.le y = true ↔ ∃ a b, x.place = some a ∧ y.place = some b ∧ a ≤ b := by
  rw [le]
  rcases x.place with _ | a <;> rcases y.place with _ | b <;> simp

theorem place_eq_none_iff {x : Binary64} : x.place = none ↔ x = .nan := by
  rcases x with _ | (_ | _) | q <;> simp [place]

theorem fin_le_fin_iff {p q : ℚ} : (fin p).le (fin q) = true ↔ p ≤ q := by
  simp [le, place]

theorem le_of_lt {x y : Binary64} (h : x.lt y = true) : x.le y = true := by
  obtain ⟨a, b, ha, hb, hab⟩ := lt_iff.1 h
  exact le_iff.2 ⟨a, b, ha, hb, hab.le⟩

theorem le_trans {x y z : Binary64} (h : x.le y = true) (h' : y.le z = true) : x.le z = true := by
  obtain ⟨a, b, ha, hb, hab⟩ := le_iff.1 h
  obtain ⟨b', c, hb', hc, hbc⟩ := le_iff.1 h'
  obtain rfl := Option.some.inj (hb.symm.trans hb')
  exact le_iff.2 ⟨a, c, ha, hc, hab.trans hbc⟩

/-- Two numbers of which neither is NaN can be compared. -/
theorem le_of_not_lt {x y : Binary64} (hx : x ≠ .nan) (hy : y ≠ .nan) (h : y.lt x = false) :
    x.le y = true := by
  obtain ⟨a, ha⟩ := Option.ne_none_iff_exists'.1 fun h => hx (place_eq_none_iff.1 h)
  obtain ⟨b, hb⟩ := Option.ne_none_iff_exists'.1 fun h => hy (place_eq_none_iff.1 h)
  refine le_iff.2 ⟨a, b, ha, hb, not_lt.1 fun hba => ?_⟩
  exact Bool.false_ne_true (h.symm.trans (lt_iff.2 ⟨b, a, hb, ha, hba⟩))

/-- The place of what is rounded. -/
theorem place_ofRat (q : ℚ) : (ofRat q).place =
    some (if overflow ≤ roundRat q then (⊤ : WithBot (WithTop ℚ))
      else if roundRat q ≤ -overflow then ⊥
      else ((roundRat q : WithTop ℚ) : WithBot (WithTop ℚ))) := by
  rw [ofRat]
  split_ifs <;> rfl

theorem ofRat_le_ofRat {p q : ℚ} (h : p ≤ q) : (ofRat p).le (ofRat q) = true := by
  have hround := roundRat_mono h
  refine le_iff.2 ⟨_, _, place_ofRat p, place_ofRat q, ?_⟩
  split_ifs with hp hq hq' hp' hq hq' hq hq'
  · exact le_rfl
  · exact absurd (hp.trans hround) hq
  · exact absurd (hp.trans hround) hq
  · exact bot_le
  · exact bot_le
  · exact bot_le
  · exact le_top
  · exact absurd (hround.trans hq') hp'
  · exact_mod_cast hround

/-! ## Operations -/

/-- `x + y`. -/
def add : Binary64 → Binary64 → Binary64
  | .nan, _ => .nan
  | _, .nan => .nan
  | .inf a, .inf b => if a = b then .inf a else .nan
  | .inf a, .fin _ => .inf a
  | .fin _, .inf b => .inf b
  | .fin p, .fin q => ofRat (p + q)

def neg : Binary64 → Binary64
  | .nan => .nan
  | .inf a => .inf !a
  | .fin q => .fin (-q)

/-- `x - y`. -/
def sub (x y : Binary64) : Binary64 :=
  x.add y.neg

theorem sub_ne_nan {x : Binary64} (h : x ≠ .nan) (c : ℚ) : x.sub (.fin c) ≠ .nan := by
  rcases x with _ | negative | q
  · exact absurd rfl h
  · exact Binary64.noConfusion
  · change ofRat (q + -c) ≠ .nan
    rw [ofRat]
    split_ifs <;> exact Binary64.noConfusion

/-- Taking the same from two numbers. -/
theorem sub_le_sub {x y : Binary64} (h : x.le y = true) (c : ℚ) :
    (x.sub (.fin c)).le (y.sub (.fin c)) = true := by
  obtain ⟨a, b, ha, hb, hab⟩ := le_iff.1 h
  have hy : y ≠ .nan := by
    rintro rfl
    cases hb
  obtain ⟨d, hd⟩ := Option.ne_none_iff_exists'.1 fun hnone =>
    sub_ne_nan hy c (place_eq_none_iff.1 hnone)
  rcases x with _ | (_ | _) | p
  · cases ha
  · -- only infinity is above infinity
    obtain rfl := Option.some.inj ha
    obtain rfl : b = ⊤ := top_le_iff.1 hab
    rcases y with _ | (_ | _) | q
    · cases hb
    · exact le_iff.2 ⟨⊤, ⊤, rfl, rfl, le_rfl⟩
    · cases hb
    · cases hb
  · exact le_iff.2 ⟨⊥, d, rfl, hd, bot_le⟩
  · obtain rfl := Option.some.inj ha
    rcases y with _ | (_ | _) | q
    · cases hb
    · exact le_iff.2 ⟨_, ⊤, place_ofRat _, rfl, le_top⟩
    · obtain rfl := Option.some.inj hb
      exact absurd hab (not_le.2 (WithBot.bot_lt_coe _))
    · obtain rfl := Option.some.inj hb
      have hpq : p ≤ q := WithTop.coe_le_coe.1 (WithBot.coe_le_coe.1 hab)
      exact ofRat_le_ofRat (add_le_add_left hpq (-c))

/-- What `int(x)` gives. -/
inductive IntOf where
  | int (n : ℤ)
  /-- Of NaN. -/
  | valueError
  /-- Of an infinity. -/
  | overflowError

/-- The number, where there is one. -/
def IntOf.toOption : IntOf → Option ℤ
  | .int n => some n
  | _ => none

theorem IntOf.toOption_eq_some_iff {x : IntOf} {n : ℤ} : x.toOption = some n ↔ x = .int n := by
  cases x <;> simp [toOption]

/-- `int(x)`, towards zero. -/
def toInt : Binary64 → IntOf
  | .nan => .valueError
  | .inf _ => .overflowError
  | .fin q => .int (if 0 ≤ q then ⌊q⌋ else ⌈q⌉)

/-- A number that is at most a natural number is cut to one that is. -/
theorem le_of_toInt_eq {x : Binary64} {n : ℕ} {m : ℤ} (hle : x.le (.fin n) = true)
    (h : x.toInt = .int m) : m ≤ n := by
  rcases x with _ | _ | q
  · cases h
  · cases h
  · have hq : q ≤ n := fin_le_fin_iff.1 hle
    obtain rfl := IntOf.int.inj h
    split_ifs
    · exact (Int.floor_le_floor hq).trans_eq (Int.floor_natCast n)
    · exact (Int.ceil_le_ceil hq).trans_eq (Int.ceil_natCast n)

end Binary64
