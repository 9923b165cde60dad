import Mathlib.Data.Int.Log
import Mathlib.Data.Rat.Floor
import Mathlib.Tactic.Linarith
import Mathlib.Tactic.NormNum

/-! # Rounding to double precision

A non-negative rational is rounded to 53 significant bits, ties to even. The
error is at most half the spacing, so an integer below `2 ^ 53` is exact and a
quotient that is well away from the integers stays between the same two.
-/
namespace Foundation

/-- The nearest integer, of two the even one. -/
def halfEven (q : ℚ) : ℤ :=
  if q - ⌊q⌋ < 1 / 2 then ⌊q⌋ else if 1 / 2 < q - ⌊q⌋ then ⌊q⌋ + 1 else if ⌊q⌋ % 2 = 0 then ⌊q⌋ else ⌊q⌋ + 1

theorem halfEven_intCast (n : ℤ) : halfEven n = n := by
  unfold halfEven
  rw [Int.floor_intCast, sub_self, if_pos (by norm_num)]

theorem abs_halfEven_sub_le (q : ℚ) : |(halfEven q : ℚ) - q| ≤ 1 / 2 := by
  have hlow : (⌊q⌋ : ℚ) ≤ q := Int.floor_le q
  have hhigh : q < ⌊q⌋ + 1 := Int.lt_floor_add_one q
  unfold halfEven
  rw [abs_le]
  split
  · constructor <;> linarith
  · split
    · push_cast
      constructor <;> linarith
    · split
      · constructor <;> linarith
      · push_cast
        constructor <;> linarith

/-- The distance between the doubles around `q`. -/
def spacing (q : ℚ) : ℚ := 2 ^ (Int.log 2 q - 52)

theorem spacing_pos (q : ℚ) : 0 < spacing q := zpow_pos (by norm_num) _

/-- The double nearest to a rational that is not negative. -/
def toDouble (q : ℚ) : ℚ := halfEven (q / spacing q) * spacing q

theorem abs_toDouble_sub_le (q : ℚ) : |toDouble q - q| ≤ spacing q / 2 := by
  have hpos := spacing_pos q
  have hscaled : toDouble q - q = (halfEven (q / spacing q) - q / spacing q) * spacing q := by
    rw [sub_mul, div_mul_cancel₀ q hpos.ne']
    rfl
  rw [hscaled, abs_mul, abs_of_pos hpos]
  calc |(halfEven (q / spacing q) : ℚ) - q / spacing q| * spacing q ≤ 1 / 2 * spacing q :=
        mul_le_mul_of_nonneg_right (abs_halfEven_sub_le _) hpos.le
    _ = spacing q / 2 := by ring

/-- Below a power of two the spacing is that of the binade below it. -/
theorem spacing_le {q : ℚ} (hq : 0 < q) {n : ℤ} (h : q < 2 ^ n) : spacing q ≤ 2 ^ (n - 53) := by
  have hlog : Int.log 2 q < n := (Int.lt_zpow_iff_log_lt (by norm_num) hq).mp h
  exact zpow_le_zpow_right₀ (by norm_num) (by omega)

/-- An integer below `2 ^ 53` is a multiple of its spacing. -/
theorem toDouble_natCast {n : ℕ} (h : n < 2 ^ 53) : toDouble n = n := by
  have hlog : Nat.log 2 n ≤ 52 := by
    by_cases hn : n = 0
    · simp [hn]
    · exact Nat.lt_succ_iff.mp (Nat.log_lt_of_lt_pow hn h)
  obtain ⟨k, hk⟩ := Nat.exists_eq_add_of_le hlog
  have hspacing : spacing n = ((2 : ℚ) ^ k)⁻¹ := by
    have hexponent : ((Nat.log 2 n : ℕ) : ℤ) - 52 = -(k : ℤ) := by omega
    rw [spacing, Int.log_natCast, hexponent, zpow_neg, zpow_natCast]
  have hinteger : (n : ℚ) / spacing n = ((n * 2 ^ k : ℤ) : ℚ) := by
    rw [hspacing, div_inv_eq_mul]
    push_cast
    rfl
  unfold toDouble
  rw [hinteger, halfEven_intCast, ← hinteger, div_mul_cancel₀ _ (spacing_pos _).ne']

/-- A quotient that is no integer is at least `1 / d` away from the integers around it. -/
theorem inv_le_of_not_dvd {n d : ℕ} (hd : 0 < d) (h : ¬ d ∣ n) {k : ℤ} (hk : ⌈(n : ℚ) / d⌉ = k) :
    (k : ℚ) - 1 + 1 / d ≤ (n : ℚ) / d ∧ (n : ℚ) / d ≤ k - 1 / d := by
  have hdpos : (0 : ℚ) < d := Nat.cast_pos.mpr hd
  obtain ⟨hlow, hhigh⟩ := Int.ceil_eq_iff.mp hk
  rw [lt_div_iff₀ hdpos] at hlow
  rw [div_le_iff₀ hdpos] at hhigh
  have hlow' : (k - 1) * (d : ℤ) < n := by exact_mod_cast hlow
  have hhigh' : (n : ℤ) ≤ k * d := by exact_mod_cast hhigh
  have hne : (n : ℤ) ≠ k * d := by
    intro heq
    exact h (Int.natCast_dvd_natCast.mp ⟨k, by rw [heq, mul_comm]⟩)
  have hlow'' : (k - 1) * (d : ℚ) + 1 ≤ n := by exact_mod_cast hlow'
  have hhigh'' : (n : ℚ) + 1 ≤ k * d := by exact_mod_cast lt_of_le_of_ne hhigh' hne
  constructor
  · rw [le_div_iff₀ hdpos, add_mul, one_div, inv_mul_cancel₀ hdpos.ne']
    exact hlow''
  · rw [div_le_iff₀ hdpos, sub_mul, one_div, inv_mul_cancel₀ hdpos.ne']
    linarith

/-- The rounding of a quotient of integers does not reach the next integer. -/
theorem ceil_toDouble_div {n d : ℕ} (hd : 0 < d) (hsmall : d ≤ 32) (hn : n < 2 ^ 48) :
    ⌈toDouble ((n : ℚ) / d)⌉ = ⌈(n : ℚ) / d⌉ := by
  have hdpos : (0 : ℚ) < d := Nat.cast_pos.mpr hd
  by_cases hdvd : d ∣ n
  · obtain ⟨m, rfl⟩ := hdvd
    have hm : m ≤ d * m := Nat.le_mul_of_pos_left m hd
    have hquotient : ((d * m : ℕ) : ℚ) / d = m := by
      rw [Nat.cast_mul, mul_div_cancel_left₀ _ hdpos.ne']
    rw [hquotient, toDouble_natCast (by omega)]
  · have hnpos : 0 < n := Nat.pos_of_ne_zero fun hzero => hdvd (hzero ▸ dvd_zero d)
    have hquotient : (n : ℚ) / d < 2 ^ (48 : ℤ) := by
      have hlt : (n : ℚ) < 2 ^ 48 := by exact_mod_cast hn
      have hone : (1 : ℚ) ≤ d := by exact_mod_cast hd
      calc (n : ℚ) / d ≤ n := div_le_self (Nat.cast_nonneg n) hone
        _ < 2 ^ 48 := hlt
    have hspacing : spacing ((n : ℚ) / d) ≤ 2 ^ (48 - 53 : ℤ) :=
      spacing_le (div_pos (Nat.cast_pos.mpr hnpos) hdpos) hquotient
    have herror := abs_le.mp (abs_toDouble_sub_le ((n : ℚ) / d))
    have hgap : (1 : ℚ) / 32 ≤ 1 / d := one_div_le_one_div_of_le hdpos (by exact_mod_cast hsmall)
    obtain ⟨hlow, hhigh⟩ := inv_le_of_not_dvd hd hdvd rfl
    norm_num at hspacing
    rw [Int.ceil_eq_iff]
    constructor <;> linarith [herror.1, herror.2]

end Foundation
