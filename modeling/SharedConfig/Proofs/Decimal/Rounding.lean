import Mathlib.Algebra.Order.Field.Power
import Mathlib.Algebra.Order.Floor.Semifield
import Mathlib.Data.Int.Log
import Mathlib.Data.Rat.Floor
import Mathlib.Tactic.FieldSimp
import Mathlib.Tactic.Linarith
import Mathlib.Tactic.NormNum
import Mathlib.Tactic.Positivity
import Mathlib.Tactic.Ring
import SharedConfig.Decimal.Binary64

/-!
# SharedConfig.Proofs.Decimal.Rounding

Reading a decimal number, as a function of the rational number that it is.

`Binary64.ofQuotient` guesses the exponent from the sizes of numerator and denominator; the guess is
right or one too small, and in the second case the significand comes out too large and is taken
again.  So the result is that of rounding to 53 digits from the exact binary logarithm
(`Binary64.nearest`), and it is the same for all ways of writing one quotient.

* `ofQuotient_eq_nearest`: rounding depends on the quotient alone.
* `ofDecimal_congr`: reading depends on the value of the decimal alone.
* `isCanonical_ofDecimal`: what is read is a number of the format.
* `ofRational_of_isCanonical`: a number of the format is read as itself.
-/

namespace SharedConfig

/-! ## Rounding to an integer -/

/-- The integer nearest to a number that is not negative, a half going to the even one. -/
def roundEven (q : ℚ) : ℕ :=
  if q - ⌊q⌋₊ < 1 / 2 then ⌊q⌋₊
  else if 1 / 2 < q - ⌊q⌋₊ then ⌊q⌋₊ + 1
  else if ⌊q⌋₊ % 2 = 0 then ⌊q⌋₊ else ⌊q⌋₊ + 1

theorem roundQuotient_eq_roundEven (num : ℕ) {den : ℕ} (hd : 0 < den) :
    roundQuotient num den = roundEven ((num : ℚ) / den) := by
  have hden : (0 : ℚ) < den := by exact_mod_cast hd
  have hfloor : ⌊(num : ℚ) / den⌋₊ = num / den := Nat.floor_div_eq_div num den
  have hrest : (num : ℚ) / den - (num / den : ℕ) = (num % den : ℕ) / den := by
    have hsplit : (num : ℚ) = den * (num / den : ℕ) + (num % den : ℕ) := by
      exact_mod_cast (Nat.div_add_mod num den).symm
    field_simp
    linarith
  have hlow : ((num % den : ℕ) : ℚ) / den < 1 / 2 ↔ 2 * (num % den) < den := by
    rw [div_lt_div_iff₀ hden two_pos, one_mul, mul_comm]
    exact_mod_cast Iff.rfl
  have hhigh : (1 : ℚ) / 2 < ((num % den : ℕ) : ℚ) / den ↔ den < 2 * (num % den) := by
    rw [div_lt_div_iff₀ two_pos hden, one_mul, mul_comm]
    exact_mod_cast Iff.rfl
  simp only [roundQuotient, roundEven, hfloor, hrest, hlow, hhigh]

theorem floor_le_roundEven (q : ℚ) : ⌊q⌋₊ ≤ roundEven q := by
  unfold roundEven
  split_ifs <;> omega

theorem roundEven_le (q : ℚ) : roundEven q ≤ ⌊q⌋₊ + 1 := by
  unfold roundEven
  split_ifs <;> omega

@[simp] theorem roundEven_natCast (n : ℕ) : roundEven n = n := by
  simp [roundEven]

theorem roundEven_le_of_lt {q : ℚ} {n : ℕ} (hq : 0 ≤ q) (h : q < n) : roundEven q ≤ n :=
  (roundEven_le q).trans ((Nat.floor_lt hq).2 h)

theorem le_roundEven_of_le {q : ℚ} {n : ℕ} (h : (n : ℚ) ≤ q) : n ≤ roundEven q :=
  (Nat.le_floor h).trans (floor_le_roundEven q)

/-- What is rounded up to an even number is rounded up at half the size too. -/
theorem roundEven_half {q : ℚ} {n : ℕ} (h : roundEven q = 2 * (n + 1)) (hq : 0 ≤ q)
    (hlt : q < 2 * (n + 1)) : roundEven (q / 2) = n + 1 := by
  have hfloor : ⌊q⌋₊ = 2 * n + 1 := by
    have hle := roundEven_le q
    have hfloor : ⌊q⌋₊ < 2 * (n + 1) := (Nat.floor_lt hq).2 (by exact_mod_cast hlt)
    omega
  have hfar : 2 * n + 1 + 1 / 2 ≤ q := by
    by_contra hnear
    have hdown : roundEven q = ⌊q⌋₊ := by
      rw [roundEven, if_pos]
      rw [hfloor]
      push_cast
      linarith
    omega
  have hhalf : ⌊q / 2⌋₊ = n := by
    rw [Nat.floor_eq_iff (by positivity)]
    constructor <;> linarith
  rw [roundEven, hhalf, if_neg (by linarith), if_pos (by linarith)]

namespace Binary64

/-! ## Rounding to a binary number -/

/-- A number with its significand and exponent, unless that is too large. -/
def ofParts (negative : Bool) (significand : ℕ) (exponent : ℤ) : Binary64 :=
  if maxExponent < exponent then .infinite negative else .finite negative significand exponent

/-- The exponent at which a positive number has 53 binary digits, or fewer at the least exponent. -/
def exponentOf (q : ℚ) : ℤ := max minExponent (Int.log 2 q - 52)

def nearest (negative : Bool) (q : ℚ) : Binary64 :=
  if roundEven (q / 2 ^ exponentOf q) < 2 ^ 53 then
    ofParts negative (roundEven (q / 2 ^ exponentOf q)) (exponentOf q)
  else ofParts negative (roundEven (q / 2 ^ exponentOf q) / 2) (exponentOf q + 1)

section Quotient

variable {num den : ℕ}

/-- The sizes of numerator and denominator tell the logarithm of the quotient up to one. -/
theorem log_quotient (hn : 0 < num) (hd : 0 < den) :
    Int.log 2 ((num : ℚ) / den) = (Nat.log2 num : ℤ) - Nat.log2 den ∨
      Int.log 2 ((num : ℚ) / den) = (Nat.log2 num : ℤ) - Nat.log2 den - 1 := by
  have hden : (0 : ℚ) < den := by exact_mod_cast hd
  have hpos : (0 : ℚ) < num / den := by positivity
  have hnum : (2 : ℚ) ^ (Nat.log2 num : ℤ) ≤ num ∧ (num : ℚ) < 2 ^ ((Nat.log2 num : ℤ) + 1) :=
    ⟨by exact_mod_cast Nat.log2_self_le hn.ne', by exact_mod_cast Nat.lt_log2_self⟩
  have hden' : (2 : ℚ) ^ (Nat.log2 den : ℤ) ≤ den ∧ (den : ℚ) < 2 ^ ((Nat.log2 den : ℤ) + 1) :=
    ⟨by exact_mod_cast Nat.log2_self_le hd.ne', by exact_mod_cast Nat.lt_log2_self⟩
  have hlow : (2 : ℚ) ^ ((Nat.log2 num : ℤ) - Nat.log2 den - 1) ≤ num / den := by
    rw [le_div_iff₀ hden]
    calc (2 : ℚ) ^ ((Nat.log2 num : ℤ) - Nat.log2 den - 1) * den
        ≤ 2 ^ ((Nat.log2 num : ℤ) - Nat.log2 den - 1) * 2 ^ ((Nat.log2 den : ℤ) + 1) := by
          exact mul_le_mul_of_nonneg_left hden'.2.le (zpow_pos two_pos _).le
      _ = 2 ^ (Nat.log2 num : ℤ) := by
          rw [← zpow_add₀ two_ne_zero]
          congr 1
          ring
      _ ≤ num := hnum.1
  have hhigh : (num : ℚ) / den < 2 ^ ((Nat.log2 num : ℤ) - Nat.log2 den + 1) := by
    rw [div_lt_iff₀ hden]
    calc (num : ℚ) < 2 ^ ((Nat.log2 num : ℤ) + 1) := hnum.2
      _ = 2 ^ ((Nat.log2 num : ℤ) - Nat.log2 den + 1) * 2 ^ (Nat.log2 den : ℤ) := by
          rw [← zpow_add₀ two_ne_zero]
          congr 1
          ring
      _ ≤ 2 ^ ((Nat.log2 num : ℤ) - Nat.log2 den + 1) * den := by
          exact mul_le_mul_of_nonneg_left hden'.1 (zpow_pos two_pos _).le
  have hle : (Nat.log2 num : ℤ) - Nat.log2 den - 1 ≤ Int.log 2 ((num : ℚ) / den) :=
    (Int.zpow_le_iff_le_log one_lt_two hpos).1 (by exact_mod_cast hlow)
  have hlt : Int.log 2 ((num : ℚ) / den) < (Nat.log2 num : ℤ) - Nat.log2 den + 1 :=
    (Int.lt_zpow_iff_log_lt one_lt_two hpos).1 (by exact_mod_cast hhigh)
  omega

theorem roundQuotient_scaled (num : ℕ) (hd : 0 < den) (e : ℤ) :
    (if e < 0 then roundQuotient (num * 2 ^ (-e).toNat) den
      else roundQuotient num (den * 2 ^ e.toNat)) = roundEven ((num : ℚ) / den / 2 ^ e) := by
  split
  · rename_i he
    have hpow : (2 : ℚ) ^ e = (2 ^ (-e).toNat)⁻¹ := by
      rw [← zpow_natCast, Int.toNat_of_nonneg (by omega), zpow_neg, inv_inv]
    rw [roundQuotient_eq_roundEven _ hd, hpow]
    congr 1
    push_cast
    field_simp
  · rename_i he
    have hpow : (2 : ℚ) ^ e = 2 ^ e.toNat := by
      rw [← zpow_natCast, Int.toNat_of_nonneg (by omega)]
    rw [roundQuotient_eq_roundEven _ (Nat.mul_pos hd (Nat.two_pow_pos _)), hpow]
    congr 1
    push_cast
    field_simp

theorem div_exponentOf_lt {q : ℚ} : q / 2 ^ exponentOf q < 2 ^ 53 := by
  rw [div_lt_iff₀ (zpow_pos two_pos _)]
  calc q < 2 ^ (Int.log 2 q + 1) := by
        exact_mod_cast Int.lt_zpow_succ_log_self one_lt_two q
    _ ≤ 2 ^ (53 + exponentOf q) := by
        refine zpow_le_zpow_right₀ one_le_two ?_
        unfold exponentOf
        omega
    _ = 2 ^ 53 * 2 ^ exponentOf q := by
        rw [zpow_add₀ two_ne_zero]
        norm_num

/-- A significand that is rounded up to 54 digits is the least of 54 digits. -/
theorem roundEven_next {q : ℚ} (hq : 0 < q) (hlarge : ¬ roundEven (q / 2 ^ exponentOf q) < 2 ^ 53) :
    roundEven (q / 2 ^ exponentOf q) = 2 ^ 53 ∧
      roundEven (q / 2 ^ (exponentOf q + 1)) = 2 ^ 52 := by
  have hpos : (0 : ℚ) ≤ q / 2 ^ exponentOf q := (div_pos hq (zpow_pos two_pos _)).le
  have hfull : roundEven (q / 2 ^ exponentOf q) = 2 ^ 53 :=
    le_antisymm (roundEven_le_of_lt hpos (by exact_mod_cast div_exponentOf_lt)) (not_lt.1 hlarge)
  have hdiv : q / 2 ^ (exponentOf q + 1) = q / 2 ^ exponentOf q / 2 := by
    rw [zpow_add_one₀ two_ne_zero, div_div]
  refine ⟨hfull, hdiv ▸ roundEven_half (n := 2 ^ 52 - 1) hfull hpos ?_⟩
  have hlt := @div_exponentOf_lt q
  norm_num at hlt ⊢
  exact hlt

/-- A number has one binary digit more than its logarithm says, and more of them at a lower
exponent. -/
theorem le_roundEven_log {q : ℚ} (hq : 0 < q) {n : ℕ} {e : ℤ} (h : n + e = Int.log 2 q) :
    2 ^ n ≤ roundEven (q / 2 ^ e) := by
  refine le_roundEven_of_le ?_
  rw [le_div_iff₀ (zpow_pos two_pos _)]
  calc ((2 ^ n : ℕ) : ℚ) * 2 ^ e = 2 ^ Int.log 2 q := by
        push_cast
        rw [← zpow_natCast, ← zpow_add₀ two_ne_zero, h]
    _ ≤ q := by exact_mod_cast Int.zpow_log_le_self one_lt_two hq

theorem ofQuotient_eq_nearest (negative : Bool) (hn : 0 < num) (hd : 0 < den) :
    ofQuotient negative num den = nearest negative ((num : ℚ) / den) := by
  have hq : (0 : ℚ) < num / den := by positivity
  have hscaled : ∀ e : ℤ, (if e < 0 then roundQuotient (num * 2 ^ (-e).toNat) den
      else roundQuotient num (den * 2 ^ e.toNat)) = roundEven ((num : ℚ) / den / 2 ^ e) :=
    roundQuotient_scaled num hd
  have hguess : max minExponent ((Nat.log2 num : ℤ) - Nat.log2 den - 53) =
        exponentOf ((num : ℚ) / den) ∨
      max minExponent ((Nat.log2 num : ℤ) - Nat.log2 den - 53) =
          exponentOf ((num : ℚ) / den) - 1 ∧
        exponentOf ((num : ℚ) / den) = Int.log 2 ((num : ℚ) / den) - 52 := by
    have hlog := log_quotient hn hd
    unfold exponentOf
    omega
  simp only [ofQuotient, Nat.pow_eq, hscaled]
  generalize (num : ℚ) / den = q at hq hguess
  rcases hguess with he | ⟨he, hexp⟩
  · rw [he, nearest]
    by_cases hsmall : roundEven (q / 2 ^ exponentOf q) < 2 ^ 53
    · rw [if_pos hsmall, if_pos hsmall, ofParts]
    · obtain ⟨hfull, hhalf⟩ := roundEven_next hq hsmall
      rw [if_neg hsmall, if_neg hsmall, hhalf, hfull]
      rfl
  · -- one exponent below, the significand has one digit more
    have hlog : ((53 : ℕ) : ℤ) + (exponentOf q - 1) = Int.log 2 q := by omega
    have hlarge := not_lt.2 (le_roundEven_log hq hlog)
    have hnext : exponentOf q - 1 + 2 = exponentOf q + 1 := by ring
    rw [he, if_neg hlarge, sub_add_cancel, hnext]
    rfl

end Quotient

/-! ## Signs -/

def signed (negative : Bool) : Binary64 → Binary64
  | .finite _ significand exponent => .finite negative significand exponent
  | .infinite _ => .infinite negative
  | .nan => .nan

@[simp] theorem signed_ofParts (negative other : Bool) (significand : ℕ) (exponent : ℤ) :
    (ofParts other significand exponent).signed negative = ofParts negative significand exponent := by
  unfold ofParts
  split <;> rfl

@[simp] theorem signed_nearest (negative other : Bool) (q : ℚ) :
    (nearest other q).signed negative = nearest negative q := by
  unfold nearest
  split <;> rw [signed_ofParts]

/-! ## Decimal numbers -/

/-- The binary number nearest to a positive number, given up early where that is far out of range.
-/
def ofRational (negative : Bool) (q : ℚ) : Binary64 :=
  if 310 < Int.log 10 q + 1 then .infinite negative
  else if Int.log 10 q + 1 < -330 then zero negative
  else nearest negative q

/-- The digits of a number tell the decimal logarithm. -/
theorem log_decimal {digits : ℕ} (hd : 0 < digits) (exponent : ℤ) :
    Int.log 10 ((digits : ℚ) * 10 ^ exponent) + 1 =
      ((Nat.toDigits 10 digits).length : ℤ) + exponent := by
  have hpos : (0 : ℚ) < digits * 10 ^ exponent := by positivity
  have hlen : 0 < (Nat.toDigits 10 digits).length := Nat.length_toDigits_pos
  have hupper : digits < 10 ^ (Nat.toDigits 10 digits).length :=
    (Nat.length_toDigits_le_iff (by decide) hlen).1 le_rfl
  have hlower : 10 ^ ((Nat.toDigits 10 digits).length - 1) ≤ digits := by
    rcases Nat.eq_or_lt_of_le hlen with hone | hmore
    · rw [← hone]
      exact hd
    · by_contra hless
      have hshort := (Nat.length_toDigits_le_iff (by decide) (by omega)).2 (not_le.1 hless)
      omega
  generalize (Nat.toDigits 10 digits).length = len at hlen hupper hlower
  have hhigh : (digits : ℚ) * 10 ^ exponent < 10 ^ ((len : ℤ) + exponent) := by
    rw [zpow_add₀ (by norm_num), zpow_natCast]
    exact mul_lt_mul_of_pos_right (by exact_mod_cast hupper) (by positivity)
  have hlow : (10 : ℚ) ^ (((len - 1 : ℕ) : ℤ) + exponent) ≤ digits * 10 ^ exponent := by
    rw [zpow_add₀ (by norm_num), zpow_natCast]
    exact mul_le_mul_of_nonneg_right (by exact_mod_cast hlower) (by positivity)
  have hlt := (Int.lt_zpow_iff_log_lt (b := 10) (by decide) hpos).1 (by exact_mod_cast hhigh)
  have hle := (Int.zpow_le_iff_le_log (b := 10) (by decide) hpos).1 (by exact_mod_cast hlow)
  omega

theorem ofDecimal_eq_ofRational (negative : Bool) {digits : ℕ} (hd : 0 < digits) (exponent : ℤ) :
    ofDecimal negative digits exponent = ofRational negative (digits * 10 ^ exponent) := by
  have hquotient : (if exponent < 0 then ofQuotient negative digits (10 ^ (-exponent).toNat)
      else ofQuotient negative (digits * 10 ^ exponent.toNat) 1) =
        nearest negative (digits * 10 ^ exponent) := by
    split
    · rename_i he
      rw [ofQuotient_eq_nearest _ hd (by positivity)]
      have hpow : (10 : ℚ) ^ exponent = (10 ^ (-exponent).toNat)⁻¹ := by
        rw [← zpow_natCast, Int.toNat_of_nonneg (by omega), zpow_neg, inv_inv]
      rw [hpow, ← div_eq_mul_inv]
      push_cast
      rfl
    · rename_i he
      rw [ofQuotient_eq_nearest _ (by positivity) one_pos]
      have hpow : (10 : ℚ) ^ exponent = 10 ^ exponent.toNat := by
        rw [← zpow_natCast, Int.toNat_of_nonneg (by omega)]
      rw [hpow]
      push_cast
      rw [div_one]
  simp only [ofDecimal, hd.ne', if_false, Nat.pow_eq, hquotient, ofRational, log_decimal hd]

/-- Two ways of writing one decimal number are read as one binary number. -/
theorem ofDecimal_congr (negative : Bool) {digits digits' : ℕ} {exponent exponent' : ℤ}
    (h : (digits : ℚ) * 10 ^ exponent = digits' * 10 ^ exponent') :
    ofDecimal negative digits exponent = ofDecimal negative digits' exponent' := by
  have hten : ∀ e : ℤ, (10 : ℚ) ^ e ≠ 0 := fun e => (zpow_pos (by norm_num) e).ne'
  rcases Nat.eq_zero_or_pos digits with rfl | hd
  · have hzero : digits' = 0 := by
      simpa [hten] using h.symm
    rw [hzero, ofDecimal_zero, ofDecimal_zero]
  · have hd' : 0 < digits' := by
      refine Nat.pos_of_ne_zero fun hzero => ?_
      simp [hzero, hten, hd.ne'] at h
    rw [ofDecimal_eq_ofRational _ hd, ofDecimal_eq_ofRational _ hd', h]

theorem signed_ofDecimal (negative other : Bool) (digits : ℕ) (exponent : ℤ) :
    (ofDecimal other digits exponent).signed negative = ofDecimal negative digits exponent := by
  rcases Nat.eq_zero_or_pos digits with rfl | hd
  · simp [zero, signed]
  · rw [ofDecimal_eq_ofRational _ hd, ofDecimal_eq_ofRational _ hd]
    unfold ofRational
    split_ifs
    · rfl
    · rfl
    · rw [signed_nearest]

/-! ## The numbers of the format -/

/-- The significand has at most 53 digits, and has fewer only at the least exponent. -/
def IsCanonical : Binary64 → Prop
  | .finite _ significand exponent =>
    significand < 2 ^ 53 ∧ minExponent ≤ exponent ∧ exponent ≤ maxExponent ∧
      (2 ^ 52 ≤ significand ∨ exponent = minExponent)
  | _ => True

instance : DecidablePred IsCanonical
  | .finite _ significand exponent => by
    unfold IsCanonical
    infer_instance
  | .infinite _ => isTrue trivial
  | .nan => isTrue trivial

section Canonical

variable {significand : ℕ} {exponent : ℤ} {negative : Bool}

theorem isCanonical_ofParts (h : significand < 2 ^ 53) (hmin : minExponent ≤ exponent)
    (hfull : 2 ^ 52 ≤ significand ∨ exponent = minExponent) :
    (ofParts negative significand exponent).IsCanonical := by
  unfold ofParts
  split
  · trivial
  · exact ⟨h, hmin, by omega, hfull⟩

theorem isCanonical_nearest {q : ℚ} (hq : 0 < q) : (nearest negative q).IsCanonical := by
  have hmin : minExponent ≤ exponentOf q := le_max_left _ _
  unfold nearest
  split
  · rename_i hsmall
    refine isCanonical_ofParts hsmall hmin ?_
    rcases max_choice minExponent (Int.log 2 q - 52) with he | he
    · exact .inr he
    · have hlog : ((52 : ℕ) : ℤ) + exponentOf q = Int.log 2 q := by
        unfold exponentOf
        omega
      exact .inl (le_roundEven_log hq hlog)
  · rename_i hlarge
    rw [(roundEven_next hq hlarge).1]
    exact isCanonical_ofParts (by decide) (by omega) (.inl (by decide))

theorem isCanonical_ofDecimal (negative : Bool) (digits : ℕ) (exponent : ℤ) :
    (ofDecimal negative digits exponent).IsCanonical := by
  have hzero : (zero negative).IsCanonical := by
    cases negative <;> decide
  rcases Nat.eq_zero_or_pos digits with rfl | hd
  · rw [ofDecimal_zero]
    exact hzero
  · rw [ofDecimal_eq_ofRational _ hd]
    unfold ofRational
    split_ifs
    · trivial
    · exact hzero
    · exact isCanonical_nearest (by positivity)

theorem exponentOf_of_isCanonical (h : (finite negative significand exponent).IsCanonical)
    (hpos : 0 < significand) : exponentOf ((significand : ℚ) * 2 ^ exponent) = exponent := by
  obtain ⟨hlt, hmin, -, hfull⟩ := h
  have hq : (0 : ℚ) < significand * 2 ^ exponent := by positivity
  have hlog : Int.log 2 ((significand : ℚ) * 2 ^ exponent) < 53 + exponent := by
    refine (Int.lt_zpow_iff_log_lt one_lt_two hq).1 ?_
    push_cast
    rw [zpow_add₀ two_ne_zero]
    exact mul_lt_mul_of_pos_right (by exact_mod_cast hlt) (by positivity)
  rcases hfull with hfull | hleast
  · have hlog' : 52 + exponent ≤ Int.log 2 ((significand : ℚ) * 2 ^ exponent) := by
      refine (Int.zpow_le_iff_le_log one_lt_two hq).1 ?_
      push_cast
      rw [zpow_add₀ two_ne_zero]
      exact mul_le_mul_of_nonneg_right (by exact_mod_cast hfull) (by positivity)
    unfold exponentOf
    omega
  · unfold exponentOf
    omega

theorem nearest_of_isCanonical (h : (finite negative significand exponent).IsCanonical)
    (hpos : 0 < significand) :
    nearest negative (significand * 2 ^ exponent) = finite negative significand exponent := by
  have hexp := exponentOf_of_isCanonical h hpos
  obtain ⟨hlt, -, hmax, -⟩ := h
  have hround : roundEven ((significand : ℚ) * 2 ^ exponent / 2 ^ exponent) = significand := by
    rw [mul_div_cancel_right₀ _ (zpow_pos two_pos _).ne', roundEven_natCast]
  rw [nearest, hexp, hround, if_pos hlt, ofParts, if_neg (not_lt.2 hmax)]

theorem largest_lt : ((2 : ℕ) : ℚ) ^ ((1024 : ℕ) : ℤ) < ((10 : ℕ) : ℚ) ^ ((310 : ℕ) : ℤ) := by
  have h : 2 ^ 1024 < 10 ^ 310 := by decide +kernel
  simp only [zpow_natCast, ← Nat.cast_pow, Nat.cast_lt, h]

theorem le_least : ((10 : ℕ) : ℚ) ^ (-(331 : ℕ) : ℤ) ≤ ((2 : ℕ) : ℚ) ^ (-(1074 : ℕ) : ℤ) := by
  have h : 2 ^ 1074 ≤ 10 ^ 331 := by decide +kernel
  rw [zpow_neg, zpow_neg, zpow_natCast, zpow_natCast]
  refine inv_anti₀ (by positivity) ?_
  simp only [← Nat.cast_pow, Nat.cast_le, h]

theorem ofRational_of_isCanonical (h : (finite negative significand exponent).IsCanonical)
    (hpos : 0 < significand) :
    ofRational negative (significand * 2 ^ exponent) = finite negative significand exponent := by
  have hq : (0 : ℚ) < significand * 2 ^ exponent := by positivity
  have hhigh : Int.log 10 ((significand : ℚ) * 2 ^ exponent) < 310 := by
    refine (Int.lt_zpow_iff_log_lt (by decide) hq).1 ?_
    calc (significand : ℚ) * 2 ^ exponent ≤ 2 ^ (53 : ℤ) * 2 ^ (971 : ℤ) := by
          refine mul_le_mul (by exact_mod_cast h.1.le) ?_ (by positivity) (by positivity)
          exact zpow_le_zpow_right₀ one_le_two h.2.2.1
      _ = ((2 : ℕ) : ℚ) ^ ((1024 : ℕ) : ℤ) := by
          rw [← zpow_add₀ two_ne_zero]
          rfl
      _ < ((10 : ℕ) : ℚ) ^ (310 : ℤ) := largest_lt
  have hlow : -331 ≤ Int.log 10 ((significand : ℚ) * 2 ^ exponent) := by
    refine (Int.zpow_le_iff_le_log (by decide) hq).1 ?_
    calc ((10 : ℕ) : ℚ) ^ (-331 : ℤ) ≤ ((2 : ℕ) : ℚ) ^ (-(1074 : ℕ) : ℤ) := le_least
      _ = 1 * 2 ^ (-1074 : ℤ) := by
          rw [one_mul]
          rfl
      _ ≤ significand * 2 ^ exponent := by
          refine mul_le_mul (by exact_mod_cast hpos) ?_ (by positivity) (by positivity)
          exact zpow_le_zpow_right₀ one_le_two h.2.1
  rw [ofRational, if_neg (by omega), if_neg (by omega), nearest_of_isCanonical h hpos]

end Canonical

end Binary64
end SharedConfig
