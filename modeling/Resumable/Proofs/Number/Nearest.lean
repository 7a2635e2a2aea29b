import Mathlib
import Resumable.Number.Dyadic

/-!
Integers of 64 bits as doubles. The double of a natural number has its leading 53 bits, rounded to the
nearest; it is told by its place in the order of the positive doubles, which grows with the number.
-/

namespace Resumable.Number

open Float.Model Float.Model.UnpackedFloat

/-- `n / 2 ^ k` rounded to the nearest integer, and halfway between two to the even one. -/
def nearestQuotient (n k : Nat) : Nat :=
  if 2 * (n % 2 ^ k) < 2 ^ k then n / 2 ^ k
  else if 2 * (n % 2 ^ k) = 2 ^ k then n / 2 ^ k + n / 2 ^ k % 2
  else n / 2 ^ k + 1

theorem nearestQuotient_zero (n : Nat) : nearestQuotient n 0 = n := by
  simp [nearestQuotient, Nat.mod_one]

theorem div_le_nearestQuotient (n k : Nat) : n / 2 ^ k ≤ nearestQuotient n k := by
  unfold nearestQuotient
  split
  · exact Nat.le_refl _
  · split
    · exact Nat.le_add_right _ _
    · exact Nat.le_succ _

theorem nearestQuotient_le (n k : Nat) : nearestQuotient n k ≤ n / 2 ^ k + 1 := by
  unfold nearestQuotient
  split
  · exact Nat.le_succ _
  · split
    · have := Nat.mod_lt (n / 2 ^ k) (y := 2) (by decide)
      omega
    · exact Nat.le_refl _

theorem nearestQuotient_mono {m n : Nat} (h : m ≤ n) (k : Nat) :
    nearestQuotient m k ≤ nearestQuotient n k := by
  obtain hlt | heq := Nat.lt_or_eq_of_le (Nat.div_le_div_right (c := 2 ^ k) h)
  · have hupper := nearestQuotient_le m k
    have hlower := div_le_nearestQuotient n k
    omega
  · have hmod : m % 2 ^ k ≤ n % 2 ^ k := by
      have hm := Nat.div_add_mod m (2 ^ k)
      have hn := Nat.div_add_mod n (2 ^ k)
      rw [heq] at hm
      omega
    unfold nearestQuotient
    rw [heq]
    split_ifs <;> omega

/-- Rounding changes a number by half a unit at most. -/
theorem nearestQuotient_near (n k : Nat) :
    2 * n ≤ 2 * (nearestQuotient n k * 2 ^ k) + 2 ^ k ∧
      2 * (nearestQuotient n k * 2 ^ k) ≤ 2 * n + 2 ^ k := by
  have hrest : n % 2 ^ k < 2 ^ k := Nat.mod_lt _ (Nat.two_pow_pos k)
  have hsum := Nat.div_add_mod' n (2 ^ k)
  unfold nearestQuotient
  split_ifs
  · omega
  · obtain hbit | hbit := Nat.mod_two_eq_zero_or_one (n / 2 ^ k)
    · rw [hbit, Nat.add_zero]
      omega
    · rw [hbit, Nat.add_mul, Nat.one_mul]
      omega
  · rw [Nat.add_mul, Nat.one_mul]
    omega

/-! ### Rounding -/

section Shift

variable {rest unit : Nat}

theorem sticky_iff (hrest : rest < unit) : (unit ≤ 2 * rest ∨ 2 * rest % unit ≠ 0) ↔ rest ≠ 0 := by
  obtain hsmall | hlarge := Nat.lt_or_ge (2 * rest) unit
  · rw [Nat.mod_eq_of_lt hsmall]
    omega
  · omega

theorem double_mod (hrest : rest < unit) (bit : Nat) :
    2 * (rest + unit * bit) % (unit * 2) = 2 * rest := by
  have hsum : 2 * (rest + unit * bit) = 2 * rest + unit * 2 * bit := by ring
  rw [hsum, Nat.add_mul_mod_self_left, Nat.mod_eq_of_lt (by omega)]

/-- A shift keeps the quotient, and of the remainder where it stands to one half. -/
theorem shift_eq (n k : Nat) :
    (⟨n, false, false⟩ : ExtendedMantissa) >>> k =
      ⟨n / 2 ^ k, decide (2 ^ k ≤ 2 * (n % 2 ^ k)), decide (2 * (n % 2 ^ k) % 2 ^ k ≠ 0)⟩ := by
  induction k with
  | zero =>
    simp only [pow_zero, Nat.div_one, Nat.mod_one, Nat.mul_zero, ne_eq, not_true_eq_false, decide_false]
    rfl
  | succ k ih =>
    have hstep : (⟨n, false, false⟩ : ExtendedMantissa) >>> (k + 1) =
        ((⟨n, false, false⟩ : ExtendedMantissa) >>> k).shiftRightOne := rfl
    have hdiv : n / 2 ^ k / 2 = n / 2 ^ (k + 1) := by rw [Nat.div_div_eq_div_mul, pow_succ]
    have hrest : n % 2 ^ k < 2 ^ k := Nat.mod_lt _ (Nat.two_pow_pos k)
    rw [hstep, ih, ExtendedMantissa.shiftRightOne, hdiv, Nat.mod_pow_succ, pow_succ, double_mod hrest]
    generalize n % 2 ^ k = rest at hrest
    generalize 2 ^ k = unit at hrest
    have hbit : (n / unit % 2 != 0) = decide (unit * 2 ≤ 2 * (rest + unit * (n / unit % 2))) := by
      obtain hbit | hbit := Nat.mod_two_eq_zero_or_one (n / unit) <;> rw [hbit]
      · exact (decide_eq_false (by omega)).symm
      · exact (decide_eq_true (by omega)).symm
    have hsticky : (decide (unit ≤ 2 * rest) || decide (2 * rest % unit ≠ 0)) = decide (2 * rest ≠ 0) := by
      rw [← Bool.decide_or, decide_eq_decide, sticky_iff hrest]
      omega
    rw [hbit, hsticky]

theorem roundedMantissa_shift (n k : Nat) :
    ((⟨n, false, false⟩ : ExtendedMantissa) >>> k).roundedMantissa = nearestQuotient n k := by
  have hrest : n % 2 ^ k < 2 ^ k := Nat.mod_lt _ (Nat.two_pow_pos k)
  rw [shift_eq, nearestQuotient]
  generalize n % 2 ^ k = rest at hrest
  generalize 2 ^ k = unit at hrest
  obtain hsmall | rfl | hlarge := Nat.lt_trichotomy (2 * rest) unit
  · rw [if_pos hsmall, decide_eq_false (Nat.not_le.2 hsmall)]
    by_cases hzero : 2 * rest % unit ≠ 0
    · rw [decide_eq_true hzero]
      rfl
    · rw [decide_eq_false hzero]
      rfl
  · rw [if_neg (Nat.lt_irrefl _), if_pos rfl, decide_eq_true (Nat.le_refl _), Nat.mod_self]
    rfl
  · have hsticky : 2 * rest % unit ≠ 0 := by
      have hmod : 2 * rest % unit = 2 * rest - unit := by
        rw [Nat.mod_eq_sub_mod hlarge.le, Nat.mod_eq_of_lt (by omega)]
      omega
    rw [if_neg (by omega), if_neg (by omega), decide_eq_true hlarge.le, decide_eq_true hsticky]
    rfl

end Shift

/-! ### The place of a number among the doubles -/

/-- The leading 53 bits of a positive number, rounded; rounding up can give `2 ^ 53`. -/
def significand (m : Nat) : Nat :=
  nearestQuotient (m * 2 ^ (52 - m.log2)) (m.log2 - 52)

/-- The place of a positive number among the doubles. Between two powers of two there are `2 ^ 52`. -/
def place (m : Nat) : Nat :=
  m.log2 * 2 ^ 52 + significand m

/-- The finite double at a place. -/
def atPlace (sign : Sign) (n : Nat) : UnpackedFloat :=
  .finite sign (2 ^ 52 + n % 2 ^ 52) ((n / 2 ^ 52 : Nat) - 53) (Nat.add_pos_left (Nat.two_pow_pos 52) _)

section Place

variable {m n : Nat}

theorem log2_mul_two_pow (hm : 0 < m) (j : Nat) : (m * 2 ^ j).log2 = m.log2 + j := by
  have hlow : 2 ^ m.log2 ≤ m := Nat.log2_self_le hm.ne'
  have hhigh : m < 2 ^ (m.log2 + 1) := Nat.lt_log2_self
  rw [Nat.log2_eq_iff (Nat.mul_pos hm (Nat.two_pow_pos j)).ne', Nat.add_right_comm, pow_add, pow_add]
  exact ⟨Nat.mul_le_mul_right _ hlow, Nat.mul_lt_mul_of_pos_right hhigh (Nat.two_pow_pos j)⟩

/-- A number with `k` bits too many has 53 bits without them, unless it is rounded up to `2 ^ 53`. -/
theorem nearestQuotient_bounds {k : Nat} (hm : m.log2 = 52 + k) :
    2 ^ 52 ≤ nearestQuotient m k ∧ nearestQuotient m k ≤ 2 ^ 53 := by
  have hpos : m ≠ 0 := by
    rintro rfl
    rw [Nat.log2_zero] at hm
    omega
  obtain ⟨hlow, hhigh⟩ := (Nat.log2_eq_iff hpos).1 hm
  rw [pow_add] at hlow
  rw [Nat.add_right_comm, pow_add] at hhigh
  have hquotient := (Nat.le_div_iff_mul_le (Nat.two_pow_pos k)).2 hlow
  have hquotient' := (Nat.div_lt_iff_lt_mul (Nat.two_pow_pos k)).2 hhigh
  exact ⟨hquotient.trans (div_le_nearestQuotient m k), (nearestQuotient_le m k).trans hquotient'⟩

theorem scaled_log2 (hm : 0 < m) : (m * 2 ^ (52 - m.log2)).log2 = 52 + (m.log2 - 52) := by
  rw [log2_mul_two_pow hm]
  omega

theorem significand_bounds (hm : 0 < m) : 2 ^ 52 ≤ significand m ∧ significand m ≤ 2 ^ 53 :=
  nearestQuotient_bounds (scaled_log2 hm)

theorem place_mono (hm : 0 < m) (h : m ≤ n) : place m ≤ place n := by
  have hbounds := significand_bounds hm
  have hbounds' := significand_bounds (Nat.lt_of_lt_of_le hm h)
  have hlog : m.log2 ≤ n.log2 :=
    (Nat.le_log2 (Nat.lt_of_lt_of_le hm h).ne').2 ((Nat.log2_self_le hm.ne').trans h)
  obtain hlt | heq := Nat.lt_or_eq_of_le hlog
  · unfold place
    omega
  · unfold place
    have hsignificand : significand m ≤ significand n := by
      unfold significand
      rw [heq]
      exact nearestQuotient_mono (Nat.mul_le_mul_right _ h) _
    rw [heq]
    omega

theorem finite_congr {sign : Sign} {m m' : Nat} {exponent exponent' : Int} {hm : 0 < m} {hm' : 0 < m'}
    (hmantissa : m = m') (hexponent : exponent = exponent') :
    UnpackedFloat.finite sign m exponent hm = .finite sign m' exponent' hm' := by
  subst hmantissa hexponent
  rfl

/-- A number with `k` bits too many is shifted by them. -/
theorem shiftToTargetExponent_eq {k : Nat} {exponent : Int} (hm : m.log2 = 52 + k)
    (hexponent : -52 ≤ exponent + k) :
    shiftToTargetExponent Format.binary64 m exponent .exact =
      ((⟨m, false, false⟩ : ExtendedMantissa) >>> k, exponent + k) := by
  have htarget : Format.binary64.targetExponent (totalExponent m exponent) = exponent + k := by
    simp only [Format.targetExponent, totalExponent, Format.minExponent, Format.mantissaBits]
    omega
  have hshift : (exponent + k - exponent).toNat = k := by omega
  simp only [shiftToTargetExponent, shiftToExponent, htarget, hshift,
    ExtendedMantissa.ofMantissaAndAccuracy]

/-- Rounding up can give one bit too many. -/
theorem shiftAgain_eq {q : Nat} {exponent : Int} (hexponent : -52 ≤ exponent) (hlow : 2 ^ 52 ≤ q)
    (hhigh : q ≤ 2 ^ 53) : ∃ j : Nat, j ≤ 1 ∧ q / 2 ^ j < 2 ^ 53 ∧ (j = 1 → q = 2 ^ 53) ∧
      shiftToTargetExponent Format.binary64 q exponent .exact =
        ((⟨q, false, false⟩ : ExtendedMantissa) >>> j, exponent + j) := by
  obtain hlt | rfl := Nat.lt_or_eq_of_le hhigh
  · have hlog : q.log2 = 52 + 0 := (Nat.log2_eq_iff (by omega)).2 ⟨hlow, hlt⟩
    exact ⟨0, by omega, by omega, nofun, shiftToTargetExponent_eq hlog (by omega)⟩
  · have hlog : (2 ^ 53 : Nat).log2 = 52 + 1 := Nat.log2_two_pow
    exact ⟨1, Nat.le_refl _, by decide, fun _ => rfl, shiftToTargetExponent_eq hlog (by omega)⟩

/-- A number with at least 53 bits, which is scaled by a power of two, is rounded to 53 bits. -/
theorem roundWithAccuracy_eq (sign : Sign) {k : Nat} {exponent : Int} (hm : m.log2 = 52 + k)
    (hexponent : -52 ≤ exponent + k) :
    roundWithAccuracy Format.binary64 sign m exponent .exact =
      atPlace sign ((exponent + k + 52).toNat * 2 ^ 52 + nearestQuotient m k) := by
  obtain ⟨hlow, hhigh⟩ := nearestQuotient_bounds hm
  obtain ⟨j, hj, hfit, hcarry, hshift⟩ := shiftAgain_eq hexponent hlow hhigh
  have hmantissa : ((⟨nearestQuotient m k, false, false⟩ : ExtendedMantissa) >>> j).mantissa =
      nearestQuotient m k / 2 ^ j := by rw [shift_eq]
  simp only [roundWithAccuracy, shiftToTargetExponent_eq hm hexponent, roundedMantissa_shift, hshift,
    hmantissa]
  obtain rfl | rfl := Nat.le_one_iff_eq_zero_or_eq_one.1 hj
  · exact (dif_neg (by omega)).trans (finite_congr (by omega) (by omega))
  · have hfull := hcarry rfl
    exact (dif_neg (by omega)).trans (finite_congr (by omega) (by omega))

/-- A positive number is rounded to the double at its place. -/
theorem round_eq (sign : Sign) (hm : 0 < m) :
    UnpackedFloat.round Format.binary64 sign m 0 = atPlace sign (place m) := by
  have htarget : Format.binary64.targetExponent (totalExponent m 0) = m.log2 - 52 := by
    simp only [Format.targetExponent, totalExponent, Format.minExponent, Format.mantissaBits]
    omega
  have hshift : (0 - ((m.log2 : Int) - 52)).toNat = 52 - m.log2 := by omega
  simp only [UnpackedFloat.round, htarget, decreaseExponent, hshift, Nat.shiftLeft_eq]
  rw [roundWithAccuracy_eq sign (scaled_log2 hm) (by omega)]
  have hplace : (0 - ((52 - m.log2 : Nat) : Int) + ((m.log2 - 52 : Nat) : Int) + 52).toNat = m.log2 := by
    omega
  rw [hplace]
  rfl

end Place

/-! ### Packing -/

theorem exponentBias_eq : Format.binary64.exponentBias = 1023 :=
  rfl

/-- The components of a normal double are unpacked as they were packed. -/
theorem unpack_packComponents (sign : Sign) {biased fraction : Nat} (hlow : 0 < biased)
    (hhigh : biased < 2047) (hfraction : fraction < 2 ^ 52) :
    UnpackedFloat.unpack Format.binary64
        (packComponents Format.binary64 sign (BitVec.ofNat 11 biased) (BitVec.ofNat 52 (2 ^ 52 + fraction))) =
      .finite sign (2 ^ 52 + fraction) (biased - 1075) (Nat.add_pos_left (Nat.two_pow_pos 52) _) := by
  have hinfinite : BitVec.ofNat 11 biased ≠ -1#11 := by
    intro h
    have := congrArg BitVec.toNat h
    simp at this
    omega
  have hsubnormal : BitVec.ofNat 11 biased ≠ 0#11 := by
    intro h
    have := congrArg BitVec.toNat h
    simp at this
    omega
  unfold UnpackedFloat.unpack
  simp only [unpackMantissa_packComponents, unpackExponent_packComponents, unpackSign_packComponents,
    Sign.ofBitVec_toBitVec, if_neg hinfinite, if_neg hsubnormal]
  refine finite_congr ?_ ?_
  · have hmantissa : (BitVec.ofNat 52 (2 ^ 52 + fraction)).toNat = fraction := by
      rw [BitVec.toNat_ofNat, Nat.add_mod_left, Nat.mod_eq_of_lt hfraction]
    rw [BitVec.toNat_append, hmantissa, ← Nat.shiftLeft_add_eq_or_of_lt hfraction]
    rfl
  · rw [BitVec.toNat_ofNat, Nat.mod_eq_of_lt (by omega), exponentBias_eq]
    omega

/-- The double at a place of normal doubles survives packing. -/
theorem unpack_pack_atPlace (sign : Sign) {n : Nat} (hlow : 2 ^ 52 ≤ n) (hhigh : n < 2 ^ 60) :
    (Float.Model.pack (atPlace sign n)).unpack = atPlace sign n := by
  have hlog : (2 ^ 52 + n % 2 ^ 52).log2 = 52 := (Nat.log2_eq_iff (by omega)).2 (by omega)
  have hpacked : UnpackedFloat.pack Format.binary64 (atPlace sign n) =
      packComponents Format.binary64 sign (BitVec.ofNat 11 (n / 2 ^ 52 + 1022))
        (BitVec.ofNat 52 (2 ^ 52 + n % 2 ^ 52)) := by
    have hbiased : (((n / 2 ^ 52 : Nat) : Int) - 53 + (1023 : Nat) + (52 : Nat)).toNat =
      n / 2 ^ 52 + 1022 := by omega
    unfold UnpackedFloat.pack
    simp only [atPlace, hlog, exponentBias_eq, hbiased]
    rw [if_neg (by omega)]
    exact if_pos rfl
  change UnpackedFloat.unpack Format.binary64 (UnpackedFloat.pack Format.binary64 (atPlace sign n)) = _
  rw [hpacked, unpack_packComponents sign (by omega) (by omega) (Nat.mod_lt _ (Nat.two_pow_pos 52))]
  exact finite_congr rfl (by omega)

/-! ### Order -/

/-- Exponents are compared first and then fractions; together they are the places. -/
theorem compare_places (m n : Nat) :
    (compare ((m / 2 ^ 52 : Nat) - 53 : Int) ((n / 2 ^ 52 : Nat) - 53)).then
      (compare (2 ^ 52 + m % 2 ^ 52) (2 ^ 52 + n % 2 ^ 52)) = compare m n := by
  obtain hlt | rfl | hgt := Nat.lt_trichotomy m n
  · rw [Nat.compare_eq_lt.2 hlt, Ordering.then_eq_lt, Int.compare_eq_lt, Int.compare_eq_eq,
      Nat.compare_eq_lt]
    omega
  · rw [Nat.compare_eq_eq.2 rfl, Nat.compare_eq_eq.2 rfl, Int.compare_eq_eq.2 rfl]
    rfl
  · rw [Nat.compare_eq_gt.2 hgt, Ordering.then_eq_gt, Int.compare_eq_gt, Int.compare_eq_eq,
      Nat.compare_eq_gt]
    omega

/-- The place of an integer among the doubles; those of negative numbers are negative. -/
def signedPlace (n : Int) : Int :=
  n.sign * place n.natAbs

/-- The double at a place. -/
def atSignedPlace (p : Int) : UnpackedFloat :=
  if p = 0 then .zero .positive
  else if 0 < p then atPlace .positive p.toNat
  else atPlace .negative (-p).toNat

theorem atSignedPlace_pos {p : Int} (hp : 0 < p) : atSignedPlace p = atPlace .positive p.toNat := by
  rw [atSignedPlace, if_neg hp.ne', if_pos hp]

theorem atSignedPlace_neg {p : Int} (hp : p < 0) : atSignedPlace p = atPlace .negative (-p).toNat := by
  rw [atSignedPlace, if_neg hp.ne, if_neg (by omega)]

/-- Doubles are in the order of their places. -/
theorem le_atSignedPlace (p q : Int) : (atSignedPlace p).le (atSignedPlace q) = true ↔ p ≤ q := by
  obtain hp | rfl | hp := Int.lt_trichotomy p 0 <;> obtain hq | rfl | hq := Int.lt_trichotomy q 0
  · have hle : (atPlace .negative (-p).toNat).le (atPlace .negative (-q).toNat) =
        (compare (-p).toNat (-q).toNat).swap.isLE := by rw [← compare_places]; rfl
    rw [atSignedPlace_neg hp, atSignedPlace_neg hq, hle, Ordering.isLE_swap, Nat.isGE_compare]
    omega
  · rw [atSignedPlace_neg hp]
    exact iff_of_true rfl hp.le
  · rw [atSignedPlace_neg hp, atSignedPlace_pos hq]
    exact iff_of_true rfl (hp.trans hq).le
  · rw [atSignedPlace_neg hq]
    exact iff_of_false Bool.false_ne_true (Int.not_le.2 hq)
  · exact iff_of_true rfl (Int.le_refl _)
  · rw [atSignedPlace_pos hq]
    exact iff_of_true rfl hq.le
  · rw [atSignedPlace_pos hp, atSignedPlace_neg hq]
    exact iff_of_false Bool.false_ne_true (Int.not_le.2 (hq.trans hp))
  · rw [atSignedPlace_pos hp]
    exact iff_of_false Bool.false_ne_true (Int.not_le.2 hp)
  · have hle : (atPlace .positive p.toNat).le (atPlace .positive q.toNat) =
        (compare p.toNat q.toNat).isLE := by rw [← compare_places]; rfl
    rw [atSignedPlace_pos hp, atSignedPlace_pos hq, hle, Nat.isLE_compare]
    omega

theorem place_pos {m : Nat} (hm : 0 < m) : 0 < place m := by
  have hbounds := significand_bounds hm
  unfold place
  omega

theorem signedPlace_natCast {m : Nat} (hm : 0 < m) : signedPlace m = place m := by
  rw [signedPlace, Int.sign_eq_one_of_pos (by omega), Int.one_mul, Int.natAbs_natCast]

theorem signedPlace_neg (n : Int) : signedPlace (-n) = -signedPlace n := by
  rw [signedPlace, signedPlace, Int.sign_neg, Int.natAbs_neg, Int.neg_mul]

theorem signedPlace_mono_natCast {m n : Nat} (h : m ≤ n) : signedPlace m ≤ signedPlace n := by
  obtain rfl | hm := Nat.eq_zero_or_pos m
  · obtain rfl | hn := Nat.eq_zero_or_pos n
    · exact Int.le_refl _
    · rw [signedPlace_natCast hn]
      exact Int.natCast_nonneg _
  · rw [signedPlace_natCast hm, signedPlace_natCast (Nat.lt_of_lt_of_le hm h)]
    exact Int.ofNat_le.2 (place_mono hm h)

theorem signedPlace_nonneg {n : Int} (hn : 0 ≤ n) : 0 ≤ signedPlace n := by
  lift n to Nat using hn
  exact signedPlace_mono_natCast (Nat.zero_le n)

theorem signedPlace_mono {m n : Int} (h : m ≤ n) : signedPlace m ≤ signedPlace n := by
  obtain hm | hm := Int.le_total 0 m
  · lift m to Nat using hm
    lift n to Nat using (Int.natCast_nonneg m).trans h
    exact signedPlace_mono_natCast (Int.ofNat_le.1 h)
  · obtain hn | hn := Int.le_total 0 n
    · have hneg := signedPlace_nonneg (Int.neg_nonneg_of_nonpos hm)
      rw [signedPlace_neg] at hneg
      exact (Int.neg_nonneg.1 hneg).trans (signedPlace_nonneg hn)
    · obtain ⟨k, rfl⟩ := Int.exists_eq_neg_ofNat hm
      obtain ⟨l, rfl⟩ := Int.exists_eq_neg_ofNat hn
      rw [signedPlace_neg, signedPlace_neg]
      exact Int.neg_le_neg (signedPlace_mono_natCast (Int.ofNat_le.1 (Int.neg_le_neg_iff.1 h)))

/-! ### Numbers of at most 53 bits -/

theorem significand_exact {m : Nat} (hlog : m.log2 ≤ 52) : significand m = m * 2 ^ (52 - m.log2) := by
  rw [significand, Nat.sub_eq_zero_of_le hlog, nearestQuotient_zero]

theorem significand_lt {m : Nat} (hm : 0 < m) (hlog : m.log2 ≤ 52) : significand m < 2 ^ 53 := by
  have hbits := log2_mul_two_pow hm (52 - m.log2)
  rw [significand_exact hlog, ← Nat.log2_lt (Nat.mul_pos hm (Nat.two_pow_pos _)).ne']
  omega

/-- Numbers of at most 53 bits are told from all others. -/
theorem place_lt {m n : Nat} (hm : 0 < m) (hsmall : m < 2 ^ 53) (h : m < n) : place m < place n := by
  have hn : 0 < n := Nat.lt_trans hm h
  have hbounds := significand_bounds hn
  have hbits : m.log2 ≤ 52 := Nat.le_of_lt_succ ((Nat.log2_lt hm.ne').2 hsmall)
  have hlog : m.log2 ≤ n.log2 := (Nat.le_log2 hn.ne').2 ((Nat.log2_self_le hm.ne').trans h.le)
  unfold place
  obtain hlt | heq := Nat.lt_or_eq_of_le hlog
  · have hfit := significand_lt hm hbits
    omega
  · have hscaled := Nat.mul_lt_mul_of_pos_right h (Nat.two_pow_pos (52 - m.log2))
    rw [significand_exact hbits, significand_exact (heq ▸ hbits), ← heq]
    omega

theorem signedPlace_pos {n : Int} (hn : 0 < n) : 0 < signedPlace n := by
  lift n to Nat using hn.le
  have hn : 0 < n := by omega
  rw [signedPlace_natCast hn]
  exact Int.natCast_pos.2 (place_pos hn)

theorem signedPlace_neg_of_neg {n : Int} (hn : n < 0) : signedPlace n < 0 := by
  have hpos := signedPlace_pos (Int.neg_pos_of_neg hn)
  rw [signedPlace_neg] at hpos
  omega

theorem signedPlace_lt_natCast {m n : Nat} (hsmall : m < 2 ^ 53) (h : m < n) :
    signedPlace m < signedPlace n := by
  obtain rfl | hm := Nat.eq_zero_or_pos m
  · exact signedPlace_pos (Int.natCast_pos.2 h)
  · rw [signedPlace_natCast hm, signedPlace_natCast (Nat.lt_trans hm h)]
    exact Int.ofNat_lt.2 (place_lt hm hsmall h)

theorem signedPlace_lt {m n : Int} (hm : -2 ^ 53 ≤ m) (hn : n ≤ 2 ^ 53) (h : m < n) :
    signedPlace m < signedPlace n := by
  obtain hzero | hneg := le_or_gt 0 m
  · lift m to Nat using hzero
    lift n to Nat using (Int.natCast_nonneg m).trans h.le
    exact signedPlace_lt_natCast (by omega) (Int.ofNat_lt.1 h)
  · obtain hzero | hneg' := le_or_gt 0 n
    · exact Int.lt_of_lt_of_le (signedPlace_neg_of_neg hneg) (signedPlace_nonneg hzero)
    · obtain ⟨k, rfl⟩ := Int.exists_eq_neg_ofNat hneg.le
      obtain ⟨l, rfl⟩ := Int.exists_eq_neg_ofNat hneg'.le
      rw [signedPlace_neg, signedPlace_neg]
      exact Int.neg_lt_neg (signedPlace_lt_natCast (by omega) (by omega))

/-! ### Numbers at one place -/

theorem significand_near (m : Nat) :
    2 * (m * 2 ^ 52) ≤ 2 * (significand m * 2 ^ m.log2) + 2 ^ m.log2 ∧
      2 * (significand m * 2 ^ m.log2) ≤ 2 * (m * 2 ^ 52) + 2 ^ m.log2 := by
  obtain ⟨hlow, hhigh⟩ := nearestQuotient_near (m * 2 ^ (52 - m.log2)) (m.log2 - 52)
  obtain hsmall | hlarge := Nat.le_total m.log2 52
  · have hpow : 2 ^ (52 - m.log2) * 2 ^ m.log2 = 2 ^ 52 := by rw [← pow_add, Nat.sub_add_cancel hsmall]
    rw [significand_exact hsmall, Nat.mul_assoc, hpow]
    exact ⟨Nat.le_add_right _ _, Nat.le_add_right _ _⟩
  · have hpow : 2 ^ m.log2 = 2 ^ (m.log2 - 52) * 2 ^ 52 := by rw [← pow_add, Nat.sub_add_cancel hlarge]
    rw [Nat.sub_eq_zero_of_le hlarge, pow_zero, Nat.mul_one] at hlow hhigh
    rw [significand, Nat.sub_eq_zero_of_le hlarge, pow_zero, Nat.mul_one, hpow,
      ← Nat.mul_assoc (nearestQuotient m (m.log2 - 52))]
    omega

/-- The numbers at one place round to the same one. -/
theorem rounded_eq_of_place_eq {m n : Nat} (hm : 0 < m) (h : m ≤ n) (hplace : place m = place n) :
    significand m * 2 ^ m.log2 = significand n * 2 ^ n.log2 := by
  have hn : 0 < n := Nat.lt_of_lt_of_le hm h
  have hbounds := significand_bounds hm
  have hbounds' := significand_bounds hn
  have hlog : m.log2 ≤ n.log2 := (Nat.le_log2 hn.ne').2 ((Nat.log2_self_le hm.ne').trans h)
  unfold place at hplace
  obtain heq | heq : m.log2 = n.log2 ∨ m.log2 + 1 = n.log2 := by omega
  · have hsignificand : significand m = significand n := by omega
    rw [heq, hsignificand]
  · have hfull : significand m = 2 ^ 53 := by omega
    have hleast : significand n = 2 ^ 52 := by omega
    rw [hfull, hleast, ← heq, ← pow_add, ← pow_add, Nat.add_comm m.log2 1, ← Nat.add_assoc]

theorem near_of_place_eq {m n : Nat} (hm : 0 < m) (h : m ≤ n) (hn : n ≤ 2 ^ 63)
    (hplace : place m = place n) : n ≤ m + 2 ^ 10 := by
  have hrounded := rounded_eq_of_place_eq hm h hplace
  have hlow := (significand_near m).2
  have hhigh := (significand_near n).1
  have hlog : m.log2 ≤ n.log2 :=
    (Nat.le_log2 (Nat.lt_of_lt_of_le hm h).ne').2 ((Nat.log2_self_le hm.ne').trans h)
  have hpow : 2 ^ m.log2 ≤ 2 ^ n.log2 := Nat.pow_le_pow_right (by decide) hlog
  obtain hlt | rfl := Nat.lt_or_eq_of_le hn
  · have hlt : n.log2 < 63 := (Nat.log2_lt (by omega)).2 hlt
    have hunit : 2 ^ n.log2 ≤ 2 ^ 62 := Nat.pow_le_pow_right (by decide) (by omega)
    omega
  · obtain heq | hlt := Nat.eq_or_lt_of_le h
    · omega
    · have hlt : m.log2 < 63 := (Nat.log2_lt (by omega)).2 hlt
      have hunit : 2 ^ m.log2 ≤ 2 ^ 62 := Nat.pow_le_pow_right (by decide) (by omega)
      have hexact : significand (2 ^ 63) * 2 ^ (2 ^ 63 : Nat).log2 = 2 ^ 63 * 2 ^ 52 := by
        rw [Nat.log2_two_pow]
        rfl
      omega

/-- Integers at one place are near each other. -/
theorem near_of_signedPlace_eq {m n : Int} (hm : -2 ^ 63 ≤ m) (hn : n ≤ 2 ^ 63) (h : m ≤ n)
    (hplace : signedPlace m = signedPlace n) : n ≤ m + 2 ^ 10 := by
  obtain hneg | rfl | hpos := Int.lt_trichotomy m 0
  · have hneg' : n < 0 := by
      by_contra hn
      have hlt := signedPlace_neg_of_neg hneg
      have hge := signedPlace_nonneg (Int.not_lt.1 hn)
      omega
    obtain ⟨k, rfl⟩ := Int.exists_eq_neg_ofNat hneg.le
    obtain ⟨l, rfl⟩ := Int.exists_eq_neg_ofNat hneg'.le
    rw [signedPlace_neg, signedPlace_neg, signedPlace_natCast (by omega),
      signedPlace_natCast (by omega)] at hplace
    have hnear : k ≤ l + 2 ^ 10 := near_of_place_eq (by omega) (by omega) (by omega) (by omega)
    omega
  · obtain hpos | hzero := Int.lt_or_eq_of_le h
    · have hlt := signedPlace_pos hpos
      have hzero : signedPlace 0 = 0 := rfl
      omega
    · omega
  · lift m to Nat using hpos.le
    lift n to Nat using (Int.natCast_nonneg m).trans h
    rw [signedPlace_natCast (by omega), signedPlace_natCast (by omega)] at hplace
    have hnear : n ≤ m + 2 ^ 10 := near_of_place_eq (by omega) (by omega) (by omega) (by omega)
    omega

/-! ### Conversion -/

theorem ofNat_eq (m : Nat) : UnpackedFloat.ofNat Format.binary64 m = atSignedPlace (signedPlace m) := by
  obtain rfl | hm := Nat.eq_zero_or_pos m
  · rfl
  · have hcompare : compare (m : Int) 0 = .gt := Int.compare_eq_gt.2 (by omega)
    have hpos : (0 : Int) < place m := Int.natCast_pos.2 (place_pos hm)
    rw [signedPlace_natCast hm, atSignedPlace_pos hpos, Int.toNat_natCast, ← round_eq .positive hm,
      UnpackedFloat.ofNat, UnpackedFloat.ofInt, UnpackedFloat.normalize, hcompare]
    rfl

theorem toFloat_eq (n : UInt64) :
    n.toFloat = .ofModel (.pack (atSignedPlace (signedPlace n.toNat))) := by
  rw [← ofNat_eq]
  rfl

theorem place_bounds {m : Nat} (hm : 0 < m) (hhigh : m < 2 ^ 64) :
    2 ^ 52 ≤ place m ∧ place m < 2 ^ 60 := by
  have hbounds := significand_bounds hm
  have hlog : m.log2 < 64 := (Nat.log2_lt hm.ne').2 hhigh
  unfold place
  omega

/-- The doubles of integers of 64 bits survive packing. -/
theorem unpack_pack_signedPlace {n : Int} (hn : n.natAbs < 2 ^ 64) :
    (Float.Model.pack (atSignedPlace (signedPlace n))).unpack = atSignedPlace (signedPlace n) := by
  obtain hneg | rfl | hpos := Int.lt_trichotomy n 0
  · obtain ⟨m, rfl⟩ := Int.exists_eq_neg_ofNat hneg.le
    have hm : 0 < m := by omega
    obtain ⟨hlow, hhigh⟩ := place_bounds hm (by omega)
    rw [signedPlace_neg, signedPlace_natCast hm, atSignedPlace_neg (by omega), Int.neg_neg,
      Int.toNat_natCast]
    exact unpack_pack_atPlace .negative hlow hhigh
  · rfl
  · lift n to Nat using hpos.le
    have hm : 0 < n := by omega
    obtain ⟨hlow, hhigh⟩ := place_bounds hm (by omega)
    rw [signedPlace_natCast hm, atSignedPlace_pos (by omega), Int.toNat_natCast]
    exact unpack_pack_atPlace .positive hlow hhigh

theorem toInt_eq_bmod (n : Int64) : n.toInt = (n.toUInt64.toNat : Int).bmod (2 ^ 64) :=
  BitVec.toInt_eq_toNat_bmod n.toBitVec

theorem toNat_toUInt64 {n : Int64} (hn : 0 ≤ n.toInt) : (n.toUInt64.toNat : Int) = n.toInt := by
  have hbits := toInt_eq_bmod n
  have hlt := n.toUInt64.toNat_lt
  rw [Int.bmod_def] at hbits
  omega

theorem toNat_neg_toUInt64 {n : Int64} (hn : n.toInt < 0) : ((-n).toUInt64.toNat : Int) = -n.toInt := by
  have hbits := (Int64.toInt_neg n).symm.trans (toInt_eq_bmod (-n))
  have hlow := n.le_toInt
  have hlt := (-n).toUInt64.toNat_lt
  rw [Int.bmod_def, Int.bmod_def] at hbits
  omega

theorem neg_atSignedPlace {p : Int} (hp : 0 < p) : (atSignedPlace p).neg = atSignedPlace (-p) := by
  rw [atSignedPlace_pos hp, atSignedPlace_neg (by omega), Int.neg_neg]
  rfl

/-- An integer is converted to the double at its place. -/
theorem ofInt_eq (n : Int64) : ofInt n = .ofModel (.pack (atSignedPlace (signedPlace n.toInt))) := by
  unfold ofInt
  split
  next hn =>
    have hn : n.toInt < 0 := Int64.lt_iff_toInt_lt.1 hn
    have hpos : 0 < signedPlace (-n.toInt) := signedPlace_pos (Int.neg_pos_of_neg hn)
    have hlow := n.le_toInt
    have hneg : -(.ofModel (.pack (atSignedPlace (signedPlace (-n.toInt)))) : Float) =
        .ofModel (.pack (Float.Model.pack (atSignedPlace (signedPlace (-n.toInt)))).unpack.neg) := rfl
    rw [toFloat_eq, toNat_neg_toUInt64 hn, hneg, unpack_pack_signedPlace (by omega),
      neg_atSignedPlace hpos, signedPlace_neg, Int.neg_neg]
  next hn =>
    have hn : 0 ≤ n.toInt := Int.not_lt.1 fun h => hn (Int64.lt_iff_toInt_lt.2 h)
    rw [toFloat_eq, toNat_toUInt64 hn]

theorem unpack_ofInt (n : Int64) : (ofInt n).toModel.unpack = atSignedPlace (signedPlace n.toInt) := by
  have hlow := n.le_toInt
  have hhigh := n.toInt_lt
  rw [ofInt_eq]
  exact unpack_pack_signedPlace (by omega)

/-- Integers as doubles are in the order of their places. -/
theorem ofInt_le_iff (a b : Int64) : ofInt a ≤ ofInt b ↔ signedPlace a.toInt ≤ signedPlace b.toInt := by
  rw [← le_atSignedPlace, ← unpack_ofInt, ← unpack_ofInt]
  exact decide_eq_true_iff

theorem ofInt_eq_iff (a b : Int64) : ofInt a = ofInt b ↔ signedPlace a.toInt = signedPlace b.toInt := by
  constructor
  · intro h
    have hle := (ofInt_le_iff a b).1 (h ▸ (ofInt_le_iff b b).2 (Int.le_refl _))
    have hge := (ofInt_le_iff b a).1 (h ▸ (ofInt_le_iff b b).2 (Int.le_refl _))
    omega
  · intro h
    rw [ofInt_eq, ofInt_eq, h]

theorem eq_of_ofInt_eq {a b : Int64} (ha : a.toInt.natAbs ≤ 2 ^ 53) (hb : b.toInt.natAbs ≤ 2 ^ 53)
    (h : ofInt a = ofInt b) : a = b := by
  rw [ofInt_eq_iff] at h
  obtain hlt | heq | hgt := Int.lt_trichotomy a.toInt b.toInt
  · exact absurd h (signedPlace_lt (by omega) (by omega) hlt).ne
  · exact Int64.toInt_inj.1 heq
  · exact absurd h (signedPlace_lt (by omega) (by omega) hgt).ne'

theorem near_of_ofInt_eq {a b : Int64} (h : ofInt a = ofInt b) : a.toInt ≤ b.toInt + 2 ^ 10 := by
  rw [ofInt_eq_iff] at h
  have hlow := b.le_toInt
  have hhigh := a.toInt_lt
  obtain hle | hge := Int.le_total a.toInt b.toInt
  · omega
  · exact near_of_signedPlace_eq (by omega) (by omega) hge h.symm

end Resumable.Number
