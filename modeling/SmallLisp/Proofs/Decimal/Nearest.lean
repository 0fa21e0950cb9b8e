/-
The floating-point number nearest to a floating-point number.

The numbers between which rounding chooses are numbers themselves, and where there is nothing to choose the
result is the number that was rounded (`nearest_binary`).  The division that rounding starts from has then
no remainder, and all that is shifted out of its quotient is zeros.

So the decimal that is printed for a number names that number in any case: a neighbour on one of the grids
because it was only taken for that reason, and the exact decimal because it is the number
(`toFloat_shortest`).
-/
import Mathlib.Data.Nat.Prime.Basic
import SmallLisp.Decimal.Shortest
import SmallLisp.Proofs.Decimal.Packed

namespace SmallLisp.Decimal

open Float.Model (Format UnpackedFloat totalExponent)
open Float.Model.UnpackedFloat

/-! ### Rounding where nothing is lost

A number that fits is rounded to itself.  What could be lost is shifted out, and only zeros are; the
division that comes before has no remainder.
-/

theorem log2_mul_two_pow {m : Nat} (hm : 0 < m) (k : Nat) : (m * 2 ^ k).log2 = m.log2 + k := by
  have hpos : 0 < m * 2 ^ k := Nat.mul_pos hm (Nat.two_pow_pos k)
  refine (Nat.log2_eq_iff (Nat.ne_of_gt hpos)).mpr ⟨?_, ?_⟩
  · rw [Nat.pow_add]
    exact Nat.mul_le_mul_right _ (Nat.log2_self_le (Nat.ne_of_gt hm))
  · rw [Nat.add_right_comm, Nat.pow_add]
    exact Nat.mul_lt_mul_of_pos_right Nat.lt_log2_self (Nat.two_pow_pos k)

/-- Zeros are shifted out without a trace. -/
theorem shiftRight_exact (m k : Nat) :
    ExtendedMantissa.ofMantissaAndAccuracy (m * 2 ^ k) .exact >>> k =
      ExtendedMantissa.ofMantissaAndAccuracy m .exact := by
  induction k generalizing m with
  | zero => rw [Nat.pow_zero, Nat.mul_one]; rfl
  | succ k ih =>
      have hpow : m * 2 ^ (k + 1) = m * 2 * 2 ^ k := by
        rw [Nat.pow_succ, Nat.mul_comm (2 ^ k), Nat.mul_assoc]
      show ExtendedMantissa.shiftRightOne
        (ExtendedMantissa.ofMantissaAndAccuracy (m * 2 ^ (k + 1)) .exact >>> k) = _
      rw [hpow, ih]
      simp [ExtendedMantissa.shiftRightOne, ExtendedMantissa.ofMantissaAndAccuracy]

/-- A number that needs no rounding is shifted to the exponent that it has anyway. -/
theorem shiftToTargetExponent_exact {m : Nat} {q : Int} (h : Canonical m q) (k : Nat) :
    shiftToTargetExponent .binary64 (m * 2 ^ k) (q - k) .exact =
      (ExtendedMantissa.ofMantissaAndAccuracy m .exact, q) := by
  have htarget : Format.binary64.targetExponent (totalExponent (m * 2 ^ k) (q - k)) = q := by
    have hq := h.exponent_eq
    rw [targetExponent_eq, totalExponent, log2_mul_two_pow h.pos]
    omega
  have hshift : (q - (q - k)).toNat = k := by omega
  simp only [shiftToTargetExponent, htarget, shiftToExponent, hshift, shiftRight_exact]
  congr 1
  omega

theorem roundWithAccuracy_exact {m : Nat} {q : Int} (h : Canonical m q) (k : Nat) :
    roundWithAccuracy .binary64 .positive (m * 2 ^ k) (q - k) .exact =
      .finite .positive m q h.pos := by
  have hagain := shiftToTargetExponent_exact h 0
  rw [Nat.pow_zero, Nat.mul_one, Int.natCast_zero, Int.sub_zero] at hagain
  have hround : (ExtendedMantissa.ofMantissaAndAccuracy m .exact).roundedMantissa = m := rfl
  rw [roundWithAccuracy, shiftToTargetExponent_exact h k]
  simp only [hround, hagain]
  exact dif_neg (Nat.ne_of_gt h.pos)

/-- The division has no remainder if the quotient needs no rounding. -/
theorem exists_divCore_eq {m : Nat} {q : Int} (h : Canonical m q) {n j : Nat} (hn : 0 < n)
    (heq : n * 2 ^ (-q).toNat = m * 2 ^ q.toNat * 2 ^ j) :
    ∃ w : Nat, divCore .binary64 n 0 (2 ^ j) 0 = (m * 2 ^ w, q - w, .exact) := by
  have hlog : n.log2 + (-q).toNat = m.log2 + q.toNat + j := by
    have hlog := congrArg Nat.log2 heq
    rwa [log2_mul_two_pow hn, log2_mul_two_pow (Nat.mul_pos h.pos (Nat.two_pow_pos _)),
      log2_mul_two_pow h.pos] at hlog
  obtain ⟨target, htarget, hle⟩ : ∃ target : Int,
      min (0 - 0) (Format.binary64.targetExponent
        (totalExponent n 0 - totalExponent (2 ^ j) 0)) = target ∧ target ≤ min 0 q := by
    refine ⟨_, rfl, ?_⟩
    have hq := h.exponent_eq
    rw [targetExponent_eq, totalExponent, totalExponent, Nat.log2_two_pow]
    omega
  have hquotient : n <<< (0 - 0 - target).toNat = m * 2 ^ (q - target).toNat * 2 ^ j := by
    refine Nat.eq_of_mul_eq_mul_right (Nat.two_pow_pos (-q).toNat) ?_
    have hexponents : q.toNat + (0 - 0 - target).toNat = (q - target).toNat + (-q).toNat := by
      omega
    calc n <<< (0 - 0 - target).toNat * 2 ^ (-q).toNat
        = n * 2 ^ (-q).toNat * 2 ^ (0 - 0 - target).toNat := by
          rw [Nat.shiftLeft_eq, Nat.mul_right_comm]
      _ = m * 2 ^ j * 2 ^ (q.toNat + (0 - 0 - target).toNat) := by
          rw [heq, Nat.pow_add, Nat.mul_right_comm m, Nat.mul_assoc]
      _ = m * 2 ^ (q - target).toNat * 2 ^ j * 2 ^ (-q).toNat := by
          rw [hexponents, Nat.pow_add, ← Nat.mul_assoc, Nat.mul_right_comm m]
  refine ⟨(q - target).toNat, ?_⟩
  simp only [divCore, htarget, hquotient, Nat.mul_div_cancel _ (Nat.two_pow_pos j),
    Nat.mul_mod_left]
  refine congrArg _ (congrArg (·, Accuracy.exact) ?_)
  omega

/-! ### Numbers that need no rounding

A binary number is a fraction whose denominator is a power of two, once it is in lowest terms.  So the
nearest floating-point number to it is found by the division of the lemma before.
-/

/-- The number `m * 2 ^ q`. -/
def binary (m : Nat) (q : Int) : Rat :=
  mkRat (m * Nat.pow 2 q.toNat) (Nat.pow 2 (-q).toNat)

/-- The fraction that a binary number is in lowest terms: its denominator is a power of two. -/
theorem exists_den_binary {m : Nat} (hm : 0 < m) (q : Int) :
    0 < (binary m q).num.toNat ∧ ∃ j, (binary m q).den = 2 ^ j ∧
      (binary m q).num.toNat * 2 ^ (-q).toNat = m * 2 ^ q.toNat * 2 ^ j := by
  have hcross : (binary m q).num * (2 ^ (-q).toNat : Nat) =
      (m * 2 ^ q.toNat : Nat) * ((binary m q).den : Int) :=
    (Rat.mkRat_eq_iff (binary m q).den_nz (Nat.ne_of_gt (Nat.two_pow_pos _))).mp
      (Rat.mkRat_self (binary m q))
  have hpos : 0 < (binary m q).num := by
    have hscaled : 0 < (binary m q).num * (2 ^ (-q).toNat : Nat) := by
      rw [hcross]
      exact Int.mul_pos (Int.natCast_pos.mpr (Nat.mul_pos hm (Nat.two_pow_pos _)))
        (Int.natCast_pos.mpr (binary m q).den_pos)
    exact Int.pos_of_mul_pos_left hscaled (Int.natCast_pos.mpr (Nat.two_pow_pos _))
  have hcross' : (binary m q).num.toNat * 2 ^ (-q).toNat = m * 2 ^ q.toNat * (binary m q).den := by
    refine Int.ofNat_inj.mp ?_
    rw [Int.natCast_mul, Int.toNat_of_nonneg (Int.le_of_lt hpos), hcross, ← Int.natCast_mul]
  have hcoprime : (binary m q).den.Coprime (binary m q).num.toNat := by
    have hreduced := (binary m q).reduced
    rw [← Int.toNat_of_nonneg (Int.le_of_lt hpos), Int.natAbs_natCast] at hreduced
    exact hreduced.symm
  have hdvd : (binary m q).den ∣ 2 ^ (-q).toNat :=
    hcoprime.dvd_of_dvd_mul_left (Dvd.intro_left _ hcross'.symm)
  obtain ⟨j, -, hj⟩ := (Nat.dvd_prime_pow Nat.prime_two).mp hdvd
  exact ⟨by omega, j, hj, by rw [hcross', hj]⟩

/-- **The floating-point number nearest to a number that needs no rounding is that number.** -/
theorem rounded_binary {m : Nat} {q : Int} (h : Canonical m q) :
    rounded (binary m q) = .finite .positive m q h.pos := by
  obtain ⟨hnum, j, hden, heq⟩ := exists_den_binary h.pos q
  obtain ⟨w, hdiv⟩ := exists_divCore_eq h hnum heq
  have hdiv' : divCore .binary64 (binary m q).num.toNat 0 (binary m q).den 0 = _ := hden ▸ hdiv
  rw [rounded, dif_pos hnum, div]
  simp only [hdiv']
  exact roundWithAccuracy_exact h w

theorem nearest_binary {x : Float} {m : Nat} {q : Int} {hm : 0 < m}
    (h : x.toModel.unpack = .finite .positive m q hm) : nearest (binary m q) = x := by
  rw [nearest, rounded_binary (canonical_of_unpack h), ← h, pack_unpack]

/-! ### The decimal that is printed

The shortest decimal is chosen among those that name the number, and the last candidate always does: it is
exact.
-/

theorem value_exact (m : Nat) (q : Int) : (exact m q).value = binary m q := by
  unfold exact
  split
  · rename_i hq
    have hzero : (-q).toNat = 0 := by omega
    rw [value, binary, hzero]
    exact congrArg (mkRat · 1) (Int.mul_one _)
  · rename_i hq
    have hzero : q.toNat = 0 := by omega
    have hpow : m * 5 ^ (-q).toNat * 10 ^ 0 * 2 ^ (-q).toNat = m * 2 ^ 0 * 10 ^ (-q).toNat := by
      rw [Nat.pow_zero, Nat.pow_zero, Nat.mul_one, Nat.mul_one, Nat.mul_assoc, ← Nat.mul_pow]
    rw [value, binary, hzero]
    refine (Rat.mkRat_eq_iff (Nat.ne_of_gt (Nat.pow_pos (by decide)))
      (Nat.ne_of_gt (Nat.two_pow_pos _))).mpr ?_
    exact_mod_cast hpow

/-- What is printed for a positive number names that number. -/
theorem toFloat_shortest {x : Float} {m : Nat} {q : Int} {hm : 0 < m}
    (h : x.toModel.unpack = .finite .positive m q hm) : (shortest x m q).toFloat = x := by
  rw [shortest]
  cases hsearch : search x m q (magnitude m q) with
  | none => rw [Option.getD_none, toFloat, value_exact, nearest_binary h]
  | some d =>
      obtain ⟨n, -, hneighbour⟩ := List.exists_of_findSome?_eq_some hsearch
      exact toFloat_of_neighbour? hneighbour

/-! ### Numbers that have a name

Decimals have no sign, so what they name is not negative.
-/

theorem signOf_roundWithAccuracy (m : Nat) (q : Int) (accuracy : Accuracy) :
    signOf (pack .binary64 (roundWithAccuracy .binary64 .positive m q accuracy)) = .positive := by
  unfold roundWithAccuracy
  simp only
  split
  · exact signOf_pack_zero _
  · exact signOf_pack_finite _ _ _ _

theorem signOf_rounded (v : Rat) : signOf (pack .binary64 (rounded v)) = .positive := by
  unfold rounded
  split
  · rw [div]
    rcases divCore .binary64 v.num.toNat 0 v.den 0 with ⟨m, q, accuracy⟩
    exact signOf_roundWithAccuracy m q accuracy
  · exact signOf_pack_zero _

/-- A number is given by what it is unpacked into. -/
theorem eq_of_unpack {x : Float} {u : UnpackedFloat} (h : x.toModel.unpack = u) :
    x = .ofModel (.pack u) := by
  rw [← h, pack_unpack]

theorem sign_of_nearest (v : Rat) :
    (∀ s, (nearest v).toModel.unpack = .zero s → s = .positive) ∧
      ∀ s m q hm, (nearest v).toModel.unpack = .finite s m q hm → s = .positive := by
  have hparts := standsFor_unpack (nearest v).toModel.toBits.toBitVec
  have hsign : signOf (nearest v).toModel.toBits.toBitVec = .positive := signOf_rounded v
  refine ⟨fun s h => ?_, fun s m q hm h => ?_⟩
  · rw [show unpack .binary64 (nearest v).toModel.toBits.toBitVec = _ from h] at hparts
    rw [sign_of_zero hparts, hsign]
  · rw [show unpack .binary64 (nearest v).toModel.toBits.toBitVec = _ from h] at hparts
    rw [sign_of_finite hparts, hsign]

/-- What a decimal names, if it is a finite number: zero, or a positive number that the decimal printed for
it names as well. -/
theorem nearest_cases {v : Rat} {x : Float} (hx : x = nearest v) (hfinite : x.isFinite = true) :
    (x.toModel.unpack = .zero .positive ∧ x = nearest 0) ∨
      ∃ m q hm, x.toModel.unpack = .finite .positive m q hm ∧
        (shortest x.abs m q).toFloat = x := by
  have hstatus : x.toModel.unpack.isFinite = true := hfinite
  obtain ⟨hzero, hpositive⟩ := sign_of_nearest v
  rw [← hx] at hzero hpositive
  cases hunpack : x.toModel.unpack with
  | infinity s =>
      rw [hunpack] at hstatus
      cases hstatus
  | notANumber =>
      rw [hunpack] at hstatus
      cases hstatus
  | zero s =>
      obtain rfl := hzero s hunpack
      exact .inl ⟨rfl, eq_of_unpack hunpack⟩
  | finite s m q hm =>
      obtain rfl := hpositive s m q hm hunpack
      have habs : x.abs = x := by
        rw [show x.abs = .ofModel (.pack x.toModel.unpack.abs) from rfl, hunpack]
        exact (eq_of_unpack hunpack).symm
      exact .inr ⟨m, q, hm, rfl, by rw [habs, toFloat_shortest hunpack]⟩

end SmallLisp.Decimal
