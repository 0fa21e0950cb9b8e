/-
Floating-point numbers and their parts.

A floating-point number is a pattern of 64 bits; the parts that it is unpacked into are a sign, a
significand and an exponent.  Packing the parts gives the pattern back, for every number
(`pack_unpack`).  The exponent of a finite number is the one that its size calls for (`Canonical`), which
is what rounding goes by.
-/
import Mathlib
import SmallLisp.Decimal.Basic

namespace SmallLisp.Decimal

open Float.Model (Format UnpackedFloat totalExponent)
open Float.Model.UnpackedFloat

/-! ### The fields of a pattern

A pattern of bits has three fields, and putting them together again gives the pattern.
-/

/-- A pattern of bits for a floating-point number. -/
abbrev Pattern := BitVec Format.binary64.numBits

/-- The sign of a pattern. -/
def signOf (b : Pattern) : Sign :=
  .ofBitVec (unpackSign b)

/-- A pattern is made of its sign, its exponent and its significand. -/
theorem packComponents_unpack (b : Pattern) :
    packComponents .binary64 (signOf b) (unpackExponent b) (unpackMantissa b) = b := by
  have hsign (v : BitVec 1) : (Sign.ofBitVec v).toBitVec = v := by
    obtain rfl | rfl := BitVec.eq_zero_or_eq_one v <;> rfl
  rw [packComponents, signOf, hsign]
  simp only [unpackSign, unpackExponent, unpackMantissa, BitVec.extractLsb]
  ext i hi
  grind

theorem packComponents_eq {b : Pattern} {e : BitVec Format.binary64.exponentBits}
    {m : BitVec Format.binary64.mantissaBitsWithoutImplicit} (he : unpackExponent b = e)
    (hm : unpackMantissa b = m) :
    packComponents .binary64 (signOf b) e m = b := by
  subst he hm
  exact packComponents_unpack b

theorem signOf_packComponents (s : Sign) (e : BitVec Format.binary64.exponentBits)
    (m : BitVec Format.binary64.mantissaBitsWithoutImplicit) :
    signOf (packComponents .binary64 s e m) = s := by
  have hbits : unpackSign (packComponents .binary64 s e m) = s.toBitVec := by
    simp only [unpackSign, packComponents, BitVec.extractLsb]
    ext i hi
    grind
  rw [signOf, hbits]
  cases s <;> rfl

/-! ### What a pattern stands for

The exponent of a pattern says which kind of number it is.  One number could be written with many
significands and exponents, so `Canonical` singles out those that a pattern can have.
-/

/-- A significand and an exponent as a finite number has them: the exponent is the one that rounding would
choose. -/
structure Canonical (m : Nat) (q : Int) : Prop where
  pos : 0 < m
  exponent_eq : max ((m.log2 : Int) + q - 52) (-1074) = q

/-- The exponent that rounding chooses. -/
theorem targetExponent_eq (e : Int) :
    Format.binary64.targetExponent e = max (e - 53) (-1074) :=
  rfl

/-- What a pattern stands for: infinity or no number if it has the greatest exponent, zero or a small number
if it has the least, and otherwise a number with a significand of 53 bits. -/
inductive StandsFor (b : Pattern) : UnpackedFloat → Prop where
  | infinity (he : unpackExponent b = -1#_) (hm : unpackMantissa b = 0#_) :
      StandsFor b (.infinity (signOf b))
  | notANumber (he : unpackExponent b = -1#_) (hm : unpackMantissa b ≠ 0#_) :
      StandsFor b .notANumber
  | zero (he : unpackExponent b = 0#_) (hm : unpackMantissa b = 0#_) :
      StandsFor b (.zero (signOf b))
  | small (he : unpackExponent b = 0#_) (h : 0 < (unpackMantissa b).toNat) :
      StandsFor b (.finite (signOf b) (unpackMantissa b).toNat (-1074) h)
  | normal (hlow : 0 < (unpackExponent b).toNat) (hhigh : (unpackExponent b).toNat < 2047)
      (h : 0 < 2 ^ 52 + (unpackMantissa b).toNat) :
      StandsFor b (.finite (signOf b) (2 ^ 52 + (unpackMantissa b).toNat)
        ((unpackExponent b).toNat - 1075) h)

theorem standsFor_unpack (b : Pattern) : StandsFor b (unpack .binary64 b) := by
  unfold unpack
  simp only
  split
  · rename_i he
    split
    · rename_i hm
      exact .infinity he hm
    · rename_i hm
      exact .notANumber he hm
  · rename_i hgreatest
    split
    · rename_i he
      split
      · rename_i hm
        exact .zero he hm
      · rename_i hm
        have hpos : 0 < (unpackMantissa b).toNat := by
          refine Nat.pos_of_ne_zero fun hzero => hm ?_
          exact BitVec.toNat_inj.mp hzero
        have hq : ((unpackExponent b).toNat : Int) -
            (Format.binary64.exponentBias + Format.binary64.mantissaBitsWithoutImplicit) + 1 =
            -1074 := by
          rw [he]
          rfl
        simp only [hq]
        exact .small he hpos
    · rename_i hleast
      have hlow : 0 < (unpackExponent b).toNat := by
        refine Nat.pos_of_ne_zero fun hzero => hleast ?_
        exact BitVec.toNat_inj.mp hzero
      have hhigh : (unpackExponent b).toNat < 2047 := by
        have hlt : (unpackExponent b).toNat < 2048 := (unpackExponent b).isLt
        have hne : (unpackExponent b).toNat ≠ 2047 := fun h => hgreatest (BitVec.toNat_inj.mp h)
        omega
      have hm : (1#1 ++ unpackMantissa b).toNat = 2 ^ 52 + (unpackMantissa b).toNat := by
        rw [BitVec.toNat_append, ← Nat.shiftLeft_add_eq_or_of_lt (unpackMantissa b).isLt]
        rfl
      simp only [hm]
      exact .normal hlow hhigh (Nat.add_pos_left (Nat.two_pow_pos 52) _)

theorem log2_of_normal {m : Nat} (hlow : 2 ^ 52 ≤ m) (hhigh : m < 2 ^ 53) : m.log2 = 52 :=
  (Nat.log2_eq_iff (by omega)).mpr ⟨hlow, hhigh⟩

/-! ### Packing what has been unpacked

Packing rounds.  There is nothing to round in what a pattern stands for, as its exponent is the one that
rounding would choose.
-/

theorem pack_of_standsFor {b : Pattern} (hvalid : Format.binary64.Valid b) {u : UnpackedFloat}
    (h : StandsFor b u) : pack .binary64 u = b := by
  have hlt : (unpackMantissa b).toNat < 2 ^ 52 := (unpackMantissa b).isLt
  cases h with
  | infinity he hm => exact packComponents_eq he hm
  | notANumber he hm => exact (hvalid.eq_packedNaN he hm).symm
  | zero he hm => exact packComponents_eq he hm
  | small he hpos =>
      have hlog : ¬ (unpackMantissa b).toNat.log2 + 1 = Format.binary64.mantissaBits := by
        have hlog := (Nat.log2_lt (Nat.ne_of_gt hpos)).mpr hlt
        show ¬ (unpackMantissa b).toNat.log2 + 1 = 53
        omega
      have hexponent : ((-1074 : Int) + Format.binary64.exponentBias +
          Format.binary64.mantissaBitsWithoutImplicit).toNat = 1 := rfl
      rw [pack]
      simp only [hexponent]
      rw [if_neg (by decide), if_neg hlog]
      exact packComponents_eq he (by rw [BitVec.ofNat_toNat, BitVec.setWidth_eq])
  | normal hlow hhigh hpos =>
      have hlog : (2 ^ 52 + (unpackMantissa b).toNat).log2 + 1 = Format.binary64.mantissaBits := by
        rw [log2_of_normal (by omega) (by omega)]
        rfl
      have hexponent : (((unpackExponent b).toNat : Int) - 1075 + Format.binary64.exponentBias +
          Format.binary64.mantissaBitsWithoutImplicit).toNat = (unpackExponent b).toNat := by
        show (((unpackExponent b).toNat : Int) - 1075 + 1023 + 52).toNat = _
        omega
      rw [pack]
      simp only [hexponent]
      rw [if_neg, if_pos hlog]
      · refine packComponents_eq ?_ ?_
        · rw [BitVec.ofNat_toNat, BitVec.setWidth_eq]
        · refine BitVec.toNat_inj.mp ?_
          rw [BitVec.toNat_ofNat]
          show _ = (2 ^ 52 + (unpackMantissa b).toNat) % 2 ^ 52
          omega
      · show ¬ 2048 ≤ (unpackExponent b).toNat + 1
        omega

/-- **The parts of a number are packed into the number.** -/
theorem pack_unpack (x : Float.Model) : Float.Model.pack x.unpack = x := by
  obtain ⟨bits, hvalid⟩ := x
  have h : pack .binary64 (unpack .binary64 bits.toBitVec) = bits.toBitVec :=
    pack_of_standsFor hvalid (standsFor_unpack _)
  simp only [Float.Model.pack, Float.Model.unpack, h]

/-! ### What unpacking gives

The converse: whatever a pattern is unpacked into has an exponent that rounding would choose, and the sign
of the pattern.
-/

theorem canonical_of_standsFor {b : Pattern} {s : Sign} {m : Nat} {q : Int} {hm : 0 < m}
    (h : StandsFor b (.finite s m q hm)) : Canonical m q := by
  have hlt : (unpackMantissa b).toNat < 2 ^ 52 := (unpackMantissa b).isLt
  cases h with
  | small he hpos =>
      have hlog := (Nat.log2_lt (Nat.ne_of_gt hpos)).mpr hlt
      exact ⟨hpos, by omega⟩
  | normal hlow hhigh hpos =>
      refine ⟨hpos, ?_⟩
      rw [log2_of_normal (by omega) (by omega)]
      omega

/-- Finite numbers have the exponent that rounding would choose. -/
theorem canonical_of_unpack {x : Float.Model} {s : Sign} {m : Nat} {q : Int} {hm : 0 < m}
    (h : x.unpack = .finite s m q hm) : Canonical m q := by
  have hparts := standsFor_unpack x.toBits.toBitVec
  rw [show unpack .binary64 x.toBits.toBitVec = _ from h] at hparts
  exact canonical_of_standsFor hparts

/-- What a pattern stands for has its sign. -/
theorem sign_of_zero {b : Pattern} {s : Sign} (h : StandsFor b (.zero s)) : s = signOf b := by
  cases h
  rfl

theorem sign_of_finite {b : Pattern} {s : Sign} {m : Nat} {q : Int} {hm : 0 < m}
    (h : StandsFor b (.finite s m q hm)) : s = signOf b := by
  cases h <;> rfl

/-- Zero and finite numbers are packed with their sign. -/
theorem signOf_pack_zero (s : Sign) : signOf (pack .binary64 (.zero s)) = s :=
  signOf_packComponents s _ _

theorem signOf_pack_finite (s : Sign) (m : Nat) (q : Int) (hm : 0 < m) :
    signOf (pack .binary64 (.finite s m q hm)) = s := by
  rw [pack]
  simp only
  split
  · exact signOf_packComponents s _ _
  · split
    · exact signOf_packComponents s _ _
    · exact signOf_packComponents s _ _

end SmallLisp.Decimal
