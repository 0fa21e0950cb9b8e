/-
How a number is spelled without an exponent.

The plain layout writes digits with at most one point, and zeros where there is no digit.  It is the
spelling of a number in a program, and the number spelled is the one that the decimal is
(`spelling_positional`): zeros at either end and the place of the point say where the digits stand.
-/
import Mathlib.Data.List.TakeWhile
import SmallLisp.Decimal.Layout
import SmallLisp.Proofs.Decimal.Nearest

namespace SmallLisp.Decimal

/-! ### Digits and zeros

Zeros in front mean nothing and zeros behind are powers of ten.  The layout drops some and adds others, and
these lemmas keep the account.
-/

theorem natOfDigits_append_zeros (cs : List Char) (k : Nat) :
    natOfDigits (cs ++ List.replicate k '0') = natOfDigits cs * 10 ^ k := by
  show Nat.ofDigitChars 10 (cs ++ List.replicate k '0') 0 = Nat.ofDigitChars 10 cs 0 * 10 ^ k
  rw [Nat.ofDigitChars_append, Nat.ofDigitChars_replicate_zero, Nat.mul_comm]

theorem natOfDigits_zeros_append (k : Nat) (cs : List Char) :
    natOfDigits (List.replicate k '0' ++ cs) = natOfDigits cs := by
  show Nat.ofDigitChars 10 (List.replicate k '0' ++ cs) 0 = Nat.ofDigitChars 10 cs 0
  rw [Nat.ofDigitChars_append, Nat.ofDigitChars_replicate_zero, Nat.mul_zero]

/-- Zeros at the end of the digits count in the exponent as well. -/
theorem value_shift (n k : Nat) (e : Int) :
    (⟨n * 10 ^ k, e⟩ : Decimal).value = (⟨n, e + k⟩ : Decimal).value := by
  have hne (k : Nat) : Nat.pow 10 k ≠ 0 := Nat.ne_of_gt (Nat.pow_pos (by decide))
  have hexponents : k + e.toNat + (-(e + k)).toNat = (e + k).toNat + (-e).toNat := by omega
  refine (Rat.mkRat_eq_iff (hne _) (hne _)).mpr ?_
  have hcross : n * 10 ^ k * 10 ^ e.toNat * 10 ^ (-(e + k)).toNat =
      n * 10 ^ (e + k).toNat * 10 ^ (-e).toNat := by
    rw [Nat.mul_assoc, Nat.mul_assoc, ← Nat.pow_add, ← Nat.pow_add, ← Nat.add_assoc, hexponents,
      Nat.pow_add, Nat.mul_assoc]
  exact_mod_cast hcross

/-- The digits of a decimal are those that are kept and then zeros. -/
theorem exists_zeros (d : Decimal) :
    ∃ z, Nat.toDigits 10 d.digits = d.toDigits.digits ++ List.replicate z '0' := by
  generalize hall : (Nat.toDigits 10 d.digits).reverse = all
  have hzeros : ∀ c ∈ all.takeWhile (· = '0'), c = '0' := by
    intro c hc
    have hzero := List.mem_takeWhile_imp hc
    exact of_decide_eq_true hzero
  have hkept : d.toDigits.digits = (all.dropWhile (· = '0')).reverse := by
    rw [← hall]
    rfl
  refine ⟨(all.takeWhile (· = '0')).length, ?_⟩
  calc Nat.toDigits 10 d.digits = all.reverse := by rw [← hall, List.reverse_reverse]
    _ = (all.takeWhile (· = '0') ++ all.dropWhile (· = '0')).reverse := by
      rw [List.takeWhile_append_dropWhile]
    _ = d.toDigits.digits ++ (all.takeWhile (· = '0')).reverse := by
      rw [List.reverse_append, hkept]
    _ = d.toDigits.digits ++ List.replicate (all.takeWhile (· = '0')).length '0' := by
      rw [List.eq_replicate_of_mem hzeros, List.reverse_replicate, List.length_replicate]

/-- What is kept of the digits, and how they stand in the decimal. -/
theorem digits_spec {d : Decimal} (hd : d.digits ≠ 0) :
    d.toDigits.digits ≠ [] ∧ (∀ c ∈ d.toDigits.digits, c.isDigit = true) ∧
      d.value = (⟨natOfDigits d.toDigits.digits, d.toDigits.point - d.toDigits.digits.length⟩ :
        Decimal).value := by
  obtain ⟨z, hz⟩ := exists_zeros d
  have hnat : d.digits = natOfDigits d.toDigits.digits * 10 ^ z := by
    rw [← natOfDigits_append_zeros, ← hz]
    exact Nat.ofDigitChars_ten_toDigits.symm
  have hpoint : d.toDigits.point - d.toDigits.digits.length = d.exponent + z := by
    have hlength := congrArg List.length hz
    rw [List.length_append, List.length_replicate] at hlength
    show ((Nat.toDigits 10 d.digits).length + d.exponent) - (d.toDigits.digits.length : Int) = _
    omega
  refine ⟨?_, ?_, ?_⟩
  · intro hnil
    rw [hnil] at hnat
    exact hd (hnat.trans (Nat.zero_mul _))
  · intro c hc
    have hmem : c ∈ Nat.toDigits 10 d.digits := by
      rw [hz]
      exact List.mem_append_left _ hc
    exact Nat.isDigit_of_mem_toDigits (by decide) (by decide) hmem
  · rw [hpoint, ← value_shift, ← hnat]

/-! ### The plain layout

There are three cases, by where the point stands: before the digits, after them, or between two.
-/

/-- A number as a program spells it: digits, and more digits after a point if there is one. -/
structure Spelling (cs whole fraction : List Char) : Prop where
  whole_ne_nil : whole ≠ []
  isDigit_whole : ∀ c ∈ whole, c.isDigit = true
  isDigit_fraction : ∀ c ∈ fraction, c.isDigit = true
  eq_append : cs = whole ++ if fraction = [] then [] else '.' :: fraction

/-- Whether some text spells the number that some digits are, with the point so far behind their start. -/
def Positioned (cs ds : List Char) (point : Int) : Prop :=
  ∃ whole fraction, Spelling cs whole fraction ∧
    (ofDigits whole fraction).value = (⟨natOfDigits ds, point - ds.length⟩ : Decimal).value

theorem isDigit_zeros (k : Nat) : ∀ c ∈ List.replicate k '0', c.isDigit = true := by
  intro c hc
  rw [List.eq_of_mem_replicate hc]
  rfl

variable {ds : List Char} {point : Int}

theorem positioned_before (hne : ds ≠ []) (hdigits : ∀ c ∈ ds, c.isDigit = true)
    (hpoint : point ≤ 0) :
    Positioned ('0' :: '.' :: List.replicate (-point).toNat '0' ++ ds) ds point := by
  have hfraction : List.replicate (-point).toNat '0' ++ ds ≠ [] := by simp [hne]
  refine ⟨['0'], List.replicate (-point).toNat '0' ++ ds, ⟨by simp, by simp, ?_, ?_⟩, ?_⟩
  · exact List.forall_mem_append.mpr ⟨isDigit_zeros _, hdigits⟩
  · rw [if_neg hfraction]
    rfl
  · have hnat : natOfDigits (['0'] ++ (List.replicate (-point).toNat '0' ++ ds)) = natOfDigits ds :=
      natOfDigits_zeros_append (-point).toNat ds
    rw [ofDigits, hnat, List.length_append, List.length_replicate]
    congr 2
    omega

theorem positioned_behind (hne : ds ≠ []) (hdigits : ∀ c ∈ ds, c.isDigit = true)
    (hpoint : 0 < point) (hlength : ds.length ≤ point.toNat) :
    Positioned (ds ++ List.replicate (point.toNat - ds.length) '0') ds point := by
  refine ⟨ds ++ List.replicate (point.toNat - ds.length) '0', [],
    ⟨by simp [hne], ?_, by simp, ?_⟩, ?_⟩
  · exact List.forall_mem_append.mpr ⟨hdigits, isDigit_zeros _⟩
  · rw [if_pos rfl, List.append_nil]
  · rw [ofDigits, List.append_nil, natOfDigits_append_zeros, value_shift]
    congr 2
    simp only [List.length_nil]
    omega

theorem positioned_between (hne : ds ≠ []) (hdigits : ∀ c ∈ ds, c.isDigit = true)
    (hpoint : 0 < point) (hlength : point.toNat < ds.length) :
    Positioned (ds.take point.toNat ++ '.' :: ds.drop point.toNat) ds point := by
  have hdrop : ds.drop point.toNat ≠ [] := by
    rw [Ne, List.drop_eq_nil_iff]
    exact Nat.not_le_of_lt hlength
  refine ⟨ds.take point.toNat, ds.drop point.toNat, ⟨?_, ?_, ?_, ?_⟩, ?_⟩
  · rw [Ne, List.take_eq_nil_iff]
    simp [hne]
    omega
  · exact fun c hc => hdigits c (List.mem_of_mem_take hc)
  · exact fun c hc => hdigits c (List.mem_of_mem_drop hc)
  · rw [if_neg hdrop]
  · rw [ofDigits, List.take_append_drop, List.length_drop]
    congr 2
    omega

/-- **The plain layout of a decimal other than zero spells a number, which is that decimal.** -/
theorem exists_spelling {d : Decimal} (hd : d.digits ≠ 0) :
    ∃ whole fraction, Spelling (Layout.plain.positional d.toDigits) whole fraction ∧
      (ofDigits whole fraction).value = d.value := by
  obtain ⟨hne, hdigits, hvalue⟩ := digits_spec hd
  rw [hvalue]
  show Positioned (Layout.plain.positional d.toDigits) d.toDigits.digits d.toDigits.point
  unfold Layout.positional
  by_cases hpoint : d.toDigits.point ≤ 0
  · rw [if_pos hpoint]
    exact positioned_before hne hdigits hpoint
  · have hpos : 0 < d.toDigits.point := Int.not_le.mp hpoint
    rw [if_neg hpoint]
    by_cases hlength : d.toDigits.digits.length ≤ d.toDigits.point.toNat
    · rw [if_pos hlength, show Layout.plain.wholeMark = [] from rfl, List.append_nil]
      exact positioned_behind hne hdigits hpos hlength
    · rw [if_neg hlength]
      exact positioned_between hne hdigits hpos (Nat.lt_of_not_le hlength)

/-! ### Numbers as they are printed

A number is printed by way of a decimal that names it, so a spelling of the decimal is one of the number.
Zero has no digits to be kept and is looked at by itself.
-/

theorem value_of_digits_eq_zero {d : Decimal} (hd : d.digits = 0) : d.value = 0 := by
  rw [value, hd, Int.natCast_zero, Int.zero_mul]
  exact Rat.zero_mkRat _

theorem unpack_nearest_zero : (nearest 0).toModel.unpack = .zero .positive := by
  rfl

/-- **What is printed of a finite number that a decimal names is a spelling of that number.** -/
theorem exists_spelling_text {d : Decimal} {x : Float} (hx : x = d.toFloat)
    (hfinite : x.isFinite = true) :
    ∃ whole fraction, Spelling (Layout.plain.text x).toList whole fraction ∧
      (ofDigits whole fraction).toFloat = x := by
  obtain ⟨hunpack, hzero⟩ | ⟨m, q, hm, hunpack, hshortest⟩ := nearest_cases hx hfinite
  · refine ⟨['0'], [], ⟨by simp, by simp, by simp, ?_⟩, ?_⟩
    · rw [Layout.text, hunpack]
      exact String.toList_ofList
    · rw [hzero]
      rfl
  · have hdigits : (shortest x.abs m q).digits ≠ 0 := by
      intro hnone
      rw [toFloat, value_of_digits_eq_zero hnone] at hshortest
      rw [← hshortest, unpack_nearest_zero] at hunpack
      cases hunpack
    have htext : (Layout.plain.text x).toList =
        Layout.plain.positional (shortest x.abs m q).toDigits := by
      rw [Layout.text, hunpack]
      exact String.toList_ofList
    obtain ⟨whole, fraction, hspelling, hvalue⟩ := exists_spelling hdigits
    refine ⟨whole, fraction, htext ▸ hspelling, ?_⟩
    rw [toFloat, hvalue]
    exact hshortest

end SmallLisp.Decimal
