/-
What operators compute, and what they refuse.

An operator has three ways to refuse: the token may name none, there may be too many or too few
operands, and an operand may be no number.  They are looked for in this order, whatever the operands
are.  Sums, products, differences and quotients find an operand that is no number at any place, since
the fold comes to all of them; that it may have combined others before cannot be seen.

What is not refused is computed from left to right.  So a difference or a quotient of at least two
numbers can be gone on with from its result.  From a single number it cannot, since that is negated or
turned over; this is where the folds of the two begin in another way than those of sums and products.
-/
import SmallLisp.Eval.Operator

namespace SmallLisp

/-! ### Numbers as operands -/

/-- Numbers as values. -/
def Value.numbers (xs : List Float) : List Value :=
  xs.map .ofNumber

open Value (numbers)

theorem Value.number?_eq_none_or (v : Value) : v.number? = none ∨ ∃ x, v = .ofNumber x := by
  match v with
  | .datum (.number x) => exact .inr ⟨x, rfl⟩
  | .datum (.text _) | .datum (.bool _) | .datum .nil | .operator _ | .function _ => exact .inl rfl

/-- Operands are all numbers, or one of them is none. -/
theorem Value.exists_numbers_or (vs : List Value) :
    (∃ xs, vs = numbers xs) ∨ ∃ v ∈ vs, v.number? = none := by
  induction vs with
  | nil => exact .inl ⟨[], rfl⟩
  | cons v vs ih =>
      obtain hnone | ⟨x, rfl⟩ := v.number?_eq_none_or
      · exact .inr ⟨v, List.mem_cons_self, hnone⟩
      · obtain ⟨xs, rfl⟩ | ⟨w, hw, hnone⟩ := ih
        · exact .inl ⟨x :: xs, rfl⟩
        · exact .inr ⟨w, List.mem_cons_of_mem _ hw, hnone⟩

namespace Operator

variable {t : Token} {vs : List Value} {op : Operator}

/-! ### What an operator stands for

The table that the operators are held against: how many operands, which value, which complaint.  It is
written with folds over numbers and says nothing of the order in which something is looked for.
-/

/-- How many operands an operator takes. -/
def Takes : Operator → Nat → Prop
  | plus, _ | star, _ => True
  | minus, n | slash, n => 1 ≤ n
  | equal, n | less, n | greater, n => n = 2

/-- How a message calls that number.  Sums and products have no such message. -/
def expected : Operator → String
  | minus | slash => "at least 1"
  | _ => "2"

/-- The complaint about an operand that is no number.  `=` has none. -/
def misfit (t : Token) : Operator → EvalError
  | less | greater => .operandsNotNumbers t
  | _ => .operandNotNumber t

/-- The value of operands under an operator. -/
inductive Computes : Operator → List Value → Value → Prop where
  | sum (xs : List Float) : Computes plus (numbers xs) (.ofNumber (xs.foldl (· + ·) 0))
  | product (xs : List Float) : Computes star (numbers xs) (.ofNumber (xs.foldl (· * ·) 1))
  | negation (x : Float) : Computes minus (numbers [x]) (.ofNumber (-x))
  | difference (x y : Float) (xs : List Float) :
      Computes minus (numbers (x :: y :: xs)) (.ofNumber ((y :: xs).foldl (· - ·) x))
  | reciprocal (x : Float) : Computes slash (numbers [x]) (.ofNumber (1 / x))
  | quotient (x y : Float) (xs : List Float) :
      Computes slash (numbers (x :: y :: xs)) (.ofNumber ((y :: xs).foldl (· / ·) x))
  | equality (v w : Value) : Computes equal [v, w] (.ofBool (v.equals w))
  | ascent (x y : Float) : Computes less (numbers [x, y]) (.ofBool (decide (x < y)))
  | descent (x y : Float) : Computes greater (numbers [x, y]) (.ofBool (decide (x > y)))

/-! ### Folds

Sums and products go from left to right and stop at the first operand that is no number.  What has been
combined before it is lost, so that the complaint is the same wherever it stands.
-/

theorem fold_numbers (t : Token) (f : Float → Float → Float) (start : Float) (xs : List Float) :
    fold t f start (numbers xs) = .ok (.ofNumber (xs.foldl f start)) := by
  induction xs generalizing start with
  | nil => rfl
  | cons x xs ih => exact ih (f start x)

/-- A fold comes to every operand. -/
theorem fold_misfit (f : Float → Float → Float) (start : Float)
    (h : ∃ v ∈ vs, v.number? = none) : fold t f start vs = .error (.operandNotNumber t) := by
  induction vs generalizing start with
  | nil => simp at h
  | cons v vs ih =>
      rw [fold, operand]
      obtain hnone | ⟨x, rfl⟩ := v.number?_eq_none_or
      · rw [hnone]
      · obtain ⟨w, hw, hnone⟩ := h
        obtain rfl | hw := List.mem_cons.mp hw
        · cases hnone
        · exact ih (f start x) ⟨w, hw, hnone⟩

/-! ### Differences and quotients

These begin with their first operand, and a single operand has a meaning of its own.  So they are folds
from two operands on, and only from there can they be gone on with.
-/

section

variable (f : Float → Float → Float) (alone : Float → Float)

theorem takeAway_numbers (t : Token) (x y : Float) (xs : List Float) :
    takeAway t f alone (numbers (x :: y :: xs)) = .ok (.ofNumber ((y :: xs).foldl f x)) :=
  fold_numbers t f x (y :: xs)

theorem takeAway_misfit (h : ∃ v ∈ vs, v.number? = none) :
    takeAway t f alone vs = .error (.operandNotNumber t) := by
  match vs with
  | [] => simp at h
  | v :: vs =>
      rw [takeAway, operand]
      obtain hnone | ⟨x, rfl⟩ := v.number?_eq_none_or
      · rw [hnone]
      · obtain ⟨w, hw, hnone⟩ := h
        obtain rfl | hw := List.mem_cons.mp hw
        · cases hnone
        · -- A second operand is there, so the first is not alone.
          have hmany : vs.isEmpty = false := by
            rw [List.isEmpty_eq_false_iff]
            exact List.ne_nil_of_mem hw
          simp only [Value.ofNumber, Value.number?, hmany, Bool.false_eq_true, if_false]
          exact fold_misfit f x ⟨w, hw, hnone⟩

/-- What has been computed from two numbers or more can be gone on with. -/
theorem takeAway_append (t : Token) {xs : List Float} (h : 2 ≤ xs.length) (w : Value) :
    ∃ v, takeAway t f alone (numbers xs) = .ok v ∧
      takeAway t f alone (numbers xs ++ [w]) = takeAway t f alone [v, w] := by
  match xs, h with
  | x :: y :: xs, _ =>
      refine ⟨_, takeAway_numbers f alone t x y xs, ?_⟩
      obtain hnone | ⟨z, rfl⟩ := w.number?_eq_none_or
      · rw [takeAway_misfit f alone ⟨w, by simp, hnone⟩,
          takeAway_misfit f alone ⟨w, by simp, hnone⟩]
      · have hnumbers : numbers (x :: y :: xs) ++ [.ofNumber z] =
            numbers (x :: y :: (xs ++ [z])) := by simp [numbers]
        have hpair := takeAway_numbers f alone t ((y :: xs).foldl f x) z []
        rw [hnumbers, takeAway_numbers, ← List.cons_append, List.foldl_append]
        exact hpair.symm

end

/-! ### Comparisons -/

theorem pair_of_length_ne (compare : Value → Value → Except EvalError Bool) (h : vs.length ≠ 2) :
    pair t compare vs = .error (.wrongOperandCount (some t) "2" vs.length) := by
  match vs, h with
  | [], _ | [_], _ | _ :: _ :: _ :: _, _ => rfl

theorem order_misfit (r : Float → Float → Bool) (hlength : vs.length = 2)
    (h : ∃ v ∈ vs, v.number? = none) :
    pair t (order t r) vs = .error (.operandsNotNumbers t) := by
  match vs, hlength with
  | [v, w], _ =>
      rw [pair, order, operands]
      obtain ⟨u, hu, hnone⟩ := h
      obtain rfl | hu := List.mem_cons.mp hu
      · rw [hnone]
        rfl
      · obtain rfl := List.mem_singleton.mp hu
        rw [hnone]
        cases v.number? <;> rfl

/-! ### Every operator

The three ways to end exclude each other, and each is decided by the number and the kind of the operands.
`apply_cases` lists them, and the iffs of the theorem are read off from it.
-/

/-- The value of operands is what applying the operator to them gives. -/
theorem apply_of_computes (hkind : t.kind = .operator op) {v : Value} (h : op.Computes vs v) :
    apply t vs = .ok v := by
  rw [apply, hkind]
  cases h with
  | sum xs => exact fold_numbers t _ _ xs
  | product xs => exact fold_numbers t _ _ xs
  | negation | reciprocal => rfl
  | difference x y xs => exact takeAway_numbers _ _ t x y xs
  | quotient x y xs => exact takeAway_numbers _ _ t x y xs
  | equality | ascent | descent => rfl

theorem apply_of_not_takes (hkind : t.kind = .operator op) (h : ¬ op.Takes vs.length) :
    apply t vs = .error (.wrongOperandCount (some t) op.expected vs.length) := by
  rw [apply, hkind]
  cases op with
  | plus | star => exact absurd trivial h
  | minus | slash =>
      obtain rfl : vs = [] := List.length_eq_zero_iff.mp (Nat.lt_one_iff.mp (Nat.not_le.mp h))
      rfl
  | equal | less | greater => exact pair_of_length_ne _ h

theorem apply_of_misfit (hkind : t.kind = .operator op) (htakes : op.Takes vs.length)
    (hop : op ≠ equal) (h : ∃ v ∈ vs, v.number? = none) :
    apply t vs = .error (op.misfit t) := by
  rw [apply, hkind]
  cases op with
  | plus | star => exact fold_misfit _ _ h
  | minus | slash => exact takeAway_misfit _ _ h
  | equal => exact absurd rfl hop
  | less | greater => exact order_misfit _ htakes h

/-- Operands of the right number have a value, unless they had to be numbers and are not. -/
theorem exists_computes (htakes : op.Takes vs.length)
    (h : op = equal ∨ ∃ xs, vs = numbers xs) : ∃ v, op.Computes vs v := by
  obtain rfl | ⟨xs, rfl⟩ := h
  · match vs, htakes with
    | [v, w], _ => exact ⟨_, .equality v w⟩
  · cases op with
    | plus => exact ⟨_, .sum xs⟩
    | star => exact ⟨_, .product xs⟩
    | minus =>
        match xs, htakes with
        | [x], _ => exact ⟨_, .negation x⟩
        | x :: y :: xs, _ => exact ⟨_, .difference x y xs⟩
    | slash =>
        match xs, htakes with
        | [x], _ => exact ⟨_, .reciprocal x⟩
        | x :: y :: xs, _ => exact ⟨_, .quotient x y xs⟩
    | equal =>
        match xs, htakes with
        | [x, y], _ => exact ⟨_, .equality (.ofNumber x) (.ofNumber y)⟩
    | less =>
        match xs, htakes with
        | [x, y], _ => exact ⟨_, .ascent x y⟩
    | greater =>
        match xs, htakes with
        | [x, y], _ => exact ⟨_, .descent x y⟩

/-- Applying an operator ends in one of three ways. -/
theorem apply_cases (hkind : t.kind = .operator op) (vs : List Value) :
    (¬ op.Takes vs.length ∧
        apply t vs = .error (.wrongOperandCount (some t) op.expected vs.length)) ∨
      (op.Takes vs.length ∧ op ≠ equal ∧ (∃ v ∈ vs, v.number? = none) ∧
        apply t vs = .error (op.misfit t)) ∨
      ∃ v, op.Computes vs v ∧ apply t vs = .ok v := by
  by_cases htakes : op.Takes vs.length
  · have hvalue (h : op = equal ∨ ∃ xs, vs = numbers xs) :
        ∃ v, op.Computes vs v ∧ apply t vs = .ok v := by
      obtain ⟨v, hv⟩ := exists_computes htakes h
      exact ⟨v, hv, apply_of_computes hkind hv⟩
    by_cases hop : op = equal
    · exact .inr (.inr (hvalue (.inl hop)))
    · obtain hnumbers | hnone := Value.exists_numbers_or vs
      · exact .inr (.inr (hvalue (.inr hnumbers)))
      · exact .inr (.inl ⟨htakes, hop, hnone, apply_of_misfit hkind htakes hop hnone⟩)
  · exact .inl ⟨htakes, apply_of_not_takes hkind htakes⟩

theorem misfit_ne_wrongOperandCount (expected : String) (got : Nat) :
    op.misfit t ≠ .wrongOperandCount (some t) expected got := by
  cases op <;> exact EvalError.noConfusion

/-- Only a token that names no operator is refused as such. -/
theorem apply_eq_notAnOperator_iff :
    apply t vs = .error (.notAnOperator t) ↔ ∀ op, t.kind ≠ .operator op := by
  constructor
  · intro h op hkind
    obtain ⟨-, hcount⟩ | ⟨-, -, -, hmisfit⟩ | ⟨v, -, hok⟩ := apply_cases hkind vs
    · cases h.symm.trans hcount
    · rw [hmisfit] at h
      cases op <;> cases h
    · cases h.symm.trans hok
  · intro h
    rw [apply]
    split <;> first | rfl | exact absurd ‹_› (h _)

/-- What an operator computes is a datum. -/
theorem exists_datum_of_apply {v : Value} (h : apply t vs = .ok v) : ∃ d, v = .datum d := by
  by_cases hoperator : ∃ op, t.kind = .operator op
  · obtain ⟨op, hkind⟩ := hoperator
    obtain ⟨-, hcount⟩ | ⟨-, -, -, hmisfit⟩ | ⟨w, hw, hok⟩ := apply_cases hkind vs
    · cases h.symm.trans hcount
    · cases h.symm.trans hmisfit
    · obtain rfl := Except.ok.inj (h.symm.trans hok)
      cases hw <;> exact ⟨_, rfl⟩
  · cases h.symm.trans (apply_eq_notAnOperator_iff.mpr (not_exists.mp hoperator))

/-- **Operators fold from the left and refuse in order.**  A token that names no operator is refused
for that; else a wrong number of operands is refused, whatever they are; else operands that are no
numbers, unless the operator is `=`; and what is not refused has the value that the operator stands
for.  A difference or a quotient of at least two numbers is gone on with from its result. -/
theorem apply_decided (t : Token) (vs : List Value) :
    (apply t vs = .error (.notAnOperator t) ↔ ∀ op, t.kind ≠ .operator op) ∧
      ∀ op, t.kind = .operator op →
        (apply t vs = .error (.wrongOperandCount (some t) op.expected vs.length) ↔
          ¬ op.Takes vs.length) ∧
        (apply t vs = .error (op.misfit t) ↔
          op.Takes vs.length ∧ op ≠ equal ∧ ∃ v ∈ vs, v.number? = none) ∧
        (∀ v, apply t vs = .ok v ↔ op.Computes vs v) ∧
        (op = minus ∨ op = slash → ∀ xs, 2 ≤ xs.length → ∀ w,
          ∃ v, apply t (numbers xs) = .ok v ∧ apply t (numbers xs ++ [w]) = apply t [v, w]) := by
  refine ⟨apply_eq_notAnOperator_iff, fun op hkind => ⟨?_, ?_, fun v => ?_, ?_⟩⟩
  · refine ⟨fun h => ?_, apply_of_not_takes hkind⟩
    obtain ⟨hnot, -⟩ | ⟨-, -, -, hmisfit⟩ | ⟨v, -, hok⟩ := apply_cases hkind vs
    · exact hnot
    · rw [hmisfit] at h
      exact absurd (Except.error.inj h) (misfit_ne_wrongOperandCount _ _)
    · cases h.symm.trans hok
  · refine ⟨fun h => ?_, fun ⟨htakes, hop, hnone⟩ => apply_of_misfit hkind htakes hop hnone⟩
    obtain ⟨-, hcount⟩ | ⟨htakes, hop, hnone, -⟩ | ⟨v, -, hok⟩ := apply_cases hkind vs
    · rw [hcount] at h
      exact absurd (Except.error.inj h).symm (misfit_ne_wrongOperandCount _ _)
    · exact ⟨htakes, hop, hnone⟩
    · cases h.symm.trans hok
  · refine ⟨fun h => ?_, apply_of_computes hkind⟩
    obtain ⟨-, hcount⟩ | ⟨-, -, -, hmisfit⟩ | ⟨w, hw, hok⟩ := apply_cases hkind vs
    · cases h.symm.trans hcount
    · cases h.symm.trans hmisfit
    · cases h.symm.trans hok
      exact hw
  · rintro (rfl | rfl) xs hlength w
    · simpa only [apply, hkind] using takeAway_append (· - ·) (- ·) t hlength w
    · simpa only [apply, hkind] using takeAway_append (· / ·) (1 / ·) t hlength w

/-- Sixty by five and by two; by a text and by two; and by nothing. -/
theorem quotients_decided :
    let t : Token := ⟨.operator slash, "/", none, 1⟩
    let misfits : List Value := [.ofNumber 60, .datum (.text "five"), .ofNumber 2]
    (t.kind = .operator slash ∧ 2 ≤ [60, 5].length) ∧
      apply t (numbers [60, 5, 2]) = .ok (.ofNumber 6) ∧
      apply t misfits = .error (.operandNotNumber t) ∧
      apply t [] = .error (.wrongOperandCount (some t) "at least 1" 0) ∧
      ∃ v, apply t (numbers [60, 5]) = .ok v ∧
        apply t (numbers [60, 5] ++ [.ofNumber 2]) = apply t [v, .ofNumber 2] := by
  intro t misfits
  have hdecided (vs : List Value) := (apply_decided t vs).2 slash rfl
  have hsix : (60 : Float) / 5 / 2 = 6 := by rfl
  have hvalue := Computes.quotient 60 5 [2]
  rw [List.foldl_cons, List.foldl_cons, List.foldl_nil, hsix] at hvalue
  refine ⟨⟨rfl, Nat.le_refl 2⟩, ((hdecided _).2.2.1 _).mpr hvalue, ?_, ?_, ?_⟩
  · exact (hdecided misfits).2.1.mpr ⟨Nat.succ_pos 2, nofun, _, .tail _ (.head _), rfl⟩
  · exact (hdecided []).1.mpr (Nat.not_lt_zero 0)
  · exact (hdecided []).2.2.2 (.inr rfl) [60, 5] (Nat.le_refl 2) (.ofNumber 2)

end Operator

end SmallLisp
