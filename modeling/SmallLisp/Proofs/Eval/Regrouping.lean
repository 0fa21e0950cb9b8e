/-
Forms that can be written in another way.

An operand of `and`, `or` and `begin` can do anything: assign, define, call, fail.  So it matters
which operands are evaluated, in what order, and what their values are, and not only whether `and`
and `or` come out true.  All of that stays when a form is taken apart or put together: where the first
operand of an `and`, an `or` or a `begin` is a form of the same keyword its operands can stand in its
place, a `not` can be moved inside, and the branches of an `if` can change places with its test
negated.  It is the empty forms that decide what their values have to be, `true` for `and`, `false`
for `or` and `nil` for `begin`, since there the value of the inner form is what the outer one goes on
from.

A row of operands in two parts is evaluated as the first part and then, if its value permits it, the
second, which goes on from that value; one lemma says so for each of the three.  `and` goes on from
truthy values only, and `or` from the others, and so do their lemmas.
-/
import SmallLisp.Proofs.Eval.Forms

namespace SmallLisp

namespace Expr

/-- `(k e...)`. -/
def form (k : Token) (es : List Expr) : Expr :=
  .list (.keyword k) es

/-- `(not e)`, with the token of the `not`. -/
def negated (ne : Token × Expr) : Expr :=
  .form ne.1 [ne.2]

end Expr

namespace Eval

open SmallLisp.Expr (form negated)

variable {limit : Nat} {enter? : Option Evaluator} {i : ScopeId}

/-! ### Rows in two parts

A row that is evaluated in two parts is evaluated as a whole.  All the equations below rest on this, for
the three ways in which a row can go on.
-/

theorem isTruthy_ofBool (b : Bool) : (Value.ofBool b).isTruthy = b :=
  rfl

theorem sequence_append (last : Value) (es fs : List Expr) :
    sequence limit enter? i last (es ++ fs) =
      (do
        let v ← sequence limit enter? i last es
        sequence limit enter? i v fs) := by
  induction es generalizing last with
  | nil => rw [List.nil_append, sequence, pure_bind]
  | cons e es ih =>
      rw [List.cons_append, sequence, sequence, bind_assoc]
      exact bind_congr fun v => ih v

theorem conjunction_append {last : Value} (hlast : last.isTruthy = true) (es fs : List Expr) :
    conjunction limit enter? i last (es ++ fs) =
      (do
        let v ← conjunction limit enter? i last es
        if v.isTruthy then conjunction limit enter? i v fs else pure v) := by
  induction es generalizing last with
  | nil => rw [List.nil_append, conjunction, pure_bind, if_pos hlast]
  | cons e es ih =>
      rw [List.cons_append, conjunction, conjunction, bind_assoc]
      refine bind_congr fun v => ?_
      by_cases hv : v.isTruthy = true
      · rw [if_pos hv, if_pos hv, ih hv]
      · rw [if_neg hv, if_neg hv, pure_bind, if_neg hv]

theorem disjunction_append {last : Value} (hlast : last.isTruthy = false) (es fs : List Expr) :
    disjunction limit enter? i last (es ++ fs) =
      (do
        let v ← disjunction limit enter? i last es
        if v.isTruthy then pure v else disjunction limit enter? i v fs) := by
  induction es generalizing last with
  | nil => rw [List.nil_append, disjunction, pure_bind, if_neg (Bool.eq_false_iff.mp hlast)]
  | cons e es ih =>
      rw [List.cons_append, disjunction, disjunction, bind_assoc]
      refine bind_congr fun v => ?_
      by_cases hv : v.isTruthy = true
      · rw [if_pos hv, if_pos hv, pure_bind, if_pos hv]
      · rw [if_neg hv, if_neg hv, ih (Bool.eq_false_iff.mpr hv)]

/-! ### A form in front of others of its keyword

The first part of the row is put into a form of its own.  What that form is evaluated to is what the row
would have gone on with.
-/

section

variable {k k' k'' : Token} (es fs : List Expr)

theorem evaluate_begin_begin (hk : k.kind = .keyword .begin) (hk' : k'.kind = .keyword .begin)
    (hk'' : k''.kind = .keyword .begin) :
    evaluate limit enter? i (form k (form k' es :: fs)) =
      evaluate limit enter? i (form k'' (es ++ fs)) := by
  rw [form, form, form, evaluate_begin hk, evaluate_begin hk'', sequence, evaluate_begin hk',
    sequence_append]

theorem evaluate_and_and (hk : k.kind = .keyword .and) (hk' : k'.kind = .keyword .and)
    (hk'' : k''.kind = .keyword .and) :
    evaluate limit enter? i (form k (form k' es :: fs)) =
      evaluate limit enter? i (form k'' (es ++ fs)) := by
  rw [form, form, form, evaluate_and hk, evaluate_and hk'', conjunction, evaluate_and hk',
    conjunction_append (isTruthy_ofBool true)]

theorem evaluate_or_or (hk : k.kind = .keyword .or) (hk' : k'.kind = .keyword .or)
    (hk'' : k''.kind = .keyword .or) :
    evaluate limit enter? i (form k (form k' es :: fs)) =
      evaluate limit enter? i (form k'' (es ++ fs)) := by
  rw [form, form, form, evaluate_or hk, evaluate_or hk'', disjunction, evaluate_or hk',
    disjunction_append (isTruthy_ofBool false)]

end

/-! ### Negation

`and` goes on where `or` stops, so negating every operand turns one into the other.  The value of the
negated row is a truth value, so it is negated once more or tested.
-/

section

variable {n k k' : Token}

theorem evaluate_negated (hn : n.kind = .keyword .not) (e : Expr) :
    evaluate limit enter? i (negated (n, e)) =
      (do
        let v ← evaluate limit enter? i e
        pure (.ofBool (!v.isTruthy))) := by
  rw [negated, form, evaluate_not hn, negation]

theorem disjunction_negated {nes : List (Token × Expr)}
    (hnes : ∀ ne ∈ nes, ne.1.kind = .keyword .not) (last : Value) :
    disjunction limit enter? i (.ofBool (!last.isTruthy)) (nes.map negated) =
      (do
        let v ← conjunction limit enter? i last (nes.map Prod.snd)
        pure (.ofBool (!v.isTruthy))) := by
  induction nes generalizing last with
  | nil => rw [List.map_nil, List.map_nil, disjunction, conjunction, pure_bind]
  | cons ne nes ih =>
      obtain ⟨hne, hnes⟩ := List.forall_mem_cons.mp hnes
      rw [List.map_cons, List.map_cons, disjunction, conjunction, evaluate_negated hne, bind_assoc,
        bind_assoc]
      refine bind_congr fun v => ?_
      rw [pure_bind, isTruthy_ofBool]
      by_cases hv : v.isTruthy = true
      · rw [if_pos hv, if_neg (by simp [hv]), ih hnes]
      · rw [if_neg hv, if_pos (by simp [hv]), pure_bind]

theorem conjunction_negated {nes : List (Token × Expr)}
    (hnes : ∀ ne ∈ nes, ne.1.kind = .keyword .not) (last : Value) :
    conjunction limit enter? i (.ofBool (!last.isTruthy)) (nes.map negated) =
      (do
        let v ← disjunction limit enter? i last (nes.map Prod.snd)
        pure (.ofBool (!v.isTruthy))) := by
  induction nes generalizing last with
  | nil => rw [List.map_nil, List.map_nil, disjunction, conjunction, pure_bind]
  | cons ne nes ih =>
      obtain ⟨hne, hnes⟩ := List.forall_mem_cons.mp hnes
      rw [List.map_cons, List.map_cons, disjunction, conjunction, evaluate_negated hne, bind_assoc,
        bind_assoc]
      refine bind_congr fun v => ?_
      rw [pure_bind, isTruthy_ofBool]
      by_cases hv : v.isTruthy = true
      · rw [if_pos hv, if_neg (by simp [hv]), pure_bind]
      · rw [if_neg hv, if_pos (by simp [hv]), ih hnes]

/-- What is not so of all operands is, of one of them, not so. -/
theorem evaluate_not_and {nes : List (Token × Expr)} (hn : n.kind = .keyword .not)
    (hk : k.kind = .keyword .and) (hk' : k'.kind = .keyword .or)
    (hnes : ∀ ne ∈ nes, ne.1.kind = .keyword .not) :
    evaluate limit enter? i (negated (n, form k (nes.map Prod.snd))) =
      evaluate limit enter? i (form k' (nes.map negated)) := by
  rw [evaluate_negated hn, form, form, evaluate_and hk, evaluate_or hk',
    ← disjunction_negated hnes]
  rfl

/-- What is so of no operand is, of each of them, not so. -/
theorem evaluate_not_or {nes : List (Token × Expr)} (hn : n.kind = .keyword .not)
    (hk : k.kind = .keyword .or) (hk' : k'.kind = .keyword .and)
    (hnes : ∀ ne ∈ nes, ne.1.kind = .keyword .not) :
    evaluate limit enter? i (negated (n, form k (nes.map Prod.snd))) =
      evaluate limit enter? i (form k' (nes.map negated)) := by
  rw [evaluate_negated hn, form, form, evaluate_or hk, evaluate_and hk',
    ← conjunction_negated hnes]
  rfl

theorem evaluate_if_not (hn : n.kind = .keyword .not) (hk : k.kind = .keyword .ifElse)
    (hk' : k'.kind = .keyword .ifElse) (test yes no : Expr) :
    evaluate limit enter? i (form k [negated (n, test), yes, no]) =
      evaluate limit enter? i (form k' [test, no, yes]) := by
  rw [form, form, evaluate_if hk, evaluate_if hk', branch, branch, evaluate_negated hn, bind_assoc]
  refine bind_congr fun v => ?_
  rw [pure_bind, isTruthy_ofBool]
  by_cases hv : v.isTruthy = true
  · rw [if_neg (by simp [hv]), if_pos hv]
  · rw [if_pos (by simp [hv]), if_neg hv]

end

/-! ### All of them -/

/-- **Forms of truth and order can be rewritten as in logic, with everything that they do.**  Both
sides of an equation come to the same outcome and leave the same store, whatever their operands do and
however many there are.  A `not` goes inside `and` and `or` and turns the one into the other; operands
of a first operand with the same keyword can stand in its place; and a test may be negated if the
branches change places. -/
theorem forms_regrouped (limit remaining : Nat) (i : ScopeId) (s : Store) :
    (∀ {n k k' : Token} {nes : List (Token × Expr)}, n.kind = .keyword .not →
      (∀ ne ∈ nes, ne.1.kind = .keyword .not) →
      k.kind = .keyword .and ∧ k'.kind = .keyword .or ∨
        k.kind = .keyword .or ∧ k'.kind = .keyword .and →
      inCalls limit remaining i (negated (n, form k (nes.map Prod.snd))) s =
        inCalls limit remaining i (form k' (nes.map negated)) s) ∧
    (∀ {k k' k'' : Token} {word : Keyword}, word = .and ∨ word = .or ∨ word = .begin →
      k.kind = .keyword word → k'.kind = .keyword word → k''.kind = .keyword word →
      ∀ es fs : List Expr, inCalls limit remaining i (form k (form k' es :: fs)) s =
        inCalls limit remaining i (form k'' (es ++ fs)) s) ∧
    ∀ {n k k' : Token}, n.kind = .keyword .not → k.kind = .keyword .ifElse →
      k'.kind = .keyword .ifElse → ∀ test yes no : Expr,
      inCalls limit remaining i (form k [negated (n, test), yes, no]) s =
        inCalls limit remaining i (form k' [test, no, yes]) s := by
  rw [inCalls_eq]
  refine ⟨?_, ?_, ?_⟩
  · rintro n k k' nes hn hnes (⟨hk, hk'⟩ | ⟨hk, hk'⟩)
    · rw [evaluate_not_and hn hk hk' hnes]
    · rw [evaluate_not_or hn hk hk' hnes]
  · rintro k k' k'' word (rfl | rfl | rfl) hk hk' hk'' es fs
    · rw [evaluate_and_and es fs hk hk' hk'']
    · rw [evaluate_or_or es fs hk hk' hk'']
    · rw [evaluate_begin_begin es fs hk hk' hk'']
  · intro n k k' hn hk hk' test yes no
    rw [evaluate_if_not hn hk hk']

/-- Operands that assign, and one that must not be evaluated: `y` is bound nowhere. -/
theorem forms_regrouped_assigning :
    let token (word : Keyword) (line : Nat) : Token := ⟨.keyword word, word.word, none, line⟩
    let x : Expr := .symbol ⟨.symbol, "x", none, 1⟩
    let y : Expr := .symbol ⟨.symbol, "y", none, 1⟩
    let clear : Expr := form (token .assign 1) [x, .datum .nil]
    let all (es : List Expr) (line : Nat) : Expr := form (token .and line) es
    let any (es : List Expr) (line : Nat) : Expr := form (token .or line) es
    let not (e : Expr) (line : Nat) : Expr := negated (token .not line, e)
    let s := Store.empty.newRoot.2.define 0 "x" (.ofBool true)
    let s' := s.define 0 "x" .nil
    let run (e : Expr) : Except EvalError Value × Store := inCalls 5 5 0 e s
    run (not (all [x, clear, y] 1) 1) = run (any [not x 2, not clear 3, not y 4] 2) ∧
      run (any [not x 2, not clear 3, not y 4] 2) = (.ok (.ofBool true), s') ∧
      run (not (any [clear, x] 1) 1) = run (all [not clear 2, not x 3] 2) ∧
      run (all [not clear 2, not x 3] 2) = (.ok (.ofBool true), s') ∧
      run (all [all [x, clear] 1, y] 1) = run (all [x, clear, y] 2) ∧
      run (all [x, clear, y] 2) = (.ok .nil, s') ∧
      run (any [any [] 1, x, y] 1) = run (any [x, y] 2) ∧
      run (any [x, y] 2) = (.ok (.ofBool true), s) ∧
      run (form (token .begin 1) [form (token .begin 1) []]) = run (form (token .begin 2) []) ∧
      run (form (token .begin 2) []) = (.ok .nil, s) ∧
      run (form (token .ifElse 1) [not clear 1, x, y]) = run (form (token .ifElse 2) [clear, y, x]) ∧
      run (form (token .ifElse 2) [clear, y, x]) = (.ok .nil, s') := by
  intro token x y clear all any not s s' run
  obtain ⟨hnot, hfirst, hif⟩ := forms_regrouped 5 5 0 s
  have hnots : ∀ ne ∈ [(token .not 2, x), (token .not 3, clear), (token .not 4, y)],
      ne.1.kind = .keyword .not := by simp [token]
  have hnots' : ∀ ne ∈ [(token .not 2, clear), (token .not 3, x)],
      ne.1.kind = .keyword .not := by simp [token]
  exact ⟨hnot rfl hnots (.inl ⟨rfl, rfl⟩), rfl, hnot rfl hnots' (.inr ⟨rfl, rfl⟩), rfl,
    hfirst (.inl rfl) rfl rfl rfl [x, clear] [y], rfl,
    hfirst (.inr (.inl rfl)) rfl rfl rfl [] [x, y], rfl,
    hfirst (.inr (.inr rfl)) rfl rfl rfl [] [], rfl, hif rfl rfl rfl clear x y, rfl⟩

end Eval

end SmallLisp
