/-
Which values are equal.

Values that are equal are of one type and count as true or not together; equality goes both ways and
from one pair to the next, and only NaN differs from itself.  So much can be seen in the values.

For functions there is more.  A function has an identity, and that two functions of one identity are
the same function is not a property of values, as one could write down two with different bodies.  It
is one of histories: of what happens from a fresh store on, step by step, in any number of programs.
Whatever function there is at a moment, bound or held or handed on, it was made at an earlier moment
where its definition was evaluated, and has been moved ever since (`History.knows`).  Identities are
counted, so no two moments make functions of one identity, and functions are equal if and only if they
were made at one moment.  They are then the same in every part.
-/
import Mathlib
import SmallLisp.Proofs.Eval.Making
import SmallLisp.Proofs.Session.Safety

namespace SmallLisp

/-! ### The laws of equality

Everything here is a property of the values alone.  Numbers are the reason why equality is not identity:
zero equals minus zero, and NaN does not equal itself.
-/

namespace Datum

variable {a b c : Datum}

/-- Data that are equal are the same, or numbers that are equal as numbers. -/
theorem eq_or_of_beq (h : (a == b) = true) :
    a = b ∨ ∃ x y, a = .number x ∧ b = .number y ∧ (x == y) = true := by
  match a, b with
  | .number x, .number y => exact .inr ⟨x, y, rfl, rfl, h⟩
  | .text s, .text t => exact .inl (congrArg text (eq_of_beq h))
  | .bool s, .bool t => exact .inl (congrArg bool (eq_of_beq h))
  | .nil, .nil => exact .inl rfl
  | .number _, .text _ | .number _, .bool _ | .number _, .nil | .text _, .number _
  | .text _, .bool _ | .text _, .nil | .bool _, .number _ | .bool _, .text _ | .bool _, .nil
  | .nil, .number _ | .nil, .text _ | .nil, .bool _ => cases h

theorem beq_symm (h : (a == b) = true) : (b == a) = true := by
  obtain rfl | ⟨x, y, rfl, rfl, hxy⟩ := eq_or_of_beq h
  · exact h
  · have hyx : (y == x) = true := BEq.symm hxy
    exact hyx

theorem beq_trans (h : (a == b) = true) (h' : (b == c) = true) : (a == c) = true := by
  obtain rfl | ⟨x, y, rfl, rfl, hxy⟩ := eq_or_of_beq h
  · exact h'
  · obtain rfl | ⟨_, z, ⟨⟩, rfl, hyz⟩ := eq_or_of_beq h'
    · exact h
    · have hxz : (x == z) = true := BEq.trans hxy hyz
      exact hxz

theorem beq_self_iff : (a == a) = true ↔ ∀ x, a = .number x → x.isNaN = false := by
  match a with
  | .number x =>
      have hself : (Datum.number x == .number x) = (x == x) := rfl
      rw [hself]
      simp
  | .text s => exact iff_of_true (beq_self_eq_true s) nofun
  | .bool s => exact iff_of_true (beq_self_eq_true s) nofun
  | .nil => exact iff_of_true rfl nofun

end Datum

namespace Value

variable {u v w : Value}

theorem equals_comm (v w : Value) : v.equals w = w.equals v := by
  match v, w with
  | .datum a, .datum b => exact Bool.eq_iff_iff.mpr ⟨Datum.beq_symm, Datum.beq_symm⟩
  | .operator s, .operator t => exact decide_eq_decide.mpr eq_comm
  | .function c, .function d => exact decide_eq_decide.mpr eq_comm
  | .datum _, .operator _ | .datum _, .function _ | .operator _, .datum _
  | .operator _, .function _ | .function _, .datum _ | .function _, .operator _ => rfl

theorem equals_trans (h : u.equals v = true) (h' : v.equals w = true) : u.equals w = true := by
  match u, v, w with
  | .datum a, .datum b, .datum c => exact Datum.beq_trans h h'
  | .operator _, .operator _, .operator _ =>
      exact decide_eq_true ((of_decide_eq_true h).trans (of_decide_eq_true h'))
  | .function _, .function _, .function _ =>
      exact decide_eq_true ((of_decide_eq_true h).trans (of_decide_eq_true h'))
  | .datum _, .operator _, _ | .datum _, .function _, _ | .operator _, .datum _, _
  | .operator _, .function _, _ | .function _, .datum _, _ | .function _, .operator _, _ => cases h
  | .datum _, .datum _, .operator _ | .datum _, .datum _, .function _
  | .operator _, .operator _, .datum _ | .operator _, .operator _, .function _
  | .function _, .function _, .datum _ | .function _, .function _, .operator _ => cases h'

/-- Nothing but NaN differs from itself. -/
theorem equals_self_iff : v.equals v = true ↔ ∀ x, v = .ofNumber x → x.isNaN = false := by
  cases v with
  | datum d =>
      have hnumber (x : Float) : Value.datum d = .ofNumber x ↔ d = .number x := by
        rw [ofNumber, Value.datum.injEq]
      simp only [hnumber]
      exact Datum.beq_self_iff
  | operator _ | function _ =>
      refine iff_of_true (decide_eq_true rfl) fun x hx => ?_
      cases hx

/-- What is equal is of one type, and counts as true or not together. -/
theorem alike_of_equals (h : v.equals w = true) :
    v.typeName = w.typeName ∧ v.isTruthy = w.isTruthy := by
  match v, w with
  | .datum a, .datum b =>
      obtain rfl | ⟨x, y, rfl, rfl, hxy⟩ := Datum.eq_or_of_beq h
      · exact ⟨rfl, rfl⟩
      · have hzero : (x == 0) = (y == 0) :=
          Bool.eq_iff_iff.mpr ⟨BEq.trans (BEq.symm hxy), BEq.trans hxy⟩
        exact ⟨rfl, congrArg not hzero⟩
  | .operator _, .operator _ | .function _, .function _ => exact ⟨rfl, rfl⟩
  | .datum _, .operator _ | .datum _, .function _ | .operator _, .datum _
  | .operator _, .function _ | .function _, .datum _ | .function _, .operator _ => cases h

theorem equals_function_iff {c d : Closure} :
    (function c).equals (function d) = true ↔ c.identity = d.identity :=
  decide_eq_true_iff

end Value

namespace Eval

/-! ### Histories

Each moment leads to the next, so the moment at which a function was made is found by going back.  Identities
only grow, hence there is one such moment.
-/

namespace Machine

/-- From one moment to the next: by a step, whatever the limit on calls, or by the beginning of another
program once one is over. -/
inductive LeadsTo : Machine → Machine → Prop where
  | step {m m' : Machine} {limit? : Option Nat} (h : m.step limit? = some m') : LeadsTo m m'
  | program (x : Except EvalError Value × Store) (globals : ScopeId) (forms : List Expr) :
      LeadsTo (ended 0 x) (ofForms 0 globals forms x.2)

variable {m m' : Machine} {c : Closure} {Q : Closure → Prop} {n : Nat}

theorem Knows.leadsTo (h : m.Knows Q n) (hmade : ∀ c, m.made? = some c → Q c)
    (hnext : m.LeadsTo m') : m'.Knows Q (n + if m.made?.isSome then 1 else 0) := by
  cases hnext with
  | step hstep => exact h.step hmade hstep
  | program x globals forms =>
      have hcount : x.2.functions = n := h.count
      rw [← hcount]
      exact knows_ofForms h.bound 0 globals forms

/-- Where a function is made, a step follows. -/
theorem LeadsTo.step_of_made (h : m.LeadsTo m') (hmade : m.made? = some c) :
    ∃ limit?, m.step limit? = some m' := by
  cases h with
  | step hstep => exact ⟨_, hstep⟩
  | program => cases hmade

/-- A machine has the functions that it knows. -/
theorem Knows.of_has (h : m.Knows Q n) (hc : m.Has (.function c)) : Q c := by
  obtain ⟨i, name, hv⟩ | ⟨f, hf, hv⟩ | hv := hc
  · exact h.bound i name _ hv
  · exact h.held f hf _ hv
  · exact h.yields _ hv

end Machine

open Machine

/-- What happens from a fresh store on, moment by moment, up to the given one. -/
structure History (run : Nat → Machine) (n : Nat) : Prop where
  fresh : run 0 = ended 0 (.ok .nil, Store.empty.newRoot.2)
  next : ∀ k < n, (run k).LeadsTo (run (k + 1))

namespace History

variable {run : Nat → Machine} {n j k l : Nat} {c d : Closure}

/-- **What functions there are at a moment have been made before.** -/
theorem knows (h : History run n) (hk : k ≤ n) :
    (run k).Knows (fun c => ∃ j < k, (run j).made? = some c) (run k).store.functions := by
  induction k with
  | zero =>
      rw [h.fresh]
      exact
        { bound := fun i name v hv => by
            rw [ended, Store.value?_root] at hv
            cases hv
          held := List.forall_mem_nil _
          count := rfl
          yields := fun v hv => by
            cases hv
            trivial }
  | succ k ih =>
      have hbefore : (run k).Knows (fun c => ∃ j < k + 1, (run j).made? = some c)
          (run k).store.functions :=
        (ih (Nat.le_of_succ_le hk)).mono fun c ⟨j, hj, hc⟩ => ⟨j, Nat.lt_succ_of_lt hj, hc⟩
      have hnow := hbefore.leadsTo (fun c hc => ⟨k, Nat.lt_succ_self k, hc⟩) (h.next k hk)
      rw [← hnow.count] at hnow
      exact hnow

/-- The number of functions goes up by one where one is made. -/
theorem functions_succ (h : History run n) (hk : k < n) :
    (run (k + 1)).store.functions =
      (run k).store.functions + if (run k).made?.isSome then 1 else 0 := by
  have hbefore : (run k).Knows (fun _ => True) (run k).store.functions :=
    (h.knows (Nat.le_of_lt hk)).mono fun _ _ => trivial
  exact (hbefore.leadsTo (fun _ _ => trivial) (h.next k hk)).count

theorem functions_mono (h : History run n) (hjk : j ≤ k) (hk : k ≤ n) :
    (run j).store.functions ≤ (run k).store.functions := by
  induction hjk with
  | refl => exact Nat.le_refl _
  | step _ ih =>
      have hbefore := ih (Nat.le_of_succ_le hk)
      exact Nat.le_trans hbefore (h.functions_succ hk ▸ Nat.le_add_right ..)

/-- A function that is made later has a greater identity. -/
theorem identity_lt (h : History run n) (hjl : j < l) (hl : l < n)
    (hc : (run j).made? = some c) (hd : (run l).made? = some d) : c.identity < d.identity := by
  obtain ⟨-, hcid⟩ := made?_eq_some_iff.mp hc
  obtain ⟨-, hdid⟩ := made?_eq_some_iff.mp hd
  have hsucc := h.functions_succ (Nat.lt_trans hjl hl)
  rw [hc, Option.isSome_some, if_pos rfl] at hsucc
  calc c.identity < (run j).store.functions + 1 := Nat.lt_succ_of_le (Nat.le_of_eq hcid)
    _ = (run (j + 1)).store.functions := hsucc.symm
    _ ≤ (run l).store.functions := h.functions_mono hjl (Nat.le_of_lt hl)
    _ = d.identity := hdid.symm

/-- Functions of one identity were made at one moment. -/
theorem moment_eq (h : History run n) (hj : j < n) (hl : l < n)
    (hc : (run j).made? = some c) (hd : (run l).made? = some d) (hcd : c.identity = d.identity) :
    j = l := by
  obtain hlt | heq | hlt := Nat.lt_trichotomy j l
  · exact absurd hcd (Nat.ne_of_lt (h.identity_lt hlt hl hc hd))
  · exact heq
  · exact absurd hcd.symm (Nat.ne_of_lt (h.identity_lt hlt hj hd hc))

/-- Functions are equal if and only if they were made at one moment. -/
theorem equals_iff (h : History run n) (hk : k ≤ n) (hl : l ≤ n)
    (hc : (run k).Has (.function c)) (hd : (run l).Has (.function d)) :
    (Value.function c).equals (.function d) = true ↔
      ∃ j, (j < k ∧ (run j).made? = some c) ∧ j < l ∧ (run j).made? = some d := by
  rw [Value.equals_function_iff]
  constructor
  · intro hcd
    obtain ⟨j, hj, hcmade⟩ := (h.knows hk).of_has hc
    obtain ⟨j', hj', hdmade⟩ := (h.knows hl).of_has hd
    obtain rfl := h.moment_eq (Nat.lt_of_lt_of_le hj hk) (Nat.lt_of_lt_of_le hj' hl) hcmade hdmade
      hcd
    exact ⟨j, ⟨hj, hcmade⟩, hj', hdmade⟩
  · rintro ⟨j, ⟨-, hcmade⟩, -, hdmade⟩
    rw [Option.some_inj.mp (hcmade.symm.trans hdmade)]

/-! ### The histories of programs

That histories are of interest has to be shown as well: whatever programs an interpreter is given, what they
do is part of one.
-/

/-- A history goes on as the machine does. -/
theorem extend {m : Machine} (h : History run n)
    (hsteps : Relation.ReflTransGen LeadsTo (run n) m) :
    ∃ run' n', n ≤ n' ∧ (∀ k ≤ n, run' k = run k) ∧ History run' n' ∧ run' n' = m := by
  induction hsteps with
  | refl => exact ⟨run, n, Nat.le_refl n, fun _ _ => rfl, h, rfl⟩
  | @tail m₁ m₂ _ hnext ih =>
      obtain ⟨run', n', hn, hsame, hrun, rfl⟩ := ih
      have hold (k : Nat) (hk : k ≤ n') : Function.update run' (n' + 1) m₂ k = run' k :=
        Function.update_of_ne (Nat.ne_of_lt (Nat.lt_succ_of_le hk)) ..
      have hnew : Function.update run' (n' + 1) m₂ (n' + 1) = m₂ := Function.update_self ..
      refine ⟨Function.update run' (n' + 1) m₂, n' + 1, Nat.le_succ_of_le hn, fun k hk => ?_,
        ⟨?_, fun k hk => ?_⟩, hnew⟩
      · rw [hold k (Nat.le_trans hk hn), hsame k hk]
      · rw [hold 0 (Nat.zero_le _), hrun.fresh]
      · rw [hold k (Nat.le_of_lt_succ hk)]
        obtain hlt | rfl := Nat.lt_succ_iff_lt_or_eq.mp hk
        · rw [hold (k + 1) hlt]
          exact hrun.next k hlt
        · rw [hnew]
          exact hnext

/-- A history goes on with programs.  Their results are handed on in it. -/
theorem programs (i : Interpreter) (sources : List String)
    {x : Except EvalError Value × Store} (h : History run n) (hend : run n = ended 0 x) :
    ∃ run' n', n ≤ n' ∧ (∀ k ≤ n, run' k = run k) ∧ History run' n' ∧
      (run' n').store = (i.runSources sources x.2).2 ∧
      ∀ v, .ok v ∈ (i.runSources sources x.2).1 → ∃ k ≤ n', (run' k).Has v := by
  induction sources generalizing run n x with
  | nil =>
      refine ⟨run, n, Nat.le_refl n, fun _ _ => rfl, h, ?_, nofun⟩
      rw [hend]
      rfl
  | cons source sources ih =>
      rcases hrun : i.runSource source x.2 with ⟨r, s⟩
      simp only [Interpreter.runSources, hrun]
      cases (runsSource_iff i source x.2 s r 0).mpr ⟨rfl, hrun⟩ with
      | unread hread =>
          obtain ⟨run', n', hn, hsame, hhistory, hstore, hvalues⟩ := ih h hend
          refine ⟨run', n', hn, hsame, hhistory, hstore, fun v hv => ?_⟩
          obtain hv | hv := List.mem_cons.mp hv
          · cases hv
          · exact hvalues v hv
      | @ran forms outcome _ _ hread hsteps =>
          have hnext : Relation.ReflTransGen LeadsTo (run n) (ended 0 (outcome, s)) := by
            rw [hend]
            exact .head (.program x i.globals forms) (hsteps.lift id fun _ _ => .step)
          obtain ⟨run₁, n₁, hn₁, hsame₁, hhistory₁, hend₁⟩ := h.extend hnext
          obtain ⟨run', n', hn, hsame, hhistory, hstore, hvalues⟩ := ih hhistory₁ hend₁
          refine ⟨run', n', Nat.le_trans hn₁ hn, fun k hk => ?_, hhistory, hstore, fun v hv => ?_⟩
          · rw [hsame k (Nat.le_trans hk hn₁), hsame₁ k hk]
          · obtain hv | hv := List.mem_cons.mp hv
            · refine ⟨n₁, hn, .inr (.inr ?_)⟩
              rw [hsame n₁ (Nat.le_refl n₁), hend₁]
              cases outcome <;> cases hv
              rfl
            · exact hvalues v hv

end History

/--
**Equality is lawful, and functions are equal if and only if they were made together.**

Equality goes both ways and from one pair to the next, nothing but NaN differs from itself, and what is
equal is of one type and counts as true or not together.

At every moment of a history, each function has been made at an earlier one, by the evaluation of its
definition in the scope that it captures.  Two functions, at two moments, are equal exactly if there is
one moment at which both were made, and then they are the same in every part; moments that make
functions make unequal ones.  Programs that are run in order make a history, with their results in it.
-/
theorem equality_lawful :
    (∀ v w : Value, v.equals w = w.equals v) ∧
    (∀ u v w : Value, u.equals v = true → v.equals w = true → u.equals w = true) ∧
    (∀ v : Value, v.equals v = true ↔ ∀ x, v = .ofNumber x → x.isNaN = false) ∧
    (∀ v w : Value, v.equals w = true → v.typeName = w.typeName ∧ v.isTruthy = w.isTruthy) ∧
    (∀ run n, History run n →
      (∀ j < n, ∀ c, (run j).made? = some c →
        (run j).control = .evaluate c.scope (.define c.name c.params c.body) ∧
        (run (j + 1)).store =
          (run j).store.newFunction.2.define c.scope c.name.lexeme (.function c)) ∧
      (∀ k ≤ n, ∀ c, (run k).Has (.function c) → ∃ j < k, (run j).made? = some c) ∧
      (∀ k ≤ n, ∀ l ≤ n, ∀ c d, (run k).Has (.function c) → (run l).Has (.function d) →
        ((Value.function c).equals (.function d) = true ↔
          ∃ j, (j < k ∧ (run j).made? = some c) ∧ j < l ∧ (run j).made? = some d) ∧
        ((Value.function c).equals (.function d) = true ↔ c = d)) ∧
      ∀ j < n, ∀ l < n, ∀ c d, (run j).made? = some c → (run l).made? = some d →
        ((Value.function c).equals (.function d) = true ↔ j = l)) ∧
    ∀ (i : Interpreter) (sources : List String), ∃ run n, History run n ∧
      (run n).store = (i.runSources sources Store.empty.newRoot.2).2 ∧
      ∀ v, .ok v ∈ (i.runSources sources Store.empty.newRoot.2).1 → ∃ k ≤ n, (run k).Has v := by
  refine ⟨Value.equals_comm, fun _ _ _ => Value.equals_trans, fun _ => Value.equals_self_iff,
    fun _ _ => Value.alike_of_equals, fun run n h => ⟨fun j hj c hc => ?_,
    fun k hk c hc => (h.knows hk).of_has hc, fun k hk l hl c d hc hd => ?_,
    fun j hj l hl c d hc hd => ?_⟩, fun i sources => ?_⟩
  · obtain ⟨limit?, hstep⟩ := (h.next j hj).step_of_made hc
    exact ⟨(made?_eq_some_iff.mp hc).1, congrArg Machine.store (eq_of_made hc hstep)⟩
  · have hiff := h.equals_iff hk hl hc hd
    refine ⟨hiff, fun hcd => ?_, fun hcd => Value.equals_function_iff.mpr (by rw [hcd])⟩
    obtain ⟨j, ⟨-, hcmade⟩, -, hdmade⟩ := hiff.mp hcd
    exact Option.some_inj.mp (hcmade.symm.trans hdmade)
  · rw [Value.equals_function_iff]
    refine ⟨h.moment_eq hj hl hc hd, ?_⟩
    rintro rfl
    rw [Option.some_inj.mp (hc.symm.trans hd)]
  · let start : Except EvalError Value × Store := (.ok .nil, Store.empty.newRoot.2)
    have hstart : History (fun _ => ended 0 start) 0 := ⟨rfl, fun _ => nofun⟩
    obtain ⟨run, n, -, -, h, hstore, hvalues⟩ := hstart.programs i sources rfl
    exact ⟨run, n, h, hstore, hvalues⟩

/-- A function that is given another name, and its definition once more.  The first program hands it
on and it is bound to the other name in the end; what has the first name then is not it. -/
theorem equality_lawful_redefined :
    let x : Token := ⟨.symbol, "x", none, 1⟩
    let made (identity : Nat) : Closure :=
      ⟨identity, ⟨.symbol, "f", none, 1⟩, [x], .symbol x, 0⟩
    let sources := ["(define f (x) x) (define g () nil) (set g f)", "(define f (x) x)"]
    ∃ run n, History run n ∧
      (run n).store = (Interpreter.runSources ⟨0, 5⟩ sources Store.empty.newRoot.2).2 ∧
      (∃ k ≤ n, (run k).Has (.function (made 0))) ∧
      (run n).store.value? 0 "g" = some (.function (made 0)) ∧
      (run n).store.value? 0 "f" = some (.function (made 2)) ∧
      (Value.function (made 0)).equals (.function (made 2)) = false ∧
      ∃ j < n, (run j).made? = some (made 0) ∧
        ∀ l < n, (run l).made? = some (made 2) → l ≠ j := by
  intro x made sources
  obtain ⟨-, -, -, -, hhistory, hprograms⟩ := equality_lawful
  obtain ⟨run, n, h, hstore, hvalues⟩ := hprograms ⟨0, 5⟩ sources
  have hresult : .ok (.function (made 0)) ∈
      (Interpreter.runSources ⟨0, 5⟩ sources Store.empty.newRoot.2).1 := by
    rw [show (Interpreter.runSources ⟨0, 5⟩ sources Store.empty.newRoot.2).1 =
      [.ok (.function (made 0)), .ok .nil] by cbv]
    exact List.mem_cons_self
  have hg : (run n).store.value? 0 "g" = some (.function (made 0)) := by
    rw [hstore]
    cbv
  have hf : (run n).store.value? 0 "f" = some (.function (made 2)) := by
    rw [hstore]
    cbv
  obtain ⟨-, horigin, -, hunequal⟩ := hhistory run n h
  have hle : n ≤ n := Nat.le_refl n
  have hhasg : (run n).Has (.function (made 0)) := .inl ⟨0, "g", hg⟩
  have hhasf : (run n).Has (.function (made 2)) := .inl ⟨0, "f", hf⟩
  have hne : (Value.function (made 0)).equals (.function (made 2)) = false := rfl
  obtain ⟨j, hj, hmade⟩ := horigin n hle _ hhasg
  refine ⟨run, n, h, hstore, hvalues _ hresult, hg, hf, hne, j, hj, hmade, fun l hl hlmade => ?_⟩
  rintro rfl
  have hsame := (hunequal l hl l hj _ _ hmade hlmade).mpr rfl
  rw [hne] at hsame
  cases hsame

end Eval

end SmallLisp
