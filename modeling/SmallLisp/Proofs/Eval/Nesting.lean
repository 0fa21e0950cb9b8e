/-
How deep scopes stand in one another.

A call makes a scope inside the one that the function captures, not inside the one of the caller.  So
chains of scopes do not grow with the calls: they follow the text, where every body of a function and
every body of a `let` stands in another one or in none.  The invariant puts the two depths together: a
scope is no deeper than what is left of the nesting of the expression that is evaluated there, and a
function captures a scope no deeper than what is left of the nesting of its body (`Store.Nested`).  Since
functions keep their scopes and their bodies, they can be stored, passed and returned at will.

The result is about all points of a session, that is of any number of runs in a fresh interpreter:
between runs, where an expression is about to be evaluated and where it has been (`Passes`).
-/
import SmallLisp.Proofs.Eval.Invariant
import SmallLisp.Proofs.Store.WellFormed

namespace SmallLisp

/-! ### Nesting in the text

What counts is how bodies stand in one another.  The values that a `let` binds are outside of its body, so
their own nesting is compared with that of the body and not added to it.
-/

mutual

/-- How deep bodies of functions and of `let` stand in one another in an expression.  The values that a
`let` binds are no part of its body. -/
def Expr.nesting : Expr → Nat
  | .define _ _ body => 1 + body.nesting
  | .list (.keyword k) (bindings :: body) =>
    if k.IsBind then max bindings.nesting (1 + nestingAll body)
    else max bindings.nesting (nestingAll body)
  | .list head operands => max head.nesting (nestingAll operands)
  | _ => 0

/-- The nesting of the expression in a list that has most. -/
def Expr.nestingAll : List Expr → Nat
  | [] => 0
  | e :: es => max e.nesting (nestingAll es)

end

namespace Expr

theorem nesting_le_of_mem {e : Expr} {es : List Expr} (h : e ∈ es) :
    e.nesting ≤ nestingAll es := by
  induction h with
  | head es => exact Nat.le_max_left _ _
  | tail e' _ ih => exact Nat.le_trans ih (Nat.le_max_right _ _)

theorem nestingAll_append (es es' : List Expr) :
    nestingAll (es ++ es') = max (nestingAll es) (nestingAll es') := by
  induction es with
  | nil => exact (Nat.zero_max _).symm
  | cons e es ih => rw [List.cons_append, nestingAll, ih, nestingAll, Nat.max_assoc]

/-- The parts of a list that is no `let` are nested no deeper than the list. -/
theorem nesting_parts_le {head : Expr} {operands : List Expr}
    (hbind : ∀ k, head = .keyword k → ¬ k.IsBind) :
    max head.nesting (nestingAll operands) ≤ (Expr.list head operands).nesting := by
  by_cases hkeyword : ∃ k bindings body, head = .keyword k ∧ operands = bindings :: body
  · obtain ⟨k, bindings, body, rfl, rfl⟩ := hkeyword
    simp [nesting, nestingAll, hbind k rfl]
  · rw [nesting]
    rintro k bindings body rfl rfl
    exact hkeyword ⟨k, bindings, body, rfl, rfl⟩

theorem nesting_bind {k : Token} (hbind : k.IsBind) (bindings : Expr) (body : List Expr) :
    (Expr.list (.keyword k) (bindings :: body)).nesting =
      max bindings.nesting (1 + nestingAll body) := by
  rw [nesting, if_pos hbind]

end Expr

/-! ### Nesting in the store

A chain is as long as the place of its scope in the text is deep.  For a function there has to be room above
its chain for all that is nested in its body, however often and from wherever it is called.
-/

namespace Store

/-- How many scopes there are on the chain of a scope. -/
def depth (s : Store) (i : ScopeId) : Nat :=
  (s.chain i).length

/-- Whether every chain of scopes has an end and a length, with room for what is nested in the bodies of
the functions that capture them. -/
structure Nested (globals : ScopeId) (bound : Nat) (s : Store) : Prop where
  wellFormed : s.WellFormed
  globals_lt : globals < s.scopes.size
  /-- Every chain ends at the global names. -/
  ends : ∀ i < s.scopes.size, (s.chain i).getLast? = some globals
  depth_le : ∀ i < s.scopes.size, s.depth i ≤ bound
  /-- A call of a function makes a scope for its body. -/
  room : ∀ i name c, s.value? i name = some (.function c) →
    s.depth c.scope + (1 + c.body.nesting) ≤ bound

variable {s s' : Store} {globals i : ScopeId} {bound : Nat}

theorem depth_later (hlater : s.Extends s') (hi : i < s.scopes.size) : s'.depth i = s.depth i := by
  rw [depth, chain_later hlater hi, depth]

theorem depth_newFrame (s : Store) (i : ScopeId) (bs : List (String × Value)) :
    (s.newFrame i bs).2.depth s.scopes.size = s.depth i + 1 := by
  rw [depth, chain_eq, outer_newFrame, List.length_cons, depth]

namespace Nested

theorem mono {bound' : Nat} (h : s.Nested globals bound) (hle : bound ≤ bound') :
    s.Nested globals bound' where
  wellFormed := h.wellFormed
  globals_lt := h.globals_lt
  ends := h.ends
  depth_le i hi := Nat.le_trans (h.depth_le i hi) hle
  room i name c hc := Nat.le_trans (h.room i name c hc) hle

theorem define (h : s.Nested globals bound) {v : Value} (hv : s.Owns v)
    (hroom : ∀ c, v = .function c → s.depth c.scope + (1 + c.body.nesting) ≤ bound) (i : ScopeId)
    (name : String) : (s.define i name v).Nested globals bound where
  wellFormed := h.wellFormed.define hv i name
  globals_lt := by
    rw [size_define]
    exact h.globals_lt
  ends j hj := by
    rw [chain_define]
    exact h.ends j (by simpa using hj)
  depth_le j hj := by
    rw [depth, chain_define]
    exact h.depth_le j (by simpa using hj)
  room j name' c hc := by
    rw [depth, chain_define]
    obtain hc | hc := eq_or_of_value?_define hc
    · exact hroom c hc.symm
    · exact h.room j name' c hc

theorem withFunction (h : s.Nested globals bound) (hi : i < s.scopes.size) (name : Token)
    (params : List Token) {body : Expr} (hroom : s.depth i + (1 + body.nesting) ≤ bound) :
    (s.withFunction i name params body).Nested globals bound := by
  have hstore : s.newFunction.2.Nested globals bound :=
    ⟨h.wellFormed.newFunction, h.globals_lt, h.ends, h.depth_le, h.room⟩
  refine hstore.define (v := .function ⟨s.functions, name, params, body, i⟩)
    ⟨hi, Nat.lt_succ_self _⟩ (fun c hc => ?_) i name.lexeme
  cases hc
  exact hroom

/-- A scope can be made where there is room for one. -/
theorem newFrame (h : s.Nested globals bound) (hi : i < s.scopes.size)
    (hdepth : s.depth i + 1 ≤ bound) {names : List String} {vs : List Value}
    (hvs : ∀ v ∈ vs, s.Owns v)
    (hroom : ∀ c, .function c ∈ vs → s.depth c.scope + (1 + c.body.nesting) ≤ bound) :
    (s.newFrame i (names.zip vs)).2.Nested globals bound := by
  have hlater := extends_newFrame s i (names.zip vs)
  refine ⟨h.wellFormed.newFrame hi hvs, Nat.lt_of_lt_of_le h.globals_lt hlater.size_le,
    fun j hj => ?_, fun j hj => ?_, fun j name c hc => ?_⟩
  · obtain hold | rfl := old_or_new_of_newFrame hj
    · rw [chain_later hlater hold]
      exact h.ends j hold
    · rw [chain_eq, outer_newFrame, chain_eq, List.getLast?_cons_cons, ← chain_eq]
      exact h.ends i hi
  · obtain hold | rfl := old_or_new_of_newFrame hj
    · rw [depth_later hlater hold]
      exact h.depth_le j hold
    · rw [depth_newFrame]
      exact hdepth
  · obtain hc | hc := mem_or_of_value?_newFrame hc
    · rw [depth_later hlater (hvs _ hc).1]
      exact hroom c hc
    · rw [depth_later hlater (h.wellFormed.owns j name _ hc).1]
      exact h.room j name c hc

end Nested

end Store

/-! ### The invariant

The bound is fixed and the chain of a scope uses a part of it.  What is evaluated in the scope has to fit
into the rest.  A scope that is made takes one more, and its body is nested one less deep.
-/

namespace Eval

/-- There is room for what is evaluated, where it is evaluated. -/
def nested (globals : ScopeId) (bound : Nat) : Invariant where
  store s := s.Nested globals bound
  place s i e := i < s.scopes.size ∧ s.depth i + e.nesting ≤ bound
  inner _ _ := True
  closure s c := s.OwnsClosure c ∧ s.depth c.scope + (1 + c.body.nesting) ≤ bound

variable {globals : ScopeId} {bound : Nat} {s : Store} {v : Value} {vs : List Value}

theorem owns_of_nested (h : (nested globals bound).value s v) : s.Owns v :=
  Value.IfFunction.imp (fun _ hc => hc.1) h

theorem room_of_nested {c : Closure} (hvs : ∀ v ∈ vs, (nested globals bound).value s v)
    (h : .function c ∈ vs) : s.depth c.scope + (1 + c.body.nesting) ≤ bound :=
  (hvs _ h).2

theorem lawful_nested (globals : ScopeId) (bound : Nat) : (nested globals bound).Lawful where
  closure_later hlater h := by
    refine ⟨h.1.later hlater, ?_⟩
    rw [Store.depth_later hlater h.1.1]
    exact h.2
  place_later hlater h := by
    refine ⟨Nat.lt_of_lt_of_le h.1 hlater.size_le, ?_⟩
    rw [Store.depth_later hlater h.1]
    exact h.2
  inner_later _ _ := trivial
  place_list {s i head operands} hbind h := by
    obtain ⟨hi, hroom⟩ := h
    have hparts : max head.nesting (Expr.nestingAll operands) ≤ _ := Expr.nesting_parts_le hbind
    refine ⟨⟨hi, by omega⟩, fun e he => ⟨hi, ?_⟩⟩
    have he := Expr.nesting_le_of_mem he
    omega
  place_bindings hbind h := by
    obtain ⟨hi, hroom⟩ := h
    rw [Expr.nesting_bind hbind] at hroom
    exact ⟨hi, by omega⟩
  lookup {s i name v} h hplace hlookup := by
    cases v with
    | function c =>
        obtain ⟨j, -, hvalue⟩ := Store.exists_of_lookup hlookup
        exact ⟨h.wellFormed.owns j _ _ hvalue, h.room j _ c hvalue⟩
    | _ => trivial
  assign h _ hvalue hassign := by
    obtain ⟨j, -, -, rfl⟩ := Store.exists_of_assign? hassign
    refine Store.Nested.define h (owns_of_nested hvalue) (fun c hc => ?_) j _
    subst hc
    exact hvalue.2
  define h hplace := Store.Nested.withFunction h hplace.1 _ _ hplace.2
  enter {s c vs} h hclosure hvalues := by
    obtain ⟨hown, hroom⟩ := hclosure
    refine ⟨Store.Nested.newFrame h hown.1 (by omega) (fun v hv => owns_of_nested (hvalues v hv))
      fun c hc => room_of_nested hvalues hc, ?_, ?_⟩
    · exact Store.lt_size_newFrame s _ _
    · rw [Store.depth_newFrame]
      omega
  bind {s i k bindings body} h hbind hplace := by
    obtain ⟨hi, hroom⟩ := hplace
    rw [Expr.nesting_bind hbind] at hroom
    have hmade : (s.newFrame i (List.zip [] [])).2.Nested globals bound :=
      Store.Nested.newFrame h hi (by omega) (List.forall_mem_nil _) (by simp)
    refine ⟨hmade, trivial, fun e he => ⟨Store.lt_size_newFrame s i [], ?_⟩⟩
    rw [Store.newChild_eq, Store.depth_newFrame]
    have he := Expr.nesting_le_of_mem he
    omega
  fill {s i name v} h _ hvalue := by
    refine Store.Nested.define h (owns_of_nested hvalue) (fun c hc => ?_) i _
    subst hc
    exact hvalue.2

end Eval

/-! ### Sessions

The bound grows from run to run with the forms that have been begun.  The invariant for a smaller bound
holds for a larger one, so each run can be looked at under its own.
-/

namespace Interpreter

/-- An interpreter of its own, before it has run anything. -/
def fresh (maxCalls : Nat) : Interpreter :=
  (new maxCalls .empty).1

/-- The forms that a run begins: those up to the first that fails. -/
def begun (i : Interpreter) : List Expr → Store → List Expr
  | [], _ => []
  | e :: es, s =>
    match i.evaluate i.globals e s with
    | (.ok _, s) => e :: i.begun es s
    | (.error _, _) => [e]

/-- Any number of runs in a fresh interpreter: the forms that they have begun, and the store. -/
inductive Ran (maxCalls : Nat) : List Expr → Store → Prop where
  | fresh : Ran maxCalls [] (new maxCalls .empty).2
  | run {forms : List Expr} {s : Store} (h : Ran maxCalls forms s) (program : List Expr) :
      Ran maxCalls (forms ++ (Interpreter.fresh maxCalls).begun program s)
        ((Interpreter.fresh maxCalls).run program s).2

/-- The stores that there are at any point of any number of runs in a fresh interpreter, with the forms
that have been begun so far. -/
inductive Passes (maxCalls : Nat) : List Expr → Store → Prop where
  | between {forms : List Expr} {s : Store} (h : Ran maxCalls forms s) : Passes maxCalls forms s
  /-- A part of a form, or of what it calls, is about to be evaluated. -/
  | before {forms done : List Expr} {e : Expr} {s s' : Store} {v : Value} {p : Eval.Point}
      (h : Ran maxCalls forms s) (hdone : (Interpreter.fresh maxCalls).run done s = (.ok v, s'))
      (hp : Eval.Within maxCalls ⟨maxCalls, (Interpreter.fresh maxCalls).globals, e, s'⟩ p) :
      Passes maxCalls (forms ++ done ++ [e]) p.store
  /-- It has been evaluated. -/
  | after {forms done : List Expr} {e : Expr} {s s' : Store} {v : Value} {p : Eval.Point}
      (h : Ran maxCalls forms s) (hdone : (Interpreter.fresh maxCalls).run done s = (.ok v, s'))
      (hp : Eval.Within maxCalls ⟨maxCalls, (Interpreter.fresh maxCalls).globals, e, s'⟩ p) :
      Passes maxCalls (forms ++ done ++ [e]) (p.outcome maxCalls).2

variable {maxCalls bound : Nat} {forms : List Expr} {s : Store}

/-- The first form of a run is evaluated, and the others are run after it. -/
theorem snd_run_cons (i : Interpreter) (e : Expr) (es : List Expr) (s : Store) :
    (i.run (e :: es) s).2 =
      match i.evaluate i.globals e s with
      | (.ok _, s) => (i.run es s).2
      | (.error _, s) => s := by
  unfold run evaluateForms
  rw [List.foldlM_cons, Eval.bind_apply]
  rcases i.evaluate i.globals e s with ⟨e | v, s'⟩
  · rfl
  · cases es <;> rfl

/-- A run that ends with a value has begun all its forms. -/
theorem begun_eq_self {i : Interpreter} {program : List Expr} {s s' : Store} {v : Value}
    (h : i.run program s = (.ok v, s')) : i.begun program s = program := by
  induction program generalizing s v with
  | nil => rfl
  | cons e es ih =>
      obtain ⟨v₁, s₁, v₂, hfirst, hrest, -⟩ := run_append i (show i.run ([e] ++ es) s = _ from h)
      rw [run_singleton] at hfirst
      rw [begun, hfirst]
      simp only [ih hrest]

/-- There is room for a form where the global names are if the bound allows for its nesting. -/
theorem place_globals (h : s.Nested (fresh maxCalls).globals bound) {e : Expr}
    (he : 1 + e.nesting ≤ bound) :
    (Eval.nested (fresh maxCalls).globals bound).place s (fresh maxCalls).globals e := by
  have hdepth : s.depth (fresh maxCalls).globals = 1 := by
    rw [Store.depth, Store.chain_eq]
    cases houter : s.outer (fresh maxCalls).globals with
    | nil => rfl
    | cons p rest => exact absurd (h.wellFormed.outer_cons _ p rest houter).1 (Nat.not_lt_zero p)
  exact ⟨h.globals_lt, by rw [hdepth]; exact he⟩

/-- A fresh interpreter has one scope, which stands in no other. -/
theorem nested_fresh (maxCalls : Nat) :
    (new maxCalls .empty).2.Nested (fresh maxCalls).globals 1 := by
  refine ⟨Store.WellFormed.root, Nat.one_pos, fun i hi => ?_, fun i _ => ?_, fun i name c h => ?_⟩
  · obtain rfl : i = 0 := Nat.lt_one_iff.mp hi
    rfl
  · show (i :: Store.empty.newRoot.2.outer i).length ≤ 1
    rw [Store.outer_root]
    exact Nat.le_refl 1
  · rw [show (new maxCalls .empty).2.value? i name = _ from Store.value?_root i name] at h
    cases h

/-- What a run begins has room if the bound allows for its nesting. -/
theorem nested_run (h : s.Nested (fresh maxCalls).globals bound) {program : List Expr}
    (hbound : 1 + Expr.nestingAll ((fresh maxCalls).begun program s) ≤ bound) :
    ((fresh maxCalls).run program s).2.Nested (fresh maxCalls).globals bound := by
  induction program generalizing s with
  | nil => exact h
  | cons e es ih =>
      rw [begun] at hbound
      rw [snd_run_cons]
      have hkeeps (hfirst : 1 + e.nesting ≤ bound) :=
        (Eval.lawful_nested _ bound).keeps_inCalls maxCalls maxCalls h (place_globals h hfirst)
      rcases heval : (fresh maxCalls).evaluate (fresh maxCalls).globals e s with ⟨error | v, s'⟩
      · simp only [heval, Expr.nestingAll] at hbound
        have hstore := (hkeeps (by omega)).store
        rw [show Eval.inCalls maxCalls maxCalls _ e s = _ from heval] at hstore
        exact hstore
      · simp only [heval, Expr.nestingAll] at hbound
        have hstore := (hkeeps (by omega)).store
        rw [show Eval.inCalls maxCalls maxCalls _ e s = _ from heval] at hstore
        exact ih hstore (by omega)

/-- Between runs there is room for what has been begun. -/
theorem nested_of_ran (h : Ran maxCalls forms s) :
    s.Nested (fresh maxCalls).globals (1 + Expr.nestingAll forms) := by
  induction h with
  | fresh => exact nested_fresh maxCalls
  | run _ program ih =>
      rw [Expr.nestingAll_append]
      exact nested_run (ih.mono (by omega)) (by omega)

/-- During a run there is room for what has been begun, at every point and when what begins there is
over. -/
theorem nested_within {done : List Expr} {e : Expr} {s' : Store} {v : Value} {p : Eval.Point}
    (h : Ran maxCalls forms s) (hdone : (fresh maxCalls).run done s = (.ok v, s'))
    (hp : Eval.Within maxCalls ⟨maxCalls, (fresh maxCalls).globals, e, s'⟩ p) :
    p.store.Nested (fresh maxCalls).globals (1 + Expr.nestingAll (forms ++ done ++ [e])) ∧
      (p.outcome maxCalls).2.Nested (fresh maxCalls).globals
        (1 + Expr.nestingAll (forms ++ done ++ [e])) := by
  have hran := nested_of_ran (h.run done)
  rw [begun_eq_self hdone, hdone] at hran
  have hstore : s'.Nested (fresh maxCalls).globals
      (1 + Expr.nestingAll (forms ++ done ++ [e])) := by
    refine hran.mono ?_
    rw [Expr.nestingAll_append (forms ++ done)]
    omega
  have hmem : e ∈ forms ++ done ++ [e] := by simp
  have hplace := place_globals hstore (Nat.add_le_add_left (Expr.nesting_le_of_mem hmem) 1)
  obtain ⟨hp, houtcome⟩ := (Eval.lawful_nested _ _).holds_within hp ⟨hstore, hplace⟩
  exact ⟨hp.1, houtcome⟩

end Interpreter

/-! ### Chains

What a chain of limited length looks like by itself: the parents of a scope lead to the outermost one, and
none of them comes back.
-/

/-- The chains of a store as they should be: each goes from parent to parent, never in a circle, ends at
the global names, which stand in no other scope, and is no longer than the bound. -/
structure Store.Chained (globals : ScopeId) (bound : Nat) (s : Store) : Prop where
  root : s.parent? globals = none
  parents : ∀ i < s.scopes.size, (s.chain i).IsChain (fun j k => s.parent? j = some k)
  acyclic : ∀ i < s.scopes.size, (s.chain i).Nodup
  ends : ∀ i < s.scopes.size, (s.chain i).getLast? = some globals
  length_le : ∀ i < s.scopes.size, (s.chain i).length ≤ bound

theorem Store.Nested.chained {globals : ScopeId} {bound : Nat} {s : Store}
    (h : s.Nested globals bound) : s.Chained globals bound where
  root := by
    have hends := h.ends globals h.globals_lt
    have hdescends := h.wellFormed.pairwise_outer globals
    rw [Store.chain_eq] at hends hdescends
    rw [Store.parent?]
    cases houter : s.outer globals with
    | nil => rfl
    | cons p rest =>
        rw [houter] at hends hdescends
        rw [List.getLast?_cons_cons] at hends
        have hlast := List.mem_of_getLast? hends
        exact absurd (List.rel_of_pairwise_cons hdescends hlast) (Nat.lt_irrefl globals)
  parents i _ := h.wellFormed.isChain_chain i
  acyclic i _ := (h.wellFormed.pairwise_outer i).imp fun hlt => (Nat.ne_of_lt hlt).symm
  ends := h.ends
  length_le := h.depth_le

/-- **Chains of scopes follow the text.**  At every point of any number of runs in a fresh interpreter,
the chain of every scope ends at the global names, and it is no longer than the nesting of the forms
begun so far, plus one. -/
theorem Interpreter.chained_of_passes {maxCalls : Nat} {forms : List Expr} {s : Store}
    (h : Passes maxCalls forms s) :
    s.Chained (fresh maxCalls).globals (1 + Expr.nestingAll forms) := by
  cases h with
  | between h => exact (nested_of_ran h).chained
  | before h hdone hp => exact (nested_within h hdone hp).1.chained
  | after h hdone hp => exact (nested_within h hdone hp).2.chained

/-- Where `y` is about to be looked up in `(let ((x (f)) (y y)) x)`, after `(define f () nil)`, there is
the scope of the `let`, with a value for `x` and none for `y`, and that of the call of `f`.  Neither has
gone when the `let` has failed. -/
theorem Interpreter.chained_while_filled :
    let name (lexeme : String) : Token := ⟨.symbol, lexeme, none, 1⟩
    let form : Expr := .letIn ⟨.keyword .bind, "let", none, 1⟩
      (name "x", .list (.symbol (name "f")) []) [(name "y", .symbol (name "y"))]
      [.symbol (name "x")]
    let forms := [.define (name "f") [] (.datum .nil), form]
    ∃ s, Passes 1 forms s ∧ (fresh 1).run forms (new 1 .empty).2 =
        (.error (.undefinedVariable (name "y")), s) ∧
      s.scopes.size = 3 ∧ s.parent? 1 = some 0 ∧ s.value? 1 "x" = some .nil ∧
      s.value? 1 "y" = none ∧ s.Chained 0 (1 + Expr.nestingAll forms) := by
  intro name form forms
  obtain ⟨s, hs⟩ : ∃ s, (fresh 1).run [.define (name "f") [] (.datum .nil)] (new 1 .empty).2 =
      (.ok .nil, s) := ⟨_, rfl⟩
  obtain ⟨q, hasks, hq⟩ : ∃ q, Eval.Asks 1 ⟨1, 0, form, s⟩ q ∧
      (fresh 1).run forms (new 1 .empty).2 = (.error (.undefinedVariable (name "y")), q.store) ∧
      q.store.scopes.size = 3 ∧ q.store.parent? 1 = some 0 ∧
      q.store.value? 1 "x" = some .nil ∧ q.store.value? 1 "y" = none := by
    cases hs
    exact ⟨_, .initialiser rfl (.later rfl .here), rfl, rfl, rfl, rfl, rfl⟩
  have hpasses : Passes 1 forms q.store := .before .fresh hs (.single hasks)
  exact ⟨q.store, hpasses, hq.1, hq.2.1, hq.2.2.1, hq.2.2.2.1, hq.2.2.2.2,
    Interpreter.chained_of_passes hpasses⟩

end SmallLisp
