/-
The grammar of programs, and that the parser is exact for it.

`Spells e ts` says that the tokens `ts` spell the expression `e`.  It is the grammar read as a
relation, one constructor for each production, and it knows nothing of how a reader goes about its
work: no stack, no cursor, no order of tokens but the one in which they are written.

Completeness is an induction on the spelling.  The tokens of `e`, read where an expression is
awaited, hand `e` to the form around it; this has to be stated for every stack of open forms, since
the parts of `e` are read on top of it.  The one exception is the word `define` as the head of a
list, which the grammar excludes as well.

Soundness is an invariant of single tokens.  `StateSpells s ts` says that `ts` are the tokens of
which a reader in state `s` has made sense: every open form accounts for its own.  A token that is
in place extends that account, and one that completes an expression turns it into a spelling.

Between them they make the parser a function that inverts spelling, so no row of tokens spells two
programs.
-/
import SmallLisp.Proofs.Parse.Reading

namespace SmallLisp.Parse

/-! ### The grammar

The grammar as a relation between tokens and trees, with one constructor for each rule.  It knows of no
state and no stack.
-/

/-- The keyword `define` as an expression. -/
def IsDefine (e : Expr) : Prop :=
  ∃ t, e = .keyword t ∧ t.kind = .keyword .define

/-- Tokens that are names. -/
def Names (ts : List Token) : Prop :=
  ∀ t ∈ ts, t.kind = .symbol

/-- The signature of a definition, without the word `define`: `name (params)` or
`(name (params))`. -/
inductive SpellsSignature (name : Token) (params : List Token) : List Token → Prop where
  | flat {l r : Token} (hname : name.kind = .symbol) (hl : l.kind = .leftParen)
      (hparams : Names params) (hr : r.kind = .rightParen) :
      SpellsSignature name params (name :: l :: params ++ [r])
  | nested {l l' r' r : Token} (hl : l.kind = .leftParen) (hname : name.kind = .symbol)
      (hl' : l'.kind = .leftParen) (hparams : Names params) (hr' : r'.kind = .rightParen)
      (hr : r.kind = .rightParen) :
      SpellsSignature name params (l :: name :: l' :: params ++ [r', r])

mutual

/-- The tokens that spell an expression. -/
inductive Spells : Expr → List Token → Prop where
  | leaf {t : Token} {e : Expr} (h : Leaf t e) : Spells e [t]
  | list {l r : Token} {head : Expr} {operands : List Expr} {hs os : List Token}
      (hl : l.kind = .leftParen) (hdefine : ¬ IsDefine head) (hhead : Spells head hs)
      (hoperands : SpellsAll operands os) (hr : r.kind = .rightParen) :
      Spells (.list head operands) (l :: hs ++ os ++ [r])
  | define {l word r name : Token} {params sig bs : List Token} {body : Expr}
      (hl : l.kind = .leftParen) (hword : word.kind = .keyword .define)
      (hsig : SpellsSignature name params sig) (hbody : Spells body bs)
      (hr : r.kind = .rightParen) :
      Spells (.define name params body) (l :: word :: sig ++ bs ++ [r])

/-- The tokens that spell expressions, one after the other. -/
inductive SpellsAll : List Expr → List Token → Prop where
  | nil : SpellsAll [] []
  | cons {e : Expr} {es : List Expr} {ts us : List Token} (h : Spells e ts)
      (hs : SpellsAll es us) : SpellsAll (e :: es) (ts ++ us)

end

theorem SpellsAll.append {es fs : List Expr} {ts us : List Token} (h : SpellsAll es ts)
    (h' : SpellsAll fs us) : SpellsAll (es ++ fs) (ts ++ us) := by
  induction es generalizing ts with
  | nil => cases h; exact h'
  | cons e es ih =>
      cases h with
      | cons he hes =>
          rw [List.cons_append, List.append_assoc]
          exact .cons he (ih hes)

theorem SpellsAll.single {e : Expr} {ts : List Token} (h : Spells e ts) : SpellsAll [e] ts := by
  simpa using SpellsAll.cons h .nil

/-! ### What the parser reads of a spelling

One direction: whoever reads the tokens of an expression comes to the expression.  The induction is on the
spelling, for any forms that are open around it.
-/

/-- An expression that is awaited by the given forms: anything, but not `define` as the head of a
list. -/
def Admits (forms : List OpenForm) (e : Expr) : Prop :=
  forms.head? = some .head → ¬ IsDefine e

theorem Leaf.isDefine {t : Token} {e : Expr} (h : Leaf t e) (hkind : t.kind = .keyword .define) :
    IsDefine e := by
  cases h <;> simp_all [IsDefine]

/-- What a reader knows once an expression has been handed to the forms around it. -/
def handed (found : List Expr) (e : Expr) : List OpenForm → Reading
  | [] => ⟨found ++ [e], .initial⟩
  | .head :: forms => ⟨found, ⟨none, .operands e [] :: forms⟩⟩
  | .operands head read :: forms => ⟨found, ⟨none, .operands head (e :: read) :: forms⟩⟩
  | .body name params :: forms => ⟨found, ⟨some (.close name params e), forms⟩⟩

theorem settle_complete (found : List Expr) (e : Expr) (forms : List OpenForm) :
    Reading.settle found (complete e forms) = .ok (handed found e forms) := by
  rcases forms with _ | ⟨_ | _ | _, forms⟩ <;> rfl

/-- Where an expression is awaited, a token that neither ends a list nor makes it a definition
is read as the start of one. -/
theorem step_start {t : Token} {forms : List OpenForm} (hr : t.kind ≠ .rightParen)
    (hdefine : forms.head? = some .head → t.kind ≠ .keyword .define) :
    step t ⟨none, forms⟩ = start t forms := by
  rcases forms with _ | ⟨_ | _ | _, forms⟩
  · rfl
  · simp only [step, inForms, if_neg (hdefine rfl)]
  · simp only [step, inForms, if_neg hr]
  · rfl

theorem take_open {l : Token} (hl : l.kind = .leftParen) (found : List Expr)
    (forms : List OpenForm) :
    Reading.take ⟨found, ⟨none, forms⟩⟩ l = .ok ⟨found, ⟨none, .head :: forms⟩⟩ := by
  unfold Reading.take
  rw [step_start (by simp [hl]) (by simp [hl])]
  simp [start, hl, Reading.settle]

theorem take_leaf {t : Token} {e : Expr} (h : Leaf t e) (found : List Expr)
    {forms : List OpenForm} (hforms : Admits forms e) :
    Reading.take ⟨found, ⟨none, forms⟩⟩ t = .ok (handed found e forms) := by
  unfold Reading.take
  rw [step_start, start_of_leaf h, settle_complete]
  · intro hr
    cases h <;> simp_all
  · exact fun hhead hkind => hforms hhead (h.isDefine hkind)

theorem take_close {r : Token} (hr : r.kind = .rightParen) (found : List Expr) (head : Expr)
    (read : List Expr) (forms : List OpenForm) :
    Reading.take ⟨found, ⟨none, .operands head read :: forms⟩⟩ r =
      .ok (handed found (.list head read.reverse) forms) := by
  simp only [Reading.take, step, inForms, if_pos hr, settle_complete]

theorem take_close_definition {r : Token} (hr : r.kind = .rightParen) (found : List Expr)
    (name : Token) (params : List Token) (body : Expr) (forms : List OpenForm) :
    Reading.take ⟨found, ⟨some (.close name params body), forms⟩⟩ r =
      .ok (handed found (.define name params body) forms) := by
  simp only [Reading.take, step, inDefinition, expect, if_pos hr, settle_complete]

/-- The names of parameters are gathered. -/
theorem takeAll_names {params : List Token} (h : Names params) (found : List Expr)
    (nested : Bool) (name : Token) (read : List Token) (forms : List OpenForm) :
    Reading.takeAll ⟨found, ⟨some (.params nested name read), forms⟩⟩ params =
      .ok ⟨found, ⟨some (.params nested name (params.reverse ++ read)), forms⟩⟩ := by
  induction params generalizing read with
  | nil => rfl
  | cons p params ih =>
      have hp : p.kind = .symbol := h p List.mem_cons_self
      have htake : Reading.take ⟨found, ⟨some (.params nested name read), forms⟩⟩ p =
          .ok ⟨found, ⟨some (.params nested name (p :: read)), forms⟩⟩ := by
        simp [Reading.take, step, inDefinition, expect, hp, Reading.settle]
      rw [Reading.takeAll_cons_ok htake, ih fun t ht => h t (List.mem_cons_of_mem _ ht)]
      simp

theorem takeAll_signature {name : Token} {params sig : List Token}
    (h : SpellsSignature name params sig) (found : List Expr) (forms : List OpenForm) :
    Reading.takeAll ⟨found, ⟨some .signature, forms⟩⟩ sig =
      .ok ⟨found, ⟨none, .body name params :: forms⟩⟩ := by
  cases h with
  | @flat l r hname hl hparams hr =>
      have hstart : Reading.takeAll ⟨found, ⟨some .signature, forms⟩⟩ [name, l] =
          .ok ⟨found, ⟨some (.params false name []), forms⟩⟩ := by
        simp [Reading.takeAll, Reading.take, step, inDefinition, expect, Reading.settle, *]
      rw [show name :: l :: params ++ [r] = [name, l] ++ (params ++ [r]) from rfl,
        Reading.takeAll_append_ok hstart, Reading.takeAll_append_ok (takeAll_names hparams ..)]
      simp [Reading.takeAll, Reading.take, step, inDefinition, Reading.settle, hr]
  | @nested l l' r' r hl hname hl' hparams hr' hr =>
      have hstart : Reading.takeAll ⟨found, ⟨some .signature, forms⟩⟩ [l, name, l'] =
          .ok ⟨found, ⟨some (.params true name []), forms⟩⟩ := by
        simp [Reading.takeAll, Reading.take, step, inDefinition, expect, Reading.settle, *]
      rw [show l :: name :: l' :: params ++ [r', r] = [l, name, l'] ++ (params ++ [r', r]) from rfl,
        Reading.takeAll_append_ok hstart, Reading.takeAll_append_ok (takeAll_names hparams ..)]
      simp [Reading.takeAll, Reading.take, step, inDefinition, expect, Reading.settle, hr, hr']

mutual

/-- **The tokens of an expression hand it to the forms around it.** -/
theorem takeAll_of_spells {e : Expr} {ts : List Token} (h : Spells e ts) (found : List Expr)
    (forms : List OpenForm) (hforms : Admits forms e) :
    Reading.takeAll ⟨found, ⟨none, forms⟩⟩ ts = .ok (handed found e forms) := by
  match h with
  | .leaf hleaf =>
      rw [Reading.takeAll_cons_ok (take_leaf hleaf found hforms), Reading.takeAll_nil]
  | @Spells.list l r head operands hs os hl hdefine hhead hoperands hr =>
      have hhead' := takeAll_of_spells hhead found (.head :: forms) fun _ => hdefine
      have hoperands' := takeAll_of_spellsAll hoperands found head [] forms
      rw [List.append_assoc, List.cons_append, Reading.takeAll_cons_ok (take_open hl ..),
        Reading.takeAll_append_ok hhead', handed, Reading.takeAll_append_ok hoperands',
        Reading.takeAll_cons_ok (take_close hr ..), Reading.takeAll_nil]
      simp
  | @Spells.define l word r name params sig bs body hl hword hsig hbody hr =>
      have hword' : Reading.take ⟨found, ⟨none, .head :: forms⟩⟩ word =
          .ok ⟨found, ⟨some .signature, forms⟩⟩ := by
        simp [Reading.take, step, inForms, hword, Reading.settle]
      have hbody' := takeAll_of_spells hbody found (.body name params :: forms) (by simp [Admits])
      rw [List.append_assoc, List.cons_append, List.cons_append,
        Reading.takeAll_cons_ok (take_open hl ..), Reading.takeAll_cons_ok hword',
        Reading.takeAll_append_ok (takeAll_signature hsig ..), Reading.takeAll_append_ok hbody',
        handed, Reading.takeAll_cons_ok (take_close_definition hr ..), Reading.takeAll_nil]

/-- The tokens of operands are read as operands. -/
theorem takeAll_of_spellsAll {es : List Expr} {ts : List Token} (h : SpellsAll es ts)
    (found : List Expr) (head : Expr) (read : List Expr) (forms : List OpenForm) :
    Reading.takeAll ⟨found, ⟨none, .operands head read :: forms⟩⟩ ts =
      .ok ⟨found, ⟨none, .operands head (es.reverse ++ read) :: forms⟩⟩ := by
  match h with
  | .nil => rfl
  | @SpellsAll.cons e es ts us he hes =>
      have he' := takeAll_of_spells he found (.operands head read :: forms) (by simp [Admits])
      rw [Reading.takeAll_append_ok he', handed,
        takeAll_of_spellsAll hes found head (e :: read) forms]
      simp

end

/-- The tokens of a program are read as its expressions. -/
theorem takeAll_program {es : List Expr} {ts : List Token} (h : SpellsAll es ts)
    (found : List Expr) :
    Reading.takeAll ⟨found, .initial⟩ ts = .ok ⟨found ++ es, .initial⟩ := by
  induction es generalizing ts found with
  | nil => cases h; simp
  | cons e es ih =>
      cases h with
      | cons he hes =>
          have he' := takeAll_of_spells he found [] (by simp [Admits])
          rw [← State.initial] at he'
          rw [Reading.takeAll_append_ok he', handed, ih hes]
          simp

/-! ### What a reader has made sense of

The other direction: whatever state the reader is in, the tokens that have led there account for it.  This
is an invariant of single tokens, and an open form is a spelling without its end.
-/

/-- The tokens that open forms account for. -/
inductive OpenSpells : List OpenForm → List Token → Prop where
  | nil : OpenSpells [] []
  | head {forms : List OpenForm} {ts : List Token} {l : Token} (h : OpenSpells forms ts)
      (hl : l.kind = .leftParen) : OpenSpells (.head :: forms) (ts ++ [l])
  | operands {forms : List OpenForm} {ts hs os : List Token} {l : Token} {head : Expr}
      {read : List Expr} (h : OpenSpells forms ts) (hl : l.kind = .leftParen)
      (hdefine : ¬ IsDefine head) (hhead : Spells head hs)
      (hread : SpellsAll read.reverse os) :
      OpenSpells (.operands head read :: forms) (ts ++ (l :: hs ++ os))
  | body {forms : List OpenForm} {ts params sig : List Token} {l word name : Token}
      (h : OpenSpells forms ts) (hl : l.kind = .leftParen) (hword : word.kind = .keyword .define)
      (hsig : SpellsSignature name params sig) :
      OpenSpells (.body name params :: forms) (ts ++ (l :: word :: sig))

/-- The beginning of a signature, up to the opening of the parameters. -/
inductive OpensSignature (name : Token) : (nested : Bool) → List Token → Prop where
  | flat (hname : name.kind = .symbol) : OpensSignature name false [name]
  | nested {l : Token} (hl : l.kind = .leftParen) (hname : name.kind = .symbol) :
      OpensSignature name true [l, name]

/-- The tokens after the word `define` that an open definition accounts for. -/
inductive DefinitionSpells : OpenDefinition → List Token → Prop where
  | signature : DefinitionSpells .signature []
  | nestedName {l : Token} (hl : l.kind = .leftParen) : DefinitionSpells .nestedName [l]
  | openParams {nested : Bool} {name : Token} {ts : List Token}
      (h : OpensSignature name nested ts) : DefinitionSpells (.openParams nested name) ts
  | params {nested : Bool} {name l : Token} {ts read : List Token}
      (h : OpensSignature name nested ts) (hl : l.kind = .leftParen) (hread : Names read) :
      DefinitionSpells (.params nested name read) (ts ++ l :: read.reverse)
  | closeSignature {name l r : Token} {params ts : List Token}
      (h : OpensSignature name true ts) (hl : l.kind = .leftParen) (hparams : Names params)
      (hr : r.kind = .rightParen) :
      DefinitionSpells (.closeSignature name params) (ts ++ (l :: params ++ [r]))
  | close {name : Token} {params sig bs : List Token} {body : Expr}
      (hsig : SpellsSignature name params sig) (hbody : Spells body bs) :
      DefinitionSpells (.close name params body) (sig ++ bs)

/-- The tokens that the state of a reader accounts for. -/
inductive StateSpells : State → List Token → Prop where
  | forms {forms : List OpenForm} {ts : List Token} (h : OpenSpells forms ts) :
      StateSpells ⟨none, forms⟩ ts
  | definition {d : OpenDefinition} {forms : List OpenForm} {ts ds : List Token} {l word : Token}
      (h : OpenSpells forms ts) (hl : l.kind = .leftParen) (hword : word.kind = .keyword .define)
      (hd : DefinitionSpells d ds) : StateSpells ⟨some d, forms⟩ (ts ++ (l :: word :: ds))

/-- What the tokens up to now are, once the last of them has been read. -/
def StepSpells (ts : List Token) : Step → Prop
  | .more s => StateSpells s ts
  | .done e => Spells e ts
  | .refuse _ => True
  | .hollow => True

theorem stepSpells_complete {forms : List OpenForm} {e : Expr} {ts us : List Token}
    (h : OpenSpells forms ts) (he : Spells e us) (hforms : Admits forms e) :
    StepSpells (ts ++ us) (complete e forms) := by
  cases h with
  | nil => exact he
  | @head forms ts l h hl =>
      have hread : SpellsAll ([] : List Expr).reverse [] := .nil
      exact .forms (by simpa using OpenSpells.operands h hl (hforms rfl) he hread)
  | @operands forms ts hs os l head read h hl hdefine hhead hread =>
      have hread' : SpellsAll (e :: read).reverse (os ++ us) := by
        rw [List.reverse_cons]
        exact hread.append (.single he)
      exact .forms (by simpa using OpenSpells.operands h hl hdefine hhead hread')
  | @body forms ts params sig l word name h hl hword hsig =>
      have := StateSpells.definition h hl hword (.close hsig he)
      simpa [StepSpells, complete] using this

theorem stepSpells_start {forms : List OpenForm} {ts : List Token} (h : OpenSpells forms ts)
    {t : Token} (hdefine : forms.head? = some .head → t.kind ≠ .keyword .define) :
    StepSpells (ts ++ [t]) (start t forms) := by
  rcases start_cases t forms with ⟨hkind, hstart⟩ | ⟨e, he, hstart⟩ | hstart | ⟨_, hstart⟩ <;>
    rw [hstart]
  · exact .forms (.head h hkind)
  · refine stepSpells_complete h (.leaf he) fun hhead hisDefine => hdefine hhead ?_
    obtain ⟨t', rfl, hkind⟩ := hisDefine
    cases he
    exact hkind
  · trivial
  · trivial

theorem stepSpells_inForms {forms : List OpenForm} {ts : List Token} (h : OpenSpells forms ts)
    (t : Token) : StepSpells (ts ++ [t]) (inForms t forms) := by
  rcases forms with _ | ⟨_ | _ | _, forms⟩
  · exact stepSpells_start h (by simp)
  · simp only [inForms]
    split
    · rename_i hkind
      cases h with
      | head h hl =>
          have := StateSpells.definition h hl hkind .signature
          simpa [StepSpells] using this
    · rename_i hkind
      exact stepSpells_start h fun _ => hkind
  · simp only [inForms]
    split
    · rename_i hkind
      cases h with
      | operands h hl hdefine hhead hread =>
          have hlist := Spells.list hl hdefine hhead hread hkind
          have := stepSpells_complete h hlist fun _ => by simp [IsDefine]
          simpa using this
    · exact stepSpells_start h (by simp)
  · exact stepSpells_start h (by simp)

theorem stepSpells_expect {kind : TokenKind} {detail : String} {t : Token} {next : Step}
    {ts : List Token} (h : t.kind = kind → StepSpells ts next) :
    StepSpells ts (expect kind detail t next) := by
  unfold expect
  split
  · exact h ‹_›
  · trivial

/-- The tokens of a whole signature, from those of its beginning. -/
theorem OpensSignature.close_flat {name l r : Token} {params ts : List Token}
    (h : OpensSignature name false ts) (hl : l.kind = .leftParen) (hparams : Names params)
    (hr : r.kind = .rightParen) : SpellsSignature name params (ts ++ (l :: params ++ [r])) := by
  cases h with
  | flat hname => exact .flat hname hl hparams hr

theorem OpensSignature.close_nested {name l r' r : Token} {params ts : List Token}
    (h : OpensSignature name true ts) (hl : l.kind = .leftParen) (hparams : Names params)
    (hr' : r'.kind = .rightParen) (hr : r.kind = .rightParen) :
    SpellsSignature name params (ts ++ (l :: params ++ [r', r])) := by
  cases h with
  | nested hl' hname => exact .nested hl' hname hl hparams hr' hr

theorem stepSpells_inDefinition {forms : List OpenForm} {d : OpenDefinition}
    {ts ds : List Token} {l word : Token} (h : OpenSpells forms ts) (hl : l.kind = .leftParen)
    (hword : word.kind = .keyword .define) (hd : DefinitionSpells d ds) (t : Token) :
    StepSpells (ts ++ (l :: word :: ds) ++ [t]) (inDefinition t forms d) := by
  -- The definition goes on, with one more token to its account.
  have more {d' : OpenDefinition} {ds' : List Token} (hd' : DefinitionSpells d' ds')
      (hds : ds' = ds ++ [t]) :
      StepSpells (ts ++ (l :: word :: ds) ++ [t]) (.more ⟨some d', forms⟩) := by
    subst hds
    have := StateSpells.definition h hl hword hd'
    simpa [StepSpells] using this
  -- The signature ends here, and the body is awaited.
  have body {name : Token} {params sig : List Token} (hsig : SpellsSignature name params sig)
      (hds : sig = ds ++ [t]) :
      StepSpells (ts ++ (l :: word :: ds) ++ [t]) (.more ⟨none, .body name params :: forms⟩) := by
    subst hds
    have := StateSpells.forms (OpenSpells.body h hl hword hsig)
    simpa [StepSpells] using this
  cases hd with
  | signature =>
      simp only [inDefinition]
      split
      · exact more (.nestedName ‹_›) rfl
      · exact stepSpells_expect fun ht => more (.openParams (.flat ht)) rfl
  | nestedName hl' => exact stepSpells_expect fun ht => more (.openParams (.nested hl' ht)) rfl
  | openParams hsig =>
      have hread : Names [] := by simp [Names]
      exact stepSpells_expect fun ht => more (.params hsig ht hread) rfl
  | @params nested name l' sig read hsig hl' hread =>
      have hread' : Names read.reverse := by simpa [Names] using hread
      simp only [inDefinition]
      split
      · rename_i ht
        cases nested with
        | true => exact more (.closeSignature hsig hl' hread' ht) (by simp)
        | false => exact body (hsig.close_flat hl' hread' ht) (by simp)
      · refine stepSpells_expect fun ht => ?_
        have hread' : Names (t :: read) := by simpa [Names] using And.intro ht hread
        exact more (.params hsig hl' hread') (by simp)
  | closeSignature hsig hl' hparams hr' =>
      exact stepSpells_expect fun ht => body (hsig.close_nested hl' hparams hr' ht) (by simp)
  | close hsig hbody =>
      refine stepSpells_expect fun ht => ?_
      have hdefine := Spells.define hl hword hsig hbody ht
      have := stepSpells_complete h hdefine fun _ => by simp [IsDefine]
      simpa using this

/-- **A token that is in place extends what a reader has made sense of.** -/
theorem stepSpells_step {s : State} {ts : List Token} (h : StateSpells s ts) (t : Token) :
    StepSpells (ts ++ [t]) (step t s) := by
  cases h with
  | forms h => exact stepSpells_inForms h t
  | definition h hl hword hd => exact stepSpells_inDefinition h hl hword hd t

/-- What has been read of a program: the spelling of its complete expressions, and the tokens that
the open one accounts for. -/
def ReadingSpells (r : Reading) (ts : List Token) : Prop :=
  ∃ us vs, ts = us ++ vs ∧ SpellsAll r.found us ∧ StateSpells r.current vs

theorem readingSpells_take {r r' : Reading} {ts : List Token} {t : Token}
    (h : ReadingSpells r ts) (htake : r.take t = .ok r') : ReadingSpells r' (ts ++ [t]) := by
  obtain ⟨us, vs, rfl, hfound, hcurrent⟩ := h
  have hstep := stepSpells_step hcurrent t
  unfold Reading.take at htake
  cases hs : step t r.current with
  | more s =>
      rw [hs] at htake hstep
      cases htake
      exact ⟨us, vs ++ [t], by simp, hfound, hstep⟩
  | done e =>
      rw [hs] at htake hstep
      cases htake
      exact ⟨us ++ (vs ++ [t]), [], by simp, hfound.append (.single hstep), .forms .nil⟩
  | refuse detail => rw [hs] at htake; cases htake
  | hollow => rw [hs] at htake; cases htake

theorem readingSpells_takeAll {r r' : Reading} {ts us : List Token} (h : ReadingSpells r ts)
    (htake : r.takeAll us = .ok r') : ReadingSpells r' (ts ++ us) := by
  induction us generalizing r ts with
  | nil => cases htake; simpa using h
  | cons t us ih =>
      obtain ⟨r₁, ht, hrest⟩ := Reading.exists_of_takeAll_cons htake
      simpa using ih (readingSpells_take h ht) hrest

theorem readingSpells_initial : ReadingSpells .initial [] :=
  ⟨[], [], rfl, .nil, .forms .nil⟩

/-- Where no expression is open, the tokens spell the expressions that have been found. -/
theorem spellsAll_of_takeAll {ts : List Token} {forms : List Expr}
    (h : Reading.takeAll .initial ts = .ok ⟨forms, .initial⟩) : SpellsAll forms ts := by
  obtain ⟨us, vs, hts, hfound, hcurrent⟩ := readingSpells_takeAll readingSpells_initial h
  have hvs : vs = [] := by
    cases hcurrent with
    | forms h => cases h; rfl
  subst hts hvs
  simpa using hfound

/-! ### Trees that have a spelling

The tokens of a tree can be written down from the tree, in the plainest way.  A tree of the grammar is the
reading of these, and no other tree is the reading of any.
-/

/-- The tokens of a spelling of an expression, as plain as can be: parentheses, the word `define`
and literals are made up, symbols, operators and keywords are those of the expression. -/
def made (kind : TokenKind) (literal : Option Literal) : Token :=
  ⟨kind, kind.name, literal, 0⟩

/-- The token of a datum.  There is none for `false`. -/
def datumToken : Datum → Token
  | .number x => made .number (some (.number x))
  | .text s => made .string (some (.text s))
  | .bool _ => made .true none
  | .nil => made .nil none

mutual

/-- A row of tokens for an expression: lists in parentheses, definitions with a flat signature. -/
def flatten : Expr → List Token
  | .datum d => [datumToken d]
  | .symbol t => [t]
  | .operator t => [t]
  | .keyword t => [t]
  | .list head operands =>
    made .leftParen none :: flatten head ++ flattenAll operands ++ [made .rightParen none]
  | .define name params body =>
    made .leftParen none :: made (.keyword .define) none ::
      (name :: made .leftParen none :: params ++ [made .rightParen none]) ++ flatten body ++
        [made .rightParen none]

/-- A row of tokens for expressions, one after the other. -/
def flattenAll : List Expr → List Token
  | [] => []
  | e :: es => flatten e ++ flattenAll es

end

mutual

/-- The trees of the grammar: leaves hold tokens of their kind, no list begins with `define`, and
definitions have names for names. -/
def Grammatical : Expr → Prop
  | .datum d => d ≠ .bool false
  | .symbol t => t.kind = .symbol
  | .operator t => t.kind.isOperator = true
  | .keyword t => t.kind.isKeyword = true
  | .list head operands => ¬ IsDefine head ∧ Grammatical head ∧ GrammaticalAll operands
  | .define name params body => name.kind = .symbol ∧ Names params ∧ Grammatical body

/-- Expressions that are all trees of the grammar. -/
def GrammaticalAll : List Expr → Prop
  | [] => True
  | e :: es => Grammatical e ∧ GrammaticalAll es

end

theorem leaf_datumToken {d : Datum} (h : d ≠ .bool false) : Leaf (datumToken d) (.datum d) := by
  cases d with
  | number x => exact .number rfl rfl
  | text s => exact .text rfl rfl
  | bool b => cases b <;> first | exact absurd rfl h | exact .true rfl
  | nil => exact .nil rfl

mutual

/-- A tree of the grammar is spelled by its own tokens. -/
theorem spells_flatten (e : Expr) (h : Grammatical e) : Spells e (flatten e) := by
  match e with
  | .datum d => exact .leaf (leaf_datumToken h)
  | .symbol t => exact .leaf (.symbol h)
  | .operator t =>
      cases hkind : t.kind with
      | operator op => exact .leaf (.operator hkind)
      | _ => simp [Grammatical, TokenKind.isOperator, hkind] at h
  | .keyword t =>
      cases hkind : t.kind with
      | keyword k => exact .leaf (.keyword hkind)
      | _ => simp [Grammatical, TokenKind.isKeyword, hkind] at h
  | .list head operands =>
      obtain ⟨hdefine, hhead, hoperands⟩ := h
      exact .list rfl hdefine (spells_flatten head hhead)
        (spellsAll_flattenAll operands hoperands) rfl
  | .define name params body =>
      obtain ⟨hname, hparams, hbody⟩ := h
      exact .define rfl rfl (.flat hname rfl hparams rfl) (spells_flatten body hbody) rfl

theorem spellsAll_flattenAll (es : List Expr) (h : GrammaticalAll es) :
    SpellsAll es (flattenAll es) := by
  match es with
  | [] => exact .nil
  | e :: es => exact .cons (spells_flatten e h.1) (spellsAll_flattenAll es h.2)

end

mutual

/-- Only trees of the grammar are spelled. -/
theorem grammatical_of_spells {e : Expr} {ts : List Token} (h : Spells e ts) : Grammatical e := by
  match h with
  | .leaf hleaf => cases hleaf <;> simp_all [Grammatical, TokenKind.isOperator, TokenKind.isKeyword]
  | .list _ hdefine hhead hoperands _ =>
      exact ⟨hdefine, grammatical_of_spells hhead, grammaticalAll_of_spellsAll hoperands⟩
  | .define _ _ hsig hbody _ =>
      cases hsig with
      | flat hname _ hparams _ => exact ⟨hname, hparams, grammatical_of_spells hbody⟩
      | nested _ hname _ hparams _ _ => exact ⟨hname, hparams, grammatical_of_spells hbody⟩

theorem grammaticalAll_of_spellsAll {es : List Expr} {ts : List Token} (h : SpellsAll es ts) :
    GrammaticalAll es := by
  match h with
  | .nil => trivial
  | .cons he hes => exact ⟨grammatical_of_spells he, grammaticalAll_of_spellsAll hes⟩

end

/-! ### The parser inverts spelling

Both directions together.  That there is one reading only needs no argument of its own, since the parser is
a function.
-/

theorem parse_eq_ok_iff {ts : List Token} {forms : List Expr} :
    parse ts = .ok forms ↔ SpellsAll forms (beforeEnd ts) := by
  rw [parse_eq_ok_iff_takeAll]
  constructor
  · intro h
    exact spellsAll_of_takeAll h
  · intro h
    exact takeAll_program h []

theorem endless_of_names {ts : List Token} (h : Names ts) : Endless ts :=
  fun t ht => by simp [h t ht]

theorem endless_of_spellsSignature {name : Token} {params sig : List Token}
    (h : SpellsSignature name params sig) : Endless sig := by
  cases h with
  | flat hname hl hparams hr =>
      have := endless_of_names hparams
      simp_all [Endless, or_imp]
  | nested hl hname hl' hparams hr' hr =>
      have := endless_of_names hparams
      simp_all [Endless, or_imp]

mutual

/-- No token of a spelling marks the end of input. -/
theorem endless_of_spells {e : Expr} {ts : List Token} (h : Spells e ts) : Endless ts := by
  match h with
  | .leaf hleaf => cases hleaf <;> simp_all [Endless]
  | .list hl _ hhead hoperands hr =>
      have hhead' := endless_of_spells hhead
      have hoperands' := endless_of_spellsAll hoperands
      intro t ht
      simp only [List.mem_append, List.mem_cons, List.not_mem_nil, or_false] at ht
      rcases ht with ((rfl | ht) | ht) | rfl
      · simp [hl]
      · exact hhead' t ht
      · exact hoperands' t ht
      · simp [hr]
  | .define hl hword hsig hbody hr =>
      have hbody' := endless_of_spells hbody
      intro t ht
      simp only [List.mem_append, List.mem_cons, List.not_mem_nil, or_false] at ht
      rcases ht with ((rfl | rfl | ht) | ht) | rfl
      · simp [hl]
      · simp [hword]
      · exact endless_of_spellsSignature hsig t ht
      · exact hbody' t ht
      · simp [hr]

theorem endless_of_spellsAll {es : List Expr} {ts : List Token} (h : SpellsAll es ts) :
    Endless ts := by
  match h with
  | .nil => simp [Endless]
  | .cons he hes =>
      intro t ht
      rcases List.mem_append.mp ht with ht | ht
      · exact endless_of_spells he t ht
      · exact endless_of_spellsAll hes t ht

end

/-- What spells a program is read as that program, whatever stands behind its end. -/
theorem parse_of_spellsAll {forms : List Expr} {ts rest : List Token} (h : SpellsAll forms ts)
    (hrest : Ended rest) : parse (ts ++ rest) = .ok forms := by
  rw [parse_eq_ok_iff, beforeEnd_append (endless_of_spellsAll h),
    beforeEnd_of_ended hrest, List.append_nil]
  exact h

/--
**The parser accepts exactly the grammar and builds the one tree it assigns.**

Forms are the result for a row of tokens exactly when the tokens before its end spell them.  So
what spells a program is read back as that program, with its tokens, whatever stands behind its
end; every tree of the grammar has such a spelling, and no row of tokens spells two programs.
-/
theorem parse_eq_ok_iff_spellsAll :
    (∀ (ts : List Token) (forms : List Expr),
      parse ts = .ok forms ↔ SpellsAll forms (beforeEnd ts)) ∧
    (∀ (forms : List Expr) (ts rest : List Token),
      SpellsAll forms ts → Ended rest → parse (ts ++ rest) = .ok forms) ∧
    (∀ forms : List Expr,
      (GrammaticalAll forms ↔ ∃ ts, SpellsAll forms ts) ∧
      (GrammaticalAll forms → parse (flattenAll forms) = .ok forms)) ∧
    (∀ (forms forms' : List Expr) (ts : List Token),
      SpellsAll forms ts → SpellsAll forms' ts → forms = forms') := by
  refine ⟨?exact, ?recovered, ?trees, ?unambiguous⟩
  case exact =>
    intro ts forms
    exact parse_eq_ok_iff
  case recovered =>
    intro forms ts rest h hrest
    exact parse_of_spellsAll h hrest
  case trees =>
    intro forms
    refine ⟨⟨fun h => ⟨_, spellsAll_flattenAll forms h⟩, fun ⟨_, h⟩ =>
      grammaticalAll_of_spellsAll h⟩, fun h => ?_⟩
    simpa using parse_of_spellsAll (spellsAll_flattenAll forms h) ended_nil
  case unambiguous =>
    intro forms forms' ts h h'
    have hparse := parse_of_spellsAll h ended_nil
    rw [parse_of_spellsAll h' ended_nil] at hparse
    exact (Except.ok.inj hparse).symm

end SmallLisp.Parse
