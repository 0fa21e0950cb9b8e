/-
What a session answers, line by line.

A session writes its answers into one text, where a value that happens to read like a complaint
cannot be told from one.  A transcript keeps them apart: for every line it has what became of the
text that was gathered, together with the forms that were run.  The text of a session is the text of
its transcript, and the store is the same, so what is to be said of sessions can be said of
transcripts.
-/
import SmallLisp.Proofs.Text.Lines
import SmallLisp.Repl

namespace SmallLisp.Repl

/-- What becomes of a text that has been gathered. -/
inductive Answer where
  /-- There is nothing to run. -/
  | blank
  /-- The text goes on. -/
  | more
  /-- These forms have been run, and the last had this value. -/
  | value (forms : List Expr) (v : Value)
  /-- The text is let go, as it cannot be read or its run has failed. -/
  | failure (f : Failure)

namespace Answer

/-- How an answer is shown. -/
def text : Answer → String
  | blank => prompt
  | more => continuation
  | value _ v => showValue v ++ prompt
  | failure f => showFailure f ++ prompt

/-- What an answer keeps of the text. -/
def kept (pending : String) : Answer → String
  | more => pending
  | _ => ""

/-- The value that has been computed, if there was a form to compute it from. -/
def value? : Answer → Option Value
  | value (_ :: _) v => some v
  | _ => none

end Answer

/-- What becomes of a text, and the store after that. -/
def answer (i : Interpreter) (pending : String) (s : Store) : Answer × Store :=
  if Text.isBlank pending then (.blank, s)
  else
    match readForms pending with
    | .error f => (if f.isIncomplete then .more else .failure f, s)
    | .ok forms =>
      match i.run forms s with
      | (.ok v, s) => (.value forms v, s)
      | (.error e, s) => (.failure (.eval e), s)

/-- Takes a line. -/
def take (i : Interpreter) (text : String) (st : State) : Answer × State :=
  let pending := st.pending ++ text ++ "\n"
  let (a, s) := answer i pending st.store
  (a, ⟨a.kept pending, s⟩)

/-- The answers to lines, each with the line break that ends it, and what the session keeps in the
end. -/
def transcript (i : Interpreter) (st : State) : List String → List Answer × State
  | [] => ([], st)
  | text :: rest =>
    let (a, st) := take i (Text.withoutBreak text) st
    let (answers, st) := transcript i st rest
    (a :: answers, st)

/-! ### A session shows its transcript

A session and its transcript take the same line at a time.  So they agree after each, by induction on the
lines.
-/

theorem line_eq_take (i : Interpreter) (text : String) (st : State) :
    line i text st = ((take i text st).1.text, (take i text st).2) := by
  unfold line take answer Interpreter.runSource
  simp only
  by_cases hblank : Text.isBlank (st.pending ++ text ++ "\n") = true
  · rw [if_pos hblank, if_pos hblank]
    rfl
  · rw [if_neg hblank, if_neg hblank]
    cases readForms (st.pending ++ text ++ "\n") with
    | error f =>
        simp only
        by_cases hf : f.isIncomplete = true
        · rw [if_pos hf, if_pos hf]
          rfl
        · rw [if_neg hf, if_neg hf]
          rfl
    | ok forms =>
        simp only
        rcases i.run forms st.store with ⟨e | v, s⟩ <;> rfl

theorem transcript_cons (i : Interpreter) (st : State) (text : String) (rest : List String) :
    transcript i st (text :: rest) =
      ((take i (Text.withoutBreak text) st).1 ::
          (transcript i (take i (Text.withoutBreak text) st).2 rest).1,
        (transcript i (take i (Text.withoutBreak text) st).2 rest).2) :=
  rfl

/-- **The text of a session is that of its transcript, and so is the store it leaves.** -/
theorem lines_eq_transcript (i : Interpreter) (shown : String) (st : State)
    (texts : List String) :
    lines i shown st (texts.map String.toUTF8) =
      (shown ++ String.join ((transcript i st texts).1.map Answer.text) ++
          (finish i (transcript i st texts).2).1,
        .ok (), (finish i (transcript i st texts).2).2.store) := by
  induction texts generalizing shown st with
  | nil => simp [lines, transcript, String.join]
  | cons text texts ih =>
      rw [List.map_cons, lines, Text.fromUTF8?_toUTF8, transcript_cons]
      simp only
      rw [line_eq_take, ih, List.map_cons, String.join_cons]
      simp only [String.append_assoc]

end SmallLisp.Repl
