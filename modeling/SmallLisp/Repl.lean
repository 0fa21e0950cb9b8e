/-
Interactive sessions.

A session takes one line at a time.  Lines are gathered while the text so far is incomplete; a
text that is complete, or that no further line can mend, is run and let go.  What its forms
changed stays, also if one of them fails.

The answer to a line ends with a prompt: `> ` where a new text begins, `. ` where the current one
goes on.
-/
import SmallLisp.Interpreter
import SmallLisp.Text.Basic

namespace SmallLisp.Repl

/-- Asks for a new text. -/
def prompt : String := "> "

/-- Asks for more of an incomplete text. -/
def continuation : String := ". "

/-- What a session keeps: the text that is gathered, and the store. -/
structure State where
  pending : String
  store : Store

/-- What is shown of a value: nothing of `nil`. -/
def showValue (v : Value) : String :=
  if v.isNil then "" else v.text ++ "\n"

/-- What is shown of a failure. -/
def showFailure (f : Failure) : String :=
  f.message ++ "\n"

/-- Takes a line, and answers it. -/
def line (i : Interpreter) (text : String) (st : State) : String × State :=
  let pending := st.pending ++ text ++ "\n"
  if Text.isBlank pending then (prompt, ⟨"", st.store⟩)
  else
    match i.runSource pending st.store with
    | (.ok v, store) => (showValue v ++ prompt, ⟨"", store⟩)
    | (.error f, store) =>
      if f.isIncomplete then (continuation, ⟨pending, store⟩)
      else (showFailure f ++ prompt, ⟨"", store⟩)

/-- Ends a session.  Text that is still incomplete is reported. -/
def finish (i : Interpreter) (st : State) : String × State :=
  if Text.isBlank st.pending then ("\n", ⟨"", st.store⟩)
  else
    match i.runSource st.pending st.store with
    | (.ok _, store) => ("\n", ⟨"", store⟩)
    | (.error f, store) => (showFailure f ++ "\n", ⟨"", store⟩)

/-- Why a session breaks off at a line that is not valid UTF-8. -/
def notText : Failure :=
  .output "stream did not contain valid UTF-8"

/-- Takes lines one after the other, then ends; `shown` is the output so far.  A line that is not
valid UTF-8 breaks the session off. -/
def lines (i : Interpreter) (shown : String) (st : State) :
    List ByteArray → String × Except Failure Unit × Store
  | [] =>
    let (answer, st) := finish i st
    (shown ++ answer, .ok (), st.store)
  | bytes :: rest =>
    match String.fromUTF8? bytes with
    | none => (shown, .error notText, st.store)
    | some text =>
      let (answer, st) := line i (Text.withoutBreak text) st
      lines i (shown ++ answer) st rest

/-- A whole session: what it shows, how it ends, and the store it leaves. -/
def run (i : Interpreter) (input : ByteArray) (s : Store) : String × Except Failure Unit × Store :=
  lines i prompt ⟨"", s⟩ (Text.lines input)

end SmallLisp.Repl
