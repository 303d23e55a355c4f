import Recase.Console.Program

/-!
# What sessions keep

* `run_ask_nil`, `run_ask_cons`: nothing is read at the end of the input, else the first of its
  lines.
* `terminalOf`: the terminal that a session leaves, with a value or a failure.
* `Keeps`: a property of terminals that a session keeps, however it ends, and a property of the
  value that it gives. It is put together along the steps of the session (`Keeps.pure`,
  `Keeps.throw`, `Keeps.bind`).
* `Terminal.EndsWith`: some lines are the last that have been printed.
-/

namespace Recase.Console

variable {α β : Type} {t : Terminal} {I : Terminal → Prop} {P Q : α → Prop}
  {R : β → Prop} {s : Session α} {next : α → Session β}

/-! ## Questions -/

theorem run_ask_nil (prompt : String) (h : t.input = []) :
    (ask prompt).run t = .error .endOfInput (t.printed prompt) := by
  obtain ⟨world, input, output⟩ := t
  obtain rfl : input = [] := h
  rfl

theorem run_ask_cons {line : String} {rest : List String} (prompt : String)
    (h : t.input = line :: rest) :
    (ask prompt).run t = .ok line { t.printed prompt with input := rest } := by
  obtain ⟨world, input, output⟩ := t
  obtain rfl : input = line :: rest := h
  rfl

/-- What a line is taken for as an answer. -/
def answerOf (line : String) : String := Text.lowercase (Text.trim line)

theorem run_askAnswer_nil (prompt : String) (h : t.input = []) :
    (askAnswer prompt).run t = .error .endOfInput (t.printed prompt) := by
  rw [askAnswer, askTrimmed, EStateM.run_bind, EStateM.run_bind, run_ask_nil prompt h]

theorem run_askAnswer_cons {line : String} {rest : List String} (prompt : String)
    (h : t.input = line :: rest) :
    (askAnswer prompt).run t = .ok (answerOf line) { t.printed prompt with input := rest } := by
  rw [askAnswer, askTrimmed, EStateM.run_bind, EStateM.run_bind, run_ask_cons prompt h]
  rfl

/-! ## Ends -/

/-- The terminal that a session leaves. -/
def terminalOf : EStateM.Result Failure Terminal α → Terminal
  | .ok _ t => t
  | .error _ t => t

theorem finished_snd (t : Terminal) (s : Session Nat) :
    (t.finished s).2 = terminalOf (s.run t) := by
  unfold Terminal.finished
  split <;> rename_i hrun <;> rw [hrun] <;> rfl

/-! ## What is kept -/

/-- From a terminal with a property the session comes to one with it, however it ends, and a value
that it gives has a property of its own. -/
def Keeps (I : Terminal → Prop) (s : Session α) (Q : α → Prop) : Prop :=
  ∀ t, I t → match s.run t with
    | .ok a t' => I t' ∧ Q a
    | .error _ t' => I t'

namespace Keeps

theorem pure {a : α} (h : Q a) : Keeps I (Pure.pure a) Q := fun _ hI => ⟨hI, h⟩

theorem throw (failure : Failure) : Keeps I (throw failure : Session α) Q := fun _ hI => hI

theorem bind (hs : Keeps I s P) (hnext : ∀ a, P a → Keeps I (next a) R) :
    Keeps I (s >>= next) R := by
  intro t hI
  have hfirst := hs t hI
  rw [EStateM.run_bind]
  cases hrun : s.run t with
  | error failure t' => rwa [hrun] at hfirst
  | ok a t' =>
    rw [hrun] at hfirst
    exact hnext a hfirst.2 t' hfirst.1

theorem terminalOf (h : Keeps I s Q) (hI : I t) : I (terminalOf (s.run t)) := by
  have hkept := h t hI
  cases hrun : s.run t with
  | error failure t' => rwa [hrun] at hkept
  | ok a t' =>
    rw [hrun] at hkept
    exact hkept.1

end Keeps

/-! ## What has been printed -/

/-- The lines are the last that have been printed. -/
def Terminal.EndsWith (t : Terminal) (lines : List String) : Prop :=
  ∃ front, t.output = front ++ String.join (lines.map (· ++ "\n"))

end Recase.Console
