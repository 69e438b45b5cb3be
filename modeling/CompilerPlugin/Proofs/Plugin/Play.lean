import CompilerPlugin.Plugin.Run
import CompilerPlugin.Proofs.Response.Calls

/-!
A handler apart from its run: the calls that come to be made on a writer, its own and those that its
warnings lead to, and its value. What is printed does not enter into it, but for whether a line can be.
-/

namespace CompilerPlugin.Plugin

open Response (Writer Issue Mode)

namespace Lines

variable {l other : Lines}

@[simp] theorem fault_print (line : String) : (l.print line).1.fault = l.fault := by
  rw [print]
  split <;> simp [*]

theorem answer_print (same : l.fault = other.fault) (line : String) :
    (l.print line).2 = (other.print line).2 := by
  rw [print, print, same]
  split <;> rfl

end Lines

/-- The calls that a handling comes to make on a writer, and its value, where `echo` tells the calls that
warnings lead to. Only whether the stream for people is broken matters to it. -/
def Handling.trace {α : Type} (mode : Mode) (people : Lines)
    (echo : Writer → List Issue → List Writer.Call) : Writer → Handling α → List Writer.Call × α
  | _, .done a => ([], a)
  | w, .write c next =>
    let o := w.perform mode c
    let echoes := echo o.writer o.warnings
    let later := trace mode people echo (Writer.after (Writer.perform mode) o.writer echoes) (next o.answer)
    (c :: echoes ++ later.1, later.2)
  | w, .print line next => trace mode people echo w (next (people.print line).2)

def echoAll (mode : Mode) (echo : Writer → Issue → List Writer.Call) :
    Writer → List Issue → List Writer.Call
  | _, [] => []
  | w, i :: rest =>
    echo w i ++ echoAll mode echo (Writer.after (Writer.perform mode) w (echo w i)) rest

def WarningSink.echo (mode : Mode) (people : Lines) :
    WarningSink → Writer → List Issue → List Writer.Call
  | .print | .collect => fun _ _ => []
  | .handle receive nested =>
    echoAll mode fun w i => ((receive i).trace mode people (nested.echo mode people) w).1

/-- The calls that come to be made on a writer in the course of a handling, those of the sink among them,
and its value. -/
def Handling.play {α : Type} (mode : Mode) (sink : WarningSink) (people : Lines) :
    Writer → Handling α → List Writer.Call × α :=
  trace mode people (sink.echo mode people)

namespace Session

variable {mode : Mode} {people : Lines}

def Echoes (mode : Mode) (people : Lines) (warn : Session → List Issue → Session)
    (echo : Writer → List Issue → List Writer.Call) : Prop :=
  ∀ (s : Session) (warnings : List Issue), s.stderr.fault = people.fault →
    (warn s warnings).writer =
        Writer.after (Writer.perform mode) s.writer (echo s.writer warnings) ∧
      (warn s warnings).stderr.fault = people.fault

theorem follow_eq_trace {α : Type} {warn : Session → List Issue → Session}
    {echo : Writer → List Issue → List Writer.Call} (echoes : Echoes mode people warn echo)
    (s : Session) (h : Handling α) (same : s.stderr.fault = people.fault) :
    (follow mode warn s h).1.writer =
        Writer.after (Writer.perform mode) s.writer (h.trace mode people echo s.writer).1 ∧
      (follow mode warn s h).1.stderr.fault = people.fault ∧
      (follow mode warn s h).2 = (h.trace mode people echo s.writer).2 := by
  -- over the handling, for every session: what comes next starts from what the call has left
  induction h generalizing s with
  | done a => exact ⟨rfl, same, rfl⟩
  | write c next ih =>
    let o := s.writer.perform mode c
    obtain ⟨moved, still⟩ := echoes { s with writer := o.writer } o.warnings same
    have later := ih o.answer (warn { s with writer := o.writer } o.warnings) still
    rw [moved] at later
    rw [follow, Handling.trace, List.cons_append, Writer.after, List.foldl_cons, List.foldl_append]
    exact later
  | print line next ih =>
    have answer := Lines.answer_print same line
    have later := ih (s.stderr.print line).2 { s with stderr := (s.stderr.print line).1 }
      ((Lines.fault_print line).trans same)
    rw [follow, Handling.trace, ← answer]
    exact later

theorem echoes_foldl {step : Session → Issue → Session} {echo : Writer → Issue → List Writer.Call}
    (each : ∀ (s : Session) (i : Issue), s.stderr.fault = people.fault →
      (step s i).writer = Writer.after (Writer.perform mode) s.writer (echo s.writer i) ∧
        (step s i).stderr.fault = people.fault) :
    Echoes mode people (fun s warnings => warnings.foldl step s) (echoAll mode echo) := by
  intro s warnings same
  induction warnings generalizing s with
  | nil => exact ⟨rfl, same⟩
  | cons i rest ih =>
    obtain ⟨moved, still⟩ := each s i same
    have later := ih (step s i) still
    rw [moved] at later
    rw [echoAll, Writer.after, List.foldl_append]
    exact later

theorem echoes_warn (mode : Mode) (people : Lines) (sink : WarningSink) :
    Echoes mode people (warn mode sink) (sink.echo mode people) := by
  induction sink with
  | print =>
    intro s warnings same
    refine ⟨rfl, ?_⟩
    rw [← same, warn]
    generalize s.stderr = l
    induction warnings generalizing l with
    | nil => rfl
    | cons i rest ih => rw [List.foldl_cons, ih, Lines.fault_print]
  | collect => exact fun s warnings same => ⟨rfl, same⟩
  | handle receive nested ih =>
    refine echoes_foldl fun s i same => ?_
    obtain ⟨moved, still, -⟩ := follow_eq_trace ih s (receive i) same
    exact ⟨moved, still⟩

theorem handle_eq_play {α : Type} (mode : Mode) (sink : WarningSink) (s : Session) (h : Handling α)
    (same : s.stderr.fault = people.fault) :
    (handle mode sink s h).1.writer =
        Writer.after (Writer.perform mode) s.writer (h.play mode sink people s.writer).1 ∧
      (handle mode sink s h).2 = (h.play mode sink people s.writer).2 := by
  obtain ⟨writer, -, value⟩ := follow_eq_trace (echoes_warn mode people sink) s h same
  exact ⟨writer, value⟩

example :
    let complain (i : Issue) : Handling Unit := .write (.setError i.warning) fun _ => .done ()
    let add : Writer.Call := .addFiles [.new "./a" "1"]
    ((Handling.write add Handling.done).play .strict (.handle complain .collect) {} .new).1 =
      [add, .setError (Issue.unnormalizedName "./a" "a").warning] := rfl

@[simp] theorem warn_nil (mode : Mode) (sink : WarningSink) (s : Session) : s.warn mode sink [] = s := by
  cases sink with
  | collect => simp only [warn, List.append_nil]
  | print | handle => rfl

theorem handle_andThen {α β : Type} (mode : Mode) (sink : WarningSink) (s : Session) (h : Handling α)
    (f : α → Handling β) :
    handle mode sink s (h.andThen f) =
      handle mode sink (handle mode sink s h).1 (f (handle mode sink s h).2) := by
  induction h generalizing s with
  | done a => rfl
  | write c next ih => exact ih _ _
  | print line next ih => exact ih _ _

end Session

end CompilerPlugin.Plugin
