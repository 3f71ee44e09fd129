import Appchain.Proofs.Calls
import Appchain.Proofs.Confinement

/-!
# Attempts to start a chain

A document that is not acceptable changes nothing, however much of it has been
loaded when the fault is found. So the first one that is acceptable starts the
chain as if it had been the only one, and no other is looked at after it.
-/

namespace Appchain

namespace App

variable {a b : App}

/-- Documents that are given one after another, each with the name of its chain. -/
def attempts (ds : List (String × Bytes)) : List Call := ds.map fun d => .initChain d.1 d.2

theorem phase_of_initChain {chain : String} {document : Bytes} {vs : List Validator}
    (h : a.initChain chain document = .ok (vs, b)) : b.phase = .ready := by
  have ha := attempt_of_initChain h
  rcases a.attempt_cases chain document with ⟨e, he⟩ | ⟨vs', w, s, -, he⟩
  · rw [he] at ha
    cases ha
  · rw [he] at ha
    cases ha
    rfl

/-- What an attempt leaves behind before its writes are taken over. -/
def attemptContext (a : App) (chain : String) (document : Bytes) : Context :=
  ((Genesis.take document).run.run (.new a.store ⟨chain, 0⟩ .initChain)).2

theorem store_attemptContext (a : App) (chain : String) (document : Bytes) :
    (a.attemptContext chain document).store = a.store :=
  (Genesis.confined_take document _).store_eq

theorem runAll_attempts_of_error {d : String × Bytes} {e : AppError}
    (h : a.initChain d.1 d.2 = .error e) (ds : List (String × Bytes)) :
    runAll App.call a (attempts (d :: ds)) =
      (.error e :: (runAll App.call a (attempts ds)).1, (runAll App.call a (attempts ds)).2) := by
  rw [attempts, List.map_cons, runAll, call_initChain_of_error h]
  rfl

theorem runAll_attempts_of_ready (h : a.phase = .ready) (ds : List (String × Bytes)) :
    runAll App.call a (attempts ds) =
      (ds.map fun _ => .error (.genesis (.wrongPhase .uninitialized .ready)), a) := by
  induction ds with
  | nil => rfl
  | cons d ds ih =>
    rw [runAll_attempts_of_error (initChain_of_ready h d.1 d.2), ih]
    rfl

/-- All of the attempts are rejected, and nothing has changed. -/
def RejectsAll (a : App) (ds : List (String × Bytes)) : Prop :=
  ∃ errors : List AppError, runAll App.call a (attempts ds) = (errors.map .error, a)

theorem RejectsAll.cons {d : String × Bytes} {ds : List (String × Bytes)} {e : AppError}
    (hi : a.initChain d.1 d.2 = .error e) (h : a.RejectsAll ds) : a.RejectsAll (d :: ds) := by
  obtain ⟨errors, h⟩ := h
  refine ⟨e :: errors, ?_⟩
  rw [runAll_attempts_of_error hi, h]
  rfl

/-- An attempt does not touch the stores while it is looked at, and changes nothing if it fails.
Attempts are rejected until one is accepted. It leads to the state that it would have led to by
itself, and all later ones are refused and change nothing either. -/
theorem initChain_at_most_once (a : App) (ds : List (String × Bytes)) :
    (∀ chain document, (a.attemptContext chain document).store = a.store ∧
      ∀ e, (a.attempt chain document).1 = .error e → (a.attempt chain document).2 = a) ∧
    (a.RejectsAll ds ∨
      ∃ before chain document after vs b, ds = before ++ (chain, document) :: after ∧
        a.RejectsAll before ∧ a.initChain chain document = .ok (vs, b) ∧ b.phase = .ready ∧
        (runAll App.call a (attempts ds)).2 = b ∧
        runAll App.call b (attempts after) =
          (after.map fun _ => .error (.genesis (.wrongPhase .uninitialized .ready)), b)) := by
  constructor
  · intro chain document
    exact ⟨a.store_attemptContext chain document, fun e h => snd_attempt_of_error h⟩
  -- A failure leaves `a` itself, so the hypothesis is about the same state.
  induction ds with
  | nil => exact .inl ⟨[], rfl⟩
  | cons d ds ih =>
    cases hi : a.initChain d.1 d.2 with
    | ok r =>
      have hp := phase_of_initChain hi
      have hrest := runAll_attempts_of_ready hp ds
      refine .inr ⟨[], d.1, d.2, ds, r.1, r.2, rfl, ⟨[], rfl⟩, hi, hp, ?_, hrest⟩
      rw [attempts, List.map_cons, runAll, call_initChain hi]
      exact congrArg Prod.snd hrest
    | error e =>
      rcases ih with hr | ⟨before, chain, document, after, vs, b, hds, hr, hb, hp, hend, hafter⟩
      · exact .inl (hr.cons hi)
      · refine .inr ⟨d :: before, chain, document, after, vs, b, congrArg (d :: ·) hds, hr.cons hi,
          hb, hp, ?_, hafter⟩
        rw [runAll_attempts_of_error hi]
        exact hend

end App
end Appchain
