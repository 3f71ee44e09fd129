import Appchain.Proofs.AppRuns
import Appchain.Proofs.VersionedStores

/-!
# Calls

What a node may ask of an application, in any order and at any time. Every call
is answered, if only with an error, and a call that is answered with an error
changes nothing.
-/

namespace Appchain

open MultiStore Outcome

namespace App

/-- What may be asked of an application. -/
inductive Call where
  | initChain (chain : String) (document : Bytes)
  | beginBlock (header : Header)
  | check (text : Bytes)
  | deliver (text : Bytes)
  | commit
  | exportState
  /-- Opens the database again. -/
  | reopen

/-- What it answers. -/
inductive Reply where
  | validators (vs : List Validator)
  | response (r : Response)
  | info (c : CommitInfo)
  | exported (document : Bytes) (vs : List Validator)
  | done

variable {a b : App}

/-- Goes on with what an operation leaves, or as before if it fails. -/
def settle {α : Type} (a : App) (reply : α → Reply) :
    Except AppError (α × App) → Except AppError Reply × App
  | .ok r => (.ok (reply r.1), r.2)
  | .error e => (.error e, a)

def call (a : App) : Call → Except AppError Reply × App
  | .initChain chain document =>
    let (validators, b) := a.attempt chain document
    (validators.map .validators, b)
  | .beginBlock header => (.ok .done, a.beginBlock header)
  | .check text => ((a.check text).map .response, a)
  | .deliver text => a.settle .response (a.deliver text)
  | .commit => a.settle .info a.commit
  | .exportState => (a.exportState.map fun r => .exported r.1 r.2, a)
  | .reopen => a.settle (fun _ => .done) ((assemble (.ofDatabase a.store.database)).map ((), ·))

theorem settle_of_error {α : Type} {reply : α → Reply} {x : Except AppError (α × App)} {e : AppError}
    (h : (a.settle reply x).1 = .error e) : (a.settle reply x).2 = a := by
  cases x with
  | ok r => cases h
  | error e' => rfl

theorem sameCommit_settle {α : Type} {reply : α → Reply} {x : Except AppError (α × App)}
    (h : ∀ {r b}, x = .ok (r, b) → SameCommit a.store b.store) :
    SameCommit a.store (a.settle reply x).2.store := by
  cases x with
  | ok r => exact h rfl
  | error e => exact ⟨rfl, rfl⟩

/-- A document is loaded as a whole, or it is given up. -/
theorem load_cases (a : App) (chain : String) (document : Bytes) :
    (∃ e, a.load chain document = (.error e, a.abort)) ∨
      ∃ vs w s, a.store.write w = .ok s ∧
        a.load chain document = (.ok vs, { a with store := s, phase := .ready, chain }) := by
  unfold load
  split
  · exact .inl ⟨_, rfl⟩
  · split
    · exact .inl ⟨_, rfl⟩
    · next s hs => exact .inr ⟨_, _, s, hs, rfl⟩

theorem abort_initializing (hp : a.phase = .uninitialized) :
    { a with phase := .initializing }.abort = a := by
  cases a
  cases hp
  rfl

/-- An attempt starts the chain, or it leaves everything as it was, the phase included. -/
theorem attempt_cases (a : App) (chain : String) (document : Bytes) :
    (∃ e, a.attempt chain document = (.error e, a)) ∨
      ∃ vs w s, a.store.write w = .ok s ∧
        a.attempt chain document = (.ok vs, { a with store := s, phase := .ready, chain }) := by
  by_cases hp : a.phase = .uninitialized
  · rw [attempt_of_uninitialized hp]
    rcases load_cases { a with phase := .initializing } chain document with ⟨e, he⟩ | h
    · exact .inl ⟨e, he.trans (congrArg (Prod.mk _) (abort_initializing hp))⟩
    · exact .inr h
  · exact .inl ⟨_, attempt_of_ne hp chain document⟩

theorem snd_attempt_of_error {chain : String} {document : Bytes} {e : AppError}
    (h : (a.attempt chain document).1 = .error e) : (a.attempt chain document).2 = a := by
  rcases a.attempt_cases chain document with ⟨e', he⟩ | ⟨vs, w, s, -, he⟩
  · exact congrArg Prod.snd he
  · rw [he] at h
    cases h

theorem attempt_of_initChain {chain : String} {document : Bytes} {vs : List Validator}
    (h : a.initChain chain document = .ok (vs, b)) : a.attempt chain document = (.ok vs, b) := by
  unfold initChain at h
  obtain ⟨vs', hv, he⟩ := map_eq_ok.mp h
  cases he
  exact Prod.ext hv rfl

theorem attempt_of_initChain_error {chain : String} {document : Bytes} {e : AppError}
    (h : a.initChain chain document = .error e) : a.attempt chain document = (.error e, a) := by
  have he : (a.attempt chain document).1 = .error e := map_eq_error.mp h
  exact Prod.ext he (snd_attempt_of_error he)

/-- A call that fails changes nothing. -/
theorem call_of_error {c : Call} {e : AppError} (h : (a.call c).1 = .error e) : (a.call c).2 = a := by
  cases c with
  | initChain chain document => exact snd_attempt_of_error (map_eq_error.mp h)
  | beginBlock header => cases h
  | check text => rfl
  | deliver text => exact settle_of_error h
  | commit => exact settle_of_error h
  | exportState => rfl
  | reopen => exact settle_of_error h

/-- The writes of a document are not committed yet. -/
theorem sameCommit_attempt (a : App) (chain : String) (document : Bytes) :
    SameCommit a.store (a.attempt chain document).2.store := by
  rcases a.attempt_cases chain document with ⟨e, he⟩ | ⟨vs, w, s, hs, he⟩
  · rw [he]
    exact ⟨rfl, rfl⟩
  · rw [he]
    exact sameCommit_write hs

/-- The writes of a transaction are not committed yet. -/
theorem sameCommit_deliver {text : Bytes} {r : Response} (h : a.deliver text = .ok (r, b)) :
    SameCommit a.store b.store := by
  obtain ⟨⟨r', w⟩, -, h⟩ := bind_eq_ok.mp h
  cases w with
  | none =>
    cases h
    exact ⟨rfl, rfl⟩
  | some w =>
    obtain ⟨s, hs, h⟩ := bind_eq_ok.mp h
    cases h
    exact sameCommit_write (mapError_eq_ok.mp hs)

theorem call_initChain {chain : String} {document : Bytes} {vs : List Validator}
    (h : a.initChain chain document = .ok (vs, b)) :
    a.call (.initChain chain document) = (.ok (.validators vs), b) := by
  rw [call, attempt_of_initChain h]
  rfl

theorem call_initChain_of_error {chain : String} {document : Bytes} {e : AppError}
    (h : a.initChain chain document = .error e) :
    a.call (.initChain chain document) = (.error e, a) := by
  rw [call, attempt_of_initChain_error h]
  rfl

theorem call_deliver {text : Bytes} {r : Response} (h : a.deliver text = .ok (r, b)) :
    a.call (.deliver text) = (.ok (.response r), b) :=
  congrArg (a.settle fun r => .response r) h

theorem exists_call_commit (h : a.store.Assembled) :
    ∃ info, a.call .commit = (.ok (.info info), a.committed info) ∧
      info.version = a.lastCommit.version + 1 := by
  obtain ⟨info, hc, hv, -⟩ := exists_commit h
  refine ⟨info, ?_, hv⟩
  unfold call
  rw [hc]
  rfl

theorem call_reopen {last : CommitInfo}
    (h : readCommit (a.store.database.tree metadataName) = .ok last) :
    a.call .reopen = (.ok .done, opened a.store.database last) := by
  unfold call
  simp only [assemble_ofDatabase h]
  rfl

theorem initChain_of_ne (h : a.phase ≠ .uninitialized) (chain : String) (document : Bytes) :
    a.initChain chain document = .error (.genesis (.wrongPhase .uninitialized a.phase)) := by
  rw [initChain, attempt_of_ne h]
  rfl

/-- A chain that has started takes no further document. -/
theorem initChain_of_ready (h : a.phase = .ready) (chain : String) (document : Bytes) :
    a.initChain chain document = .error (.genesis (.wrongPhase .uninitialized .ready)) := by
  have hne : a.phase ≠ .uninitialized := by
    rw [h]
    exact nofun
  rw [initChain_of_ne hne, h]

/-- Nothing runs before the chain has started. -/
theorem deliver_of_ne (h : a.phase ≠ .ready) (text : Bytes) :
    a.deliver text = .error (.genesis (.wrongPhase .ready a.phase)) := by
  unfold deliver run
  rw [if_pos h]
  rfl

end App
end Appchain
