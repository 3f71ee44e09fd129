import Appchain.Proofs.LedgerOperations

/-!
# Operations that run as the ledger says

`Context.Holds` says that a context shows a ledger over the stores of a block.
An operation `Reads` an answer off the ledger when it gives that answer and
leaves the context as it was; it `Runs` to an answer and a ledger, or to an error;
it `Leaves` a ledger when only what it leaves matters. Each relation passes
through sequencing, so that an operation follows the ledger if its parts do.
-/

namespace Appchain

open StoreKey MultiStore

/-- The context shows the ledger over the stores `s`. -/
structure Context.Holds (s : MultiStore) (mode : Mode) (l : Ledger) (c : Context) : Prop where
  store_eq : c.store = s
  mode_eq : c.mode = mode
  sound : c.Sound
  stored : l.Stored c.contents

variable {ε α β : Type} {s : MultiStore} {mode : Mode} {l : Ledger}

def Reads (s : MultiStore) (mode : Mode) (x : ExecWith ε α) (l : Ledger) (r : Except ε α) : Prop :=
  ∀ c : Context, c.Holds s mode l → x.run.run c = (r, c)

def Runs (s : MultiStore) (mode : Mode) (x : ExecWith ε α) (l : Ledger)
    (r : Except ε (α × Ledger)) : Prop :=
  ∀ c : Context, c.Holds s mode l →
    match r with
    | .ok (a, n) => ∃ d, x.run.run c = (.ok a, d) ∧ d.Holds s mode n
    | .error e => (x.run.run c).1 = .error e

def Leaves (s : MultiStore) (mode : Mode) (x : ExecWith ε α) (l : Ledger) (r : Except ε Ledger) :
    Prop :=
  ∀ c : Context, c.Holds s mode l →
    match r with
    | .ok n => ∃ a d, x.run.run c = (.ok a, d) ∧ d.Holds s mode n
    | .error e => (x.run.run c).1 = .error e

theorem run_bind_ok {x : ExecWith ε α} {f : α → ExecWith ε β} {a : α} {c d : Context}
    (h : x.run.run c = (.ok a, d)) : (x >>= f).run.run c = (f a).run.run d := by
  simp only [ExceptT.run_bind, StateT.run_bind]
  rw [h]
  rfl

theorem run_bind_eq_ok {x : ExecWith ε α} {f : α → ExecWith ε β} {b : β} {c e : Context} :
    (x >>= f).run.run c = (.ok b, e) ↔
      ∃ a d, x.run.run c = (.ok a, d) ∧ (f a).run.run d = (.ok b, e) := by
  simp only [ExceptT.run_bind, StateT.run_bind]
  cases hx : x.run.run c with
  | mk r d =>
    cases r with
    | ok a =>
      constructor
      · exact fun h => ⟨a, d, rfl, h⟩
      · rintro ⟨_, _, ⟨⟩, h⟩
        exact h
    | error err =>
      constructor
      · rintro ⟨⟩
      · rintro ⟨_, _, ⟨⟩, -⟩

theorem run_bind_error {x : ExecWith ε α} (f : α → ExecWith ε β) {e : ε} {c : Context}
    (h : (x.run.run c).1 = .error e) : ((x >>= f).run.run c).1 = .error e := by
  simp only [ExceptT.run_bind, StateT.run_bind]
  cases hx : x.run.run c with
  | mk r d =>
    rw [hx] at h
    cases h
    rfl

namespace Reads

theorem pure (a : α) : Reads s mode (pure a : ExecWith ε α) l (.ok a) := by
  intro c _
  rfl

theorem throw (e : ε) : Reads s mode (throw e : ExecWith ε α) l (.error e) := by
  intro c _
  rfl

theorem lift (r : Except TxError α) : Reads s mode (Exec.lift r) l r := by
  intro c _
  rfl

theorem bind {x : ExecWith ε α} {f : α → ExecWith ε β} {r : Except ε α} {g : α → Except ε β}
    (hx : Reads s mode x l r) (hf : ∀ a, r = .ok a → Reads s mode (f a) l (g a)) :
    Reads s mode (x >>= f) l (r >>= g) := by
  intro c hc
  have hr := hx c hc
  cases r with
  | ok a =>
    rw [run_bind_ok hr]
    exact hf a rfl c hc
  | error e =>
    simp only [ExceptT.run_bind, StateT.run_bind]
    change (do let p ← x.run.run c; _ : Id _) = _
    rw [hr]
    rfl

theorem map (f : α → β) {x : ExecWith ε α} {r : Except ε α} (hx : Reads s mode x l r) :
    Reads s mode (f <$> x) l (r.map f) := by
  rw [map_eq_pure_bind]
  have h := hx.bind (g := fun a => .ok (f a)) fun a _ => .pure (f a)
  cases r <;> exact h

/-- What follows reads on. -/
theorem runs {x : ExecWith ε α} {f : α → ExecWith ε β} {r : Except ε α}
    {g : α → Except ε (β × Ledger)} (hx : Reads s mode x l r)
    (hf : ∀ a, r = .ok a → Runs s mode (f a) l (g a)) : Runs s mode (x >>= f) l (r >>= g) := by
  intro c hc
  have hr := hx c hc
  cases r with
  | ok a =>
    rw [run_bind_ok hr]
    exact hf a rfl c hc
  | error e => exact run_bind_error f (congrArg Prod.fst hr)

theorem leaves {x : ExecWith ε α} {f : α → ExecWith ε β} {r : Except ε α}
    {g : α → Except ε Ledger} (hx : Reads s mode x l r)
    (hf : ∀ a, r = .ok a → Leaves s mode (f a) l (g a)) : Leaves s mode (x >>= f) l (r >>= g) := by
  intro c hc
  have hr := hx c hc
  cases r with
  | ok a =>
    rw [run_bind_ok hr]
    exact hf a rfl c hc
  | error e => exact run_bind_error f (congrArg Prod.fst hr)

/-- What is read leaves everything as it was. -/
theorem stays {x : ExecWith ε α} {r : Except ε α} (hx : Reads s mode x l r) :
    Leaves s mode x l (r.map fun _ => l) := by
  intro c hc
  have hr := hx c hc
  cases r with
  | ok a => exact ⟨a, c, hr, hc⟩
  | error e => exact congrArg Prod.fst hr

theorem runs_self {x : ExecWith ε α} {r : Except ε α} (hx : Reads s mode x l r) :
    Runs s mode x l (r.map fun a => (a, l)) := by
  intro c hc
  have hr := hx c hc
  cases r with
  | ok a => exact ⟨c, hr, hc⟩
  | error e => exact congrArg Prod.fst hr

end Reads

namespace Runs

theorem bind {x : ExecWith ε α} {f : α → ExecWith ε β} {r : Except ε (α × Ledger)}
    {g : α × Ledger → Except ε (β × Ledger)} (hx : Runs s mode x l r)
    (hf : ∀ a n, r = .ok (a, n) → Runs s mode (f a) n (g (a, n))) :
    Runs s mode (x >>= f) l (r >>= g) := by
  intro c hc
  have hr := hx c hc
  cases r with
  | ok p =>
    obtain ⟨d, hd, hh⟩ := hr
    rw [run_bind_ok hd]
    exact hf p.1 p.2 rfl d hh
  | error e => exact run_bind_error f hr

theorem leaves {x : ExecWith ε α} {f : α → ExecWith ε β} {r : Except ε (α × Ledger)}
    {g : α × Ledger → Except ε Ledger} (hx : Runs s mode x l r)
    (hf : ∀ a n, r = .ok (a, n) → Leaves s mode (f a) n (g (a, n))) :
    Leaves s mode (x >>= f) l (r >>= g) := by
  intro c hc
  have hr := hx c hc
  cases r with
  | ok p =>
    obtain ⟨d, hd, hh⟩ := hr
    rw [run_bind_ok hd]
    exact hf p.1 p.2 rfl d hh
  | error e => exact run_bind_error f hr

end Runs

namespace Leaves

theorem bind {x : ExecWith ε α} {f : α → ExecWith ε β} {r : Except ε Ledger}
    {g : Ledger → Except ε Ledger} (hx : Leaves s mode x l r)
    (hf : ∀ a n, r = .ok n → Leaves s mode (f a) n (g n)) :
    Leaves s mode (x >>= f) l (r >>= g) := by
  intro c hc
  have hr := hx c hc
  cases r with
  | ok n =>
    obtain ⟨a, d, hd, hh⟩ := hr
    rw [run_bind_ok hd]
    exact hf a n rfl d hh
  | error e => exact run_bind_error f hr

/-- The answer does not matter. -/
theorem discard {x : ExecWith ε α} {f : α → ExecWith ε β} {r : Except ε Ledger}
    (hx : Leaves s mode x l r) (hf : ∀ a n, r = .ok n → Leaves s mode (f a) n (.ok n)) :
    Leaves s mode (x >>= f) l r := by
  have h := hx.bind (g := .ok) hf
  cases r <;> exact h

theorem runs {x : ExecWith ε α} {f : α → ExecWith ε β} {r : Except ε Ledger}
    {g : Ledger → Except ε (β × Ledger)} (hx : Leaves s mode x l r)
    (hf : ∀ a n, r = .ok n → Runs s mode (f a) n (g n)) : Runs s mode (x >>= f) l (r >>= g) := by
  intro c hc
  have hr := hx c hc
  cases r with
  | ok n =>
    obtain ⟨a, d, hd, hh⟩ := hr
    rw [run_bind_ok hd]
    exact hf a n rfl d hh
  | error e => exact run_bind_error f hr

/-- A loop does to the ledger what its steps do one after another. -/
theorem forM {f : α → ExecWith ε PUnit} {g : Ledger → α → Except ε Ledger} {as : List α}
    (h : ∀ a ∈ as, ∀ n, Leaves s mode (f a) n (g n a)) :
    Leaves s mode (as.forM f) l (as.foldlM g l) := by
  induction as generalizing l with
  | nil => exact (Reads.pure _).stays
  | cons a as ih =>
    rw [List.foldlM_cons]
    exact (h a (List.mem_cons_self ..) l).bind fun _ _ _ => ih fun b hb => h b (List.mem_cons_of_mem a hb)

end Leaves
end Appchain
