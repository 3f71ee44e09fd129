/-!
# Outcomes

How the outcome of a computation that may fail comes about from the outcomes of
its parts, and what a loop of such computations preserves.
-/

namespace Appchain.Outcome

variable {ε ε' α β : Type}

theorem map_eq_ok {x : Except ε α} {f : α → β} {b : β} :
    x.map f = .ok b ↔ ∃ a, x = .ok a ∧ f a = b := by
  cases x with
  | error e => simp [Except.map]
  | ok a => simp [Except.map]

theorem bind_eq_ok {x : Except ε α} {f : α → Except ε β} {b : β} :
    (x >>= f) = .ok b ↔ ∃ a, x = .ok a ∧ f a = .ok b := by
  cases x with
  | error e => simp [bind, Except.bind]
  | ok a => simp [bind, Except.bind]

theorem ok_eq_ok {a b : α} : (.ok a : Except ε α) = .ok b ↔ b = a := by
  rw [Except.ok.injEq, eq_comm]

theorem pure_eq_ok {a b : α} : (pure a : Except ε α) = .ok b ↔ b = a := ok_eq_ok

theorem check_bind_eq_ok {x : Except ε Unit} {f : Unit → Except ε β} {b : β} :
    (x >>= f) = .ok b ↔ x = .ok () ∧ f () = .ok b := by
  rw [bind_eq_ok]
  exact ⟨fun ⟨_, hx, hf⟩ => ⟨hx, hf⟩, fun ⟨hx, hf⟩ => ⟨(), hx, hf⟩⟩

theorem guard_eq_ok {c : Prop} [Decidable c] {e : ε} {x : Except ε α} {a : α} :
    (if c then .error e else x) = .ok a ↔ ¬ c ∧ x = .ok a := by
  split
  · next h => simp [h]
  · next h => simp [h]

@[simp] theorem mapError_ok {f : ε → ε'} {a : α} : (Except.ok a).mapError f = .ok a := rfl

@[simp] theorem mapError_error {f : ε → ε'} {e : ε} :
    (Except.error e : Except ε α).mapError f = .error (f e) := rfl

theorem mapError_eq_ok {x : Except ε α} {f : ε → ε'} {a : α} : x.mapError f = .ok a ↔ x = .ok a := by
  cases x with
  | error e => simp
  | ok b => simp

theorem toOption_eq_some {x : Except ε α} {a : α} : x.toOption = some a ↔ x = .ok a := by
  cases x with
  | error e => simp [Except.toOption]
  | ok b => simp [Except.toOption]

theorem toOption_eq_none {x : Except ε α} : x.toOption = none ↔ ∃ e, x = .error e := by
  cases x with
  | error e => simp [Except.toOption]
  | ok b => simp [Except.toOption]

theorem map_eq_error {x : Except ε α} {f : α → β} {e : ε} : x.map f = .error e ↔ x = .error e := by
  cases x with
  | error e => simp [Except.map]
  | ok a => simp [Except.map]

theorem bind_eq_error {x : Except ε α} {f : α → Except ε β} {e : ε} :
    (x >>= f) = .error e ↔ x = .error e ∨ ∃ a, x = .ok a ∧ f a = .error e := by
  cases x with
  | error e => simp [bind, Except.bind]
  | ok a => simp [bind, Except.bind]

theorem forM_eq_ok {f : α → Except ε Unit} {as : List α} (h : as.forM f = .ok ()) :
    ∀ a ∈ as, f a = .ok () := by
  induction as with
  | nil =>
    intro a ha
    cases ha
  | cons a as ih =>
    obtain ⟨_, ha, h⟩ := bind_eq_ok.mp h
    intro b hb
    rcases List.mem_cons.mp hb with rfl | hb
    · exact ha
    · exact ih h b hb

theorem forM_eq_error {f : α → Except ε Unit} {as : List α} {e : ε} (h : as.forM f = .error e) :
    ∃ a ∈ as, f a = .error e := by
  induction as with
  | nil => cases h
  | cons a as ih =>
    rcases bind_eq_error.mp h with ha | ⟨_, -, h⟩
    · exact ⟨a, List.mem_cons_self .., ha⟩
    · obtain ⟨b, hb, he⟩ := ih h
      exact ⟨b, List.mem_cons_of_mem a hb, he⟩

/-- A loop whose steps all succeed collects what they return. -/
theorem mapM_eq_ok_map {f : α → Except ε β} {g : α → β} {l : List α}
    (h : ∀ a ∈ l, f a = .ok (g a)) : l.mapM f = .ok (l.map g) := by
  induction l with
  | nil => rfl
  | cons a l ih =>
    rw [List.mapM_cons, h a (List.mem_cons_self ..), ih fun x hx => h x (List.mem_cons_of_mem a hx)]
    rfl

theorem eq_map_of_mapM {f : α → Except ε β} {g : α → β} {l : List α}
    {bs : List β} (hg : ∀ a ∈ l, ∀ b, f a = .ok b → b = g a) (h : l.mapM f = .ok bs) :
    bs = l.map g := by
  induction l generalizing bs with
  | nil =>
    cases h
    rfl
  | cons a l ih =>
    rw [List.mapM_cons] at h
    obtain ⟨b, hb, h⟩ := bind_eq_ok.mp h
    obtain ⟨cs, hcs, h⟩ := bind_eq_ok.mp h
    cases h
    rw [List.map_cons, hg a (List.mem_cons_self ..) b hb,
      ih (fun x hx => hg x (List.mem_cons_of_mem a hx)) hcs]

theorem mem_of_mapM {f : α → Except ε β} {as : List α} {bs : List β}
    (h : as.mapM f = .ok bs) : ∀ b ∈ bs, ∃ a, f a = .ok b := by
  induction as generalizing bs with
  | nil =>
    cases h
    intro b hb
    cases hb
  | cons a as ih =>
    rw [List.mapM_cons] at h
    obtain ⟨b, hb, h⟩ := bind_eq_ok.mp h
    obtain ⟨cs, hc, h⟩ := bind_eq_ok.mp h
    cases h
    intro x hx
    rcases List.mem_cons.mp hx with rfl | hx
    · exact ⟨a, hb⟩
    · exact ih hc x hx

/-- A loop whose steps may be refused, and otherwise return what `g` says. -/
theorem mapM_eq_ok_iff {f : α → Except ε β} {g : α → β} {P : α → Prop}
    (h : ∀ a b, f a = .ok b ↔ P a ∧ b = g a) {l : List α} {bs : List β} :
    l.mapM f = .ok bs ↔ (∀ a ∈ l, P a) ∧ bs = l.map g := by
  constructor
  · intro hm
    refine ⟨?_, eq_map_of_mapM (fun a _ b hb => ((h a b).mp hb).2) hm⟩
    induction l generalizing bs with
    | nil => exact fun a ha => nomatch ha
    | cons a l ih =>
      rw [List.mapM_cons] at hm
      obtain ⟨b, hb, hm⟩ := bind_eq_ok.mp hm
      obtain ⟨cs, hcs, -⟩ := bind_eq_ok.mp hm
      exact List.forall_mem_cons.mpr ⟨((h a b).mp hb).1, ih hcs⟩
  · rintro ⟨hp, rfl⟩
    exact mapM_eq_ok_map fun a ha => (h a (g a)).mpr ⟨hp a ha, rfl⟩

/-- Filtering every step of a loop by its result is filtering all results of the loop. -/
theorem mapM_filtered {f g : α → Except ε β} {P : β → Prop}
    (h : ∀ a b, f a = .ok b ↔ g a = .ok b ∧ P b) {l : List α} {bs : List β} :
    l.mapM f = .ok bs ↔ l.mapM g = .ok bs ∧ ∀ b ∈ bs, P b := by
  induction l generalizing bs with
  | nil =>
    simp only [List.mapM_nil, pure_eq_ok]
    refine ⟨fun hb => ⟨hb, hb ▸ nofun⟩, And.left⟩
  | cons a l ih =>
    simp only [List.mapM_cons, bind_eq_ok, pure_eq_ok]
    constructor
    · rintro ⟨b, hb, cs, hcs, rfl⟩
      obtain ⟨hb, hp⟩ := (h a b).mp hb
      obtain ⟨hcs, hps⟩ := ih.mp hcs
      exact ⟨⟨b, hb, cs, hcs, rfl⟩, List.forall_mem_cons.mpr ⟨hp, hps⟩⟩
    · rintro ⟨⟨b, hb, cs, hcs, rfl⟩, hp⟩
      obtain ⟨hp, hps⟩ := List.forall_mem_cons.mp hp
      exact ⟨b, (h a b).mpr ⟨hb, hp⟩, cs, ih.mpr ⟨hcs, hps⟩, rfl⟩

theorem mapM_eq_error {f : α → Except ε β} {l : List α} {e : ε} (h : l.mapM f = .error e) :
    ∃ a ∈ l, f a = .error e := by
  induction l with
  | nil => cases h
  | cons a l ih =>
    rw [List.mapM_cons] at h
    rcases bind_eq_error.mp h with ha | ⟨b, -, h⟩
    · exact ⟨a, List.mem_cons_self .., ha⟩
    · rcases bind_eq_error.mp h with hl | ⟨bs, -, h⟩
      · obtain ⟨x, hx, he⟩ := ih hl
        exact ⟨x, List.mem_cons_of_mem a hx, he⟩
      · cases h

/-- What every step of a loop preserves holds after the loop. -/
theorem foldlM_preserves {f : β → α → Except ε β} {P : β → Prop} {as : List α}
    (step : ∀ a ∈ as, ∀ b c, P b → f b a = .ok c → P c) {b c : β} (hb : P b)
    (h : as.foldlM f b = .ok c) : P c := by
  induction as generalizing b with
  | nil =>
    cases h
    exact hb
  | cons a as ih =>
    rw [List.foldlM_cons] at h
    obtain ⟨d, hd, hc⟩ := bind_eq_ok.mp h
    exact ih (fun x hx => step x (List.mem_cons_of_mem a hx))
      (step a (List.mem_cons_self ..) b d hb hd) hc

/-- A loop that succeeds gets through each of its steps. -/
theorem foldlM_step {f : β → α → Except ε β} {before after : List α} {a : α} {b c : β}
    (h : (before ++ a :: after).foldlM f b = .ok c) :
    ∃ d e, before.foldlM f b = .ok d ∧ f d a = .ok e ∧ (before ++ [a]).foldlM f b = .ok e := by
  rw [List.foldlM_append] at h
  obtain ⟨d, hd, h⟩ := bind_eq_ok.mp h
  rw [List.foldlM_cons] at h
  obtain ⟨e, he, -⟩ := bind_eq_ok.mp h
  refine ⟨d, e, hd, he, ?_⟩
  rw [List.foldlM_append, hd]
  change [a].foldlM f d = _
  rw [List.foldlM_cons, he]
  rfl

/-- The error of a loop is the error of one of its steps. -/
theorem foldlM_error {f : β → α → Except ε β} {P : β → Prop} {Q : ε → Prop} {as : List α}
    (step : ∀ a ∈ as, ∀ b c, P b → f b a = .ok c → P c)
    (fails : ∀ a ∈ as, ∀ b e, P b → f b a = .error e → Q e) {b : β} {e : ε} (hb : P b)
    (h : as.foldlM f b = .error e) : Q e := by
  induction as generalizing b with
  | nil => cases h
  | cons a as ih =>
    rw [List.foldlM_cons] at h
    rcases bind_eq_error.mp h with he | ⟨d, hd, he⟩
    · exact fails a (List.mem_cons_self ..) b e hb he
    · exact ih (fun x hx => step x (List.mem_cons_of_mem a hx))
        (fun x hx => fails x (List.mem_cons_of_mem a hx))
        (step a (List.mem_cons_self ..) b d hb hd) he

end Appchain.Outcome
