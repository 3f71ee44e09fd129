import Appchain.App
import Appchain.Proofs.LoadedStores

/-!
# Registries

Stores are declared and mounted, routes are added and types are registered, one
request after another, until the registry is sealed. Whatever the requests are, no
name stands for two things, a request that is refused changes nothing, and a sealed
registry stays as it is.
-/

namespace Appchain

open StoreKey Outcome

namespace OrderedMap

variable {K V : Type} [Ord K] [Std.TransOrd K] [Std.LawfulEqOrd K] {m : OrderedMap K V} {k : K}

theorem mem_keys_iff : k ∈ m.keys ↔ m.contains k = true := by
  rw [contains_iff, keys, List.mem_map]
  constructor
  · rintro ⟨e, he, rfl⟩
    exact ⟨e.2, (mem_entries_iff ..).mp he⟩
  · rintro ⟨v, hv⟩
    exact ⟨_, (mem_entries_iff ..).mpr hv, rfl⟩

omit [Std.LawfulEqOrd K] in
theorem nodup_keys (m : OrderedMap K V) : m.keys.Nodup := by
  rw [keys, List.nodup_iff_pairwise_ne, List.pairwise_map]
  refine m.ascending.imp fun hlt heq => ?_
  rw [heq] at hlt
  cases (Std.ReflCmp.compare_self).symm.trans hlt

end OrderedMap

/-- A registry with its requests `Q` and with the other uses `U` that are made of it. A request is
checked before it is carried out, sealing refuses all later ones, and the uses register nothing. -/
structure Registry (R Q U T : Type) where
  register : Q → Registration R Unit
  close : R → R
  use : U → R → R
  isSealed : R → Bool
  what : Sealable
  /-- What has been registered. -/
  table : R → T
  eq_of_refused : ∀ {q r e n}, (register q).answer r = (.error e, n) → n = r
  refuses : ∀ {r} q, isSealed r = true → ((register q).answer r).1 = .error (.isSealed what)
  isSealed_close : ∀ r, isSealed (close r) = true
  close_eq : ∀ {r}, isSealed r = true → close r = r
  isSealed_use : ∀ u r, isSealed (use u r) = isSealed r
  table_use : ∀ u r, table (use u r) = table r

namespace Registry

variable {R Q U T : Type}

/-- What is done to a registry. -/
inductive Step (Q U : Type) where
  | register (q : Q)
  | close
  | use (u : U)

/-- The registry after a step, also after a request that has been refused. -/
def step (g : Registry R Q U T) (r : R) : Step Q U → R
  | .register q => ((g.register q).answer r).2
  | .close => g.close r
  | .use u => g.use u r

def run (g : Registry R Q U T) (r : R) (steps : List (Step Q U)) : R := steps.foldl g.step r

/-- Requests are granted or change nothing, and a sealed registry refuses all of them and keeps what
has been registered. -/
structure Final (g : Registry R Q U T) : Prop where
  granted_or_unchanged : ∀ q r,
    ((g.register q).answer r).1 = .ok () ∨ ((g.register q).answer r).2 = r
  table_eq : ∀ r steps, g.table (g.run (g.close r) steps) = g.table (g.close r)
  answer_eq : ∀ r steps q, (g.register q).answer (g.run (g.close r) steps) =
    (.error (.isSealed g.what), g.run (g.close r) steps)

variable {g : Registry R Q U T} {r : R}

theorem step_register (q : Q) : g.step r (.register q) = ((g.register q).answer r).2 := rfl

theorem answer_of_sealed (h : g.isSealed r = true) (q : Q) :
    (g.register q).answer r = (.error (.isSealed g.what), r) := by
  have ha := g.refuses q h
  cases hr : (g.register q).answer r with
  | mk a n =>
    rw [hr] at ha
    cases ha
    rw [g.eq_of_refused hr]

theorem sealed_step (h : g.isSealed r = true) (s : Step Q U) :
    g.isSealed (g.step r s) = true ∧ g.table (g.step r s) = g.table r := by
  cases s with
  | register q =>
    rw [step_register, answer_of_sealed h q]
    exact ⟨h, rfl⟩
  | close => exact ⟨g.isSealed_close r, congrArg g.table (g.close_eq h)⟩
  | use u => exact ⟨(g.isSealed_use u r).trans h, g.table_use u r⟩

theorem sealed_run (h : g.isSealed r = true) (steps : List (Step Q U)) :
    g.isSealed (g.run r steps) = true ∧ g.table (g.run r steps) = g.table r := by
  induction steps generalizing r with
  | nil => exact ⟨h, rfl⟩
  | cons s steps ih =>
    obtain ⟨hs, ht⟩ := sealed_step h s
    obtain ⟨hsealed, htable⟩ := ih hs
    exact ⟨hsealed, htable.trans ht⟩

theorem final (g : Registry R Q U T) : g.Final where
  granted_or_unchanged q r := by
    cases hr : (g.register q).answer r with
    | mk a n =>
      cases a with
      | ok _ => exact .inl rfl
      | error e => exact .inr (g.eq_of_refused hr)
  table_eq r steps := (sealed_run (g.isSealed_close r) steps).2
  answer_eq r steps q := answer_of_sealed (sealed_run (g.isSealed_close r) steps).1 q

/-- What is kept by requests that are granted, by sealing and by the uses is kept by every run. -/
theorem run_preserves {P : R → Prop}
    (hregister : ∀ {q r n}, P r → (g.register q).granted r = .ok n → P n)
    (hclose : ∀ {r}, P r → P (g.close r)) (huse : ∀ {u r}, P r → P (g.use u r)) (h : P r)
    (steps : List (Step Q U)) : P (g.run r steps) := by
  induction steps generalizing r with
  | nil => exact h
  | cons s steps ih =>
    refine ih (r := g.step r s) ?_
    cases s with
    | register q =>
      rw [step_register]
      cases hr : (g.register q).answer r with
      | mk a n =>
        cases a with
        | ok _ => exact hregister h (Registration.granted_eq_ok.mpr hr)
        | error e => exact g.eq_of_refused hr ▸ h
    | close => exact hclose h
    | use u => exact huse h

end Registry

namespace StoreRegistry

def registry : Registry StoreRegistry StoreKey Empty StoreRegistry where
  register := insert
  close := close
  use := Empty.elim
  isSealed := isSealed
  what := .storeRegistry
  table := id
  eq_of_refused h := by
    rw [insert_answer] at h
    split at h
    · cases h
      rfl
    · split at h <;> cases h
      rfl
  refuses q h := by rw [insert_answer, if_pos h]
  isSealed_close _ := rfl
  close_eq {r} h := by
    unfold close
    rw [← h]
  isSealed_use := nofun
  table_use := nofun

/-- Declared names are different, and none is the one that is kept for the record of the last
commit. -/
theorem declared_run (steps : List (Registry.Step StoreKey Empty)) :
    Declared (registry.run .empty steps).keys :=
  registry.run_preserves (P := fun r => Declared r.keys) (fun h hg => h.declare hg) id
    (fun {u} => nomatch u) ⟨.nil, fun _ hk => absurd hk List.not_mem_nil⟩ steps

end StoreRegistry

namespace MultiStore

theorem load_frame (s : MultiStore) (main : StoreKey) :
    (s.load main).2.mounted = s.mounted ∧ (s.load main).2.isSealed = s.isSealed := by
  unfold load
  split
  · dsimp only
    split <;> exact ⟨rfl, rfl⟩
  · exact ⟨rfl, rfl⟩

def registry : Registry MultiStore (List StoreKey) StoreKey (List StoreKey) where
  register := register
  close := close
  use main s := (s.load main).2
  isSealed := isSealed
  what := .multiStore
  table := mounted
  eq_of_refused {keys s e n} h := by
    rw [register_answer] at h
    split at h
    · cases h
      rfl
    · split at h <;> cases h
      rfl
  refuses keys h := by rw [register_answer, if_pos h]
  isSealed_close _ := rfl
  close_eq {s} h := by
    unfold close
    rw [← h]
  isSealed_use main s := (s.load_frame main).2
  table_use main s := (s.load_frame main).1

theorem mounted_of_granted {s n : MultiStore} {keys : List StoreKey}
    (h : (register keys).granted s = .ok n) :
    s.checkMounts [] keys = .ok () ∧ n.mounted = s.mounted ++ keys := by
  have ha := Registration.granted_eq_ok.mp h
  rw [register_answer] at ha
  split at ha
  · cases ha
  · split at ha
    · cases ha
    · next hc =>
      cases ha
      exact ⟨hc, rfl⟩

/-- Mounted names are different. -/
theorem distinct_run (d : Database) (steps : List (Registry.Step (List StoreKey) StoreKey)) :
    (registry.run (ofDatabase d) steps).mounted.Pairwise fun a b => a.name ≠ b.name := by
  refine registry.run_preserves (P := fun s => s.mounted.Pairwise fun a b => a.name ≠ b.name)
    (fun {keys s n} hs hg => ?_) id (fun {main s} hs => ?_) (r := ofDatabase d) .nil steps
  · obtain ⟨hc, hn⟩ := mounted_of_granted hg
    obtain ⟨hkeys, hfresh⟩ := checkMounts_eq_ok.mp hc
    rw [List.append_nil] at hfresh
    rw [hn, List.pairwise_append]
    exact ⟨hs, hkeys, fun a ha b hb => hfresh b hb a ha⟩
  · exact (s.load_frame main).1 ▸ hs

end MultiStore

namespace Router

def registry : Registry Router (String × Handler) Empty Router where
  register q := register q.1 q.2
  close := close
  use := Empty.elim
  isSealed := isSealed
  what := .router
  table := id
  eq_of_refused h := by
    rw [register_answer] at h
    split at h
    · cases h
      rfl
    · split at h
      · cases h
        rfl
      · split at h <;> cases h
        rfl
  refuses q h := by rw [register_answer, if_pos h]
  isSealed_close _ := rfl
  close_eq {r} h := by
    unfold close
    rw [← h]
  isSealed_use := nofun
  table_use := nofun

/-- The handler that is registered first under a name, before the router is sealed. -/
def firstRegistered (name : String) : List (Registry.Step (String × Handler) Empty) → Option Handler
  | .register (route, h) :: steps =>
    if route = name ∧ validName route = true then some h else firstRegistered name steps
  | _ => none

/-- Later steps do not change what a name stands for. -/
theorem get?_run (r : Router) (name : String) (steps : List (Registry.Step (String × Handler) Empty)) :
    (registry.run r steps).handlers.get? name = (r.handlers.get? name).or
      (if r.isSealed then none else firstRegistered name steps) := by
  induction steps generalizing r with
  | nil => simp [Registry.run, firstRegistered]
  | cons s steps ih =>
    have hrun : registry.run r (s :: steps) = registry.run (registry.step r s) steps := rfl
    rw [hrun, ih]
    cases s with
    | close => simp [Registry.step, registry, close, firstRegistered]
    | use u => cases u
    | register q =>
      obtain ⟨route, h⟩ := q
      have hfirst : firstRegistered name (.register (route, h) :: steps) =
        if route = name ∧ validName route = true then some h else firstRegistered name steps := rfl
      have hstep : registry.step r (.register (route, h)) = ((register route h).answer r).2 := rfl
      rw [hfirst, hstep, register_answer]
      split
      · rfl
      split
      · next hv =>
        rw [if_neg fun hn => by simp [hn.2] at hv]
      split
      · next hh =>
        by_cases hn : route = name
        · obtain ⟨known, hknown⟩ := OrderedMap.contains_iff.mp hh
          rw [← hn, hknown]
          rfl
        · rw [if_neg fun he => hn he.1]
      · next hv hh =>
        rw [OrderedMap.get?_insert]
        by_cases hn : name = route
        · have hnone : r.handlers.get? name = none :=
            Option.not_isSome_iff_eq_none.mp (hn ▸ hh)
          have hvalid : validName route = true := by simpa using hv
          rw [if_pos hn, hnone, if_pos ⟨hn.symm, hvalid⟩]
          rfl
        · rw [if_neg hn, if_neg fun he => hn he.1.symm]

/-- A message is carried out by the handler that was registered first, or by none. -/
theorem dispatch_run (steps : List (Registry.Step (String × Handler) Empty)) (name : String)
    (m : Message) :
    (registry.run .empty steps).dispatch name m =
      (firstRegistered name steps).elim (throw (.unknownRoute name)) fun h => h m := by
  have hget := get?_run .empty name steps
  have hfirst : (registry.run .empty steps).handlers.get? name = firstRegistered name steps := hget
  unfold dispatch
  rw [hfirst]
  cases firstRegistered name steps <;> rfl

theorem validName_of_firstRegistered {name : String} {h : Handler}
    {steps : List (Registry.Step (String × Handler) Empty)}
    (hf : firstRegistered name steps = some h) : validName name = true := by
  induction steps with
  | nil => cases hf
  | cons s steps ih =>
    cases s with
    | close => cases hf
    | use u => cases u
    | register q =>
      unfold firstRegistered at hf
      split at hf
      · next hn => exact hn.1 ▸ hn.2
      · exact ih hf

theorem validName_run (steps : List (Registry.Step (String × Handler) Empty)) :
    ∀ name ∈ (registry.run .empty steps).names, validName name = true := by
  intro name hn
  obtain ⟨h, hh⟩ := OrderedMap.contains_iff.mp (OrderedMap.mem_keys_iff.mp hn)
  have hget := get?_run .empty name steps
  exact validName_of_firstRegistered (hget.symm.trans hh)

end Router

namespace TypeRegistry

inductive Request where
  | interface (name : String)
  | tag (interface tag : String)

def register : Request → Registration TypeRegistry Unit
  | .interface name => registerInterface name
  | .tag interface tag => registerTag interface tag

def registry : Registry TypeRegistry Request Empty TypeRegistry where
  register := register
  close := close
  use := Empty.elim
  isSealed := isSealed
  what := .typeRegistry
  table := id
  eq_of_refused {q r e n} h := by
    cases q with
    | interface name =>
      unfold register at h
      rw [registerInterface_answer] at h
      split at h
      · cases h
        rfl
      · split at h <;> cases h
        rfl
    | tag interface tag =>
      unfold register at h
      rw [registerTag_answer] at h
      split at h
      · cases h
        rfl
      · split at h
        · cases h
          rfl
        · split at h <;> cases h
          rfl
  refuses q h := by
    cases q with
    | interface name =>
      unfold register
      rw [registerInterface_answer, if_pos h]
    | tag interface tag =>
      unfold register
      rw [registerTag_answer, if_pos h]
  isSealed_close _ := rfl
  close_eq {r} h := by
    unfold close
    rw [← h]
  isSealed_use := nofun
  table_use := nofun

/-- The two tables say the same: a tag is listed for the interface that owns it. -/
structure Mirrored (r : TypeRegistry) : Prop where
  owned_iff : ∀ {i tag : String} {tags : OrderedMap String Unit}, r.interfaces.get? i = some tags →
    (tags.contains tag = true ↔ r.owners.get? tag = some i)
  listed : ∀ {i tag : String}, r.owners.get? tag = some i → r.interfaces.contains i = true

namespace Mirrored

variable {r n : TypeRegistry} {i tag : String}

theorem empty : TypeRegistry.empty.Mirrored where
  owned_iff := nofun
  listed := nofun

theorem addInterface (h : r.Mirrored) (hg : r.addInterface i = .ok n) : n.Mirrored := by
  have ha := Registration.granted_eq_ok.mp hg
  rw [registerInterface_answer] at ha
  split at ha
  · cases ha
  split at ha
  · cases ha
  next hfresh =>
  cases ha
  constructor
  · intro j tag tags ht
    rw [OrderedMap.get?_insert] at ht
    split at ht
    · next hj =>
      cases ht
      refine iff_of_false nofun fun ho => hfresh ?_
      exact hj ▸ h.listed ho
    · exact h.owned_iff ht
  · intro j tag ho
    exact OrderedMap.contains_insert.mpr (.inr (h.listed ho))

theorem addTag (h : r.Mirrored) (hg : r.addTag i tag = .ok n) : n.Mirrored := by
  have ha := Registration.granted_eq_ok.mp hg
  rw [registerTag_answer] at ha
  split at ha
  · cases ha
  split at ha
  · cases ha
  next hfresh =>
  split at ha
  · cases ha
  next known hknown =>
  cases ha
  have hnew : r.owners.get? tag = none := Option.not_isSome_iff_eq_none.mp hfresh
  constructor
  · intro j t tags ht
    rw [OrderedMap.get?_insert] at ht ⊢
    split at ht
    · next hj =>
      cases ht
      rw [OrderedMap.contains_insert, h.owned_iff hknown, hj]
      split
      · next he => exact iff_of_true (.inl he) rfl
      · next he => exact or_iff_right he
    · next hj =>
      rw [h.owned_iff ht]
      split
      · next he =>
        rw [he, hnew]
        exact iff_of_false nofun fun hs => hj (Option.some.inj hs).symm
      · rfl
  · intro j t ho
    rw [OrderedMap.get?_insert] at ho
    refine OrderedMap.contains_insert.mpr ?_
    split at ho
    · cases ho
      exact .inl rfl
    · exact .inr (h.listed ho)

theorem run (steps : List (Registry.Step Request Empty)) : (registry.run .empty steps).Mirrored := by
  refine registry.run_preserves (P := Mirrored) (fun {q r n} h hg => ?_) (fun h => ⟨h.owned_iff, h.listed⟩)
    (fun {u} => nomatch u) .empty steps
  cases q with
  | interface name => exact h.addInterface hg
  | tag interface tag => exact h.addTag hg

/-- The tags of an interface are those that values of the interface may have. -/
theorem mem_tags_iff (h : r.Mirrored) : tag ∈ r.tags i ↔ r.owners.get? tag = some i := by
  unfold tags
  rw [OrderedMap.mem_keys_iff]
  cases ht : r.interfaces.get? i with
  | some tags => exact h.owned_iff ht
  | none =>
    refine iff_of_false nofun fun ho => ?_
    obtain ⟨tags, hi⟩ := OrderedMap.contains_iff.mp (h.listed ho)
    rw [ht] at hi
    cases hi

theorem exists_interface (h : r.Mirrored) (ht : tag ∈ r.owners.keys) :
    ∃ i, ∀ j, tag ∈ r.tags j ↔ j = i := by
  obtain ⟨i, hi⟩ := OrderedMap.contains_iff.mp (OrderedMap.mem_keys_iff.mp ht)
  refine ⟨i, fun j => ?_⟩
  rw [h.mem_tags_iff, hi, Option.some_inj, eq_comm]

end Mirrored

theorem ensure_eq_ok {r : TypeRegistry} {i tag : String} :
    r.ensure i tag = .ok () ↔ r.owners.get? tag = some i := by
  unfold ensure isRegistered
  split
  · next h => exact iff_of_true rfl (of_decide_eq_true h)
  · next h => exact iff_of_false nofun fun ho => h (decide_eq_true ho)

end TypeRegistry

/-- Registries after any steps. Declared names are different and none is that of the record of the
last commit; mounted names are different; route names are different, made of letters and digits, and
stand for the handler that was registered first; each tag is listed for one interface, the one whose
values may have it. A request that is refused changes nothing, and after sealing every request is
refused and what has been registered stays as it is. -/
theorem registries_keep :
    (∀ steps, Declared (StoreRegistry.registry.run .empty steps).keys) ∧
      (∀ d steps, (MultiStore.registry.run (.ofDatabase d) steps).mounted.Pairwise
        fun a b => a.name ≠ b.name) ∧
      (∀ steps, ((Router.registry.run .empty steps).names.Nodup ∧
        ∀ name ∈ (Router.registry.run .empty steps).names,
          name ≠ "" ∧ name.toList.all Char.isAlphanum = true) ∧
        ∀ name m, (Router.registry.run .empty steps).dispatch name m =
          (Router.firstRegistered name steps).elim (throw (.unknownRoute name)) fun h => h m) ∧
      (∀ steps, (∀ tag ∈ (TypeRegistry.registry.run .empty steps).owners.keys,
        ∃ i, ∀ j, tag ∈ (TypeRegistry.registry.run .empty steps).tags j ↔ j = i) ∧
        ∀ i tag, tag ∈ (TypeRegistry.registry.run .empty steps).tags i ↔
          (TypeRegistry.registry.run .empty steps).ensure i tag = .ok ()) ∧
      StoreRegistry.registry.Final ∧ MultiStore.registry.Final ∧ Router.registry.Final ∧
        TypeRegistry.registry.Final := by
  refine ⟨StoreRegistry.declared_run, MultiStore.distinct_run, fun steps => ⟨⟨OrderedMap.nodup_keys _,
    fun name hn => ?_⟩, Router.dispatch_run steps⟩, fun steps => ?_, Registry.final _,
    Registry.final _, Registry.final _, Registry.final _⟩
  · have hv := Router.validName_run steps name hn
    unfold Router.validName at hv
    rw [Bool.and_eq_true] at hv
    exact ⟨of_decide_eq_true hv.1, hv.2⟩
  · have hm := TypeRegistry.Mirrored.run steps
    exact ⟨fun tag ht => hm.exists_interface ht, fun i tag =>
      hm.mem_tags_iff.trans TypeRegistry.ensure_eq_ok.symm⟩

/-- What the application's modules register, in their order. -/
def TypeRegistry.standardSteps : List (Registry.Step Request Empty) := [
  .register (.interface "Account"),
  .register (.tag "Account" "auth/Account"), .register (.tag "Account" "xpx-cosmos/Account"),
  .register (.interface "Msg"),
  .register (.tag "Msg" "cosmos-sdk/Send"),
  .register (.tag "Msg" "cosmos-sdk/IBCTransferMsg"), .register (.tag "Msg" "cosmos-sdk/IBCReceiveMsg"),
  .register (.tag "Msg" "simplestaking/BondMsg"), .register (.tag "Msg" "simplestaking/UnbondMsg"),
  .register (.tag "Msg" "pow/Mine"),
  .register (.tag "Msg" "cool/SetTrend"), .register (.tag "Msg" "cool/Quiz"),
  .register (.interface "Tx"), .register (.tag "Tx" "auth/StdTx"),
  .close]

def Router.standardSteps : List (Registry.Step (String × Handler) Empty) :=
  standardRoutes.map .register ++ [.close]

/-- The registries of the application are what its modules register, and their names are unique. -/
theorem registries_keep_standard :
    TypeRegistry.registry.run .empty TypeRegistry.standardSteps = .standard ∧
      Router.registry.run .empty Router.standardSteps = .standard ∧
      (∃ i, ∀ j, "cool/Quiz" ∈ TypeRegistry.standard.tags j ↔ j = i) ∧
      ("pow" ≠ "" ∧ "pow".toList.all Char.isAlphanum = true) := by
  have htypes : TypeRegistry.registry.run .empty TypeRegistry.standardSteps = .standard := rfl
  have hroutes : Router.registry.run .empty Router.standardSteps = .standard := rfl
  obtain ⟨-, -, hrouter, htags, -⟩ := registries_keep
  refine ⟨htypes, hroutes, ?_, ?_⟩
  · have hquiz := (htags TypeRegistry.standardSteps).1 "cool/Quiz"
    rw [htypes] at hquiz
    exact hquiz (by decide +kernel)
  · have hpow := (hrouter Router.standardSteps).1.2 "pow"
    rw [hroutes] at hpow
    exact hpow (by decide +kernel)

end Appchain
