import Appchain.Proofs.OpenedStores

/-!
# Loading stores

Declared stores can be mounted and loaded over any database whose last commit can
be read. Afterwards they are open, the persistent ones hold what was committed of
them, and the transient ones hold nothing.
-/

namespace Appchain.MultiStore

open StoreKey Outcome

variable {s : MultiStore} {d : Database} {last : CommitInfo} {keys : List StoreKey} {main : StoreKey}

/-- The stores over a database, mounted and loaded, with the last commit. -/
def openOver (d : Database) (keys : List StoreKey) (main : StoreKey) :
    Except AppError (CommitInfo × MultiStore) := do
  let s ← ((ofDatabase d).mount keys).mapError .config
  match s.load main with
  | (.ok last, s) => return (last, s)
  | (.error e, _) => throw (.store e)

/-- The stores over a database with its last commit. -/
def loadedOn (keys : List StoreKey) (d : Database) (last : CommitInfo) : MultiStore :=
  { { ofDatabase d with mounted := keys }.openAll with lastCommit := last }

/-- Stores pass the check if their names are different and none of them is taken. -/
theorem checkMounts_eq_ok {before : List StoreKey} :
    s.checkMounts before keys = .ok () ↔ (keys.Pairwise fun a b => a.name ≠ b.name) ∧
      ∀ key ∈ keys, ∀ other ∈ s.mounted ++ before, other.name ≠ key.name := by
  induction keys generalizing before with
  | nil => exact iff_of_true rfl ⟨.nil, nofun⟩
  | cons key keys ih =>
    have hfresh : ¬ (before.any (·.name = key.name) || s.isMounted key) = true ↔
        ∀ other ∈ s.mounted ++ before, other.name ≠ key.name := by
      unfold isMounted
      rw [← List.any_append, Bool.not_eq_true, List.any_eq_false]
      simp only [List.mem_append, decide_eq_true_eq]
      exact forall_congr' fun other => by rw [or_comm]
    unfold checkMounts
    rw [guard_eq_ok, hfresh, ih, List.pairwise_cons, List.forall_mem_cons]
    simp only [← List.append_assoc, List.forall_mem_append, List.forall_mem_singleton]
    constructor
    · rintro ⟨hkey, hkeys, hrest⟩
      exact ⟨⟨fun k hk => (hrest k hk).2, hkeys⟩, hkey, fun k hk => (hrest k hk).1⟩
    · rintro ⟨⟨hne, hkeys⟩, hkey, hrest⟩
      exact ⟨hkey, hkeys, fun k hk => ⟨hrest k hk, hne k hk⟩⟩

theorem mount_eq (d : Database) (hd : Declared keys) :
    (ofDatabase d).mount keys = .ok { ofDatabase d with mounted := keys } := by
  have hcheck : (ofDatabase d).checkMounts [] keys = .ok () :=
    checkMounts_eq_ok.mpr ⟨hd.distinct, fun _ _ _ ho => absurd ho List.not_mem_nil⟩
  have hopen : (ofDatabase d).isSealed = false := rfl
  unfold mount Registration.granted
  rw [register_answer, hopen, hcheck]
  rfl

theorem load_eq (hm : main ∈ keys) (hr : readCommit (d.tree metadataName) = .ok last) :
    load { ofDatabase d with mounted := keys } main = (.ok last, loadedOn keys d last) := by
  have hmain : isMounted { ofDatabase d with mounted := keys } main = true := by
    unfold isMounted
    rw [List.any_eq_true]
    exact ⟨main, hm, decide_eq_true rfl⟩
  have hrecord : readCommit
      ((openAll { ofDatabase d with mounted := keys }).database.tree metadataName) = .ok last := hr
  unfold load
  rw [if_pos hmain]
  simp only [hrecord]
  rfl

/-- Declared stores can be mounted and loaded over any database whose last commit can be read. -/
theorem openOver_eq (hd : Declared keys) (hm : main ∈ keys)
    (hr : readCommit (d.tree metadataName) = .ok last) :
    openOver d keys main = .ok (last, loadedOn keys d last) := by
  unfold openOver
  rw [mount_eq d hd]
  simp only [mapError_ok, bind, Except.bind]
  rw [load_eq hm hr]
  rfl

theorem transient_loadedOn (d : Database) (last : CommitInfo) (name : String) :
    (loadedOn keys d last).transient.get? name =
      if ⟨name, .transient⟩ ∈ keys then some ∅ else none := by
  unfold loadedOn openAll
  rw [List.partition_eq_filter_filter]
  change (List.foldl (fun (m : Database) (k : StoreKey) => m.insert k.name ∅) ∅
    (keys.filter fun k => k.isTransient)).get? name = _
  rw [← List.foldl_map (f := StoreKey.name) (g := fun (m : Database) n => m.insert n ∅),
    get?_foldl_insert_empty]
  have hmem : name ∈ (keys.filter fun k => k.isTransient).map StoreKey.name ↔
      ⟨name, .transient⟩ ∈ keys := by
    simp only [List.mem_map, List.mem_filter, isTransient, decide_eq_true_eq]
    constructor
    · rintro ⟨⟨n, kind⟩, ⟨hk, rfl : kind = .transient⟩, rfl⟩
      exact hk
    · intro hk
      exact ⟨_, ⟨hk, rfl⟩, rfl⟩
  simp only [hmem]
  rfl

theorem opened_loadedOn (d : Database) (last : CommitInfo) : (loadedOn keys d last).Opened keys where
  mounted := rfl
  opened := by
    unfold loadedOn openAll
    rw [List.partition_eq_filter_filter]
    rfl
  transient name := by
    unfold OrderedMap.contains
    rw [transient_loadedOn]
    split <;> simp_all

theorem contents_loadedOn (d : Database) (last : CommitInfo) :
    (loadedOn keys d last).contents =
      fun key => if key.kind = .persistent then d.tree key.name else ∅ := by
  funext key
  unfold contents
  cases key.kind with
  | persistent => rfl
  | transient =>
    change (loadedOn keys d last).transient.tree key.name = ∅
    unfold Database.tree
    rw [transient_loadedOn]
    split <;> rfl

end Appchain.MultiStore
