import Appchain.Context
import Appchain.Proofs.Outcomes

/-!
# Opened stores

What a store holds is its committed tree under the writes of the block. Once some
stores are open, operations change one of them at a time. Taking the writes of a
context into the block, committing the block and opening the database again leave
the contents of every persistent store as they were.
-/

namespace Appchain

namespace OrderedMap

open Std

variable {K V : Type} [Ord K] [TransOrd K] [LawfulEqOrd K]

@[simp] theorem override_empty (m : OrderedMap K V) : m.override ∅ = m := rfl

theorem override_union [DecidableEq K] (m : OrderedMap K V) (v w : OrderedMap K (Option V)) :
    m.override (v.union w) = (m.override v).override w := by
  apply ext_get?
  intro k
  rw [get?_override, get?_union, get?_override, get?_override]
  cases w.get? k <;> rfl

theorem override_of_isEmpty (m : OrderedMap K V) {w : OrderedMap K (Option V)}
    (h : w.isEmpty = true) : m.override w = m := by
  unfold override
  rw [List.isEmpty_iff.mp h]
  rfl

omit [TransOrd K] [LawfulEqOrd K] in
theorem contains_iff {m : OrderedMap K V} {k : K} : m.contains k = true ↔ ∃ v, m.get? k = some v := by
  unfold contains
  exact Option.isSome_iff_exists

theorem contains_insert [DecidableEq K] {m : OrderedMap K V} {k j : K} {v : V} :
    (m.insert k v).contains j = true ↔ j = k ∨ m.contains j = true := by
  unfold contains
  rw [get?_insert]
  split
  · next h => simp [h]
  · next h => simp [h]

omit [TransOrd K] in
theorem lookup_cons_self (k : K) (v : V) (l : List (K × V)) : lookup k ((k, v) :: l) = some v := by
  simp [lookup]

theorem lookup_cons_of_ne {k : K} {e : K × V} {l : List (K × V)}
    (h : (e :: l).Pairwise fun a b => compare a.1 b.1 = .lt) (hk : k ≠ e.1) :
    lookup k (e :: l) = lookup k l := by
  rw [lookup]
  cases hc : compare k e.1 with
  | lt =>
    have hl := fun x hx => TransCmp.lt_trans hc ((List.pairwise_cons.mp h).1 x hx)
    exact (lookup_eq_none_of_lt hl).symm
  | eq => exact absurd (LawfulEqCmp.eq_of_compare hc) hk
  | gt => rfl

end OrderedMap

theorem Database.tree_insert (d : Database) (store name : String) (t : Tree) :
    Database.tree (d.insert store t) name = if name = store then t else d.tree name := by
  unfold tree
  rw [OrderedMap.get?_insert]
  split <;> rfl

theorem Writes.of_insert (w : Writes) (store name : String) (s : WriteSet) :
    Writes.of (w.insert store s) name = if name = store then s else w.of name := by
  unfold of
  rw [OrderedMap.get?_insert]
  split <;> rfl

open Outcome

namespace StoreKey

/-- The persistent ones of some stores. -/
def persistent (keys : List StoreKey) : List StoreKey := keys.filter fun k => !k.isTransient

theorem mem_persistent {keys : List StoreKey} {key : StoreKey} :
    key ∈ persistent keys ↔ key ∈ keys ∧ key.kind = .persistent := by
  unfold persistent isTransient
  rw [List.mem_filter]
  cases key.kind <;> simp

/-- Stores that can be open together: their names are different, and none is the one that is kept
for the record of the last commit. -/
structure Declared (keys : List StoreKey) : Prop where
  distinct : keys.Pairwise fun a b => a.name ≠ b.name
  reserved : ∀ key ∈ keys, key.name ≠ metadataName

theorem Declared.eq_of_name_eq {keys : List StoreKey} (h : Declared keys) {a b : StoreKey}
    (ha : a ∈ keys) (hb : b ∈ keys) (hn : a.name = b.name) : a = b := by
  have hd := h.distinct
  clear h
  induction keys with
  | nil => cases ha
  | cons k keys ih =>
    obtain ⟨hk, hd⟩ := List.pairwise_cons.mp hd
    rcases List.mem_cons.mp ha with rfl | ha'
    · rcases List.mem_cons.mp hb with rfl | hb'
      · rfl
      · exact absurd hn (hk b hb')
    · rcases List.mem_cons.mp hb with rfl | hb'
      · exact absurd hn.symm (hk a ha')
      · exact ih ha' hb' hd

theorem Declared.of_subset {keys all : List StoreKey} (h : Declared all) (hs : keys ⊆ all)
    (hn : keys.Nodup) : Declared keys where
  distinct := List.Pairwise.imp_of_mem
    (fun ha hb hne => mt (h.eq_of_name_eq (hs ha) (hs hb)) hne) hn
  reserved key hk := h.reserved key (hs hk)

theorem Declared.declare {r n : StoreRegistry} (h : Declared r.keys) {key : StoreKey}
    (hk : r.declare key = .ok n) : Declared n.keys := by
  have hk := Registration.granted_eq_ok.mp hk
  rw [StoreRegistry.insert_answer] at hk
  split at hk
  · cases hk
  split at hk
  · cases hk
  next hfresh =>
  cases hk
  rw [not_or, Bool.not_eq_true, List.any_eq_false] at hfresh
  constructor
  · rw [List.pairwise_append]
    refine ⟨h.distinct, List.pairwise_singleton .., fun a ha b hb => ?_⟩
    rw [List.mem_singleton.mp hb]
    exact of_decide_eq_false (Bool.eq_false_iff.mpr (hfresh.2 a ha))
  · intro a ha
    rcases List.mem_append.mp ha with ha | ha
    · exact h.reserved a ha
    · rw [List.mem_singleton.mp ha]
      exact hfresh.1

/-- Stores that a registry has declared can be open together, in any order. -/
theorem declared_of_registry {ks keys : List StoreKey} {r : StoreRegistry}
    (h : ks.foldlM StoreRegistry.declare .empty = .ok r) (hs : keys ⊆ r.keys) (hn : keys.Nodup) :
    Declared keys :=
  Declared.of_subset (foldlM_preserves (P := fun r => Declared r.keys)
    (fun _ _ _ _ hr hk => hr.declare hk) ⟨.nil, fun _ hk => absurd hk List.not_mem_nil⟩ h) hs hn

end StoreKey

open StoreKey

/-- Whether only the given stores are written to. -/
def Writes.Within (keys : List StoreKey) (w : Writes) : Prop :=
  ∀ name, w.contains name = true → ∃ key ∈ keys, key.name = name

namespace MultiStore

variable {s t : MultiStore} {keys : List StoreKey} {key : StoreKey}

/-- What a store holds as of the current block. -/
def contents (s : MultiStore) (key : StoreKey) : Tree :=
  match key.kind with
  | .persistent => (s.database.tree key.name).override (s.pending.of key.name)
  | .transient => s.transient.tree key.name

/-- What is seen of a store, if it is open, are its contents. -/
theorem contents_of_view {v : View} (h : s.view key = .ok v) :
    v.contents = s.contents key := by
  unfold view at h
  unfold contents
  cases hk : key.kind with
  | persistent =>
    simp only [hk] at h
    split at h
    · cases h
      rfl
    · cases h
  | transient =>
    simp only [hk] at h
    split at h
    · next u hu =>
      cases h
      simp [Database.tree, hu, View.contents]
    · cases h

/-- Nothing has been written over a store of the block yet. -/
theorem writes_of_view {v : View} (h : s.view key = .ok v) : v.writes = ∅ := by
  unfold view at h
  cases hk : key.kind with
  | persistent =>
    simp only [hk] at h
    split at h
    · cases h
      rfl
    · cases h
  | transient =>
    simp only [hk] at h
    split at h
    · cases h
      rfl
    · cases h

/-- What is hashed of some contents. -/
def contentsInput (keys : List StoreKey) (contents : StoreKey → Tree) : Bytes :=
  (persistent keys).flatMap fun key => storeInput key.name (contents key).entries

/-- The given stores are mounted and open, and no others. -/
structure Opened (keys : List StoreKey) (s : MultiStore) : Prop where
  mounted : s.mounted = keys
  opened : s.opened = (persistent keys).map (·.name)
  transient : ∀ name, s.transient.contains name = true ↔ ⟨name, .transient⟩ ∈ keys

namespace Opened

theorem mem_opened (h : s.Opened keys) {name : String} :
    name ∈ s.opened ↔ ⟨name, .persistent⟩ ∈ keys := by
  rw [h.opened, List.mem_map]
  constructor
  · rintro ⟨⟨n, kind⟩, hk, rfl⟩
    obtain ⟨hk, rfl : kind = .persistent⟩ := mem_persistent.mp hk
    exact hk
  · intro hk
    exact ⟨_, mem_persistent.mpr ⟨hk, rfl⟩, rfl⟩

theorem mem_opened_iff (h : s.Opened keys) (hd : Declared keys) (hk : key ∈ keys) :
    key.name ∈ s.opened ↔ key.kind = .persistent := by
  rw [h.mem_opened]
  constructor
  · intro hp
    rw [hd.eq_of_name_eq hk hp rfl]
  · intro hp
    rw [← hp]
    exact hk

theorem close (h : s.Opened keys) : s.close.Opened keys := ⟨h.mounted, h.opened, h.transient⟩

theorem view (h : s.Opened keys) (hk : key ∈ keys) :
    ∃ v, s.view key = .ok v ∧ v.writes = ∅ ∧ v.contents = s.contents key := by
  obtain ⟨name, kind⟩ := key
  unfold MultiStore.view contents
  cases kind with
  | persistent => exact ⟨_, if_pos (h.mem_opened.mpr hk), rfl, rfl⟩
  | transient =>
    obtain ⟨t, ht⟩ := OrderedMap.contains_iff.mp ((h.transient name).mpr hk)
    refine ⟨⟨t, ∅, ∅⟩, by simp only [ht], rfl, ?_⟩
    simp [Database.tree, ht, View.contents]

theorem view_of_not_mem (h : s.Opened keys) (hk : key ∉ keys) :
    s.view key = .error (.notMounted key.name) := by
  obtain ⟨name, kind⟩ := key
  unfold MultiStore.view
  cases kind with
  | persistent => exact if_neg (mt h.mem_opened.mp hk)
  | transient =>
    have hn : s.transient.get? name = none := by
      rw [← Option.not_isSome_iff_eq_none]
      exact mt (h.transient name).mp hk
    simp only [hn]

theorem isOpened (h : s.Opened keys) (hk : key ∈ keys) : s.isOpened key.name = true := by
  obtain ⟨name, kind⟩ := key
  unfold MultiStore.isOpened
  rw [Bool.or_eq_true]
  cases kind with
  | persistent => exact .inl (decide_eq_true (h.mem_opened.mpr hk))
  | transient => exact .inr ((h.transient name).mpr hk)

variable (hd : Declared keys)
include hd

theorem writeOne (h : s.Opened keys) (hk : key ∈ keys) (w : WriteSet) :
    (s.writeOne key.name w).Opened keys := by
  unfold MultiStore.writeOne
  split
  · exact h
  · split
    · exact ⟨h.mounted, h.opened, h.transient⟩
    · next ho =>
      have hp : key.kind ≠ .persistent := mt (h.mem_opened_iff hd hk).mpr ho
      have ht : (⟨key.name, .transient⟩ : StoreKey) ∈ keys := by
        obtain ⟨name, kind⟩ := key
        cases kind with
        | persistent => exact absurd rfl hp
        | transient => exact hk
      refine ⟨h.mounted, h.opened, fun name => ?_⟩
      rw [OrderedMap.contains_insert, h.transient]
      constructor
      · rintro (rfl | hn)
        · exact ht
        · exact hn
      · exact .inr

/-- Writes to one store leave the others alone. -/
theorem contents_writeOne (h : s.Opened keys) (hk : key ∈ keys) (w : WriteSet) {other : StoreKey}
    (ho : other ∈ keys) :
    (s.writeOne key.name w).contents other =
      if other = key then (s.contents key).override w else s.contents other := by
  have hname : other.name = key.name ↔ other = key :=
    ⟨hd.eq_of_name_eq ho hk, congrArg StoreKey.name⟩
  unfold MultiStore.writeOne
  split
  · next he =>
    rw [OrderedMap.override_of_isEmpty _ he]
    split
    · next e => rw [e]
    · rfl
  · by_cases hc : key.kind = .persistent
    · rw [if_pos ((h.mem_opened_iff hd hk).mpr hc)]
      by_cases e : other = key
      · subst e
        simp [contents, hc, Writes.of_insert, OrderedMap.override_union]
      · rw [if_neg e]
        unfold contents
        cases other.kind with
        | persistent => simp [Writes.of_insert, hname, e]
        | transient => rfl
    · rw [if_neg (mt (h.mem_opened_iff hd hk).mp hc)]
      have ht : key.kind = .transient := by
        cases hk : key.kind with
        | persistent => exact absurd hk hc
        | transient => rfl
      by_cases e : other = key
      · subst e
        simp [contents, ht, Database.tree_insert]
      · rw [if_neg e]
        unfold contents
        cases other.kind with
        | persistent => rfl
        | transient => simp [Database.tree_insert, hname, e]

theorem foldl_writeOne (h : s.Opened keys) {l : List (String × WriteSet)}
    (hl : l.Pairwise fun a b => compare a.1 b.1 = .lt) (hw : ∀ e ∈ l, ∃ key ∈ keys, key.name = e.1) :
    let t := l.foldl (fun s e => s.writeOne e.1 e.2) s
    t.Opened keys ∧ ∀ key ∈ keys,
      t.contents key = (s.contents key).override ((OrderedMap.lookup key.name l).getD ∅) := by
  induction l generalizing s with
  | nil => exact ⟨h, fun _ _ => rfl⟩
  | cons e l ih =>
    obtain ⟨key, hk, he⟩ := hw e (List.mem_cons_self ..)
    have hs : (s.writeOne e.1 e.2).Opened keys := he ▸ h.writeOne hd hk e.2
    have ⟨ht, hc⟩ := ih hs (List.pairwise_cons.mp hl).2 fun x hx => hw x (List.mem_cons_of_mem e hx)
    refine ⟨ht, fun other ho => ?_⟩
    rw [List.foldl_cons, hc other ho, ← he, h.contents_writeOne hd hk e.2 ho]
    by_cases e' : other = key
    · subst e'
      have hn : OrderedMap.lookup other.name l = none :=
        OrderedMap.lookup_eq_none_of_lt (he ▸ (List.pairwise_cons.mp hl).1)
      rw [if_pos rfl, hn, show e = (other.name, e.2) by rw [he], OrderedMap.lookup_cons_self]
      rfl
    · have hne : other.name ≠ e.1 := by
        intro hn
        exact e' (hd.eq_of_name_eq ho hk (hn.trans he.symm))
      rw [if_neg e', OrderedMap.lookup_cons_of_ne hl hne]

/-- Writes to open stores are taken into the block. -/
theorem write (h : s.Opened keys) {w : Writes} (hw : w.Within keys) :
    ∃ t, s.write w = .ok t ∧ t.Opened keys ∧
      ∀ key ∈ keys, t.contents key = (s.contents key).override (w.of key.name) := by
  have known : ∀ e ∈ w.entries, ∃ key ∈ keys, key.name = e.1 := by
    intro e he
    exact hw e.1 (OrderedMap.contains_iff.mpr ⟨e.2, (OrderedMap.mem_entries_iff _ _ _).mp he⟩)
  have none_closed : (w.keys.find? fun name => !s.isOpened name) = none := by
    rw [List.find?_eq_none]
    intro name hn
    obtain ⟨e, he, rfl⟩ := List.mem_map.mp hn
    obtain ⟨key, hk, hname⟩ := known e he
    rw [← hname, h.isOpened hk]
    decide
  have hf := h.foldl_writeOne hd w.ascending known
  refine ⟨_, ?_, hf.1, hf.2⟩
  unfold MultiStore.write
  rw [none_closed]

end Opened

/-- The writes of a context are not committed yet. -/
structure SameCommit (s t : MultiStore) : Prop where
  database_eq : t.database = s.database
  lastCommit_eq : t.lastCommit = s.lastCommit

theorem sameCommit_writeOne (s : MultiStore) (name : String) (w : WriteSet) :
    SameCommit s (s.writeOne name w) := by
  unfold writeOne
  split
  · exact ⟨rfl, rfl⟩
  · split <;> exact ⟨rfl, rfl⟩

theorem sameCommit_write {w : Writes} (h : s.write w = .ok t) : SameCommit s t := by
  unfold write at h
  split at h
  · cases h
  · next hf =>
    cases h
    clear hf
    induction w.entries generalizing s with
    | nil => exact ⟨rfl, rfl⟩
    | cons e l ih =>
      have ho := s.sameCommit_writeOne e.1 e.2
      have hl := ih (s := s.writeOne e.1 e.2)
      exact ⟨hl.database_eq.trans ho.database_eq, hl.lastCommit_eq.trans ho.lastCommit_eq⟩

theorem tree_committed (d : Database) (w : Writes) (name : String) :
    Database.tree (w.entries.foldl (fun d e => d.insert e.1 ((d.tree e.1).override e.2)) d) name =
      (d.tree name).override (w.of name) := by
  obtain ⟨l, hl⟩ := w
  unfold Writes.of OrderedMap.get?
  simp only
  induction l generalizing d with
  | nil => rfl
  | cons e l ih =>
    obtain ⟨he, hl'⟩ := List.pairwise_cons.mp hl
    rw [List.foldl_cons, ih _ hl', Database.tree_insert]
    by_cases hn : name = e.1
    · subst hn
      rw [if_pos rfl, OrderedMap.lookup_eq_none_of_lt he, show e = (e.1, e.2) from rfl,
        OrderedMap.lookup_cons_self]
      rfl
    · rw [if_neg hn, OrderedMap.lookup_cons_of_ne hl hn]

theorem readCommit_writeCommit (t : Tree) (c : CommitInfo) : readCommit (writeCommit t c) = .ok c := by
  have hk : versionKey ≠ appHashKey := by decide
  have hl : (Bytes.ofUInt64BE c.version).length = 8 := Bytes.length_bigEndian ..
  have hv : Bytes.bigEndianValue (Bytes.ofUInt64BE c.version) = c.version.toNat :=
    Bytes.bigEndianValue_bigEndian _ _ c.version.toNat_lt_size
  unfold readCommit writeCommit
  simp only [OrderedMap.get?_insert, if_neg hk, ↓reduceIte, hl, AppHash.ofBytes?_bytes, hv,
    UInt64.ofNat_toNat]

/-- What is hashed are the contents as of the current block. -/
theorem Opened.hashInput (h : s.Opened keys) : s.hashInput = .ok (contentsInput keys s.contents) := by
  have inputs : ∀ key ∈ persistent keys,
      s.inputOf key = .ok (storeInput key.name (s.contents key).entries) := by
    intro key hk
    obtain ⟨v, hv, -, hc⟩ := h.view (mem_persistent.mp hk).1
    unfold inputOf
    rw [hv, ← hc, ← View.scan_nil]
    rfl
  unfold MultiStore.hashInput
  rw [h.mounted]
  change (do let stores ← (persistent keys).mapM _; return stores.flatten) = _
  rw [mapM_eq_ok_map inputs]
  rfl

theorem Opened.appHash (h : s.Opened keys) :
    s.appHash = .ok (.of (contentsInput keys s.contents)) := by
  unfold MultiStore.appHash
  rw [h.hashInput]
  rfl

/-- The trees of the same names, all empty. -/
def emptied (d : Database) : Database := d.keys.foldl (fun m name => m.insert name ∅) ∅

theorem get?_foldl_insert_empty (l : List String) (m : Database) (name : String) :
    (l.foldl (fun m name => m.insert name (∅ : Tree)) m).get? name =
      if name ∈ l then some ∅ else m.get? name := by
  induction l generalizing m with
  | nil => rfl
  | cons x l ih =>
    rw [List.foldl_cons, ih, OrderedMap.get?_insert]
    by_cases hx : name = x <;> by_cases hl : name ∈ l <;> simp [hx, hl]

theorem get?_emptied (d : Database) (name : String) :
    (emptied d).get? name = if d.contains name then some ∅ else none := by
  have hmem : name ∈ d.keys ↔ d.contains name = true := by
    unfold OrderedMap.keys
    rw [OrderedMap.contains_iff, List.mem_map]
    constructor
    · rintro ⟨e, he, rfl⟩
      exact ⟨e.2, (OrderedMap.mem_entries_iff _ _ _).mp he⟩
    · rintro ⟨t, ht⟩
      exact ⟨(name, t), (OrderedMap.mem_entries_iff _ _ _).mpr ht, rfl⟩
  unfold emptied
  rw [get?_foldl_insert_empty]
  by_cases hc : d.contains name = true
  · rw [if_pos (hmem.mpr hc), if_pos hc]
  · rw [if_neg (mt hmem.mp hc), if_neg hc]
    rfl

/-- The stores after a commit. -/
def afterCommit (s : MultiStore) (info : CommitInfo) : MultiStore :=
  { s with
    database := s.committed info
    transient := emptied s.transient
    pending := ∅
    lastCommit := info }

theorem Opened.afterCommit (h : s.Opened keys) (info : CommitInfo) :
    (s.afterCommit info).Opened keys where
  mounted := h.mounted
  opened := h.opened
  transient name := by
    change (emptied s.transient).contains name = true ↔ _
    rw [← h.transient name]
    unfold OrderedMap.contains
    rw [get?_emptied]
    unfold OrderedMap.contains
    cases s.transient.get? name <;> simp

/-- A commit is recorded. -/
theorem readCommit_afterCommit (s : MultiStore) (info : CommitInfo) :
    readCommit ((s.afterCommit info).database.tree metadataName) = .ok info := by
  change readCommit ((s.committed info).tree metadataName) = .ok info
  unfold committed
  rw [Database.tree_insert, if_pos rfl]
  exact readCommit_writeCommit _ info

/-- What is committed of a store is what it held. -/
theorem tree_afterCommit (s : MultiStore) (info : CommitInfo) (hr : key.name ≠ metadataName)
    (hp : key.kind = .persistent) : (s.afterCommit info).database.tree key.name = s.contents key := by
  unfold contents
  simp only [hp]
  change (s.committed info).tree key.name = _
  unfold committed
  rw [Database.tree_insert, if_neg hr, tree_committed]

/-- A commit keeps the contents of the persistent stores and empties the others. -/
theorem contents_afterCommit_of_ne (s : MultiStore) (info : CommitInfo)
    (hr : key.name ≠ metadataName) :
    (s.afterCommit info).contents key = if key.kind = .persistent then s.contents key else ∅ := by
  cases hkind : key.kind with
  | persistent =>
    rw [if_pos rfl, ← s.tree_afterCommit info hr hkind]
    unfold contents
    simp only [hkind]
    rfl
  | transient =>
    unfold contents
    simp only [hkind, reduceCtorEq, ↓reduceIte]
    change (emptied s.transient).tree key.name = ∅
    unfold Database.tree
    rw [get?_emptied]
    split <;> rfl

theorem Opened.commit (h : s.Opened keys) :
    let info : CommitInfo := ⟨s.lastCommit.version + 1, .of (contentsInput keys s.contents)⟩
    s.commit = .ok (info, s.afterCommit info) := by
  unfold MultiStore.commit
  rw [h.appHash]
  rfl

end MultiStore
end Appchain
