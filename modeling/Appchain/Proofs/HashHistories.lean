import Appchain.Proofs.VersionedStores

/-!
# Hashes and histories

The hash of the stores is a matter of what the persistent ones hold, however they have
come to hold it. Two histories over empty databases that end with the same values in the
persistent stores end with the same hash: values that have been overwritten or deleted,
contexts that have been dropped, the place of the commits among the writes, and the
transient stores make no difference.
-/

namespace Appchain

open StoreKey MultiStore

variable {keys : List StoreKey} {main main' key : StoreKey} {s t : MultiStore} {m : Versioned}

namespace MultiStore

/-- The value of a key in one of the stores, as of the current block. -/
def lookup (s : MultiStore) (key : StoreKey) (k : Bytes) : Except StoreError (Option Bytes) :=
  (s.view key).map fun v => v.get k

/-- The stores at the end of a history that starts with an empty database. -/
def history (keys : List StoreKey) (main : StoreKey) (es : List StoreEvent) :
    Except AppError MultiStore := do
  let r ← openOver ∅ keys main
  let outcome ← r.2.performAll keys main es
  return outcome.2

/-- The machine of plain maps at the end of such a history. -/
def outcomeOf (keys : List StoreKey) (es : List StoreEvent) : Versioned :=
  (runAll (Versioned.step keys) (.start ∅ .initial) es).2

/-- A history over declared stores comes to its end. -/
theorem exists_history (hd : Declared keys) (hm : main ∈ keys) (es : List StoreEvent) :
    ∃ s, history keys main es = .ok s ∧ s.Shows keys (outcomeOf keys es) := by
  have hr : readCommit (Database.tree ∅ metadataName) = .ok .initial := rfl
  obtain ⟨s, hs, hshows⟩ := (Shows.start hr).performAll hd hm es
  refine ⟨s, ?_, hshows⟩
  unfold history
  rw [openOver_eq hd hm hr]
  change (do let outcome ← (loadedOn keys ∅ .initial).performAll keys main es; return outcome.2) = _
  rw [hs]
  rfl

/-- Looking a key up finds what the plain map has there. -/
theorem Shows.lookup (h : s.Shows keys m) (hk : key ∈ keys) (k : Bytes) :
    s.lookup key k = .ok ((m.current key).get? k) := by
  obtain ⟨v, hv, -, hc⟩ := h.opened.view hk
  unfold MultiStore.lookup
  rw [hv, ← h.current key hk, ← hc, ← View.get_eq_contents]
  rfl

/-- Look-ups tell all that is hashed of the stores. -/
theorem Shows.appHash_eq {n : Versioned} (hs : s.Shows keys m) (ht : t.Shows keys n)
    (h : ∀ key ∈ keys, key.kind = .persistent → ∀ k, s.lookup key k = t.lookup key k) :
    ∃ hash, s.appHash = .ok hash ∧ t.appHash = .ok hash := by
  have hmaps : ∀ key ∈ keys, key.kind = .persistent → m.current key = n.current key := by
    intro key hk hp
    refine OrderedMap.ext_get? fun k => ?_
    have hsame := h key hk hp k
    rw [hs.lookup hk, ht.lookup hk] at hsame
    exact Except.ok.inj hsame
  refine ⟨_, hs.appHash, ?_⟩
  rw [ht.appHash, contentsInput_congr hmaps]

/-- Histories over the same declared stores come to their ends, where look-ups find what the
machine of plain maps has there. If they find the same in every persistent store, the stores have
the same hash. -/
theorem appHash_of_histories (hd : Declared keys) (hm : main ∈ keys) (hm' : main' ∈ keys)
    (es es' : List StoreEvent) :
    ∃ s t, history keys main es = .ok s ∧ history keys main' es' = .ok t ∧
      (∀ key ∈ keys, ∀ k,
        s.lookup key k = .ok (((outcomeOf keys es).current key).get? k) ∧
        t.lookup key k = .ok (((outcomeOf keys es').current key).get? k)) ∧
      ((∀ key ∈ keys, key.kind = .persistent → ∀ k, s.lookup key k = t.lookup key k) →
        ∃ hash, s.appHash = .ok hash ∧ t.appHash = .ok hash) := by
  obtain ⟨s, hs, hshows⟩ := exists_history hd hm es
  obtain ⟨t, ht, htshows⟩ := exists_history hd hm' es'
  exact ⟨s, t, hs, ht, fun key hk k => ⟨hshows.lookup hk k, htshows.lookup hk k⟩,
    hshows.appHash_eq htshows⟩

namespace Sample

/-- Values are overwritten, deleted and set again, one key is deleted that has never been there,
something is lost and something is transient. -/
def eventful : List StoreEvent :=
  [.context ⟨"chain", 1⟩ .deliver
      [⟨.main, .set [1] [2]⟩, ⟨.main, .delete [9]⟩, ⟨.main, .set [6] [7]⟩,
        ⟨.changedParameters, .set [3] [4]⟩] true,
    .commit,
    .context ⟨"chain", 2⟩ .deliver [⟨.main, .set [1] [8]⟩] true,
    .reopen,
    .context ⟨"chain", 2⟩ .deliver [⟨.main, .delete [1]⟩, ⟨.main, .delete [6]⟩] true,
    .context ⟨"chain", 2⟩ .deliver [⟨.main, .set [1] [5]⟩] true,
    .context ⟨"chain", 2⟩ .deliver [⟨.main, .set [1] [0]⟩] false,
    .context ⟨"chain", 2⟩ .deliver [⟨.changedParameters, .set [3] []⟩] true]

def plain : List StoreEvent := [.context ⟨"chain", 1⟩ .deliver [⟨.main, .set [1] [5]⟩] true]

end Sample

theorem appHash_of_histories_eventful :
    Declared Sample.stores ∧ .main ∈ Sample.stores ∧
      ∃ s t, history Sample.stores .main Sample.eventful = .ok s ∧
        history Sample.stores .main Sample.plain = .ok t ∧
        ∃ hash, s.appHash = .ok hash ∧ t.appHash = .ok hash := by
  have hd : Declared Sample.stores := ⟨by decide, by decide⟩
  have hm : .main ∈ Sample.stores := .head _
  obtain ⟨s, t, hs, ht, hl, h⟩ := appHash_of_histories hd hm hm Sample.eventful Sample.plain
  refine ⟨hd, hm, s, t, hs, ht, h fun key hk hp k => ?_⟩
  have hkey : key = .main := by
    revert key
    decide
  have hsame : (outcomeOf Sample.stores Sample.eventful).current .main =
      (outcomeOf Sample.stores Sample.plain).current .main := by decide
  rw [(hl key hk k).1, (hl key hk k).2, hkey, hsame]

end MultiStore
end Appchain
