import Appchain.Proofs.LoadedStores

/-!
# What the hash of the stores says

The input of the hash is a sequence of strings, each after its length: the name of
every persistent store, followed by its entries. The strings can be recovered, but
not where the entries of one store end and the name of the next one begins. So
equal inputs come from equal contents, unless a store holds the name of the next
one as a key.
-/

namespace Appchain.MultiStore

open StoreKey Outcome

variable {s t : MultiStore} {f g : StoreKey → Tree}

/-- Keys and values of some entries, one after another. -/
def pairs (es : List (Bytes × Bytes)) : List Bytes := es.flatMap fun e => [e.1, e.2]

/-- The strings that are hashed of some stores. -/
def hashedStrings (stores : List StoreKey) (f : StoreKey → Tree) : List Bytes :=
  stores.flatMap fun key => Bytes.ofString key.name :: pairs (f key).entries

/-- Whether the lengths of the strings fit the eight bytes that they are written in. -/
def Measurable (strings : List Bytes) : Prop := ∀ b ∈ strings, b.length < UInt64.size

instance (strings : List Bytes) : Decidable (Measurable strings) :=
  inferInstanceAs (Decidable (∀ b ∈ strings, b.length < UInt64.size))

/-- One of the stores holds the name of the next one as a key. -/
def Ambiguous (f : StoreKey → Tree) : List StoreKey → Prop
  | a :: b :: stores =>
    (f a).contains (Bytes.ofString b.name) = true ∨ Ambiguous f (b :: stores)
  | _ => False

theorem storeInput_eq (name : String) (es : List (Bytes × Bytes)) :
    storeInput name es = (Bytes.ofString name :: pairs es).flatMap measured := by
  unfold storeInput pairs
  rw [List.flatMap_cons, List.flatMap_assoc]
  simp

theorem contentsInput_eq (keys : List StoreKey) (f : StoreKey → Tree) :
    contentsInput keys f = (hashedStrings (persistent keys) f).flatMap measured := by
  unfold contentsInput hashedStrings
  rw [List.flatMap_assoc]
  simp only [storeInput_eq]

/-- A string that is written after its length can be told from what follows. -/
theorem measured_append_inj {a b u v : Bytes} (ha : a.length < UInt64.size)
    (hb : b.length < UInt64.size) (h : measured a ++ u = measured b ++ v) : a = b ∧ u = v := by
  unfold measured at h
  rw [List.append_assoc, List.append_assoc] at h
  obtain ⟨hl, h⟩ := List.append_inj h (by simp)
  have hw := congrArg UInt64.toNat (Bytes.ofUInt64BE_injective hl)
  rw [UInt64.toNat_ofNat_of_lt' ha, UInt64.toNat_ofNat_of_lt' hb] at hw
  exact List.append_inj h hw

theorem measured_ne_nil (b : Bytes) : measured b ≠ [] := by
  unfold measured
  intro h
  have hl := congrArg List.length h
  simp at hl

/-- The strings can be recovered from what is hashed. -/
theorem flatMap_measured_inj {xs ys : List Bytes} (hx : Measurable xs) (hy : Measurable ys)
    (h : xs.flatMap measured = ys.flatMap measured) : xs = ys := by
  induction xs generalizing ys with
  | nil =>
    cases ys with
    | nil => rfl
    | cons y ys =>
      rw [List.flatMap_nil, List.flatMap_cons] at h
      exact absurd (List.append_eq_nil_iff.mp h.symm).1 (measured_ne_nil y)
  | cons x xs ih =>
    cases ys with
    | nil =>
      rw [List.flatMap_nil, List.flatMap_cons] at h
      exact absurd (List.append_eq_nil_iff.mp h).1 (measured_ne_nil x)
    | cons y ys =>
      rw [List.flatMap_cons, List.flatMap_cons] at h
      obtain ⟨hxy, hs⟩ := measured_append_inj (hx x (List.mem_cons_self ..))
        (hy y (List.mem_cons_self ..)) h
      rw [hxy, ih (fun b hb => hx b (List.mem_cons_of_mem x hb))
        (fun b hb => hy b (List.mem_cons_of_mem y hb)) hs]

/-- Where the entries end can be told as long as none of them has the next string as its key. -/
theorem entries_eq_or_mem {es fs : List (Bytes × Bytes)} {us vs : List Bytes}
    (hhead : us.head? = vs.head?) (h : pairs es ++ us = pairs fs ++ vs) :
    (es = fs ∧ us = vs) ∨
      ∃ name ∈ us.head?, name ∈ es.map Prod.fst ∨ name ∈ fs.map Prod.fst := by
  induction es generalizing fs with
  | nil =>
    cases fs with
    | nil => exact .inl ⟨rfl, h⟩
    | cons e fs =>
      refine .inr ⟨e.1, ?_, .inr (List.mem_cons_self ..)⟩
      change us = e.1 :: e.2 :: (pairs fs ++ vs) at h
      rw [h]
      rfl
  | cons e es ih =>
    cases fs with
    | nil =>
      refine .inr ⟨e.1, ?_, .inl (List.mem_cons_self ..)⟩
      change e.1 :: e.2 :: (pairs es ++ us) = vs at h
      rw [hhead, ← h]
      rfl
    | cons e' fs =>
      change e.1 :: e.2 :: (pairs es ++ us) = e'.1 :: e'.2 :: (pairs fs ++ vs) at h
      obtain ⟨hk, h⟩ := List.cons.inj h
      obtain ⟨hv, h⟩ := List.cons.inj h
      rcases ih h with ⟨hes, hus⟩ | ⟨name, hn, hmem⟩
      · exact .inl ⟨by rw [hes, Prod.ext hk hv], hus⟩
      · exact .inr ⟨name, hn, hmem.imp (List.mem_cons_of_mem _) (List.mem_cons_of_mem _)⟩

theorem contains_of_mem_map {u : Tree} {k : Bytes} (h : k ∈ u.entries.map Prod.fst) :
    u.contains k = true := by
  obtain ⟨e, he, rfl⟩ := List.mem_map.mp h
  exact OrderedMap.contains_iff.mpr ⟨e.2, (OrderedMap.mem_entries_iff _ _ _).mp he⟩

theorem eq_of_entries_eq {u v : Tree} (h : u.entries = v.entries) : u = v := by
  cases u
  cases v
  cases h
  rfl

theorem Ambiguous.cons {stores : List StoreKey} (a : StoreKey) (h : Ambiguous f stores) :
    Ambiguous f (a :: stores) := by
  cases stores with
  | nil => cases h
  | cons b stores => exact .inr h

/-- The strings of some stores start with the name of the first one. -/
theorem head?_hashedStrings (stores : List StoreKey) (f : StoreKey → Tree) :
    (hashedStrings stores f).head? = stores.head?.map fun b => Bytes.ofString b.name := by
  cases stores <;> rfl

/-- One store after another is read off the strings. -/
theorem eq_of_hashedStrings {stores : List StoreKey} (hf : ¬ Ambiguous f stores)
    (hg : ¬ Ambiguous g stores) (h : hashedStrings stores f = hashedStrings stores g) :
    ∀ key ∈ stores, f key = g key := by
  induction stores with
  | nil => nofun
  | cons a stores ih =>
    change _ :: (pairs (f a).entries ++ hashedStrings stores f) =
      _ :: (pairs (g a).entries ++ hashedStrings stores g) at h
    have hhead := (head?_hashedStrings stores f).trans (head?_hashedStrings stores g).symm
    rcases entries_eq_or_mem hhead (List.cons.inj h).2 with ⟨he, hs⟩ | ⟨name, hn, hmem⟩
    · intro key hk
      rcases List.mem_cons.mp hk with rfl | hk
      · exact eq_of_entries_eq he
      · exact ih (mt (.cons a) hf) (mt (.cons a) hg) hs key hk
    · -- The entries of one side go on where the name of the next store stands on the other.
      rw [head?_hashedStrings] at hn
      cases stores with
      | nil => cases hn
      | cons b stores =>
        cases hn
        rcases hmem with hmem | hmem
        · exact absurd (.inl (contains_of_mem_map hmem)) hf
        · exact absurd (.inl (contains_of_mem_map hmem)) hg

/-- What is hashed, if anything is, are the contents of the mounted stores. -/
theorem eq_of_hashInput {input : Bytes} (h : s.hashInput = .ok input) :
    input = contentsInput s.mounted s.contents := by
  unfold hashInput at h
  obtain ⟨inputs, hi, h⟩ := bind_eq_ok.mp h
  cases h
  have hg : ∀ key ∈ persistent s.mounted, ∀ b, s.inputOf key = .ok b →
      b = storeInput key.name (s.contents key).entries := by
    intro key _ b hb
    obtain ⟨v, hv, hb⟩ := bind_eq_ok.mp hb
    cases hb
    rw [View.scan_nil, contents_of_view hv]
  rw [eq_map_of_mapM hg hi]
  rfl

/-- The strings that are hashed can be recovered from the input of the hash. -/
theorem hashedStrings_eq {input : Bytes} (hm : s.mounted = t.mounted)
    (hs : s.hashInput = .ok input) (ht : t.hashInput = .ok input)
    (hls : Measurable (hashedStrings (persistent s.mounted) s.contents))
    (hlt : Measurable (hashedStrings (persistent t.mounted) t.contents)) :
    hashedStrings (persistent s.mounted) s.contents =
      hashedStrings (persistent s.mounted) t.contents := by
  have h := (eq_of_hashInput hs).symm.trans (eq_of_hashInput ht)
  rw [contentsInput_eq, contentsInput_eq] at h
  rw [flatMap_measured_inj hls hlt h, hm]

/-- States with the same mounted stores whose hashes are taken of the same bytes have the same
contents, unless one of them has a store that holds the name of the next one as a key. -/
theorem contents_eq_or_ambiguous {input : Bytes} (hm : s.mounted = t.mounted)
    (hs : s.hashInput = .ok input) (ht : t.hashInput = .ok input)
    (hls : Measurable (hashedStrings (persistent s.mounted) s.contents))
    (hlt : Measurable (hashedStrings (persistent t.mounted) t.contents)) :
    (∀ key ∈ s.mounted, key.kind = .persistent → s.contents key = t.contents key) ∨
      Ambiguous s.contents (persistent s.mounted) ∨
      Ambiguous t.contents (persistent s.mounted) := by
  by_cases has : Ambiguous s.contents (persistent s.mounted)
  · exact .inr (.inl has)
  · by_cases hat : Ambiguous t.contents (persistent s.mounted)
    · exact .inr (.inr hat)
    · refine .inl fun key hk hp => ?_
      exact eq_of_hashedStrings has hat (hashedStrings_eq hm hs ht hls hlt) key
        (mem_persistent.mpr ⟨hk, hp⟩)

/-! Two stores, of which the first one may hold the name of the second. -/

namespace Sample

def adjacent : List StoreKey := [.packets, .bonds]

def entry (k value : String) : Tree := OrderedMap.insert ∅ (Bytes.ofString k) (Bytes.ofString value)

def left : MultiStore := loadedOn adjacent (OrderedMap.insert ∅ "ibc" (entry "stake" "x")) .initial

def right : MultiStore := loadedOn adjacent (OrderedMap.insert ∅ "stake" (entry "x" "stake")) .initial

end Sample

/-- The exception is real: different contents are hashed alike. -/
theorem contents_eq_or_ambiguous_adjacent :
    ∃ input, Sample.left.hashInput = .ok input ∧ Sample.right.hashInput = .ok input ∧
      Sample.left.contents .packets ≠ Sample.right.contents .packets ∧
      (Ambiguous Sample.left.contents Sample.adjacent ∨
        Ambiguous Sample.right.contents Sample.adjacent) := by
  have hl : Sample.left.hashInput = .ok (contentsInput Sample.adjacent Sample.left.contents) :=
    (opened_loadedOn _ _).hashInput
  have hr : Sample.right.hashInput = .ok (contentsInput Sample.adjacent Sample.left.contents) := by
    have hsame : contentsInput Sample.adjacent Sample.left.contents =
        contentsInput Sample.adjacent Sample.right.contents := by decide
    rw [hsame]
    exact (opened_loadedOn _ _).hashInput
  have hne : Sample.left.contents .packets ≠ Sample.right.contents .packets := by
    intro h
    have hk := congrArg (fun t => OrderedMap.get? t (Bytes.ofString "stake")) h
    revert hk
    decide
  have hm : Sample.left.mounted = Sample.right.mounted := rfl
  rcases contents_eq_or_ambiguous hm hl hr (by decide) (by decide) with h | h
  · exact absurd (h .packets (by decide) rfl) hne
  · exact ⟨_, hl, hr, hne, h⟩

end Appchain.MultiStore
