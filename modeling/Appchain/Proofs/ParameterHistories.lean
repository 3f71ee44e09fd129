import Appchain.Proofs.ParameterPaths
import Appchain.Proofs.StoreContents
import Appchain.Proofs.VersionedStores

/-!
# Parameters over time

What a parameter is read as, and whether it is marked, is told by a log of what has been
set: up to the last commit, and in the block since then. Contexts that are written add to
the block, a commit takes the block over, and opening the database again drops it. The
log is looked up by place, so what is set in one subspace counts for another one that has
the same place.
-/

namespace Appchain

open StoreKey MultiStore

/-- A parameter that is set, to a value of any type. -/
structure Setting where
  {kind : Type}
  space : Subspace
  key : String
  shape : Json.Shape kind
  value : kind

namespace Setting

def path (x : Setting) : Bytes := x.space.path x.key

def text (x : Setting) : Bytes := x.shape.encode x.value

def run (x : Setting) : Exec Unit := x.space.set x.shape x.key x.value

/-- What was set last in a place. -/
def lastAt (p : Bytes) (xs : List Setting) : Option Setting := xs.reverse.find? fun x => x.path = p

theorem lastAt_append (p : Bytes) (xs ys : List Setting) :
    lastAt p (xs ++ ys) = (lastAt p ys).or (lastAt p xs) := by
  unfold lastAt
  rw [List.reverse_append, List.find?_append]

theorem lastAt_cons (p : Bytes) (x : Setting) (xs : List Setting) :
    lastAt p (x :: xs) = (lastAt p xs).or (if x.path = p then some x else none) := by
  rw [← List.singleton_append, lastAt_append]
  congr 1
  by_cases h : x.path = p <;> simp [lastAt, h]

theorem isSome_lastAt (p : Bytes) (xs : List Setting) :
    (lastAt p xs).isSome = xs.any fun x => x.path = p := by
  rw [Bool.eq_iff_iff, lastAt, List.find?_isSome]
  simp

/-- The text in a place after all that has been set, over what was there before. -/
def textAt (base : Tree) (xs : List Setting) (p : Bytes) : Option Bytes :=
  ((lastAt p xs).map text).or (base.get? p)

theorem textAt_append (base : Tree) (xs ys : List Setting) (p : Bytes) :
    textAt base (xs ++ ys) p = ((lastAt p ys).map text).or (textAt base xs p) := by
  unfold textAt
  rw [lastAt_append, Option.map_or, Option.or_assoc]

end Setting

open Setting

namespace Context

variable {keys : List StoreKey} {c : Context} {key : StoreKey}

theorem Sees.wrote (h : c.Sees keys) (hk : key ∈ keys) (k value : Bytes) :
    (c.wrote key k value).Sees keys :=
  h.withView hk ⟨∅, ∅, (c.writes.of key.name).insert k (some value)⟩

/-- The context after a parameter has been set. -/
def withSetting (c : Context) (x : Setting) : Context :=
  (c.wrote .parameters x.path x.text).wrote .changedParameters x.path []

theorem get?_parameters_withSetting (c : Context) (x : Setting) (p : Bytes) :
    ((c.withSetting x).contents .parameters).get? p =
      if x.path = p then some x.text else (c.contents .parameters).get? p := by
  unfold withSetting
  rw [contents_wrote_of_ne _ (by decide), get?_contents_wrote]
  simp only [true_and, eq_comm]

theorem get?_marks_withSetting (c : Context) (x : Setting) (p : Bytes) :
    ((c.withSetting x).contents .changedParameters).get? p =
      if x.path = p then some [] else (c.contents .changedParameters).get? p := by
  unfold withSetting
  rw [get?_contents_wrote, contents_wrote_of_ne _ (by decide)]
  simp only [true_and, eq_comm]

/-- A store that takes up each setting holds the last one in every place. -/
theorem get?_contents_foldl {f : Setting → Bytes}
    (h : ∀ (c : Context) (x : Setting) (p : Bytes), ((c.withSetting x).contents key).get? p =
      if x.path = p then some (f x) else (c.contents key).get? p)
    (c : Context) (xs : List Setting) (p : Bytes) :
    ((xs.foldl withSetting c).contents key).get? p =
      ((lastAt p xs).map f).or ((c.contents key).get? p) := by
  induction xs generalizing c with
  | nil => rfl
  | cons x xs ih =>
    rw [List.foldl_cons, ih, h, lastAt_cons, Option.map_or, Option.or_assoc]
    split <;> rfl

theorem store_foldl_withSetting (c : Context) (xs : List Setting) :
    (xs.foldl withSetting c).store = c.store := by
  induction xs generalizing c with
  | nil => rfl
  | cons x xs ih => exact ih _

theorem Sees.foldl_withSetting (hp : .parameters ∈ keys) (hm : .changedParameters ∈ keys)
    (h : c.Sees keys) (xs : List Setting) : (xs.foldl withSetting c).Sees keys := by
  induction xs generalizing c with
  | nil => exact h
  | cons x xs ih => exact ih ((h.wrote hp _ _).wrote hm _ _)

end Context

namespace Exec

variable {c : Context}

theorem run_settings (hp : c.Opens .parameters) (hm : c.Opens .changedParameters)
    (xs : List Setting) :
    (xs.forM Setting.run).run.run c = (.ok (), xs.foldl Context.withSetting c) := by
  induction xs generalizing c with
  | nil => rfl
  | cons x xs ih =>
    have hx : x.run.run.run c = (.ok (), c.withSetting x) := by
      unfold Setting.run
      rw [Subspace.set_eq_writes, run_bind_ok (run_write_of_opens hp _ _)]
      exact run_write_of_opens (hm.wrote _ _ _) _ _
    change (x.run >>= fun _ => xs.forM Setting.run).run.run c = _
    rw [run_bind_ok hx]
    exact ih ((hp.wrote _ _ _).wrote _ _ _) ((hm.wrote _ _ _).wrote _ _ _)

end Exec

namespace Subspace

variable {α : Type} {c : Context}

theorem run_get?_of_opens (h : c.Opens .parameters) (s : Subspace) (shape : Json.Shape α)
    (k : String) :
    (s.get? shape k).run.run c = (shape.readAs ((c.contents .parameters).get? (s.path k)), c) := by
  rw [run_get?_eq_read, Exec.run_read_of_opens h]
  rfl

theorem run_isChanged_of_opens (h : c.Opens .changedParameters) (s : Subspace) (k : String) :
    (s.isChanged k).run.run c =
      (.ok ((c.contents .changedParameters).get? (s.path k)).isSome, c) := by
  rw [run_isChanged_eq_read, Exec.run_read_of_opens h]
  rfl

end Subspace

/-- What happens to the parameters. -/
inductive ParameterEvent where
  /-- A context, what is set in it, and whether it is written in the end. -/
  | context (header : Header) (mode : Mode) (xs : List Setting) (kept : Bool)
  | commit
  /-- The database is opened again. -/
  | reopen

namespace MultiStore

def follow (keys : List StoreKey) (main : StoreKey) (s : MultiStore) :
    ParameterEvent → Except AppError MultiStore
  | .context header mode xs kept =>
    let r := (xs.forM Setting.run).run.run (.new s header mode)
    if kept then (s.write r.2.writes).mapError .store else .ok s
  | .commit => (s.commit.mapError .store).map (·.2)
  | .reopen => (openOver s.database keys main).map (·.2)

end MultiStore

/-- What has been set, up to the last commit and in the block since then. -/
structure SettingLog where
  committed : List Setting
  block : List Setting

namespace SettingLog

def empty : SettingLog := ⟨[], []⟩

def all (l : SettingLog) : List Setting := l.committed ++ l.block

def step (l : SettingLog) : ParameterEvent → SettingLog
  | .context _ _ xs kept => if kept then { l with block := l.block ++ xs } else l
  | .commit => ⟨l.all, []⟩
  | .reopen => { l with block := [] }

/-- The log after a sequence of events. -/
def after (es : List ParameterEvent) : SettingLog := es.foldl step empty

end SettingLog

variable {keys : List StoreKey} {main : StoreKey} {base : Tree} {s : MultiStore} {m : Versioned}
  {l : SettingLog}

namespace MultiStore

/-- The stores hold what is logged, over what the database held. -/
structure Keeps (keys : List StoreKey) (base : Tree) (s : MultiStore) (m : Versioned)
    (l : SettingLog) : Prop where
  shows : s.Shows keys m
  texts : ∀ p, (m.current .parameters).get? p = textAt base l.all p
  marks : ∀ p, (m.current .changedParameters).get? p = (lastAt p l.block).map fun _ => []
  committed : ∀ p, (m.committed .parameters).get? p = textAt base l.committed p

namespace Keeps

theorem start {d : Database} {last : CommitInfo} (hr : readCommit (d.tree metadataName) = .ok last) :
    (loadedOn keys d last).Keeps keys (d.tree StoreKey.parameters.name) (.start d last) .empty where
  shows := .start hr
  texts _ := rfl
  marks _ := rfl
  committed _ := rfl

variable (hp : .parameters ∈ keys) (hm : .changedParameters ∈ keys)
include hp hm

/-- A new context, after more has been set in it, holds what is logged and what is new. -/
theorem contents (h : s.Keeps keys base m l) (header : Header) (mode : Mode) (xs : List Setting) :
    ∃ c, (xs.forM Setting.run).run.run (.new s header mode) = (.ok (), c) ∧
      c.Shows keys s c.contents ∧
      (∀ p, (c.contents .parameters).get? p = textAt base (l.all ++ xs) p) ∧
      ∀ p, (c.contents .changedParameters).get? p = (lastAt p (l.block ++ xs)).map fun _ => [] := by
  have hsees := Context.sees_new h.shows.opened header mode
  have hnew : ∀ key ∈ keys, (Context.new s header mode).contents key = m.current key :=
    h.shows.current
  refine ⟨_, Exec.run_settings (hsees.opens hp) (hsees.opens hm) xs,
    ⟨hsees.foldl_withSetting hp hm xs, Context.store_foldl_withSetting _ xs, fun _ _ => rfl⟩,
    fun p => ?_, fun p => ?_⟩
  · rw [Context.get?_contents_foldl Context.get?_parameters_withSetting, hnew _ hp, h.texts,
      textAt_append]
  · rw [Context.get?_contents_foldl Context.get?_marks_withSetting, hnew _ hm, h.marks,
      lastAt_append, Option.map_or]

/-- Every event succeeds, and the stores keep what is logged. -/
theorem follow (hd : Declared keys) (hmain : main ∈ keys) (h : s.Keeps keys base m l)
    (e : ParameterEvent) :
    ∃ t n, s.follow keys main e = .ok t ∧ t.Keeps keys base n (l.step e) := by
  cases e with
  | context header mode xs kept =>
    cases kept with
    | false => exact ⟨s, m, rfl, h⟩
    | true =>
      obtain ⟨c, hrun, hc, htexts, hmarks⟩ := h.contents hp hm header mode xs
      obtain ⟨t, ht, hs⟩ := h.shows.write hd hc
      refine ⟨t, _, ?_, hs, fun p => ?_, hmarks, h.committed⟩
      · change (s.write ((xs.forM Setting.run).run.run (.new s header mode)).2.writes).mapError _ = _
        rw [hrun, ht]
        rfl
      · change (c.contents .parameters).get? p = textAt base (l.committed ++ (l.block ++ xs)) p
        rw [htexts, SettingLog.all, List.append_assoc]
  | commit =>
    obtain ⟨t, ht, hs⟩ := h.shows.commit hd
    have hall : (l.step .commit).all = l.all := List.append_nil _
    refine ⟨t, _, ?_, hs, fun p => ?_, fun _ => rfl, h.texts⟩
    · unfold MultiStore.follow
      rw [ht]
      rfl
    · rw [hall]
      exact h.texts p
  | reopen =>
    obtain ⟨t, ht, hs⟩ := h.shows.reopen hd hmain
    have hall : (l.step .reopen).all = l.committed := List.append_nil _
    refine ⟨t, _, ?_, hs, fun p => ?_, fun _ => rfl, h.committed⟩
    · unfold MultiStore.follow
      rw [ht]
      rfl
    · rw [hall]
      exact h.committed p

theorem followAll (hd : Declared keys) (hmain : main ∈ keys) (h : s.Keeps keys base m l)
    (es : List ParameterEvent) :
    ∃ t n, es.foldlM (MultiStore.follow keys main) s = .ok t ∧
      t.Keeps keys base n (es.foldl SettingLog.step l) := by
  induction es generalizing s m l with
  | nil => exact ⟨s, m, rfl, h⟩
  | cons e es ih =>
    obtain ⟨u, k, hu, hk⟩ := h.follow hp hm hd hmain e
    obtain ⟨t, n, ht, hn⟩ := ih hk
    refine ⟨t, n, ?_, hn⟩
    rw [List.foldlM_cons, hu]
    exact ht

end Keeps

/-- Parameters are kept by place. Keys tell the places of a subspace apart, and two subspaces of
different names have places in common exactly when one is within the other. Setting a parameter
leaves all others alone that are kept elsewhere, in every context. At any point of any history, what
a parameter is read as is what was last set in its place, and the mark says whether that place has
been set since the last commit. -/
theorem parameters_kept_by_place {d : Database} {last : CommitInfo} (hd : Declared keys)
    (hmain : main ∈ keys) (hp : .parameters ∈ keys) (hm : .changedParameters ∈ keys)
    (hr : readCommit (d.tree metadataName) = .ok last) (es : List ParameterEvent) (header : Header)
    (mode : Mode) (xs : List Setting) :
    (∀ (s t : Subspace) (k j : String), s.path k = t.path j ↔
      (s.name = t.name ∧ k = j) ∨ s.Reaches k t j ∨ t.Reaches j s k) ∧
    (∀ (s : Subspace) (k j : String), s.path k = s.path j ↔ k = j) ∧
    (∀ (s t : Subspace), s.name ≠ t.name →
      ((∃ k j, s.path k = t.path j) ↔ s.IsWithin t ∨ t.IsWithin s)) ∧
    (∀ (s t : Subspace) (k j : String), t.path j ≠ s.path k →
      ∀ (α β : Type) (shape : Json.Shape α) (a : α) (other : Json.Shape β) (c : Context),
        ((t.get? other j).run.run ((s.set shape k a).run.run c).2).1 =
          ((t.get? other j).run.run c).1 ∧
        ((t.isChanged j).run.run ((s.set shape k a).run.run c).2).1 =
          ((t.isChanged j).run.run c).1) ∧
    ∃ u v c, openOver d keys main = .ok (last, u) ∧
      es.foldlM (follow keys main) u = .ok v ∧
      (xs.forM Setting.run).run.run (.new v header mode) = (.ok (), c) ∧
      ∀ (s : Subspace) (k : String),
        (∀ (α : Type) (shape : Json.Shape α), (s.get? shape k).run.run c =
          (shape.readAs (textAt (d.tree StoreKey.parameters.name)
            ((SettingLog.after es).all ++ xs) (s.path k)), c)) ∧
        (∀ x, lastAt (s.path k) ((SettingLog.after es).all ++ xs) = some x →
          x.shape.decode x.text = .ok x.value →
            (s.get? x.shape k).run.run c = (.ok (some x.value), c)) ∧
        (s.isChanged k).run.run c =
          (.ok (((SettingLog.after es).block ++ xs).any fun x => x.path = s.path k), c) := by
  refine ⟨fun _ _ _ _ => Subspace.path_eq_path_iff, fun _ _ _ => Subspace.path_inj,
    fun _ _ => Subspace.exists_path_eq_iff, fun _ _ _ _ h _ _ shape a other c =>
      Subspace.answers_after_set_of_ne h shape a other c, ?_⟩
  obtain ⟨v, n, hv, hn⟩ := (Keeps.start hr).followAll hp hm hd hmain es
  obtain ⟨c, hc, hs, htexts, hmarks⟩ := hn.contents hp hm header mode xs
  have hget (s : Subspace) (k : String) (α : Type) (shape : Json.Shape α) :
      (s.get? shape k).run.run c = (shape.readAs (textAt (d.tree StoreKey.parameters.name)
        ((SettingLog.after es).all ++ xs) (s.path k)), c) := by
    rw [s.run_get?_of_opens (hs.sees.opens hp), htexts]
    rfl
  refine ⟨_, v, c, openOver_eq hd hmain hr, hv, hc, fun s k => ⟨hget s k, fun x hx hdec => ?_, ?_⟩⟩
  · rw [hget, textAt, hx, Json.Shape.readAs]
    simp only [Option.map_some, Option.some_or, Option.mapM_some, hdec]
    rfl
  · rw [s.run_isChanged_of_opens (hs.sees.opens hm), hmarks, Option.isSome_map, isSome_lastAt]
    rfl

namespace Sample

/-- A parameter of one subspace whose key starts with the end of the name of another. -/
def nested : Setting := ⟨⟨"auth"⟩, "fees/limit", .word, 7⟩

/-- It is set and committed. -/
def nestedCommitted : List ParameterEvent :=
  [.context ⟨"chain", 1⟩ .deliver [nested] true, .commit]

end Sample

/-- The parameter `fees/limit` of `auth` is the parameter `limit` of `auth/fees`, which is marked
until the commit and stays after it. -/
theorem parameters_kept_by_place_nested :
    (∃ u c, openOver ∅ application .main = .ok (.initial, u) ∧
      ([Sample.nested].forM Setting.run).run.run (.new u ⟨"chain", 1⟩ .deliver) = (.ok (), c) ∧
      ((⟨"auth/fees"⟩ : Subspace).get? .word "limit").run.run c = (.ok (some 7), c) ∧
      ((⟨"auth/fees"⟩ : Subspace).isChanged "limit").run.run c = (.ok true, c)) ∧
    ∃ u v c, openOver ∅ application .main = .ok (.initial, u) ∧
      Sample.nestedCommitted.foldlM (follow application .main) u = .ok v ∧
      ([].forM Setting.run).run.run (.new v ⟨"chain", 2⟩ .deliver) = (.ok (), c) ∧
      ((⟨"auth/fees"⟩ : Subspace).get? .word "limit").run.run c = (.ok (some 7), c) ∧
      ((⟨"auth/fees"⟩ : Subspace).isChanged "limit").run.run c = (.ok false, c) := by
  have hr : readCommit (Database.tree ∅ metadataName) = .ok .initial := rfl
  have hmain : StoreKey.main ∈ application := by decide
  have hread : Sample.nested.shape.decode Sample.nested.text = .ok Sample.nested.value :=
    (Json.Shape.readsBack_word 7).decode_encode rfl
  constructor
  · obtain ⟨-, -, -, -, u, v, c, hu, hv, hc, h⟩ := parameters_kept_by_place declared_application
      hmain (by decide) (by decide) hr [] ⟨"chain", 1⟩ .deliver [Sample.nested]
    obtain ⟨-, hget, hchanged⟩ := h ⟨"auth/fees"⟩ "limit"
    cases hv
    exact ⟨u, c, hu, hc, hget _ rfl hread, hchanged⟩
  · obtain ⟨-, -, -, -, u, v, c, hu, hv, hc, h⟩ := parameters_kept_by_place declared_application
      hmain (by decide) (by decide) hr Sample.nestedCommitted ⟨"chain", 2⟩
      .deliver []
    obtain ⟨-, hget, hchanged⟩ := h ⟨"auth/fees"⟩ "limit"
    exact ⟨u, v, c, hu, hv, hc, hget Sample.nested rfl hread, hchanged⟩

end MultiStore
end Appchain
