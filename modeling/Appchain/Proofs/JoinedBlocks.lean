import Mathlib.Data.Bool.Count
import Mathlib.Data.List.TakeWhile
import Appchain.Proofs.CommandRuns

/-!
# Where blocks begin does not matter

A text of transactions may be delivered as one block, or cut between two lines
and delivered as several blocks, with the database opened again for each of them
and with any header. Every block is counted and kept as the ledger takes its
transactions. So what is accepted, what is hashed in the end and what is exported
are the same, and only the version tells how many blocks there have been.
-/

namespace Appchain.CommandLine

variable {d e f : Database} {last : CommitInfo} {l : Ledger}

/-! The lines of a text. -/

/-- Whether there is nothing but white space in a line. -/
def IsBlank (line : String) : Prop := ∀ c ∈ line.toList, isSpace c = true

instance : DecidablePred IsBlank := fun line =>
  inferInstanceAs (Decidable (∀ c ∈ line.toList, isSpace c = true))

theorem trim_eq_empty_iff {line : String} : trim line = "" ↔ IsBlank line := by
  unfold trim IsBlank
  rw [String.ofList_eq_empty_iff, List.reverse_eq_nil_iff, List.dropWhile_eq_nil_iff]
  simp only [List.mem_reverse]
  rw [← List.all_eq_true, ← List.all_eq_true, List.all_eq_not_any_not, List.any_dropWhile,
    Bool.not_not]

/-- The transaction on a line, if there is one. -/
def transactionOf (line : String) : Option Bytes :=
  if trim line = "" then none else some (Bytes.ofString (trim line))

theorem blockOf_eq (text : String) : blockOf text = (linesOf text).filterMap transactionOf := by
  have hnumbers :=
    List.filterMap_map (f := Prod.fst) (g := transactionOf) (l := (linesOf text).zipIdx 1)
  rw [List.zipIdx_map_fst] at hnumbers
  unfold blockOf transactions
  rw [hnumbers, List.map_filterMap]
  apply List.filterMap_congr
  rintro ⟨line, i⟩ -
  rw [Function.comp_apply, transactionOf]
  dsimp only
  split <;> simp only [Option.map_none, Option.map_some]

/-- Every line is a transaction unless it is blank. -/
theorem length_blockOf (text : String) :
    (blockOf text).length = (linesOf text).countP fun line => ¬ IsBlank line := by
  rw [blockOf_eq, List.length_filterMap_eq_countP]
  apply List.countP_congr
  intro line _
  unfold transactionOf
  rw [decide_eq_true_eq, ← trim_eq_empty_iff]
  split <;> simp [*]

theorem linesOf_append (text other : String) :
    linesOf (text ++ "\n" ++ other) = linesOf text ++ linesOf other := by
  unfold linesOf
  rw [String.append_assoc, String.toList_append, String.toList_append]
  change ((text.toList ++ '\n' :: other.toList).splitOn '\n').map _ = _
  rw [List.splitOn_append_cons_self, List.map_append]

/-- The transactions of joined texts are those of one text after another. -/
theorem blockOf_intercalate (texts : List String) :
    blockOf ("\n".intercalate texts) = texts.flatMap blockOf := by
  induction texts with
  | nil => rfl
  | cons text texts ih =>
    cases texts with
    | nil => rw [String.intercalate_singleton, List.flatMap_singleton]
    | cons other texts =>
      rw [String.intercalate_cons_cons, List.flatMap_cons, ← ih, blockOf_eq, linesOf_append,
        List.filterMap_append, ← blockOf_eq, ← blockOf_eq]

/-- A line without white space at its ends is a transaction of its own. -/
theorem blockOf_eq_singleton {text : String} (hline : '\n' ∉ text.toList) (ht : trim text = text)
    (hne : text ≠ "") : blockOf text = [Bytes.ofString text] := by
  have hlines : linesOf text = [text] := by
    unfold linesOf List.splitOn
    rw [List.splitOnP_eq_singleton fun c hc => by simpa using ne_of_mem_of_not_mem hc hline]
    simp
  rw [blockOf_eq, hlines]
  simp [transactionOf, ht, hne]

/-! Deliveries. -/

/-- A command that delivers a text. -/
structure Delivery where
  files : Files
  home : String
  chain : String
  path : String
  withMetrics : Bool
  text : String
  readable : files path = .ok (Bytes.ofString text)

/-- What is reported of a block. -/
structure Report where
  commit : CommitInfo
  tally : Tally

namespace Delivery

def invocation (x : Delivery) : Invocation := ⟨x.home, x.chain, .deliver x.path x.withMetrics⟩

/-- The command succeeds and reports its block, where `l` is the ledger of the database. All lines
have been counted that are not blank, each of them as the ledger takes its transaction; what the
ledger becomes is kept, and the version has risen by one. -/
structure Reports (x : Delivery) (d : Database) (l : Ledger) (r : Report) (e : Database) : Prop where
  run_eq : run x.files d x.invocation =
    .ok { database := e, output := report r.commit r.tally x.withMetrics }
  total_eq : r.tally.delivered + r.tally.rejected =
    (linesOf x.text).countP fun line => ¬ IsBlank line
  tally_eq : r.tally = .of (l.takeAll (blockOf x.text)).1
  kept : Keeps e r.commit (l.takeAll (blockOf x.text)).2
  version_eq : ∃ a b, application d = .ok a ∧ application e = .ok b ∧ b.lastCommit = r.commit ∧
    r.commit.version.toNat = a.lastCommit.version.toNat + 1

/-- Commands are run one after another, each over the database that the one before has left. -/
inductive ReportsAll : List Delivery → Database → Ledger → List Report → Database → Prop
  | nil {d : Database} {l : Ledger} : ReportsAll [] d l [] d
  | cons {x : Delivery} {xs : List Delivery} {r : Report} {rs : List Report} {d e f : Database}
      {l : Ledger} : x.Reports d l r e → ReportsAll xs e (l.takeAll (blockOf x.text)).2 rs f →
      ReportsAll (x :: xs) d l (r :: rs) f

end Delivery

open Delivery

theorem Tally.total_of (kept : List Bool) : (of kept).delivered + (of kept).rejected = kept.length :=
  List.count_true_add_count_false kept

/-- A delivery counts and keeps what the ledger says. -/
theorem Keeps.reports (h : Keeps d last l) (hn : last.version.toNat + 1 < UInt64.size) (x : Delivery) :
    ∃ r e, x.Reports d l r e ∧ r.commit.version.toNat = last.version.toNat + 1 := by
  obtain ⟨info, e, he, hk, hv⟩ := h.deliver hn x.readable x.home x.chain x.withMetrics
  have htotal := Tally.total_of (l.takeAll (blockOf x.text)).1
  rw [Ledger.length_takeAll, length_blockOf] at htotal
  exact ⟨⟨info, _⟩, e, ⟨he, htotal, rfl, hk, _, _, h.application_eq, hk.application_eq, rfl, hv⟩, hv⟩

/-- Deliveries one after another count and keep what the ledger says of all their transactions. -/
theorem Keeps.reportsAll (h : Keeps d last l) (xs : List Delivery)
    (hn : last.version.toNat + xs.length < UInt64.size) :
    ∃ rs e, ReportsAll xs d l rs e ∧
      Keeps e ((rs.map Report.commit).getLastD last) (l.takeAll (xs.flatMap (blockOf ·.text))).2 ∧
      (rs.map (·.tally.delivered)).sum = (l.takeAll (xs.flatMap (blockOf ·.text))).1.count true ∧
      (rs.map (·.tally.rejected)).sum = (l.takeAll (xs.flatMap (blockOf ·.text))).1.count false := by
  -- With no delivery at all the last commit is the one that was there, hence the default.
  induction xs generalizing d last l with
  | nil => exact ⟨[], d, .nil, h, rfl, rfl⟩
  | cons x xs ih =>
    rw [List.length_cons] at hn
    obtain ⟨r, e, hx, hv⟩ := h.reports (by omega) x
    obtain ⟨rs, f, hrs, hk, hdelivered, hrejected⟩ := ih hx.kept (by omega)
    rw [List.flatMap_cons, Ledger.takeAll_append, List.count_append, List.count_append]
    refine ⟨r :: rs, f, .cons hx hrs, ?_, ?_, ?_⟩
    · rw [List.map_cons, List.getLastD_cons]
      exact hk
    · rw [List.map_cons, List.sum_cons, hdelivered, hx.tally_eq]
      rfl
    · rw [List.map_cons, List.sum_cons, hrejected, hx.tally_eq]
      rfl

/-- A home whose chain is ready keeps a ledger, and the transactions of any text are counted and kept
as this ledger says. Texts can be delivered one after another, in blocks of their own, and nothing
but the version differs from delivering them joined as one block: as many transactions are delivered
and rejected altogether, and the application hash in the end, the trees of the stores and the
exported document are the same. -/
theorem Home.deliver_joined {a : App} {xs : List Delivery} {y : Delivery} (h : Home d)
    (ha : application d = .ok a) (hp : a.phase = .ready)
    (hn : a.lastCommit.version.toNat + xs.length < UInt64.size) (hx : xs ≠ [])
    (hy : y.text = "\n".intercalate (xs.map (·.text))) :
    (∃ l, Keeps d a.lastCommit l) ∧ ∀ l, Keeps d a.lastCommit l →
      ∃ rs e r f, ReportsAll xs d l rs e ∧ y.Reports d l r f ∧
        (rs.map (·.tally.delivered)).sum = r.tally.delivered ∧
        (rs.map (·.tally.rejected)).sum = r.tally.rejected ∧
        rs.getLast?.map (·.commit.appHash) = some r.commit.appHash ∧
        (∀ key ∈ StoreKey.application, key.kind = .persistent → e.tree key.name = f.tree key.name) ∧
        ∃ document, Exports e document ∧ Exports f document := by
  refine ⟨h.exists_keeps ha hp, fun l hk => ?_⟩
  have hpos := List.length_pos_iff.mpr hx
  obtain ⟨rs, e, hrs, hke, hdelivered, hrejected⟩ := hk.reportsAll xs hn
  obtain ⟨r, f, hr, -⟩ := hk.reports (by omega) y
  have hblock : blockOf y.text = xs.flatMap (blockOf ·.text) := by
    rw [hy, blockOf_intercalate, List.flatMap_map]
  -- Both ways end in the same ledger, from which all that is compared is read off.
  have hkf := hr.kept
  have htally := hr.tally_eq
  rw [hblock] at hkf htally
  refine ⟨rs, e, r, f, hrs, hr, ?_, ?_, ?_, fun key => hke.tree_eq hkf, hke.exists_exports hkf⟩
  · rw [hdelivered, htally]
    rfl
  · rw [hrejected, htally]
    rfl
  · have hne : rs ≠ [] := by
      rintro rfl
      cases hrs
      exact hx rfl
    have hfinal := List.getLast?_eq_some_getLast hne
    rw [List.getLastD_eq_getLast?, List.getLast?_map, hfinal] at hke
    rw [hfinal]
    exact congrArg some (hke.appHash_eq hkf)

/-- A file system with the same in every file. -/
def Files.always (b : Bytes) : Files := fun _ => .ok b

/-- The delivery of a text. -/
def Delivery.ofText (text : String) : Delivery where
  files := .always (Bytes.ofString text)
  home := defaultHome
  chain := defaultChain
  path := "block.txt"
  withMetrics := false
  text := text
  readable := rfl

namespace Sample

/-- The answer as a line. -/
def answerLine : String := String.ofList (App.Sample.answerText.map fun x => Char.ofNat x.toNat)

theorem ofString_answerLine : Bytes.ofString answerLine = App.Sample.answerText :=
  Bytes.ofString_ofList_ascii (by decide +kernel)

theorem blockOf_answerLine : blockOf answerLine = [App.Sample.answerText] := by
  let chars := App.Sample.answerText.map fun x => Char.ofNat x.toNat
  obtain ⟨hline, htrim, hne⟩ : '\n' ∉ chars ∧
      ((chars.dropWhile isSpace).reverse.dropWhile isSpace).reverse = chars ∧ chars ≠ [] := by
    decide +kernel
  rw [← ofString_answerLine]
  apply blockOf_eq_singleton
  · unfold answerLine
    rwa [String.toList_ofList]
  · unfold answerLine trim
    rw [String.toList_ofList, htrim]
  · exact mt String.ofList_eq_empty_iff.mp hne

/-- The answer, and a line that is no transaction. -/
def twoLines : String := answerLine ++ "\n" ++ "nonsense"

theorem blockOf_twoLines :
    blockOf twoLines = [App.Sample.answerText, Bytes.ofString "nonsense"] := by
  have hsecond : blockOf "nonsense" = [Bytes.ofString "nonsense"] := by decide +kernel
  unfold twoLines
  rw [blockOf_eq, linesOf_append, List.filterMap_append, ← blockOf_eq, ← blockOf_eq,
    blockOf_answerLine, hsecond]
  rfl

theorem takeAll_twoLines {n : Ledger} (hn : l.execute .deliver App.Sample.answer = .ok n) :
    l.takeAll (blockOf twoLines) = ([true, false], n) := by
  have hnone : (Transaction.decode .standard (Bytes.ofString "nonsense")).toOption = none := by
    decide +kernel
  obtain ⟨e, hd⟩ := Outcome.toOption_eq_none.mp hnone
  have hfirst : l.take App.Sample.answerText = (true, n) :=
    Ledger.take_of_execute App.Sample.decode_answerText hn
  have hsecond : n.take (Bytes.ofString "nonsense") = (false, n) := Ledger.take_of_decode_error hd
  rw [blockOf_twoLines]
  simp only [Ledger.takeAll, runAll, hfirst, hsecond]

/-- A home on whose ledger the answer is accepted. -/
theorem exists_home : ∃ d last l n, Home d ∧ Keeps d last l ∧ last.version.toNat = 1 ∧
    l.execute .deliver App.Sample.answer = .ok n := by
  obtain ⟨l, n, hl, hn⟩ := App.Sample.execute_answer
  have hd := Genesis.decode_document App.Sample.valid_genesis
  have hf : Files.always App.Sample.genesis.document "genesis.json" =
      .ok App.Sample.genesis.document := rfl
  obtain ⟨d, last, hi, hk, hv⟩ := exists_initChain hf hd hl defaultHome defaultChain
  have hrun : CommandLine.run (.always App.Sample.genesis.document) ∅
      ⟨defaultHome, defaultChain, .init "genesis.json"⟩ = .ok _ := hi
  have hempty : ∀ a, application ∅ = .ok a → a.lastCommit.version ≠ Word.maximum := by
    intro a ha
    rw [application_empty] at ha
    cases ha
    decide
  exact ⟨d, last, l, n, .run .empty hempty hrun, hk, hv, hn⟩

end Sample

/-- The answer and a line that is no transaction, in two blocks or in one: either way the one is
delivered, and the other is rejected. -/
theorem Home.deliver_joined_answer :
    ∃ d a l rs e r f, Home d ∧ application d = .ok a ∧ a.phase = .ready ∧
      Keeps d a.lastCommit l ∧ Bytes.ofString Sample.answerLine = App.Sample.answerText ∧
      ReportsAll [.ofText Sample.answerLine, .ofText "nonsense"] d l rs e ∧
      (Delivery.ofText Sample.twoLines).Reports d l r f ∧
      r.tally.delivered = 1 ∧ r.tally.rejected = 1 ∧
      (rs.map (·.tally.delivered)).sum = 1 ∧ (rs.map (·.tally.rejected)).sum = 1 ∧
      rs.getLast?.map (·.commit.appHash) = some r.commit.appHash := by
  obtain ⟨d, last, l, n, hhome, hk, hv, hn⟩ := Sample.exists_home
  let xs : List Delivery := [.ofText Sample.answerLine, .ofText "nonsense"]
  have hlt : last.version.toNat + xs.length < UInt64.size := by
    rw [hv]
    exact show 1 + 2 < UInt64.size by decide
  have hy : (Delivery.ofText Sample.twoLines).text = "\n".intercalate (xs.map Delivery.text) := rfl
  obtain ⟨-, hall⟩ :=
    Home.deliver_joined hhome hk.application_eq hk.holds.phase hlt (List.cons_ne_nil _ _) hy
  obtain ⟨rs, e, r, f, hrs, hr, hdelivered, hrejected, hhash, -⟩ := hall l hk
  have htally : r.tally = ⟨1, 1⟩ := by
    rw [hr.tally_eq]
    exact congrArg (fun kept => Tally.of kept.1) (Sample.takeAll_twoLines hn)
  rw [htally] at hdelivered hrejected
  exact ⟨d, _, l, rs, e, r, f, hhome, hk.application_eq, hk.holds.phase, hk,
    Sample.ofString_answerLine, hrs, hr, congrArg Tally.delivered htally,
    congrArg Tally.rejected htally, hdelivered, hrejected, hhash⟩

end Appchain.CommandLine
