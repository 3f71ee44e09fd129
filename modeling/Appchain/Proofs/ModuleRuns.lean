import Appchain.Proofs.LedgerStores
import Appchain.Json.Printed

/-!
# The modules follow the ledger

Each operation of a module answers, changes the stores and fails as the
operation on ledgers of the same name. The coins that come in with a message
have to be valid, since the stores would not give back others.
-/

namespace Appchain

open StoreKey MultiStore Layout

variable {ε α : Type} {s : MultiStore} {mode : Mode} {l : Ledger}

theorem Runs.pure (a : α) : Runs s mode (pure a : ExecWith ε α) l (.ok (a, l)) :=
  (Reads.pure a).runs_self

theorem Leaves.pure (a : α) : Leaves s mode (pure a : ExecWith ε α) l (.ok l) := (Reads.pure a).stays

theorem Leaves.throw (e : ε) : Leaves s mode (throw e : ExecWith ε α) l (.error e) :=
  (Reads.throw e).stays

theorem Runs.throw (e : ε) : Runs s mode (throw e : ExecWith ε α) l (.error e) :=
  (Reads.throw e).runs_self

namespace Accounts

theorem reads_get? (a : Address) : Reads s mode (get? a) l (.ok (l.accounts.get? a)) := by
  apply Reads.of_valid
  intro hv
  unfold get?
  refine (Reads.read (by decide) fun t ht => ht.accounts.accounts_eq.get?_eq a).bind
    (g := fun _ => .ok (l.accounts.get? a)) fun value he => ?_
  cases he
  cases hg : l.accounts.get? a with
  | none => exact .pure none
  | some x =>
    have hx : Reads s mode (ofBytes x.bytes) l (.ok x) := by
      unfold ofBytes
      rw [Account.ofBytes_bytes (hv.accounts a x hg)]
      exact .lift _
    exact hx.map some

theorem leaves_put {a : Account} (ha : a.coins.Valid) : Leaves s mode (put a) l (.ok (l.put a)) := by
  unfold put
  rw [Account.toBytes_eq]
  exact (Reads.lift _).leaves (g := fun _ => .ok (l.put a)) fun b hb => by
    cases hb
    exact .write (by decide) fun t ht => { ht with accounts := ht.accounts.put ha }

theorem runs_nextNumber :
    Runs s mode nextNumber l
      (.ok (l.counter.getD 0, { l with counter := some (l.counter.getD 0 + 1) })) := by
  unfold nextNumber
  refine (Reads.load (by decide) (fun t ht => ht.accounts.counter_eq)
    fun n _ => readsBack_word n).runs (g := fun _ => .ok _) fun n hn => ?_
  cases hn
  refine Leaves.runs (r := .ok _) (.write (by decide) fun t ht => ?_)
    (g := fun n => .ok (l.counter.getD 0, n)) fun _ n hn => by cases hn; exact .pure _
  exact { ht with accounts := ht.accounts.setCounter _ }

theorem runs_create (a : Address) : Runs s mode (create a) l (.ok (l.create a)) := by
  unfold create
  exact runs_nextNumber.bind (g := fun r => .ok ((Account.new a).withNumber r.1, r.2))
    fun n m _ => .pure _

theorem runs_getOrCreate (a : Address) : Runs s mode (getOrCreate a) l (.ok (l.getOrCreate a)) := by
  unfold getOrCreate Ledger.getOrCreate
  apply (reads_get? a).runs (g := fun _ => .ok _)
  intro x hx
  cases hx
  cases l.accounts.get? a with
  | none => exact runs_create a
  | some x => exact .pure x

theorem decode_encode_word (n : UInt64) :
    Json.Shape.word.decode (Json.Shape.word.encode n) = .ok n :=
  (Json.Shape.readsBack_word n).decode_encode rfl

/-- A parameter that has been stored under its path. -/
theorem reads_parameter {key : String} {a : Option UInt64}
    (h : ∀ t : StoreKey → Tree, l.Stored t →
      (t .parameters).get? (subspace.root ++ Bytes.ofString key) = a.map Json.Shape.word.encode) :
    Reads s mode (subspace.get? .word key) l (.ok a) := by
  intro c hc
  have hk : StoreKey.parameters ∈ StoreKey.application := by decide
  obtain ⟨v, hv, hcon⟩ := hc.sound.sees.view hk
  have hget : (subspace.partition v).get (Bytes.ofString key) = a.map Json.Shape.word.encode := by
    rw [← h _ hc.stored, ← hcon]
    exact View.get_eq_contents v _
  have hview : (Exec.view .parameters).run.run c = (.ok v, c) := by
    rw [Exec.run_view, hv]
    rfl
  unfold Subspace.get?
  rw [run_bind_ok hview, hget]
  cases a with
  | none => rfl
  | some n =>
    have hd : Reads s mode (Exec.decoded (Json.Shape.word.decode (Json.Shape.word.encode n))) l
        (.ok n) := .decoded (decode_encode_word n)
    exact hd.map some c hc

theorem reads_parameters : Reads s mode parameters l (.ok l.parameters) := by
  unfold parameters
  apply (reads_parameter fun t ht => ht.parameters.memo_eq).bind (g := fun _ => .ok _)
  intro m hm
  cases hm
  apply (reads_parameter fun t ht => ht.parameters.signatures_eq).bind (g := fun _ => .ok _)
  intro n hn
  cases hn
  exact .pure _

/-- Setting a parameter also marks it. -/
theorem leaves_setParameter {key : String} {n : UInt64} {m : Ledger}
    (hk : subspace.root ++ Bytes.ofString key = memoPath ∨
      subspace.root ++ Bytes.ofString key = signaturesPath)
    (h : ∀ t : StoreKey → Tree, l.Stored t → m.Stored (replaced t .parameters
      ((t .parameters).insert (subspace.root ++ Bytes.ofString key) (Json.Shape.word.encode n)))) :
    Leaves s mode (subspace.set .word key n) l (.ok m) := by
  unfold Subspace.set
  refine Leaves.bind (r := .ok m) (g := .ok) ?_ fun _ k hk' => ?_
  · exact .change (g := fun t => t.insert (subspace.root ++ Bytes.ofString key) _) (by decide)
      (fun _ => rfl) (fun _ => rfl) (fun v => v.contents_set _ _) h
  · cases hk'
    exact .change (g := fun t => t.insert (subspace.root ++ Bytes.ofString key) []) (by decide)
      (fun _ => rfl) (fun _ => rfl) (fun v => v.contents_set _ _)
      fun t ht => { ht with marks := ht.marks.mark hk }

theorem leaves_setParameters (p : AuthParameters) :
    Leaves s mode (setParameters p) l (.ok { l with
      memoLimit := some p.maximumMemo, signatureLimit := some p.maximumSignatures }) := by
  unfold setParameters
  refine Leaves.bind (r := .ok { l with memoLimit := some p.maximumMemo })
    (g := fun n => .ok { n with signatureLimit := some p.maximumSignatures }) ?_ fun _ n hn => ?_
  · exact leaves_setParameter (Or.inl rfl) fun t ht =>
      { ht with parameters := ht.parameters.setMemo _ }
  · cases hn
    exact leaves_setParameter (Or.inr rfl) fun t ht =>
      { ht with parameters := ht.parameters.setSignatures _ }

end Accounts

namespace Fees

theorem reads_collected : Reads s mode collected l (.ok (l.fees.getD .empty)) := by
  apply Reads.of_valid
  intro hv
  unfold collected
  exact (Reads.load (by decide) (fun t ht => ht.fees.fees_eq)
    fun f hf => (Coins.portable 0 (hv.fees f hf)).binary).bind
    (g := fun f => .ok (f.getD .empty)) fun f _ => .pure _

theorem leaves_set {c : Coins} (hc : c.Valid) :
    Leaves s mode (set c) l (.ok { l with fees := some c }) :=
  .write (by decide) fun t ht => { ht with fees := ht.fees.set hc }

theorem valid_collected (hv : l.Valid) : (l.fees.getD .empty).Valid := by
  cases h : l.fees with
  | none => exact Coins.valid_empty
  | some f => exact hv.fees f h

theorem leaves_add {fee : Coins} (hf : fee.Valid) : Leaves s mode (add fee) l (l.addFee fee) := by
  apply Leaves.of_valid
  intro hv
  unfold add
  apply reads_collected.leaves (g := fun _ => l.addFee fee)
  intro c hc
  cases hc
  unfold Ledger.addFee
  cases ha : (l.fees.getD .empty).add? fee with
  | none => exact .throw _
  | some total =>
    have ht : total.Valid := (valid_collected hv).add hf ha
    exact (leaves_set ht).discard fun _ _ _ => .pure _

end Fees

namespace Bank

theorem reads_afterPaying (a : Address) (amount : Coins) :
    Reads s mode (afterPaying a amount) l (l.paying a amount) := by
  unfold afterPaying Ledger.paying
  apply (Accounts.reads_get? a).bind (g := fun _ => _)
  intro x hx
  cases hx
  cases l.accounts.get? a with
  | none => exact .throw _
  | some x =>
    simp only
    cases x.coins.sub? amount with
    | none => exact .throw _
    | some rest => exact .pure _

theorem runs_afterReceiving (a : Address) (amount : Coins) :
    Runs s mode (afterReceiving a amount) l (l.receiving a amount) := by
  unfold afterReceiving Ledger.receiving
  apply (Accounts.runs_getOrCreate a).bind (g := fun _ => _)
  intro x n hx
  rw [Except.ok.inj hx]
  simp only
  cases x.coins.add? amount with
  | none => exact .throw _
  | some total => exact .pure _

theorem valid_paying (hv : l.Valid) {a : Address} {amount : Coins} {x : Account}
    (h : l.paying a amount = .ok x) : x.coins.Valid := by
  unfold Ledger.paying at h
  split at h
  · cases h
  · next y hy =>
    split at h
    · cases h
    · next rest hr =>
      cases h
      rw [Account.coins_withCoins]
      exact (hv.accounts a y hy).sub hr

theorem valid_getOrCreate (hv : l.Valid) (a : Address) : (l.getOrCreate a).1.coins.Valid := by
  unfold Ledger.getOrCreate
  split
  · next x hx => exact hv.accounts a x hx
  · exact Coins.valid_empty

theorem valid_receiving (hv : l.Valid) {a : Address} {amount : Coins} (ha : amount.Valid)
    {x : Account} {n : Ledger} (h : l.receiving a amount = .ok (x, n)) : x.coins.Valid := by
  unfold Ledger.receiving at h
  split at h
  · cases h
  · next total ht =>
    cases h
    rw [Account.coins_withCoins]
    exact (valid_getOrCreate hv a).add ha ht

theorem leaves_subtract (a : Address) (amount : Coins) :
    Leaves s mode (subtract a amount) l (l.debit a amount) := by
  apply Leaves.of_valid
  intro hv
  unfold subtract Ledger.debit
  have hp : Reads s mode (afterPaying a amount) l (l.paying a amount) := reads_afterPaying a amount
  have h := hp.leaves (f := fun x => do Accounts.put x; return x.coins) (g := fun x => .ok (l.put x)) fun x hx =>
      (Accounts.leaves_put (valid_paying hv hx)).discard fun _ _ _ => .pure _
  cases hp : l.paying a amount <;> rw [hp] at h <;> exact h

theorem leaves_add (a : Address) {amount : Coins} (ha : amount.Valid) :
    Leaves s mode (add a amount) l (l.credit a amount) := by
  apply Leaves.of_valid
  intro hv
  unfold add Ledger.credit
  have hr : Runs s mode (afterReceiving a amount) l (l.receiving a amount) :=
    runs_afterReceiving a amount
  have h := hr.leaves (f := fun x => do Accounts.put x; return x.coins) (g := fun r => .ok (r.2.put r.1))
    fun x n hx => (Accounts.leaves_put (valid_receiving hv ha hx)).discard fun _ _ _ => .pure _
  cases hp : l.receiving a amount <;> rw [hp] at h <;> exact h

theorem leaves_send (source target : Address) {amount : Coins} (ha : amount.Valid) :
    Leaves s mode (send source target amount) l (l.send source target amount) := by
  apply Leaves.of_valid
  intro hv
  unfold send Ledger.send
  apply (reads_afterPaying source amount).leaves
  intro payer hp
  split
  · exact .pure _
  · apply (runs_afterReceiving target amount).leaves
    intro payee n hr
    apply (Accounts.leaves_put (valid_paying hv hp)).bind (g := fun k => .ok (k.put payee))
    intro _ k hk
    exact Accounts.leaves_put (valid_receiving hv ha hr)

end Bank

namespace Channels

theorem reads_length (chain : String) : Reads s mode (length chain) l (.ok (l.length chain)) := by
  unfold length readWord
  rw [lengthKey_eq]
  exact (Reads.load (by decide) (fun t ht => ht.packets.lengths_eq.get?_eq ⟨chain⟩)
    fun n _ => readsBack_word n).bind (g := fun n => .ok (n.getD 0)) fun n _ => .pure _

theorem reads_nextSequence (chain : String) :
    Reads s mode (nextSequence chain) l (.ok (l.nextSequence chain)) := by
  unfold nextSequence readWord
  rw [sequenceKey_eq]
  exact (Reads.load (by decide) (fun t ht => ht.packets.sequences_eq.get?_eq ⟨chain⟩)
    fun n _ => readsBack_word n).bind (g := fun n => .ok (n.getD 0)) fun n _ => .pure _

theorem reads_packet? (chain : String) (i : UInt64) :
    Reads s mode (packet? chain i) l (.ok (l.packets chain i)) :=
  .of_valid fun hv => .load (by decide) (fun _ ht => ht.packets.packets_eq chain i)
    fun p hp => (Packet.portable 0 (hv.packets chain i p hp)).binary

theorem leaves_setNextSequence (chain : String) (n : UInt64) :
    Leaves s mode (setNextSequence chain n) l (.ok (l.setSequence chain n)) :=
  .write (by decide) fun t ht => { ht with packets := ht.packets.setSequence chain n }

theorem leaves_post {p : Packet} (hp : p.coins.Valid) :
    Leaves s mode (post p) l (.ok (l.post p)) := by
  unfold post
  apply (reads_length p.destination).leaves (g := fun _ => .ok (l.post p))
  intro index hi
  cases hi
  refine Leaves.bind (r := .ok { l with packets := (l.post p).packets }) (g := fun _ => .ok (l.post p))
    (.write (by decide) fun t ht => { ht with packets := ht.packets.setPacket _ _ hp })
    fun _ n hn => ?_
  cases hn
  refine Leaves.discard (.write (by decide) fun t ht => ?_) fun _ _ _ => .pure _
  exact { ht with packets := ht.packets.setLength _ _ }

theorem leaves_transfer {m : Transfer} (hm : m.packet.coins.Valid) :
    Leaves s mode (transfer m) l (l.transfer m) := by
  unfold transfer Ledger.transfer
  apply (Bank.leaves_subtract _ _).bind
  intro _ n _
  exact (leaves_post hm).discard fun _ _ _ => .pure _

theorem leaves_receive {m : Receive} (hm : m.packet.coins.Valid) :
    Leaves s mode (receive m) l (l.receive m) := by
  unfold receive
  apply (reads_nextSequence _).leaves (g := fun _ => l.receive m)
  intro next hn
  cases hn
  unfold Ledger.receive
  split
  · exact .throw _
  · exact (Bank.leaves_add _ hm).bind fun _ n _ => leaves_setNextSequence _ _

end Channels

namespace Mining

theorem reads_read {name : String} {n : Option UInt64}
    (h : ∀ t : StoreKey → Tree, l.Stored t →
      (t .work).get? (Bytes.ofString name) = n.map word.write) :
    Reads s mode (read name) l (Ledger.require name n) := by
  unfold read
  refine (Reads.load (by decide) h fun n _ => readsBack_word n).bind
    (g := fun _ => Ledger.require name n) fun a ha => ?_
  cases ha
  cases n with
  | none => exact .throw _
  | some n => exact .pure _

theorem reads_difficulty :
    Reads s mode difficulty l (Ledger.require difficultyName l.difficulty) :=
  reads_read fun _ ht => ht.work.difficulty_eq

theorem reads_count : Reads s mode count l (Ledger.require countName l.count) :=
  reads_read fun _ ht => ht.work.count_eq

theorem reads_checkNext (claimed : State) :
    Reads s mode (checkNext claimed) l (l.nextWork claimed) := by
  unfold checkNext Ledger.nextWork
  refine reads_difficulty.bind fun difficulty _ => reads_count.bind fun count _ => ?_
  simp only
  split
  · exact .throw _
  · split
    · exact .throw _
    · exact .pure _

theorem leaves_set (n : State) :
    Leaves s mode (do setDifficulty n.difficulty; setCount n.count) l (.ok (l.setWork n)) := by
  refine Leaves.bind (r := .ok { l with difficulty := some n.difficulty })
    (g := fun m => .ok { m with count := some n.count })
    (.write (by decide) fun t ht => { ht with work := ht.work.setDifficulty _ }) fun _ m hm => ?_
  cases hm
  exact .write (by decide) fun t ht => { ht with work := ht.work.setCount _ }

end Mining

theorem Coins.valid_of_mapError {cs : List Coin} {f : Coins.Fault → TxError} {a : Coins}
    (h : (Coins.ofList cs).mapError f = .ok a) : a.Valid := by
  cases hc : Coins.ofList cs with
  | error e =>
    rw [hc] at h
    cases h
  | ok b =>
    rw [hc] at h
    cases h
    exact valid_ofList hc

namespace Mining

theorem leaves_apply (reward : Coin) (miner : Address) (n : State) :
    Leaves s mode (apply reward miner n) l
      (do let k ← l.reward miner reward; return k.setWork n) := by
  unfold apply Ledger.reward
  rw [bind_assoc]
  apply (Reads.lift _).leaves
  intro paid hp
  exact (Bank.leaves_add _ (Coins.valid_of_mapError hp)).bind fun _ k _ => leaves_set n

theorem leaves_mine (m : Mine) : Leaves s mode (handle (.mine m)) l (l.mine m) :=
  (reads_checkNext _).leaves fun n _ => leaves_apply reward m.sender n

end Mining

namespace Staking

theorem reads_get? (a : Address) : Reads s mode (get? a) l (.ok (l.bonds.get? a)) :=
  .load (by decide) (fun _ ht => ht.bonds.get?_eq a) fun b _ => (Bond.portable 0 b).binary

theorem leaves_put (b : Bond) : Leaves s mode (put b) l (.ok (l.putBond b)) :=
  .write (by decide) fun _ ht => { ht with bonds := ht.bonds.insert b.holder b }

theorem leaves_bond (m : BondStake) :
    Leaves s mode (bond m.holder m.publicKey m.stake) l (l.bond m) := by
  unfold bond Ledger.bond
  split
  · exact .throw _
  · apply (Bank.leaves_subtract _ _).bind
    intro _ k _
    apply (reads_get? m.holder).leaves (g := fun _ => k.addStake m)
    intro b hb
    cases hb
    unfold Ledger.addStake Ledger.bondOf
    simp only
    cases Word.add? ((k.bonds.get? m.holder).getD ⟨m.holder, m.publicKey, 0⟩).power
        m.stake.amount with
    | none => exact .throw _
    | some power => exact (leaves_put _).discard fun _ _ _ => .pure _

theorem valid_stake (n : UInt64) : (Coins.single denom n).Valid := Coins.valid_single (by decide) n

theorem leaves_unbond (a : Address) : Leaves s mode (unbond a) l (l.unbond a) := by
  unfold unbond
  apply (reads_get? a).leaves (g := fun _ => l.unbond a)
  intro b hb
  cases hb
  unfold Ledger.unbond
  cases l.bonds.get? a with
  | none => exact .throw _
  | some b =>
    refine Leaves.bind (r := .ok { l with bonds := l.bonds.erase a })
      (g := fun k => k.credit a (.single denom b.power))
      (.erase (by decide) fun _ ht => { ht with bonds := ht.bonds.erase a }) fun _ k hk => ?_
    cases hk
    exact (Bank.leaves_add a (valid_stake _)).discard fun _ _ _ => .pure _

end Staking

namespace Trend

theorem reads_current : Reads s mode current l (.ok (l.trend.getD "")) := by
  unfold current
  apply (Reads.read (by decide) fun _ ht => ht.main.trend_eq).bind (g := fun _ => .ok _)
  intro value hv
  cases hv
  cases l.trend with
  | none => exact .pure ""
  | some trend =>
    simp only [Option.map_some, Option.getD_some, Bytes.toString?_ofString]
    exact .pure trend

theorem leaves_set (trend : String) : Leaves s mode (set trend) l (.ok (l.setTrend trend)) :=
  .write (by decide) fun _ ht => { ht with main := ht.main.set trend }

theorem reads_mode : Reads s mode Exec.mode l (.ok mode) := by
  intro c hc
  rw [← hc.mode_eq]
  rfl

theorem leaves_pay (a : Address) (answer : String) :
    Leaves s mode (pay a answer) l (l.reward a ⟨answer, reward⟩) := by
  unfold pay Ledger.reward
  apply (Reads.lift _).leaves
  intro paid hp
  exact (Bank.leaves_add _ (Coins.valid_of_mapError hp)).discard fun _ _ _ => .pure _

theorem leaves_answer (m : Quiz) : Leaves s mode (answer m) l (l.quiz mode m) := by
  unfold answer isTrend
  refine (reads_current.bind (g := fun t => .ok (decide (t = m.answer))) fun _ _ => .pure _).leaves
    (g := fun _ => l.quiz mode m) fun right hr => ?_
  cases hr
  unfold Ledger.quiz
  by_cases ht : l.trend.getD "" = m.answer
  · simp only [ht, decide_true, ↓reduceIte]
    apply reads_mode.leaves (g := fun k => if k = .check then _ else _)
    intro k _
    by_cases hk : k = .check
    · rw [if_pos hk, if_pos hk]
      exact .pure _
    · rw [if_neg hk, if_neg hk]
      exact leaves_pay _ _
  · simp only [ht, decide_false, Bool.false_eq_true, ↓reduceIte]
    exact .throw _

end Trend
end Appchain
