import Appchain.Json.Doc

/-!
# Sizes of documents

An array that a text closes has no more items than the text has bytes: every item
takes a token at least, and every token a byte. The machine that builds the trees
keeps this up, as an unfinished array has no more items than tokens have been
spent.
-/

namespace Appchain.Json

theorem length_tokens_le (s : Bytes) : (tokens s).length ≤ s.length := by
  fun_induction tokens s with
  | case1 => exact Nat.le_refl 0
  | case2 b r _ ih => exact Nat.le_succ_of_le ih
  | case3 b r _ t rest h ih => exact Nat.le_trans (Nat.succ_le_succ ih) (length_of_scan h)
  | case4 b r _ h => exact Nat.succ_le_succ (Nat.zero_le _)

namespace Doc

/-- No array that is closed has more than `n` items, at any depth. -/
inductive Within (n : Nat) : Doc → Prop
  | fault : Within n .fault
  | null : Within n .null
  | bool (value : Bool) : Within n (.bool value)
  | number (literal : Bytes) : Within n (.number literal)
  | text (raw : Bytes) : Within n (.text raw)
  | array {items : List Doc} {closed : Bool} :
      (closed = true → items.length ≤ n) → (∀ d ∈ items, Within n d) → Within n (.array items closed)
  | object {members : List (Bytes × Doc)} {closed : Bool} :
      (∀ e ∈ members, Within n e.2) → Within n (.object members closed)

/-- What has been read of a container when `room` tokens are left of `n`. -/
inductive Frame.Within (n room : Nat) : Frame → Prop
  | array {items : List Doc} :
      items.length + room ≤ n → (∀ d ∈ items, d.Within n) → Frame.Within n room (.array items)
  | object {members : List (Bytes × Doc)} :
      (∀ e ∈ members, e.2.Within n) → Frame.Within n room (.object members)
  | entry {members : List (Bytes × Doc)} {key : Bytes} :
      (∀ e ∈ members, e.2.Within n) → Frame.Within n room (.entry members key)

def Step.Within (n room : Nat) : Step → Prop
  | .done d => d.Within n
  | .expect _ s => ∀ f ∈ s, f.Within n room
  | .broken => True

variable {n room : Nat} {s : List Frame} {d : Doc} {t : Token}

theorem Frame.Within.mono {f : Frame} (h : f.Within n (room + 1)) : f.Within n room := by
  cases h with
  | array hn hi => exact .array (by omega) hi
  | object hm => exact .object hm
  | entry hm => exact .entry hm

/-- What breaks off is not closed. -/
theorem within_breakOff (h : ∀ f ∈ s, f.Within n room) {part : Option Doc}
    (hp : ∀ d ∈ part, d.Within n) : (breakOff part s).Within n := by
  induction s generalizing part with
  | nil =>
    cases part with
    | none => exact .fault
    | some d => exact hp d rfl
  | cons f s ih =>
    obtain ⟨hf, hs⟩ := List.forall_mem_cons.mp h
    cases hf with
    | @array items _ hi =>
      refine ih hs fun d hd => ?_
      cases hd
      refine .array nofun fun d hd => ?_
      rcases List.mem_append.mp (List.mem_reverse.mp hd) with hd | hd
      · exact hp d (Option.mem_toList.mp hd)
      · exact hi d hd
    | object hm =>
      refine ih hs fun d hd => ?_
      cases hd
      exact .object fun e he => hm e (List.mem_reverse.mp he)
    | entry hm =>
      refine ih hs fun d hd => ?_
      cases hd
      refine .object fun e he => ?_
      rcases List.mem_cons.mp (List.mem_reverse.mp he) with rfl | he
      · cases part with
        | none => exact .fault
        | some d => exact hp d rfl
      · exact hm e he

theorem within_attach (h : ∀ f ∈ s, f.Within n (room + 1)) (hd : d.Within n) :
    (attach d s).Within n room := by
  cases s with
  | nil => exact hd
  | cons f s =>
    obtain ⟨hf, hs⟩ := List.forall_mem_cons.mp h
    have hs : ∀ f ∈ s, f.Within n room := fun f hm => (hs f hm).mono
    cases hf with
    | array hn hi =>
      refine List.forall_mem_cons.mpr ⟨.array ?_ (List.forall_mem_cons.mpr ⟨hd, hi⟩), hs⟩
      rw [List.length_cons]
      omega
    | object hm => exact List.forall_mem_cons.mpr ⟨.object hm, hs⟩
    | entry hm => exact List.forall_mem_cons.mpr ⟨.object (List.forall_mem_cons.mpr ⟨hd, hm⟩), hs⟩

theorem within_startValue (h : ∀ f ∈ s, f.Within n (room + 1)) (hr : room ≤ n) :
    (startValue s t).Within n room := by
  have hs : ∀ f ∈ s, f.Within n room := fun f hm => (h f hm).mono
  cases t with
  | null => exact within_attach h .null
  | bool b => exact within_attach h (.bool b)
  | number l => exact within_attach h (.number l)
  | text r => exact within_attach h (.text r)
  | openArray =>
    exact List.forall_mem_cons.mpr ⟨.array ((Nat.zero_add room).symm ▸ hr) nofun, hs⟩
  | openObject => exact List.forall_mem_cons.mpr ⟨.object nofun, hs⟩
  | _ => trivial

theorem within_startMember (h : ∀ f ∈ s, f.Within n (room + 1)) :
    (startMember s t).Within n room := by
  unfold startMember
  split
  · next members s k =>
    obtain ⟨hf, hs⟩ := List.forall_mem_cons.mp h
    cases hf with
    | object hm => exact List.forall_mem_cons.mpr ⟨.entry hm, fun f hf => (hs f hf).mono⟩
  · trivial

theorem within_close (h : ∀ f ∈ s, f.Within n (room + 1)) : (close s t).Within n room := by
  unfold close
  split
  · next items s =>
    obtain ⟨hf, hs⟩ := List.forall_mem_cons.mp h
    cases hf with
    | array hn hi =>
      refine within_attach hs (.array (fun _ => ?_) fun d hd => hi d (List.mem_reverse.mp hd))
      rw [List.length_reverse]
      omega
  · next members s =>
    obtain ⟨hf, hs⟩ := List.forall_mem_cons.mp h
    cases hf with
    | object hm => exact within_attach hs (.object fun e he => hm e (List.mem_reverse.mp he))
  · trivial

/-- A token is spent on every item. -/
theorem within_step {e : Expect} (h : ∀ f ∈ s, f.Within n (room + 1)) (hr : room ≤ n) :
    (step e s t).Within n room := by
  unfold step
  split
  · exact within_startValue h hr
  · exact within_close h
  · exact within_startValue h hr
  · exact within_close h
  · exact within_startMember h
  · exact within_startMember h
  · exact fun f hf => (h f hf).mono
  · trivial
  · exact fun f hf => (h f hf).mono
  · exact fun f hf => (h f hf).mono
  · exact within_close h

theorem within_run {e : Expect} {ts : List Token} (h : ∀ f ∈ s, f.Within n ts.length)
    (hn : ts.length ≤ n) : (run e s ts).1.Within n := by
  -- The room of the frames is what is left of the tokens.
  induction ts generalizing e s with
  | nil => exact within_breakOff h nofun
  | cons t ts ih =>
    have hs := within_step (e := e) (t := t) h (Nat.le_of_succ_le hn)
    unfold run
    split
    · next he =>
      rw [he] at hs
      exact hs
    · next he =>
      rw [he] at hs
      exact ih hs (Nat.le_of_succ_le hn)
    · exact within_breakOff h nofun

/-- No array of a text has more items than the text has bytes. -/
theorem within_parse (text : Bytes) : (parse text).1.Within text.length :=
  within_run nofun (length_tokens_le text)

end Doc
end Appchain.Json
