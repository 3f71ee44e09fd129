import Appchain.Json.Shape
import Appchain.Json.Spelling

/-!
# Printed values

The machine that builds documents turns the tokens of a value into the value's
own document, so a printed value is parsed as the document that it is
(`parse_compact`, `parse_pretty`). A shape that reads back what it has written
therefore also decodes what it has encoded.
-/

namespace Appchain.Json

namespace Doc

/-- Goes on after a step that is not broken. -/
def resume : Step → List Token → Doc × List Token
  | .done d, ts => (d, ts)
  | .expect e s, ts => run e s ts
  | .broken, ts => (.fault, ts)

theorem run_of_attach {e : Expect} {s outer : List Frame} {t : Token} {d : Doc}
    (h : step e s t = attach d outer) (ts : List Token) :
    run e s (t :: ts) = resume (attach d outer) ts := by
  rw [run, h]
  cases outer with
  | nil => rfl
  | cons f outer => cases f <;> rfl

theorem run_itemOrClose_spelled (v : Json) (s : List Frame) (ts : List Token) :
    run .itemOrClose s (v.spelled ++ ts) = run .value s (v.spelled ++ ts) := by
  cases v <;> rfl

theorem run_itemOrClose_items (v : Json) (vs : List Json) (s : List Frame) (ts : List Token) :
    run .itemOrClose s (spelledItems (v :: vs) ++ ts)
      = run .value s (spelledItems (v :: vs) ++ ts) := by
  cases vs with
  | nil => exact run_itemOrClose_spelled v s ts
  | cons w vs =>
    rw [spelledItems, List.append_assoc]
    · exact run_itemOrClose_spelled v s _
    · simp

mutual

/-- The machine turns the tokens of a value into its document. -/
theorem run_spelled : (v : Json) → (s : List Frame) → (ts : List Token) →
    run .value s (v.spelled ++ ts) = resume (attach v.toDoc s) ts
  | .null, _, ts => run_of_attach rfl ts
  | .bool _, _, ts => run_of_attach rfl ts
  | .word _, _, ts => run_of_attach rfl ts
  | .literal _, _, ts => run_of_attach rfl ts
  | .text _, _, ts => run_of_attach rfl ts
  | .array [], _, ts => run_of_attach (e := .itemOrClose) rfl ts
  | .array (v :: vs), s, ts => by
    have h := run_items (v :: vs) (by simp) [] s ts
    rw [spelled, List.cons_append, List.cons_append, List.append_assoc]
    exact (run_itemOrClose_items v vs (.array [] :: s) _).trans h
  | .object [], _, ts => run_of_attach (e := .keyOrClose) rfl ts
  | .object (m :: ms), s, ts => by
    have h := run_members (m :: ms) (by simp) [] s ts
    rw [spelled, List.cons_append, List.cons_append, List.append_assoc]
    cases ms <;> exact h

theorem run_items : (vs : List Json) → vs ≠ [] → (done : List Doc) → (s : List Frame) →
    (ts : List Token) →
    run .value (.array done :: s) (spelledItems vs ++ .closeArray :: ts)
      = resume (attach (.array (done.reverse ++ itemDocs vs) true) s) ts
  | [], h, _, _, _ => absurd rfl h
  | [v], _, done, s, ts => by
    rw [spelledItems, run_spelled v]
    refine (run_of_attach (e := .commaOrClose) (s := .array (v.toDoc :: done) :: s) rfl ts).trans ?_
    simp [itemDocs]
  | v :: w :: vs, _, done, s, ts => by
    have h := run_items (w :: vs) (by simp) (v.toDoc :: done) s ts
    rw [spelledItems, List.append_assoc, run_spelled v]
    · refine Eq.trans ?_ (h.trans ?_)
      · rfl
      · simp [itemDocs]
    · simp

theorem run_members : (ms : List (String × Json)) → ms ≠ [] → (done : List (Bytes × Doc)) →
    (s : List Frame) → (ts : List Token) →
    run .key (.object done :: s) (spelledMembers ms ++ .closeObject :: ts)
      = resume (attach (.object (done.reverse ++ memberDocs ms) true) s) ts
  | [], h, _, _, _ => absurd rfl h
  | [(k, v)], _, done, s, ts => by
    have h := run_spelled v (.entry done (raw k) :: s) (.closeObject :: ts)
    refine Eq.trans h ?_
    refine (run_of_attach (e := .commaOrClose) (s := .object ((raw k, v.toDoc) :: done) :: s)
      rfl ts).trans ?_
    simp [memberDocs]
  | (k, v) :: m :: ms, _, done, s, ts => by
    have h := run_spelled v (.entry done (raw k) :: s)
      (.comma :: (spelledMembers (m :: ms) ++ .closeObject :: ts))
    have hm := run_members (m :: ms) (by simp) ((raw k, v.toDoc) :: done) s ts
    rw [spelledMembers, List.append_assoc]
    · refine Eq.trans h (Eq.trans ?_ (hm.trans ?_))
      · rfl
      · simp [memberDocs]
    · simp

end

theorem parse_of_tokens {s : Bytes} {v : Json} (h : tokens s = v.spelled) :
    parse s = (v.toDoc, true) := by
  have := run_spelled v [] []
  rw [List.append_nil] at this
  simp [parse, h, this, attach, resume]

theorem parse_compact {v : Json} (h : v.isData = true) : parse v.compact = (v.toDoc, true) := by
  have := tokens_compact v h [] (by simp [EndsNumber])
  rw [List.append_nil] at this
  exact parse_of_tokens (by rw [this, tokens, List.append_nil])

theorem parse_pretty {v : Json} (h : v.isData = true) (level : Nat) :
    parse (v.pretty level) = (v.toDoc, true) := by
  have := tokens_pretty v h level [] (by simp [EndsNumber])
  rw [List.append_nil] at this
  exact parse_of_tokens (by rw [this, tokens, List.append_nil])

end Doc

namespace Shape

variable {α : Type} {s : Shape α} {a : α}

theorem ReadsBack.decode_encode (h : s.ReadsBack a) (hd : (s.write a).isData = true) :
    s.decode (s.encode a) = .ok a := by
  simp [Shape.decode, Shape.encode, Doc.parse_compact hd, h.read_write]

theorem ReadsBack.decode_pretty (h : s.ReadsBack a) (hd : (s.write a).isData = true) :
    s.decode ((s.write a).pretty 0) = .ok a := by
  simp [Shape.decode, Doc.parse_pretty hd, h.read_write]

end Shape
end Appchain.Json
