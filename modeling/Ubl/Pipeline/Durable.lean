import Ubl.Pipeline.Check
import Ubl.Receipt.Evolution

/-!
# `idempotency.rs`, `durable_store.rs`: what a pipeline remembers

The durable store is a database of small tables.  A commit writes a receipt, its idempotency key
and its outbox events in one transaction: a failure anywhere leaves the tables as they were.

JSON is written to the tables as text and parsed when it is read, and what `serde_json` writes it
need not read: its parser stops at 128 levels.  The tables are over any column (`JsonColumn`).
Requests see the column of values (`DurableStore.values`), and a table of texts answers as the
table of the values does where these read back (`getIdempotent_written`, `getReceipt_written`).
-/

namespace Ubl.Pipeline

open Utf8
open Ubl.Receipt (Crypto StageSecrets)

/-! ## Idempotency keys -/

structure IdempotencyKey where
  atType : String
  atVer : String
  atWorld : String
  atId : String
deriving DecidableEq

namespace IdempotencyKey

def fromChipBody (body : Json) : Option IdempotencyKey := do
  let atType ← (body.get "@type").bind Json.asStr
  let atVer ← (body.get "@ver").bind Json.asStr
  let atWorld ← (body.get "@world").bind Json.asStr
  let atId ← (body.get "@id").bind Json.asStr
  if atType = "" ∨ atId = "" then none else some ⟨atType, atVer, atWorld, atId⟩

def toStringKey (key : IdempotencyKey) : String :=
  key.atType ++ "|" ++ key.atVer ++ "|" ++ key.atWorld ++ "|" ++ key.atId

def toDurableKey (c : Crypto) (key : IdempotencyKey) : String :=
  Hex.encode (c.blake3 (utf8 key.toStringKey))

end IdempotencyKey

structure CachedResult where
  receiptCid : String
  responseJson : Json
  decision : String
  chain : List String
  createdAt : String

/-! ## The tables -/

inductive DurableError where
  | sqlite (text : String)
  | serde (text : String)
  | idempotencyConflict (text : String)
  | durableCommitFailed (text : String)
deriving DecidableEq

def DurableError.text : DurableError → String
  | .sqlite e => "sqlite: " ++ e
  | .serde e => "serde: " ++ e
  | .idempotencyConflict e => "idempotency_conflict: " ++ e
  | .durableCommitFailed e => "durable_commit_failed: " ++ e

/-- What a column holds of a JSON value, and what is read from it. -/
structure JsonColumn (τ : Type) where
  /-- `serde_json::to_string`, which writes every value. -/
  toText : Json → τ
  /-- `serde_json::from_str`. -/
  fromText : τ → Except String Json

namespace JsonColumn

/-- A column of values. -/
def values : JsonColumn Json := ⟨id, .ok⟩

variable {τ : Type} (col : JsonColumn τ)

/-- What is written of the value is read as the value. -/
def ReadsBack (json : Json) : Prop := col.fromText (col.toText json) = .ok json

def read (text : τ) : Except DurableError Json := (col.fromText text).mapError .serde

@[simp] theorem read_values (json : Json) : values.read json = .ok json := rfl

variable {col}

theorem ReadsBack.read_toText {json : Json} (h : col.ReadsBack json) :
    col.read (col.toText json) = .ok json := by
  rw [read, show col.fromText (col.toText json) = .ok json from h]
  rfl

end JsonColumn

structure NewOutboxEvent where
  eventType : String
  payloadJson : Json

structure CommitInput where
  receiptCid : String
  receiptJson : Json
  did : String
  kid : String
  rtHash : String
  decision : String
  idemKey : Option String
  chain : List String
  outboxEvents : List NewOutboxEvent
  createdAt : Int64
  failAfterReceiptWrite : Bool

/-- A row of `receipts`. -/
structure ReceiptRow (τ : Type) where
  receiptCid : String
  bodyJson : τ
  createdAt : Int64
  did : String
  kid : String
  rtHash : String
  decision : String

/-- A row of `idempotency`; `expires_at` is always null.  `chain_json` is a list of texts, which
reads back as it was. -/
structure IdempotencyRow (τ : Type) where
  idemKey : String
  receiptCid : String
  responseJson : τ
  chain : List String
  createdAt : Int64

inductive OutboxStatus where
  | pending
  | inflight
  | done
  | dead
deriving DecidableEq

/-- A row of `outbox`. -/
structure OutboxEntry (τ : Type) where
  id : Nat
  eventType : String
  payloadJson : τ
  status : OutboxStatus
  attempts : Nat
  nextAttemptAt : Int64
  createdAt : Int64

/-- The rows, in the order of their ids. -/
structure OutboxTable (τ : Type) where
  entries : List (OutboxEntry τ)
  /-- The last id that `AUTOINCREMENT` has given out. -/
  lastId : Nat

/-- The row of a new event is pending, with no attempt so far. -/
def OutboxTable.enqueueOutboxInTx {τ : Type} (col : JsonColumn τ) (createdAt : Int64)
    (t : OutboxTable τ) (event : NewOutboxEvent) : OutboxTable τ where
  entries := t.entries ++ [⟨t.lastId + 1, event.eventType, col.toText event.payloadJson, .pending,
    0, createdAt, createdAt⟩]
  lastId := t.lastId + 1

structure NonceRow where
  nonce : String
  createdAt : Int64
  expiresAt : Int64

/-- The tables; new rows come last. -/
structure DurableStore (τ : Type) where
  receipts : List (ReceiptRow τ)
  idempotency : List (IdempotencyRow τ)
  outbox : OutboxTable τ
  seenNonces : List NonceRow
  stageSecrets : Option StageSecrets

namespace DurableStore

/-- Empty tables. -/
def empty (τ : Type) : DurableStore τ := ⟨[], [], ⟨[], 0⟩, [], none⟩

variable {τ : Type} (col : JsonColumn τ) (d : DurableStore τ)

def findIdempotent (idemKey : String) : Option (IdempotencyRow τ) :=
  d.idempotency.find? fun row => row.idemKey == idemKey

/-- A row whose response has been read.  `rfc3339` writes the time of a Unix timestamp. -/
def cachedOf (rfc3339 : Int64 → String) (row : IdempotencyRow Json) : CachedResult where
  receiptCid := row.receiptCid
  responseJson := row.responseJson
  decision := ((row.responseJson.get "decision").bind Json.asStr).getD "Allow"
  chain := row.chain
  createdAt := rfc3339 row.createdAt

def getIdempotent (rfc3339 : Int64 → String) (fault : Option DurableError) (idemKey : String) :
    Except DurableError (Option CachedResult) :=
  match fault with
  | some e => .error e
  | none =>
    match d.findIdempotent idemKey with
    | none => .ok none
    | some row => do
      let responseJson ← col.read row.responseJson
      .ok (some (cachedOf rfc3339 { row with responseJson := responseJson }))

/-- What the table has as the JSON of a receipt. -/
def receiptOf (receiptCid : String) : Option τ :=
  (d.receipts.find? fun row => row.receiptCid == receiptCid).map ReceiptRow.bodyJson

def getReceipt (fault : Option DurableError) (receiptCid : String) :
    Except DurableError (Option Json) :=
  match fault with
  | some e => .error e
  | none =>
    match d.receiptOf receiptCid with
    | none => .ok none
    | some bodyJson => (col.read bodyJson).map some

/-- `INSERT OR IGNORE`: a CID that is there, or a decision that the table does not take, leaves
the table as it is. -/
def insertReceipt (input : CommitInput) : DurableStore τ :=
  if (d.receipts.any fun row => row.receiptCid == input.receiptCid) ||
      !(input.decision == "allow" || input.decision == "deny") then d
  else { d with receipts := d.receipts ++ [⟨input.receiptCid, col.toText input.receiptJson,
    input.createdAt, input.did, input.kid, input.rtHash, input.decision⟩] }

/-- The key is the primary key of its table. -/
def putIdempotentInTx (idemKey : String) (input : CommitInput) :
    Except DurableError (DurableStore τ) :=
  match d.findIdempotent idemKey with
  | some _ => .error (.idempotencyConflict ("idempotency key already exists: " ++ idemKey))
  | none => .ok { d with idempotency := d.idempotency ++ [⟨idemKey, input.receiptCid,
      col.toText input.receiptJson, input.chain, input.createdAt⟩] }

/-- `if let Some(idem_key)`. -/
def putKey (input : CommitInput) : Except DurableError (DurableStore τ) :=
  match input.idemKey with
  | none => .ok d
  | some idemKey => d.putIdempotentInTx col idemKey input

/-- The transaction, up to its commit. -/
def commitTx (input : CommitInput) : Except DurableError (DurableStore τ) :=
  if input.failAfterReceiptWrite then
    .error (.durableCommitFailed "injected failure after receipts write")
  else do
    let d ← (d.insertReceipt col input).putKey col input
    .ok { d with outbox :=
      input.outboxEvents.foldl (OutboxTable.enqueueOutboxInTx col input.createdAt) d.outbox }

/-- A transaction that is not committed is rolled back. -/
def commitWfAtomically (fault : Option DurableError) (input : CommitInput) :
    Except DurableError Unit × DurableStore τ :=
  match fault with
  | some e => (.error e, d)
  | none =>
    match d.commitTx col input with
    | .error e => (.error e, d)
    | .ok d' => (.ok (), d')

/-- `DELETE FROM seen_nonces WHERE expires_at <= now`; the number is that of the rows changed. -/
def deleteExpired (now : Int64) (rows : List NonceRow) : Nat × List NonceRow :=
  let kept := rows.filter fun row => now < row.expiresAt
  (rows.length - kept.length, kept)

/-- `INSERT OR IGNORE INTO seen_nonces`. -/
def insertOrIgnore (row : NonceRow) (rows : List NonceRow) : Nat × List NonceRow :=
  if rows.any fun row' => row'.nonce == row.nonce then (0, rows) else (1, rows ++ [row])

/-- `ttl` is in seconds.  The answer says whether the nonce is new: `changes` is about the last
statement. -/
def nonceMarkIfNew (fault : Option DurableError) (now : Int64) (nonce : String) (ttl : UInt64) :
    Except DurableError Bool × DurableStore τ :=
  match fault with
  | some e => (.error e, d)
  | none =>
    let live := (deleteExpired now d.seenNonces).2
    let inserted := insertOrIgnore ⟨nonce, now, now + (max ttl 1).toInt64⟩ live
    (.ok (0 < inserted.1), { d with seenNonces := inserted.2 })

/-- The table has one row; the time of the rotation is left out. -/
def putStageSecrets (fault : Option DurableError) (secrets : StageSecrets) :
    Except DurableError Unit × DurableStore τ :=
  match fault with
  | some e => (.error e, d)
  | none => (.ok (), { d with stageSecrets := some secrets })

/-! ## What a commit changes -/

variable {col d} {d' : DurableStore τ} {fault : Option DurableError} {input : CommitInput}

theorem commitWfAtomically_error {e : DurableError}
    (h : (d.commitWfAtomically col fault input).1 = .error e) :
    (d.commitWfAtomically col fault input).2 = d := by
  unfold commitWfAtomically at h ⊢
  split
  · rfl
  · split
    · rfl
    · rename_i hok
      simp only [hok] at h
      cases h

theorem commitWfAtomically_ok (h : d.commitWfAtomically col fault input = (.ok (), d')) :
    d.commitTx col input = .ok d' := by
  unfold commitWfAtomically at h
  split at h
  · cases h
  · split at h
    · cases h
    · rename_i hok
      obtain rfl := (Prod.mk.inj h).2
      exact hok

@[simp] theorem insertReceipt_idempotency :
    (d.insertReceipt col input).idempotency = d.idempotency := by
  unfold insertReceipt
  split <;> rfl

@[simp] theorem insertReceipt_stageSecrets :
    (d.insertReceipt col input).stageSecrets = d.stageSecrets := by
  unfold insertReceipt
  split <;> rfl

/-- The row of a commit is new, or its CID is there already. -/
theorem insertReceipt_cases : (d.insertReceipt col input).receipts = d.receipts ∨
    ∃ row : ReceiptRow τ, row.receiptCid = input.receiptCid ∧
      row.bodyJson = col.toText input.receiptJson ∧
      (d.insertReceipt col input).receipts = d.receipts ++ [row] ∧
      ∀ old ∈ d.receipts, old.receiptCid ≠ row.receiptCid := by
  unfold insertReceipt
  split
  · exact .inl rfl
  · rename_i h
    refine .inr ⟨_, rfl, rfl, rfl, fun old hold heq => h ?_⟩
    rw [Bool.or_eq_true, List.any_eq_true]
    exact .inl ⟨old, hold, beq_iff_eq.mpr heq⟩

/-- Everything a committed transaction does to the tables that the pipeline reads. -/
theorem commitTx_cases (h : d.commitTx col input = .ok d') :
    d'.receipts = (d.insertReceipt col input).receipts ∧ d'.stageSecrets = d.stageSecrets ∧
      match input.idemKey with
      | none => d'.idempotency = d.idempotency
      | some idemKey => d.findIdempotent idemKey = none ∧
        d'.idempotency = d.idempotency ++ [⟨idemKey, input.receiptCid,
          col.toText input.receiptJson, input.chain, input.createdAt⟩] := by
  unfold commitTx at h
  split at h
  · cases h
  · obtain ⟨d₁, hd₁, h⟩ := ExceptLemmas.bind_eq_ok.mp h
    obtain rfl := Except.ok.inj h
    unfold putKey at hd₁
    cases hkey : input.idemKey with
    | none =>
      rw [hkey] at hd₁
      obtain rfl := Except.ok.inj hd₁
      exact ⟨rfl, insertReceipt_stageSecrets, insertReceipt_idempotency⟩
    | some idemKey =>
      rw [hkey] at hd₁
      simp only [putIdempotentInTx] at hd₁
      split at hd₁
      · cases hd₁
      · rename_i hnone
        obtain rfl := Except.ok.inj hd₁
        refine ⟨rfl, insertReceipt_stageSecrets, ?_, by rw [insertReceipt_idempotency]⟩
        simpa [findIdempotent] using hnone

end DurableStore

/-! ## Values and what is written of them -/

section Written

variable {τ : Type} (col : JsonColumn τ)

def ReceiptRow.written (row : ReceiptRow Json) : ReceiptRow τ :=
  { row with bodyJson := col.toText row.bodyJson }

def IdempotencyRow.written (row : IdempotencyRow Json) : IdempotencyRow τ :=
  { row with responseJson := col.toText row.responseJson }

def OutboxEntry.written (entry : OutboxEntry Json) : OutboxEntry τ :=
  { entry with payloadJson := col.toText entry.payloadJson }

def OutboxTable.written (t : OutboxTable Json) : OutboxTable τ :=
  ⟨t.entries.map (OutboxEntry.written col), t.lastId⟩

namespace DurableStore

def written (d : DurableStore Json) : DurableStore τ :=
  ⟨d.receipts.map (ReceiptRow.written col), d.idempotency.map (IdempotencyRow.written col),
    d.outbox.written col, d.seenNonces, d.stageSecrets⟩

variable (d : DurableStore Json) (fault : Option DurableError) (input : CommitInput)

theorem receiptOf_written (receiptCid : String) :
    (d.written col).receiptOf receiptCid = (d.receiptOf receiptCid).map col.toText := by
  have hsame : ((fun row => row.receiptCid == receiptCid) ∘ ReceiptRow.written col) =
      fun row => row.receiptCid == receiptCid := rfl
  rw [receiptOf, receiptOf, written, List.find?_map, hsame]
  cases d.receipts.find? fun row => row.receiptCid == receiptCid <;> rfl

theorem findIdempotent_written (idemKey : String) :
    (d.written col).findIdempotent idemKey =
      (d.findIdempotent idemKey).map (IdempotencyRow.written col) := by
  have hsame : ((fun row => row.idemKey == idemKey) ∘ IdempotencyRow.written col) =
      fun row => row.idemKey == idemKey := rfl
  rw [findIdempotent, findIdempotent, written, List.find?_map, hsame]

theorem insertReceipt_written :
    (d.written col).insertReceipt col input = (d.insertReceipt .values input).written col := by
  have hany : ((d.written col).receipts.any fun row => row.receiptCid == input.receiptCid) =
      d.receipts.any fun row => row.receiptCid == input.receiptCid := by
    rw [written, List.any_map]
    rfl
  unfold insertReceipt
  rw [hany]
  split_ifs
  · rfl
  · simp [written, ReceiptRow.written, JsonColumn.values]

theorem putKey_written :
    (d.written col).putKey col input = (d.putKey .values input).map (written col) := by
  unfold putKey
  cases input.idemKey with
  | none => rfl
  | some idemKey =>
    simp only [putIdempotentInTx, findIdempotent_written]
    cases d.findIdempotent idemKey with
    | some row => rfl
    | none => simp [Except.map, written, IdempotencyRow.written, JsonColumn.values]

theorem enqueue_written (createdAt : Int64) (events : List NewOutboxEvent) (t : OutboxTable Json) :
    events.foldl (OutboxTable.enqueueOutboxInTx col createdAt) (t.written col) =
      (events.foldl (OutboxTable.enqueueOutboxInTx .values createdAt) t).written col := by
  induction events generalizing t with
  | nil => rfl
  | cons event events ih =>
    rw [List.foldl_cons, List.foldl_cons, ← ih]
    simp [OutboxTable.enqueueOutboxInTx, OutboxTable.written, OutboxEntry.written,
      JsonColumn.values]

/-- A commit of values, written, is the commit on what is written. -/
theorem commitWfAtomically_written : (d.written col).commitWfAtomically col fault input =
    ((d.commitWfAtomically .values fault input).1,
      (d.commitWfAtomically .values fault input).2.written col) := by
  have htx : (d.written col).commitTx col input = (d.commitTx .values input).map (written col) := by
    unfold commitTx
    split_ifs
    · rfl
    · rw [insertReceipt_written, putKey_written]
      cases (d.insertReceipt .values input).putKey .values input with
      | error e => rfl
      | ok d₁ =>
        show Except.ok _ = Except.ok _
        rw [Except.ok.injEq]
        simp only [written, enqueue_written]
  unfold commitWfAtomically
  rw [htx]
  cases fault with
  | some e => rfl
  | none => cases d.commitTx .values input <;> rfl

variable {d fault}

theorem getReceipt_values (receiptCid : String) :
    d.getReceipt .values none receiptCid = .ok (d.receiptOf receiptCid) := by
  unfold getReceipt
  cases d.receiptOf receiptCid <;> rfl

theorem getIdempotent_values (rfc3339 : Int64 → String) (idemKey : String) :
    d.getIdempotent .values rfc3339 none idemKey =
      .ok ((d.findIdempotent idemKey).map (cachedOf rfc3339)) := by
  unfold getIdempotent
  cases d.findIdempotent idemKey <;> rfl

/-- Where the receipts read back, the tables answer as the values do. -/
theorem getReceipt_written (h : ∀ row ∈ d.receipts, col.ReadsBack row.bodyJson)
    (receiptCid : String) : (d.written col).getReceipt col fault receiptCid =
      d.getReceipt .values fault receiptCid := by
  unfold getReceipt
  rw [receiptOf_written]
  cases hfind : d.receiptOf receiptCid with
  | none => rfl
  | some json =>
    obtain ⟨row, hrow, rfl⟩ := Option.map_eq_some_iff.mp hfind
    simp [(h row (List.mem_of_find?_eq_some hrow)).read_toText]

theorem getIdempotent_written (h : ∀ row ∈ d.idempotency, col.ReadsBack row.responseJson)
    (rfc3339 : Int64 → String) (idemKey : String) :
    (d.written col).getIdempotent col rfc3339 fault idemKey =
      d.getIdempotent .values rfc3339 fault idemKey := by
  unfold getIdempotent
  rw [findIdempotent_written]
  cases hfind : d.findIdempotent idemKey with
  | none => rfl
  | some row =>
    simp [IdempotencyRow.written, (h row (List.mem_of_find?_eq_some hfind)).read_toText]

end DurableStore

end Written

end Ubl.Pipeline
