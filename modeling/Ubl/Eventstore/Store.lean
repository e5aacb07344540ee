import Ubl.Lib.KeyTree
import Ubl.Lib.Utf8
import Ubl.Lib.Hex
import Ubl.Lib.ExceptLemmas
import Ubl.Json
import Ubl.Nrf.Envelope

/-!
# `ubl_eventstore`: events and their indexes in sled

An event is stored once under its id.  Seven trees index it: by time, and by world, stage, type,
decision, code and actor with the time behind the value.  An index key is text, its parts separated
by the character 0x1f and the time padded to twenty characters, so that the order of the bytes is
meant to be the order of time.

A query takes one of the indexes where it can, looks the ids up and compares every event with the
query again; otherwise it goes through the time index.
-/

namespace Ubl.Eventstore

open Utf8 AssocMap
open Ubl.Nrf (splitParts)

structure EventQuery where
  world : Option String
  stage : Option String
  decision : Option String
  code : Option String
  chipType : Option String
  actor : Option String
  since : Option String
  limit : Option Nat

structure EventRecord where
  eventId : String
  whenMs : Int64
  event : Json

inductive EventStoreError where
  | sled (text : String)
  | serde (text : String)
  | invalidEvent (text : String)
deriving DecidableEq

/-- What the store takes from chrono, blake3 and serde. -/
structure EventLib where
  /-- `DateTime::parse_from_rfc3339` and then `timestamp_millis`. -/
  rfc3339Millis : String → Except String Int64
  blake3 : List UInt8 → List UInt8
  toVec : Json → Except String (List UInt8)
  fromSlice : List UInt8 → Except String Json

/-! ## The fields of an event -/

/-- The string at a path of member names. -/
def strAt (event : Json) : List String → Option String
  | [] => event.asStr
  | key :: path => (event.get key).bind fun v => strAt v path

/-- The first path at which there is a string. -/
def firstStr (event : Json) (paths : List (List String)) : Option String :=
  paths.findSome? (strAt event)

def eventWorld (event : Json) : Option String := firstStr event [["@world"], ["world"]]

def eventStage (event : Json) : Option String := firstStr event [["stage"], ["pipeline_stage"]]

def eventChipType (event : Json) : Option String :=
  firstStr event [["chip", "type"], ["chip_type"], ["receipt_type"]]

def eventDecision (event : Json) : Option String :=
  firstStr event [["receipt", "decision"], ["decision"]]

def eventCode (event : Json) : Option String := firstStr event [["receipt", "code"], ["code"]]

def eventActor (event : Json) : Option String := firstStr event [["actor", "kid"], ["actor"]]

/-! ## Normalization -/

section Normalize

variable (lib : EventLib)

/-- `entry` of a member that may be there already. -/
def withDefault (key value : String) (members : List (String × Json)) : List (String × Json) :=
  if key ∈ keys members then members else insertBack key (.string value) members

/-- The id an event has, or the one it is given. -/
def eventIdOf (event : Json) : String :=
  match firstStr event [["@id"]] with
  | some id => id
  | none =>
    let receiptCid := (firstStr event [["receipt", "cid"], ["receipt_cid"]]).getD "none"
    let stage := (firstStr event [["stage"], ["pipeline_stage"]]).getD "UNKNOWN"
    let source := (firstStr event [["source"]]).getD "pipeline"
    let digest := lib.blake3 (utf8 (receiptCid ++ "|" ++ stage ++ "|" ++ source))
    "evt_" ++ Hex.encode (digest.take 12)

def normalizeEvent (input : Json) : Except EventStoreError EventRecord :=
  match input with
  | .object members =>
    let members := withDefault "@ver" "1.0.0" (withDefault "@type" "ubl/event" members)
    match firstStr (.object members) [["when"], ["timestamp"]] with
    | none => .error (.invalidEvent "missing when/timestamp")
    | some timestamp =>
      match lib.rfc3339Millis timestamp with
      | .error e => .error (.invalidEvent ("invalid when: " ++ e))
      | .ok whenMs =>
        let eventId := eventIdOf lib (.object members)
        .ok ⟨eventId, whenMs, .object (insertBack "@id" (.string eventId) members)⟩
  | _ => .error (.invalidEvent "event must be object")

end Normalize

/-! ## Index keys -/

/-- `{:020}`: zeros between the sign and the digits, twenty characters at least. -/
def pad20 (i : Int64) : String :=
  let digits := Nat.toDigits 10 i.toInt.natAbs
  String.ofList (if i < 0 then '-' :: digits.leftpad 19 '0' else digits.leftpad 20 '0')

def timeIndexKey (whenMs : Int64) (eventId : String) : List UInt8 :=
  utf8 (pad20 whenMs ++ "\x1f" ++ eventId)

def dimIndexKey (value : String) (whenMs : Int64) (eventId : String) : List UInt8 :=
  utf8 (value ++ "\x1f" ++ pad20 whenMs ++ "\x1f" ++ eventId)

/-- `rsplitn(2, '\x1f')`, and of that the first part. -/
def extractEventIdFromIndexKey (key : List UInt8) : Option String :=
  (fromUtf8 key).map fun s =>
    String.ofList (s.toList.reverse.takeWhile (· ≠ '\x1f')).reverse

/-! ## The store -/

inductive Tree where
  | time
  | world
  | stage
  | type
  | decision
  | code
  | actor
deriving DecidableEq

structure EventStore where
  events : KeyTree (List UInt8) (List UInt8)
  /-- The index trees hold keys only. -/
  index : Tree → KeyTree (List UInt8) Unit

namespace EventStore

def empty : EventStore := ⟨.empty, fun _ => .empty⟩

def insertKey (tree : Tree) (key : List UInt8) (store : EventStore) : EventStore :=
  { store with index := Function.update store.index tree ((store.index tree).insert key ()) }

def insertDim (tree : Tree) (value : String) (whenMs : Int64) (eventId : String)
    (store : EventStore) : EventStore :=
  insertKey tree (dimIndexKey value whenMs eventId) store

/-- A dimension that the event may not have. -/
def insertDimOpt (tree : Tree) (value : Option String) (whenMs : Int64) (eventId : String)
    (store : EventStore) : EventStore :=
  match value with
  | none => store
  | some value => insertDim tree value whenMs eventId store

def insertIndexes (record : EventRecord) (store : EventStore) : EventStore :=
  let ⟨eventId, whenMs, event⟩ := record
  let store := insertKey .time (timeIndexKey whenMs eventId) store
  let store := insertDim .world ((eventWorld event).getD "a/system") whenMs eventId store
  let store := insertDimOpt .stage (eventStage event) whenMs eventId store
  let store := insertDimOpt .type (eventChipType event) whenMs eventId store
  let store := insertDimOpt .decision (eventDecision event) whenMs eventId store
  let store := insertDimOpt .code (eventCode event) whenMs eventId store
  insertDimOpt .actor (eventActor event) whenMs eventId store

variable (lib : EventLib)

/-- The answer says whether the event is new. -/
def appendEventJson (event : Json) (store : EventStore) :
    Except EventStoreError Bool × EventStore :=
  match normalizeEvent lib event with
  | .error e => (.error e, store)
  | .ok record =>
    let pk := utf8 record.eventId
    if store.events.contains pk then (.ok false, store)
    else match lib.toVec record.event with
      | .error e => (.error (.serde e), store)
      | .ok bytes =>
        (.ok true, insertIndexes record { store with events := store.events.insert pk bytes })

/-- An event as it is read back for the rebuild. -/
def reread (raw : List UInt8) : Except EventStoreError EventRecord :=
  match lib.fromSlice raw with
  | .error e => .error (.serde e)
  | .ok event => normalizeEvent lib event

/-- The loop of `rebuild_indexes`; the first event that cannot be read ends it. -/
def rebuildFrom : List (List UInt8) → EventStore → Except EventStoreError Unit × EventStore
  | [], store => (.ok (), store)
  | raw :: raws, store =>
    match reread lib raw with
    | .error e => (.error e, store)
    | .ok record => rebuildFrom raws (insertIndexes record store)

def rebuildIndexes (store : EventStore) : Except EventStoreError Unit × EventStore :=
  rebuildFrom lib store.events.values { store with index := fun _ => .empty }

end EventStore

/-! ## Queries -/

section Query

def matchesTypeGlob (actual pattern : String) : Bool :=
  if '*' ∈ pattern.toList then
    if pattern = "*" then true
    else match splitParts '*' pattern with
      | [before, after] =>
        before.toList.isPrefixOf actual.toList && after.toList.isSuffixOf actual.toList
      | before :: _ => actual.toList.tails.any before.toList.isPrefixOf
      | [] => false
  else actual = pattern

def eqIgnoreAsciiCase (a b : String) : Bool := a.toList.map Char.toLower = b.toList.map Char.toLower

def matchesQuery (event : Json) (q : EventQuery) : Bool :=
  q.world.all (fun world => eventWorld event = some world) &&
    q.stage.all (fun stage => eqIgnoreAsciiCase ((eventStage event).getD "") stage) &&
    q.decision.all (fun decision => eqIgnoreAsciiCase ((eventDecision event).getD "") decision) &&
    q.code.all (fun code => eventCode event = some code) &&
    q.actor.all (fun actor => eventActor event = some actor) &&
    q.chipType.all (fun chipType => matchesTypeGlob ((eventChipType event).getD "") chipType)

def toAsciiUppercase (s : String) : String := String.ofList (s.toList.map Char.toUpper)

def chooseBestIndex (q : EventQuery) : Option (Tree × String) :=
  (q.chipType.filter fun t => '*' ∉ t.toList).map (Tree.type, ·) <|>
    q.world.map (Tree.world, ·) <|>
    q.actor.map (Tree.actor, ·) <|>
    q.code.map (Tree.code, ·) <|>
    (q.stage.filter fun s => s = toAsciiUppercase s).map (Tree.stage, ·) <|>
    (q.decision.filter fun d => d = toAsciiUppercase d).map (Tree.decision, ·)

/-- `str::parse::<i64>`. -/
def parseI64 (s : String) : Option Int64 :=
  let (negative, digits) := match s.toList with
    | '-' :: digits => (true, digits)
    | '+' :: digits => (false, digits)
    | digits => (false, digits)
  if digits.isEmpty || !digits.all Char.isDigit then none
  else
    let n : Int := Nat.ofDigitChars 10 digits 0
    let i := if negative then -n else n
    if -2 ^ 63 ≤ i ∧ i < 2 ^ 63 then some (Int64.ofInt i) else none

variable (lib : EventLib)

def parseSinceToMs (since : Option String) : Option Int64 :=
  since.bind fun since =>
    match parseI64 since with
    | some ts => some ts
    | none => (lib.rfc3339Millis since).toOption

def startMs (q : EventQuery) : Int64 := (parseSinceToMs lib q.since).getD 0

def queryLimit (q : EventQuery) : Nat := max 1 (min (q.limit.getD 200) 2000)

namespace EventStore

def scanDimIndex (store : EventStore) (tree : Tree) (value : String) (startMs : Int64) :
    List String :=
  let dimPrefix := utf8 (value ++ "\x1f")
  let startKey := utf8 (value ++ "\x1f" ++ pad20 startMs ++ "\x1f")
  (((store.index tree).range startKey).takeWhile dimPrefix.isPrefixOf).filterMap
    extractEventIdFromIndexKey

def scanTimeIndex (store : EventStore) (startMs : Int64) : List String :=
  ((store.index .time).range (utf8 (pad20 startMs ++ "\x1f"))).filterMap extractEventIdFromIndexKey

/-- Both loops of `query`: the events of the ids that match, until there are enough. -/
def collect (store : EventStore) (q : EventQuery) (limit : Nat) :
    List String → List Json → Except EventStoreError (List Json)
  | [], out => .ok out
  | eventId :: ids, out =>
    match store.events.get (utf8 eventId) with
    | none => collect store q limit ids out
    | some raw =>
      match lib.fromSlice raw with
      | .error e => .error (.serde e)
      | .ok event =>
        if matchesQuery event q then
          if limit ≤ (out ++ [event]).length then .ok (out ++ [event])
          else collect store q limit ids (out ++ [event])
        else collect store q limit ids out

def query (store : EventStore) (q : EventQuery) : Except EventStoreError (List Json) :=
  match chooseBestIndex q with
  | some (tree, value) =>
    collect lib store q (queryLimit q) (store.scanDimIndex tree value (startMs lib q)) []
  | none => collect lib store q (queryLimit q) (store.scanTimeIndex (startMs lib q)) []

end EventStore

end Query

end Ubl.Eventstore
