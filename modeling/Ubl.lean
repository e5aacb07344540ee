import Ubl.Auth.Audience
import Ubl.Auth.Capability
import Ubl.Auth.Expiry
import Ubl.Auth.Issuers
import Ubl.Auth.Onboarding
import Ubl.Auth.World
import Ubl.Chipstore.Backends
import Ubl.Chipstore.Pagination
import Ubl.Chipstore.Puts
import Ubl.Chipstore.Query
import Ubl.Chipstore.Receipts
import Ubl.Chipstore.Refinement
import Ubl.Chipstore.Store
import Ubl.Eventstore.Globs
import Ubl.Eventstore.Keys
import Ubl.Eventstore.Queries
import Ubl.Eventstore.Rebuild
import Ubl.Eventstore.Store
import Ubl.Gate.Answers
import Ubl.Gate.Events
import Ubl.Gate.Filters
import Ubl.Gate.Fingerprint
import Ubl.Gate.Lapses
import Ubl.Gate.Mcp
import Ubl.Gate.Receipts
import Ubl.Gate.Registry
import Ubl.Gate.Scope
import Ubl.Gate.Search
import Ubl.Gate.Stream
import Ubl.Gate.Submit
import Ubl.Gate.Tokens
import Ubl.Gate.Transports
import Ubl.Gate.Window
import Ubl.Gate.WindowTexts
import Ubl.Json
import Ubl.Json.Text
import Ubl.Knock.Accepts
import Ubl.Knock.Duplicates
import Ubl.Knock.Numbers
import Ubl.Knock.Stage
import Ubl.Lib.AssocMap
import Ubl.Lib.Base58
import Ubl.Lib.BigEndian
import Ubl.Lib.ByteSplit
import Ubl.Lib.Convergents
import Ubl.Lib.ExceptLemmas
import Ubl.Lib.Files
import Ubl.Lib.Fueled
import Ubl.Lib.Glob
import Ubl.Lib.Hex
import Ubl.Lib.InTime
import Ubl.Lib.Interval
import Ubl.Lib.KeyTree
import Ubl.Lib.Layers
import Ubl.Lib.Metered
import Ubl.Lib.Numeral
import Ubl.Lib.Paging
import Ubl.Lib.Path
import Ubl.Lib.Prog
import Ubl.Lib.Rounding
import Ubl.Lib.RwLock
import Ubl.Lib.SecondaryIndex
import Ubl.Lib.Serial
import Ubl.Lib.Split
import Ubl.Lib.Tagged
import Ubl.Lib.TokenChain
import Ubl.Lib.UpToFirst
import Ubl.Lib.Utf8
import Ubl.Logline.Bare
import Ubl.Logline.Default
import Ubl.Logline.Lexing
import Ubl.Logline.Lines
import Ubl.Logline.Numerals
import Ubl.Logline.Parser
import Ubl.Logline.Progress
import Ubl.Logline.RoundTrip
import Ubl.Logline.Serializer
import Ubl.Logline.Spans
import Ubl.Logline.Termination
import Ubl.Logline.Token
import Ubl.Logline.Tokenizer
import Ubl.Logline.Walk
import Ubl.Logline.Writing
import Ubl.Nrf.Canonicity
import Ubl.Nrf.Decode
import Ubl.Nrf.Encode
import Ubl.Nrf.Envelope
import Ubl.Nrf.FromJson
import Ubl.Nrf.Idempotent
import Ubl.Nrf.Length
import Ubl.Nrf.Normalize
import Ubl.Nrf.Varint
import Ubl.Pipeline.Adapter
import Ubl.Pipeline.Admission
import Ubl.Pipeline.Advisory
import Ubl.Pipeline.Ancestry
import Ubl.Pipeline.AuditChip
import Ubl.Pipeline.Authorship
import Ubl.Pipeline.Check
import Ubl.Pipeline.Commits
import Ubl.Pipeline.Compaction
import Ubl.Pipeline.Completion
import Ubl.Pipeline.Durable
import Ubl.Pipeline.DurableRuns
import Ubl.Pipeline.Effects
import Ubl.Pipeline.Gate
import Ubl.Pipeline.KeyNames
import Ubl.Pipeline.Keys
import Ubl.Pipeline.Ledger
import Ubl.Pipeline.Loader
import Ubl.Pipeline.MetaChip
import Ubl.Pipeline.Money
import Ubl.Pipeline.Nonces
import Ubl.Pipeline.Outbox
import Ubl.Pipeline.OutboxClaims
import Ubl.Pipeline.Policies
import Ubl.Pipeline.Process
import Ubl.Pipeline.Profiles
import Ubl.Pipeline.Registrations
import Ubl.Pipeline.Replay
import Ubl.Pipeline.Rotation
import Ubl.Pipeline.Secrets
import Ubl.Pipeline.Trace
import Ubl.Pipeline.Transition
import Ubl.Pipeline.Uniqueness
import Ubl.Policy.Circuit
import Ubl.Policy.Decisions
import Ubl.Policy.Lock
import Ubl.Receipt.AuthChain
import Ubl.Receipt.Evolution
import Ubl.Receipt.HostedText
import Ubl.Receipt.OfflineLink
import Ubl.Receipt.Purposes
import Ubl.Receipt.ReadBack
import Ubl.Receipt.RichUrl
import Ubl.Receipt.Shape
import Ubl.Receipt.Tamper
import Ubl.Receipt.Unified
import Ubl.Silicon.Agreement
import Ubl.Silicon.Compile
import Ubl.Silicon.Condition
import Ubl.Silicon.Discipline
import Ubl.Silicon.Framing
import Ubl.Silicon.Graph
import Ubl.Silicon.Inlined
import Ubl.Silicon.Meaning
import Ubl.Silicon.Mixed
import Ubl.Silicon.Program
import Ubl.Silicon.Resolve
import Ubl.Silicon.Runtime
import Ubl.Silicon.Unreadable
import Ubl.Silicon.Weakening
import Ubl.Unc1.Approximation
import Ubl.Unc1.Arith
import Ubl.Unc1.Checked
import Ubl.Unc1.DecimalText
import Ubl.Unc1.Division
import Ubl.Unc1.Doubles
import Ubl.Unc1.Exact
import Ubl.Unc1.Interval
import Ubl.Unc1.Num
import Ubl.Unc1.Order
import Ubl.Unc1.Rounding
import Ubl.Unc1.Units
import Ubl.Vm.Canon
import Ubl.Vm.Exec
import Ubl.Vm.Fuel
import Ubl.Vm.Held
import Ubl.Vm.Metering
import Ubl.Vm.Numbers
import Ubl.Vm.Stream
import Ubl.Vm.Tlv
import Ubl.Vm.Validate
