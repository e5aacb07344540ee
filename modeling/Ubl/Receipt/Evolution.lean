import Ubl.Receipt.AuthChain

/-!
# A receipt through its life

A receipt starts with `new` and evolves by successful appends and by denials, under a pair of
secrets that may be rotated once on the way (`Step`).  Every token is then under a key of the
pair in force, so that the receipt verifies at every point.  The one way to break the chain is
to deny a receipt that has no stage yet: `rebuild_auth_chain_with_current_key` returns early,
`recompute_cid` does not, and the replay of no stages ends with no CID.

    every deny comes after an append  →  every receipt reached verifies   (verifies_of_run)
-/

namespace Ubl.Receipt

open TokenChain
open Relation (ReflTransGen)

structure StageSecrets where
  current : String
  prev : Option String

/-- What happens to a receipt: the two calls, and the rotation of the secrets. -/
inductive Event where
  | append (stage : StageExecution)
  | deny (reason : String)
  | rotate

structure Evolution where
  receipt : UnifiedReceipt
  rotated : Bool

namespace Evolution

section

variable (c : Crypto) (s₀ : String) (p₀ : Option String) (s₁ : String)

/-- The pair in force, before and after the rotation. -/
def secrets (σ : Evolution) : StageSecrets :=
  if σ.rotated then ⟨s₁, some s₀⟩ else ⟨s₀, p₀⟩

inductive Step : Evolution → Event → Evolution → Prop
  | append (σ : Evolution) (stage : StageExecution) (r : UnifiedReceipt)
      (h : σ.receipt.appendStageWithSecrets c (σ.secrets s₀ p₀ s₁).current
        (σ.secrets s₀ p₀ s₁).prev stage = (.ok (), r)) :
      Step σ (.append stage) { σ with receipt := r }
  | deny (σ : Evolution) (reason : String) :
      Step σ (.deny reason) { σ with
        receipt := σ.receipt.denyWithSecrets c reason (some (σ.secrets s₀ p₀ s₁).current) }
  | rotate (σ : Evolution) (h : σ.rotated = false) : Step σ .rotate { σ with rotated := true }

/-- The canonical encoding of the receipt succeeds. -/
def Encoded (σ : Evolution) : Prop := σ.receipt.Encodes c σ.receipt.stages

/-- A denial has a stage to rebuild. -/
def HasStage (σ : Evolution) : Event → Prop
  | .deny _ => σ.receipt.stages ≠ []
  | _ => True

/-- The receipt verifies under the pair in force, and its two identifiers agree. -/
def Verifies (σ : Evolution) : Prop :=
  σ.receipt.verifyAuthChainWithSecrets c (σ.secrets s₀ p₀ s₁).current
      (σ.secrets s₀ p₀ s₁).prev = true ∧
    (σ.receipt.stages ≠ [] → σ.receipt.id = σ.receipt.receiptCid)

/-- A run in which every receipt can be encoded and no receipt without a stage is denied. -/
def Run : Evolution → Evolution → Prop :=
  ReflTransGen fun σ σ' => ∃ e, σ.HasStage e ∧ Step c s₀ p₀ s₁ σ e σ' ∧ σ'.Encoded c

end

section

variable {c : Crypto} {s₀ : String} {p₀ : Option String} {s₁ : String}

/-- The secrets parse, to these keys. -/
structure Parse (c : Crypto) (s₀ : String) (p₀ : Option String) (s₁ : String) (k₀ k₁ : Key)
    (kp : Option Key) : Prop where
  current : keyFromSecretStr c s₀ = .ok k₀
  prev : UnifiedReceipt.optionalKey c p₀ = .ok kp
  next : keyFromSecretStr c s₁ = .ok k₁

/-- The keys under which tokens were made; the one of `p₀` is never among them. -/
def keysUsed (k₀ k₁ : Key) (σ : Evolution) : Set Key := if σ.rotated then {k₁, k₀} else {k₀}

/-- The invariant of a run. -/
structure Sound (c : Crypto) (k₀ k₁ : Key) (σ : Evolution) : Prop where
  verified : σ.receipt.Verified c (keysUsed k₀ k₁ σ)
  id_eq : σ.receipt.stages ≠ [] → σ.receipt.id = σ.receipt.receiptCid

variable {k₀ k₁ : Key} {kp : Option Key} {σ σ' : Evolution} {e : Event}

theorem Parse.key_current (h : Parse c s₀ p₀ s₁ k₀ k₁ kp) (σ : Evolution) :
    ∃ k ∈ keysUsed k₀ k₁ σ, keyFromSecretStr c (σ.secrets s₀ p₀ s₁).current = .ok k := by
  unfold keysUsed secrets
  cases σ.rotated with
  | false => exact ⟨k₀, rfl, h.current⟩
  | true => exact ⟨k₁, Or.inl rfl, h.next⟩

theorem Sound.verifies (hp : Parse c s₀ p₀ s₁ k₀ k₁ kp) (h : Sound c k₀ k₁ σ) :
    σ.Verifies c s₀ p₀ s₁ := by
  refine ⟨?_, h.id_eq⟩
  have hv := h.verified
  unfold keysUsed at hv
  unfold secrets
  cases hrot : σ.rotated with
  | false =>
    simp only [hrot] at hv ⊢
    refine (UnifiedReceipt.verifyAuthChainWithSecrets_eq_true hp.current hp.prev).mpr
      (hv.mono fun k hk => ?_)
    exact Or.inl hk
  | true =>
    have hprev : UnifiedReceipt.optionalKey c (some s₀) = .ok (some k₀) := by
      simp only [UnifiedReceipt.optionalKey, hp.current]
      rfl
    simp only [hrot] at hv ⊢
    refine (UnifiedReceipt.verifyAuthChainWithSecrets_eq_true hp.next hprev).mpr
      (hv.mono fun k hk => ?_)
    rcases hk with rfl | rfl
    · exact Or.inl rfl
    · exact Or.inr rfl

theorem Sound.step (hlawful : c.text.Lawful) (hp : Parse c s₀ p₀ s₁ k₀ k₁ kp)
    (h : Sound c k₀ k₁ σ) (hstage : σ.HasStage e) (hstep : Step c s₀ p₀ s₁ σ e σ')
    (henc : σ'.Encoded c) : Sound c k₀ k₁ σ' := by
  obtain ⟨k, hk, hkey⟩ := hp.key_current σ
  cases hstep with
  | append stage r happend =>
    obtain ⟨hv, -, hid⟩ := h.verified.append hkey hk happend
    exact ⟨hv, fun _ => hid⟩
  | deny reason =>
    obtain ⟨hv, -, hid⟩ := UnifiedReceipt.verified_deny hlawful hkey hk hstage henc
    exact ⟨hv, fun _ => hid⟩
  | rotate hrot =>
    refine ⟨h.verified.mono fun k hk => ?_, h.id_eq⟩
    simp only [keysUsed, hrot] at hk ⊢
    exact Or.inr hk

theorem Sound.run (hlawful : c.text.Lawful) (hp : Parse c s₀ p₀ s₁ k₀ k₁ kp)
    (h : Sound c k₀ k₁ σ) (hrun : Run c s₀ p₀ s₁ σ σ') : Sound c k₀ k₁ σ' := by
  induction hrun with
  | refl => exact h
  | tail _ hstep ih =>
    obtain ⟨e, hstage, hstep, henc⟩ := hstep
    exact ih.step hlawful hp hstage hstep henc

/-- A denial before the first stage leaves a CID that no replay arrives at. -/
theorem not_verifies_deny {reason : String} (hstages : σ.receipt.stages = [])
    (hstep : Step c s₀ p₀ s₁ σ (.deny reason) σ') (henc : σ'.Encoded c) :
    ¬ σ'.Verifies c s₀ p₀ s₁ := by
  cases hstep with
  | deny reason =>
    obtain ⟨hnil, hcid⟩ := UnifiedReceipt.deny_no_stages hstages henc
    rintro ⟨hv, -⟩
    obtain ⟨K, hv⟩ := UnifiedReceipt.exists_verified hv
    exact hcid (hv.receiptCid_of_no_stages hnil)

/-- At every point of a run the receipt verifies under the latest pair and has one identifier;
and the condition on denials is exact: the step that breaks it breaks the chain. -/
theorem verifies_of_run (hlawful : c.text.Lawful) (hs₀ : ∃ k, keyFromSecretStr c s₀ = .ok k)
    (hp₀ : ∃ k, UnifiedReceipt.optionalKey c p₀ = .ok k)
    (hs₁ : ∃ k, keyFromSecretStr c s₁ = .ok k) (t world did kid nonce : String)
    (hrun : Run c s₀ p₀ s₁ ⟨UnifiedReceipt.new t world did kid nonce, false⟩ σ) :
    σ.Verifies c s₀ p₀ s₁ ∧ ∀ e σ', Step c s₀ p₀ s₁ σ e σ' → σ'.Encoded c →
      (σ'.Verifies c s₀ p₀ s₁ ↔ σ.HasStage e) := by
  obtain ⟨k₀, hk₀⟩ := hs₀
  obtain ⟨kp, hkp⟩ := hp₀
  obtain ⟨k₁, hk₁⟩ := hs₁
  have hp : Parse c s₀ p₀ s₁ k₀ k₁ kp := ⟨hk₀, hkp, hk₁⟩
  have hstart : Sound c k₀ k₁ ⟨UnifiedReceipt.new t world did kid nonce, false⟩ :=
    ⟨UnifiedReceipt.verified_of_no_stages rfl rfl, fun h => absurd rfl h⟩
  have hσ := hstart.run hlawful hp hrun
  refine ⟨hσ.verifies hp, fun e σ' hstep henc => ⟨fun hv => ?_, fun hstage => ?_⟩⟩
  · cases e with
    | append stage => trivial
    | rotate => trivial
    | deny reason => exact fun hnil => not_verifies_deny hnil hstep henc hv
  · exact (hσ.step hlawful hp hstage hstep henc).verifies hp

/-! ## Samples -/

theorem encodes_of_isOk {r : UnifiedReceipt} (h : (cidOf c r.payload).isOk = true) :
    r.Encodes c r.stages := by
  cases hcid : cidOf c r.payload with
  | error e =>
    rw [hcid] at h
    cases h
  | ok cid => exact ((cidOf_eq_ok UnifiedReceipt.payload_distinct).mp hcid).1

theorem eq_of_isOk {ε α : Type} {x : Except ε Unit × α} (h : x.1.isOk = true) :
    x = (.ok (), x.2) := by
  obtain ⟨u, a⟩ := x
  cases u with
  | error e => cases h
  | ok u => rfl

theorem Step.append_before {r r' : UnifiedReceipt} {stage : StageExecution}
    (h : r.appendStageWithSecrets c s₀ p₀ stage = (.ok (), r')) :
    Step c s₀ p₀ s₁ ⟨r, false⟩ (.append stage) ⟨r', false⟩ :=
  .append ⟨r, false⟩ stage r' h

theorem Step.deny_before (r : UnifiedReceipt) (reason : String) :
    Step c s₀ p₀ s₁ ⟨r, false⟩ (.deny reason)
      ⟨r.denyWithSecrets c reason (some s₀), false⟩ :=
  .deny ⟨r, false⟩ reason

theorem Step.rotate_once (r : UnifiedReceipt) :
    Step c s₀ p₀ s₁ ⟨r, false⟩ .rotate ⟨r, true⟩ :=
  .rotate ⟨r, false⟩ rfl

theorem Step.deny_after (r : UnifiedReceipt) (reason : String) :
    Step c s₀ p₀ s₁ ⟨r, true⟩ (.deny reason) ⟨r.denyWithSecrets c reason (some s₁), true⟩ :=
  .deny ⟨r, true⟩ reason

end

/-- A stand-in for the hash on the samples: 32 bytes off the end. -/
def sampleHash (bytes : List UInt8) : List UInt8 := (bytes.reverse ++ List.replicate 32 0).take 32

def sampleCrypto : Crypto where
  text := Nrf.asciiText
  blake3 := sampleHash
  keyed key bytes := sampleHash (key.toList ++ bytes)
  debugChar _ := "?"

def sampleReceipt : UnifiedReceipt :=
  .new "2025-01-01T00:00:00Z" "a/acme/t/prod" "did:key:z1" "did:key:z1#ed25519" "00"

def sampleStage : StageExecution where
  stage := .writeAhead
  timestamp := "2025-01-01T00:00:00Z"
  inputCid := "b3:01"
  outputCid := some "b3:01"
  fuelUsed := none
  policyTrace := []
  vmSig := none
  vmSigPayloadCid := none
  authToken := ""
  durationMs := 0

/-- WA is appended under `s0`. -/
@[irreducible] def sampleAppended : UnifiedReceipt :=
  (sampleReceipt.appendStageWithSecrets sampleCrypto "s0" none sampleStage).2

/-- The secrets are rotated and the receipt is denied under `s1`. -/
@[irreducible] def sampleDenied : UnifiedReceipt :=
  sampleAppended.denyWithSecrets sampleCrypto "type not allowed" (some "s1")

theorem sample_isOk :
    (sampleReceipt.appendStageWithSecrets sampleCrypto "s0" none sampleStage).1.isOk = true ∧
      sampleAppended.stages.length = 1 ∧
      (cidOf sampleCrypto sampleAppended.payload).isOk = true ∧
      (cidOf sampleCrypto sampleDenied.payload).isOk = true := by
  refine ⟨?_, ?_, ?_, ?_⟩ <;> decide +kernel

theorem sampleAppended_eq :
    sampleReceipt.appendStageWithSecrets sampleCrypto "s0" none sampleStage =
      (.ok (), sampleAppended) := by
  rw [sampleAppended]
  exact eq_of_isOk sample_isOk.1

theorem sampleAppended_encodes : sampleAppended.Encodes sampleCrypto sampleAppended.stages :=
  encodes_of_isOk sample_isOk.2.2.1

theorem sampleDenied_encodes : sampleDenied.Encodes sampleCrypto sampleDenied.stages :=
  encodes_of_isOk sample_isOk.2.2.2

theorem sampleRun :
    Run sampleCrypto "s0" none "s1" ⟨sampleReceipt, false⟩ ⟨sampleDenied, true⟩ := by
  have happend : Run sampleCrypto "s0" none "s1" ⟨sampleReceipt, false⟩ ⟨sampleAppended, false⟩ :=
    .single ⟨.append sampleStage, trivial, Step.append_before sampleAppended_eq,
      sampleAppended_encodes⟩
  have hrotate : Run sampleCrypto "s0" none "s1" ⟨sampleReceipt, false⟩ ⟨sampleAppended, true⟩ :=
    .tail happend ⟨.rotate, trivial, Step.rotate_once _, sampleAppended_encodes⟩
  have hdeny : Step sampleCrypto "s0" none "s1" ⟨sampleAppended, true⟩ (.deny "type not allowed")
      ⟨sampleDenied, true⟩ := by
    rw [sampleDenied]
    exact Step.deny_after _ _
  refine .tail hrotate ⟨.deny "type not allowed", fun hnil => ?_, hdeny, sampleDenied_encodes⟩
  have hlen := sample_isOk.2.1
  rw [show sampleAppended.stages = [] from hnil] at hlen
  cases hlen

theorem verifies_of_run_sample :
    Run sampleCrypto "s0" none "s1" ⟨sampleReceipt, false⟩ ⟨sampleDenied, true⟩ ∧
      Verifies sampleCrypto "s0" none "s1" ⟨sampleDenied, true⟩ :=
  ⟨sampleRun, (verifies_of_run Nrf.asciiText_lawful ⟨_, rfl⟩ ⟨_, rfl⟩ ⟨_, rfl⟩ _ _ _ _ _
    sampleRun).1⟩

/-- A denial right after `new`. -/
theorem deny_first_breaks_chain :
    ∃ σ, Step sampleCrypto "s0" none "s1" ⟨sampleReceipt, false⟩ (.deny "type not allowed") σ ∧
      σ.Encoded sampleCrypto ∧ ¬ σ.Verifies sampleCrypto "s0" none "s1" := by
  have henc : (cidOf sampleCrypto (sampleReceipt.denyWithSecrets sampleCrypto "type not allowed"
      (some "s0")).payload).isOk = true := by
    decide
  exact ⟨_, Step.deny_before _ _, encodes_of_isOk henc,
    not_verifies_deny rfl (Step.deny_before _ _) (encodes_of_isOk henc)⟩

end Evolution

end Ubl.Receipt
