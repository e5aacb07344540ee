import Ubl.Pipeline.Gate

/-!
# The transition profiles

The registry has a program for each profile, and the stage TRANSITION runs it on the same machine
as CHECK runs its gate: input 0 is the NRF encoding of the body.  Two of the programs begin as the
conditions of a gate do, by parsing that input as JSON, so they never come to their end, whatever
the body (`profile_executes_iff`).
-/

namespace Ubl.Pipeline

open Utf8 BigEndian Metered
open Ubl.Vm
open Ubl.Silicon
open Ubl.Nrf (MAGIC toNrf1Bytes)

/-! ## The registry -/

inductive TrBytecodeProfile where
  | passV1
  | auditV1
  | numericV1
  | siliconDefinitionV1
  | siliconCompileV1
deriving DecidableEq

open TrBytecodeProfile

def defaultProfileFor (chipType : String) : TrBytecodeProfile :=
  if chipType ∈ ["ubl/app", "ubl/user", "ubl/tenant", "ubl/membership", "ubl/token", "ubl/revoke",
    "ubl/key.rotate"] then auditV1
  else if chipType ∈ ["ubl/payment", "ubl/invoice", "ubl/settlement", "ubl/quote"] then numericV1
  else if chipType ∈ ["ubl/silicon.bit", "ubl/silicon.circuit", "ubl/silicon.chip"] then
    siliconDefinitionV1
  else if chipType = "ubl/silicon.compile" then siliconCompileV1
  else passV1

def buildProfileBytecode : TrBytecodeProfile → List UInt8
  | passV1 =>
    tlvInstr 0x12 (toBE 2 0) ++       -- PushInput(0)
    tlvInstr 0x10 []                  -- EmitRc
  | auditV1 =>
    tlvInstr 0x12 (toBE 2 0) ++       -- PushInput(0)
    tlvInstr 0x14 [] ++               -- Dup
    tlvInstr 0x11 [] ++               -- Drop
    tlvInstr 0x10 []                  -- EmitRc
  | numericV1 =>
    tlvInstr 0x12 (toBE 2 0) ++       -- PushInput(0)
    tlvInstr 0x0C [] ++               -- CasGet
    tlvInstr 0x03 [] ++               -- JsonNormalize
    tlvInstr 0x04 [] ++               -- JsonValidate
    tlvInstr 0x13 (utf8 "amount") ++  -- JsonGetKey("amount")
    tlvInstr 0x1E (toBE 8 1000000) ++ -- NumToRat(limit_den=1e6)
    tlvInstr 0x1D [0, 0, 0, 2, 0] ++  -- NumToDec(scale=2, HALF_EVEN)
    tlvInstr 0x0D [] ++               -- SetRcBody
    tlvInstr 0x12 (toBE 2 0) ++       -- PushInput(0)
    tlvInstr 0x0E [] ++               -- AttachProof
    tlvInstr 0x10 []                  -- EmitRc
  | siliconDefinitionV1 =>
    tlvInstr 0x12 (toBE 2 0) ++       -- PushInput(0)
    tlvInstr 0x0C [] ++               -- CasGet
    tlvInstr 0x03 [] ++               -- JsonNormalize
    tlvInstr 0x0B [] ++               -- CasPut
    tlvInstr 0x11 [] ++               -- Drop
    tlvInstr 0x12 (toBE 2 0) ++       -- PushInput(0)
    tlvInstr 0x0E [] ++               -- AttachProof
    tlvInstr 0x10 []                  -- EmitRc
  | siliconCompileV1 =>
    tlvInstr 0x12 (toBE 2 0) ++       -- PushInput(0)
    tlvInstr 0x10 []                  -- EmitRc

/-! ## The run of the stage -/

namespace UblPipeline

variable (p : UblPipeline)

def transitionConfig : VmConfig := ⟨p.fuelLimit, false, true⟩

/-- `vm.run(&instructions)` as the stage sets it up. -/
def transitionRun (instructions : List Instr) (chipNrf : List UInt8) :
    Except Fault (VmOutcome × Machine PipelineCas) :=
  run (p.gateEnv chipNrf) p.transitionConfig (p.gateCas chipNrf) instructions

end UblPipeline

/-! ## The programs -/

/-- What comes before `EmitRc`. -/
def profileCode : TrBytecodeProfile → List Instr
  | passV1 | siliconCompileV1 => [⟨.pushInput, toBE 2 0⟩]
  | auditV1 => [⟨.pushInput, toBE 2 0⟩, ⟨.dup, []⟩, ⟨.drop, []⟩]
  | numericV1 => loadBody ++ [⟨.jsonValidate, []⟩, ⟨.jsonGetKey, utf8 "amount"⟩,
      ⟨.numToRat, toBE 8 1000000⟩, ⟨.numToDec, [0, 0, 0, 2, 0]⟩, ⟨.setRcBody, []⟩,
      ⟨.pushInput, toBE 2 0⟩, ⟨.attachProof, []⟩]
  | siliconDefinitionV1 => loadBody ++ [⟨.casPut, []⟩, ⟨.drop, []⟩, ⟨.pushInput, toBE 2 0⟩,
      ⟨.attachProof, []⟩]

theorem decodeStream_profile (profile : TrBytecodeProfile) :
    decodeStream (buildProfileBytecode profile) = .ok (profileCode profile ++ [⟨.emitRc, []⟩]) := by
  have hbytes : buildProfileBytecode profile = encode (profileCode profile ++ [⟨.emitRc, []⟩]) := by
    cases profile <;> rfl
  have hshort : ∀ ins ∈ profileCode profile ++ [⟨.emitRc, []⟩], ins.Short := by
    cases profile <;> decide
  rw [hbytes, decodeStream_encode hshort]

theorem emitFree_profileCode (profile : TrBytecodeProfile) : EmitFree (profileCode profile) := by
  cases profile <;> simp [profileCode, loadBody]

/-- The profiles that parse the input as JSON. -/
def ReadsJson (profile : TrBytecodeProfile) : Prop :=
  profile = numericV1 ∨ profile = siliconDefinitionV1

section Run

variable {p : UblPipeline} {chipNrf : List UInt8} {profile : TrBytecodeProfile}

/-- The other profiles only move their input about. -/
theorem exec_profileCode (h : ¬ ReadsJson profile) :
    ∃ core, (exec (execOp (p.gateEnv chipNrf)) (profileCode profile)
      (initial (p.gateCas chipNrf))).result = .ok core := by
  cases profile with
  | passV1 => exact ⟨_, rfl⟩
  | auditV1 => exact ⟨_, rfl⟩
  | siliconCompileV1 => exact ⟨_, rfl⟩
  | numericV1 => exact absurd (.inl rfl) h
  | siliconDefinitionV1 => exact absurd (.inr rfl) h

/-- These profiles come no further than their third instruction. -/
theorem exec_profileCode_json (hjson : RejectsNonJson p.fromSlice) {body : Json}
    (hnrf : toNrf1Bytes p.text body = .ok chipNrf) (h : ReadsJson profile) :
    ∃ reason, (exec (execOp (p.gateEnv chipNrf)) (profileCode profile)
      (initial (p.gateCas chipNrf))).result = .error (.error (.deny reason)) := by
  obtain ⟨reason, hread⟩ := readBody_gate hjson hnrf
  have hload (rest : List Instr) : (exec (execOp (p.gateEnv chipNrf)) (loadBody ++ rest)
      (initial (p.gateCas chipNrf))).result = .error (.error (.deny reason)) := by
    rw [exec_loadBody]
    exact congrArg Metered.result (bind_eq_of_error hread _)
  rcases h with rfl | rfl
  · exact ⟨reason, hload _⟩
  · exact ⟨reason, hload _⟩

theorem transitionRun_emits (hsign : ∀ b, p.signJws b ≠ [])
    (hfuel : EnoughFuel p.transitionConfig (profileCode profile ++ [⟨.emitRc, []⟩]))
    (h : ¬ ReadsJson profile) :
    Emits (p.transitionRun (profileCode profile ++ [⟨.emitRc, []⟩]) chipNrf) := by
  obtain ⟨core, hcore⟩ := @exec_profileCode p chipNrf profile h
  refine (run_emitRc (p.gateEnv chipNrf) p.transitionConfig (p.gateCas chipNrf)
    (emitFree_profileCode profile) hsign hcore [] []).1 ?_
  have hcost := exec_cost_of_ok (execOp (p.gateEnv chipNrf)) hcore
  rw [hcost]
  rwa [EnoughFuel, List.length_append] at hfuel

/-- The run of a profile that reads JSON ends in a denial. -/
theorem transitionRun_denied (hjson : RejectsNonJson p.fromSlice) {body : Json}
    (hnrf : toNrf1Bytes p.text body = .ok chipNrf)
    (hfuel : EnoughFuel p.transitionConfig (profileCode profile ++ [⟨.emitRc, []⟩]))
    (h : ReadsJson profile) :
    ∃ reason, p.transitionRun (profileCode profile ++ [⟨.emitRc, []⟩]) chipNrf =
      .error (.error (.deny reason)) := by
  obtain ⟨reason, hresult⟩ := exec_profileCode_json hjson hnrf h
  refine ⟨reason, run_error (p.gateEnv chipNrf) p.transitionConfig (p.gateCas chipNrf)
    (emitFree_profileCode profile) [⟨.emitRc, []⟩] hresult ?_⟩
  have hcost := exec_cost_le (execOp (p.gateEnv chipNrf)) (profileCode profile)
    (initial (p.gateCas chipNrf))
  refine (fuelFor_mono (hcost.trans ?_)).trans hfuel
  rw [List.length_append]
  omega

end Run

/-- With enough fuel a profile comes to `EmitRc` exactly when it does not read its input as
JSON. -/
theorem profile_executes_iff (p : UblPipeline) (hjson : RejectsNonJson p.fromSlice)
    (hsign : ∀ b, p.signJws b ≠ []) (profile : TrBytecodeProfile) (body : Json)
    (chipNrf : List UInt8) (hnrf : toNrf1Bytes p.text body = .ok chipNrf)
    (instructions : List Instr)
    (hdecode : decodeStream (buildProfileBytecode profile) = .ok instructions)
    (hfuel : EnoughFuel p.transitionConfig instructions) :
    Emits (p.transitionRun instructions chipNrf) ↔
      profile ≠ numericV1 ∧ profile ≠ siliconDefinitionV1 := by
  obtain rfl := Except.ok.inj ((decodeStream_profile profile).symm.trans hdecode)
  have hnot : (profile ≠ numericV1 ∧ profile ≠ siliconDefinitionV1) ↔ ¬ ReadsJson profile :=
    not_or.symm
  rw [hnot]
  constructor
  · rintro ⟨out, vm, hok, -⟩ hreads
    obtain ⟨reason, hdenied⟩ := transitionRun_denied hjson hnrf hfuel hreads
    rw [hdenied] at hok
    cases hok
  · exact transitionRun_emits hsign hfuel

theorem enoughFuel_samplePipeline (profile : TrBytecodeProfile) :
    EnoughFuel (samplePipeline ⟨[], fun _ => none⟩).transitionConfig
      (profileCode profile ++ [⟨.emitRc, []⟩]) := by
  unfold EnoughFuel
  cases profile <;> decide

theorem profile_executes_iff_pass : ∃ instructions chipNrf,
    decodeStream (buildProfileBytecode passV1) = .ok instructions ∧
      toNrf1Bytes Nrf.asciiText gatedBody = .ok chipNrf ∧
      Emits ((samplePipeline ⟨[], fun _ => none⟩).transitionRun instructions chipNrf) := by
  have hdecode := decodeStream_profile passV1
  have hnrf := toNrf1Bytes_gatedBody
  refine ⟨_, _, hdecode, hnrf, ?_⟩
  exact (profile_executes_iff (samplePipeline ⟨[], fun _ => none⟩)
    (rejectsNonJson_samplePipeline _) (by simp [samplePipeline]) passV1 gatedBody _ hnrf _ hdecode
    (enoughFuel_samplePipeline passV1)).mpr ⟨by decide, by decide⟩

/-- `{"@id":"p","@type":"ubl/payment","@ver":"1.0","@world":"a/acme","amount":1050}`. -/
def paymentBody : Json :=
  .object [("@id", .string "p"), ("@type", .string "ubl/payment"), ("@ver", .string "1.0"),
    ("@world", .string "a/acme"), ("amount", .number (.posInt 1050))]

/-- The profile of a payment is not run to its end, nor is that of a silicon chip. -/
theorem profile_denied : ∃ (p : UblPipeline) (chipNrf : List UInt8),
    RejectsNonJson p.fromSlice ∧ toNrf1Bytes p.text paymentBody = .ok chipNrf ∧
      defaultProfileFor "ubl/payment" = numericV1 ∧
      defaultProfileFor "ubl/silicon.bit" = siliconDefinitionV1 ∧
      ∀ profile, ReadsJson profile → ∃ instructions,
        decodeStream (buildProfileBytecode profile) = .ok instructions ∧
          EnoughFuel p.transitionConfig instructions ∧
          ¬ Emits (p.transitionRun instructions chipNrf) := by
  have hnrf : toNrf1Bytes Nrf.asciiText paymentBody =
      .ok (MAGIC ++ Nrf.encodeValue (Nrf.nrfOf paymentBody)) := by
    with_unfolding_all rfl
  refine ⟨samplePipeline ⟨[], fun _ => none⟩, _, rejectsNonJson_samplePipeline _, hnrf, by decide,
    by decide, fun profile hreads => ⟨_, decodeStream_profile profile,
      enoughFuel_samplePipeline profile, ?_⟩⟩
  rintro ⟨out, vm, hok, -⟩
  obtain ⟨reason, hdenied⟩ := transitionRun_denied (rejectsNonJson_samplePipeline _) hnrf
    (enoughFuel_samplePipeline profile) hreads
  rw [hdenied] at hok
  cases hok

end Ubl.Pipeline
