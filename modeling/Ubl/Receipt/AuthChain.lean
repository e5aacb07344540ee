import Ubl.Lib.TokenChain
import Ubl.Receipt.Shape

/-!
# The auth chain of a receipt

Appending, denying and verifying all walk one chain: the token of a stage is computed from the
CID that the receipt would have with the stages before it and with its present other fields
(`scheme`).  Each loop of `unified.rs` gets one equation in these terms; from them follow what
an append and a denial leave behind.
-/

namespace Ubl.Receipt

open Utf8 AssocMap ExceptLemmas TokenChain
open Ubl.Nrf (Rho Printable)

/-! ## CIDs -/

section Cid

variable {c : Crypto}

theorem cidOf_eq_ok {j : Json} (hj : j.DistinctKeys) {cid : String} :
    cidOf c j = .ok cid ↔ Rho c.text j ∧
      cid = "b3:" ++ Hex.encode (c.blake3 (Nrf.MAGIC ++ Nrf.encodeValue (Nrf.nrfOf j))) := by
  unfold cidOf
  cases h : Nrf.toNrf1Bytes c.text j with
  | error e =>
    have : ¬ Rho c.text j := by
      intro hr
      have := (Nrf.toNrf1Bytes_eq_ok hj).mpr ⟨hr, rfl⟩
      rw [h] at this
      cases this
    simp [this]
  | ok nrf =>
    obtain ⟨hr, rfl⟩ := (Nrf.toNrf1Bytes_eq_ok hj).mp h
    simp [hr, eq_comm]

/-- A CID starts with `b3:`. -/
theorem cid_ne_empty {j : Json} {cid : String} (h : cidOf c j = .ok cid) : cid ≠ "" := by
  unfold cidOf at h
  split at h
  · cases h
  · obtain rfl := Except.ok.inj h
    intro hnil
    have := congrArg String.toList hnil
    simp at this

/-- A CID is plain text. -/
theorem printable_cidOf {j : Json} {cid : String} (h : cidOf c j = .ok cid) : Printable cid := by
  unfold cidOf at h
  split at h
  · cases h
  · obtain rfl := Except.ok.inj h
    exact Printable.append (by simp [Printable]) (Hex.encode_ascii _)

end Cid

theorem printable_authToken (c : Crypto) (prevCid stageName : String) (key : Key) :
    Printable (computeAuthTokenWithKey c prevCid stageName key) :=
  Printable.append (by simp [Printable]) (Hex.encode_ascii _)

namespace UnifiedReceipt

section Chain

variable (c : Crypto) (r : UnifiedReceipt)

/-- The CID of the receipt with the given stages; empty as long as there is none. -/
def cidAt (stages : List StageExecution) : String :=
  if stages = [] then "" else (cidOf c (payload { r with stages := stages })).toOption.getD ""

/-- The shadow copy after a replay of the given stages. -/
def shadowAt (stages : List StageExecution) : UnifiedReceipt :=
  { r with stages := stages, receiptCid := cidAt c r stages, id := cidAt c r stages }

/-- The chain that the replay checks. -/
def scheme : Scheme StageExecution String Key where
  token := StageExecution.authToken
  sign token s := { s with authToken := token }
  expected pre key s := computeAuthTokenWithKey c (shadowAt c r pre).prevCid s.stage.asStr key
  token_sign _ _ := rfl
  expected_sign _ _ _ _ := rfl

/-- The keys a verification is given. -/
def keySet (currentKey : Key) (previousKey : Option Key) : Set Key :=
  {k | k = currentKey ∨ previousKey = some k}

/-- With the given stages the receipt has a canonical encoding. -/
def Encodes (stages : List StageExecution) : Prop :=
  Rho c.text (payload { r with stages := stages })

theorem shadow_eq : r.shadow = shadowAt c r [] := rfl

variable {c r}

theorem payload_distinct : r.payload.DistinctKeys := toJson_distinct _

theorem encodes_iff {stages : List StageExecution} :
    Encodes c r stages ↔ Encodes c r [] ∧ ∀ s ∈ stages, Rho c.text s.toJson :=
  rho_toJson _

/-- Fewer stages can be encoded if all of them can. -/
theorem Encodes.subset {stages stages' : List StageExecution} (h : Encodes c r stages)
    (hsub : stages' ⊆ stages) : Encodes c r stages' := by
  obtain ⟨hbase, hstages⟩ := encodes_iff.mp h
  exact encodes_iff.mpr ⟨hbase, fun s hs => hstages s (hsub hs)⟩

theorem cidAt_eq {stages : List StageExecution} (hne : stages ≠ []) (h : Encodes c r stages) :
    cidOf c (payload { r with stages := stages }) = .ok (cidAt c r stages) := by
  have hcid := (cidOf_eq_ok payload_distinct).mpr ⟨h, rfl⟩
  rw [cidAt, if_neg hne, hcid]
  rfl

theorem recomputeCid_shadowAt {pre : List StageExecution} {s : StageExecution}
    (h : Encodes c r (pre ++ [s])) :
    recomputeCid c { shadowAt c r pre with stages := pre ++ [s] } =
      (.ok (), shadowAt c r (pre ++ [s])) := by
  have hcid := cidAt_eq (by simp) h
  have hpayload : payload { shadowAt c r pre with stages := pre ++ [s] } =
      payload { r with stages := pre ++ [s] } := rfl
  simp only [recomputeCid, hpayload, hcid]
  rfl

theorem recomputeCid_shadowAt_error {pre : List StageExecution} {s : StageExecution}
    (h : ¬ Encodes c r (pre ++ [s])) :
    ∃ e r', recomputeCid c { shadowAt c r pre with stages := pre ++ [s] } = (.error e, r') := by
  unfold recomputeCid
  cases hcid : cidOf c (payload { shadowAt c r pre with stages := pre ++ [s] }) with
  | error e => exact ⟨_, _, rfl⟩
  | ok cid => exact absurd ((cidOf_eq_ok payload_distinct).mp hcid).1 h

/-! ## The loops -/

/-- One turn of the loop: the token matches under one of the keys. -/
theorem tokenMatches_iff {currentKey : Key} {previousKey : Option Key}
    {pre : List StageExecution} {s : StageExecution} :
    (s.authToken == computeAuthTokenWithKey c (shadowAt c r pre).prevCid s.stage.asStr
          currentKey ||
        previousKey.map (fun k => computeAuthTokenWithKey c (shadowAt c r pre).prevCid
          s.stage.asStr k) == some s.authToken) = true ↔
      ∃ k ∈ keySet currentKey previousKey,
        (scheme c r).token s = (scheme c r).expected pre k s := by
  simp only [Bool.or_eq_true, beq_iff_eq, Option.map_eq_some_iff, keySet, Set.mem_ofPred_eq,
    scheme, or_and_right, exists_or, exists_eq_left, eq_comm (a := s.authToken)]

theorem verifyStages_eq_true {self : UnifiedReceipt} {currentKey : Key}
    {previousKey : Option Key} {pre rest : List StageExecution} :
    verifyStages c currentKey previousKey self (shadowAt c r pre) rest = .ok true ↔
      (rest ≠ [] → Encodes c r (pre ++ rest)) ∧
      ChainedFrom (scheme c r) (keySet currentKey previousKey) pre rest ∧
      cidAt c r (pre ++ rest) = self.receiptCid := by
  induction rest generalizing pre with
  | nil => simp [verifyStages, ChainedFrom, shadowAt]
  | cons s rest ih =>
    have happend : pre ++ s :: rest = (pre ++ [s]) ++ rest := by simp
    have hstages : (shadowAt c r pre).stages = pre := rfl
    rw [verifyStages, ChainedFrom, happend, ← tokenMatches_iff]
    simp only [hstages, Bool.not_eq_true', ne_eq, reduceCtorEq, not_false_eq_true, true_imp_iff]
    split_ifs with htoken
    · simp [htoken]
    rw [Bool.not_eq_false] at htoken
    rw [htoken]
    by_cases henc : Encodes c r (pre ++ [s])
    · rw [recomputeCid_shadowAt henc, ih]
      by_cases hrest : rest = []
      · subst hrest
        simp [henc]
      · simp [hrest]
    · obtain ⟨e, r', herr⟩ := recomputeCid_shadowAt_error henc
      rw [herr]
      have hall : ¬ Encodes c r (pre ++ [s] ++ rest) := fun h => henc (h.subset (by simp))
      simp only [reduceCtorEq, hall, false_and]

theorem rebuildStages_eq_some (hlawful : c.text.Lawful) {currentKey : Key}
    {pre rest : List StageExecution} (h : Encodes c r (pre ++ rest)) :
    rebuildStages c currentKey (shadowAt c r pre) rest =
      some (resignFrom (scheme c r) currentKey pre rest) := by
  induction rest generalizing pre with
  | nil => rfl
  | cons s rest ih =>
    have hclean : c.text.Clean ((scheme c r).expected pre currentKey s) :=
      (printable_authToken _ _ _ _).clean hlawful
    -- the token just written does not matter to the encoding
    have hsigned : Encodes c r
        (pre ++ [(scheme c r).sign ((scheme c r).expected pre currentKey s) s] ++ rest) := by
      obtain ⟨hbase, hstages⟩ := encodes_iff.mp h
      refine encodes_iff.mpr ⟨hbase, fun s' hs' => ?_⟩
      simp only [List.mem_append, List.mem_cons, List.not_mem_nil, or_false] at hs'
      rcases hs' with (hs' | rfl) | hs'
      · exact hstages s' (by simp [hs'])
      · exact StageExecution.rho_authToken hclean (hstages s (by simp))
      · exact hstages s' (by simp [hs'])
    have hprefix : Encodes c r
        (pre ++ [(scheme c r).sign ((scheme c r).expected pre currentKey s) s]) :=
      hsigned.subset (List.subset_append_left _ _)
    have hstages : (shadowAt c r pre).stages = pre := rfl
    have htoken : ({ s with
        authToken := computeAuthTokenWithKey c (shadowAt c r pre).prevCid s.stage.asStr
          currentKey } : StageExecution) =
        (scheme c r).sign ((scheme c r).expected pre currentKey s) s := rfl
    rw [resignFrom, rebuildStages]
    simp only [hstages, htoken, recomputeCid_shadowAt hprefix, ih hsigned, Option.map_some]

/-- The rebuilt stages, when the rebuild does not give up. -/
theorem eq_resignFrom_of_rebuildStages {currentKey : Key} {pre rest stages : List StageExecution}
    (h : rebuildStages c currentKey (shadowAt c r pre) rest = some stages) :
    stages = resignFrom (scheme c r) currentKey pre rest := by
  induction rest generalizing pre stages with
  | nil => exact (Option.some.inj h).symm
  | cons s rest ih =>
    have hstages : (shadowAt c r pre).stages = pre := rfl
    have htoken : ({ s with
        authToken := computeAuthTokenWithKey c (shadowAt c r pre).prevCid s.stage.asStr
          currentKey } : StageExecution) =
        (scheme c r).sign ((scheme c r).expected pre currentKey s) s := rfl
    rw [rebuildStages] at h
    simp only [hstages, htoken] at h
    by_cases henc : Encodes c r
        (pre ++ [(scheme c r).sign ((scheme c r).expected pre currentKey s) s])
    · rw [recomputeCid_shadowAt henc] at h
      obtain ⟨rest', hrest, rfl⟩ := Option.map_eq_some_iff.mp h
      rw [resignFrom, ih hrest]
    · obtain ⟨e, r', herr⟩ := recomputeCid_shadowAt_error henc
      rw [herr] at h
      cases h

/-! ## Verified receipts -/

variable (c r)

/-- Every token is the expected one under one of the keys, and `receiptCid` is the CID of the
receipt. -/
structure Verified (K : Set Key) : Prop where
  encodes : r.stages ≠ [] → Encodes c r r.stages
  chained : ChainedFrom (scheme c r) K [] r.stages
  cid : cidAt c r r.stages = r.receiptCid

variable {c r}

theorem Verified.mono {K K' : Set Key} (hK : K ⊆ K') (h : Verified c r K) : Verified c r K' :=
  ⟨h.encodes, h.chained.mono hK, h.cid⟩

theorem verifyAuthChainWithKeys_eq_true {currentKey : Key} {previousKey : Option Key} :
    verifyAuthChainWithKeys c r currentKey previousKey = .ok true ↔
      Verified c r (keySet currentKey previousKey) := by
  rw [verifyAuthChainWithKeys, shadow_eq c r, verifyStages_eq_true, List.nil_append]
  exact ⟨fun ⟨h1, h2, h3⟩ => ⟨h1, h2, h3⟩, fun ⟨h1, h2, h3⟩ => ⟨h1, h2, h3⟩⟩

theorem verifyAuthChainWithSecrets_eq_true {currentSecret : String}
    {previousSecret : Option String} {currentKey : Key} {previousKey : Option Key}
    (hcurrent : keyFromSecretStr c currentSecret = .ok currentKey)
    (hprevious : optionalKey c previousSecret = .ok previousKey) :
    verifyAuthChainWithSecrets c r currentSecret previousSecret = true ↔
      Verified c r (keySet currentKey previousKey) := by
  rw [← verifyAuthChainWithKeys_eq_true, verifyAuthChainWithSecrets, hcurrent, hprevious]
  simp only
  cases h : verifyAuthChainWithKeys c r currentKey previousKey with
  | error e => simp [Except.toOption]
  | ok b => simp [Except.toOption]

/-- What passes is verified under the keys that the secrets parse to. -/
theorem exists_verified {currentSecret : String} {previousSecret : Option String}
    (h : verifyAuthChainWithSecrets c r currentSecret previousSecret = true) :
    ∃ K, Verified c r K := by
  cases hcurrent : keyFromSecretStr c currentSecret with
  | error e => simp [verifyAuthChainWithSecrets, hcurrent] at h
  | ok currentKey =>
    cases hprevious : optionalKey c previousSecret with
    | error e => simp [verifyAuthChainWithSecrets, hcurrent, hprevious] at h
    | ok previousKey =>
      exact ⟨_, (verifyAuthChainWithSecrets_eq_true hcurrent hprevious).mp h⟩

/-- A receipt without stages and without a CID is verified. -/
theorem verified_of_no_stages {K : Set Key} (hstages : r.stages = []) (hcid : r.receiptCid = "") :
    Verified c r K := by
  refine ⟨fun h => absurd hstages h, ?_, ?_⟩
  · rw [hstages]
    trivial
  · rw [hstages, hcid]
    rfl

/-- A receipt without stages is verified only without a CID. -/
theorem Verified.receiptCid_of_no_stages {K : Set Key} (h : Verified c r K)
    (hstages : r.stages = []) : r.receiptCid = "" := by
  rw [← h.cid, hstages]
  rfl

/-! ## What append and deny leave behind -/

/-- The stage as it is pushed. -/
def signedStage (c : Crypto) (r : UnifiedReceipt) (key : Key) (stage : StageExecution) :
    StageExecution :=
  { stage with authToken := computeAuthTokenWithKey c r.prevCid stage.stage.asStr key }

/-- An append that succeeds: the stage is signed under the current key and the CID is new. -/
theorem append_eq_ok {currentSecret : String} {previousSecret : Option String} {currentKey : Key}
    {stage : StageExecution} {r' : UnifiedReceipt}
    (hkey : keyFromSecretStr c currentSecret = .ok currentKey)
    (h : appendStageWithSecrets c currentSecret previousSecret stage r = (.ok (), r')) :
    Encodes c r (r.stages ++ [signedStage c r currentKey stage]) ∧
      r' = shadowAt c r (r.stages ++ [signedStage c r currentKey stage]) := by
  rw [appendStageWithSecrets, hkey] at h
  generalize hstages : r.stages ++ [signedStage c r currentKey stage] = stages
  have hpushed : r.stages ++ [{ stage with
    authToken := computeAuthTokenWithKey c r.prevCid stage.stage.asStr currentKey }] = stages :=
    hstages
  have hne : stages ≠ [] := by
    rw [← hstages]
    simp
  simp only [hpushed, recomputeCid] at h
  cases hcid : cidOf c (payload { r with stages := stages }) with
  | error e =>
    simp only [hcid] at h
    cases h
  | ok cid =>
    have henc : Encodes c r stages := ((cidOf_eq_ok payload_distinct).mp hcid).1
    simp only [cidAt_eq hne henc] at h
    refine ⟨henc, ?_⟩
    split at h
    · cases h
    · split at h
      · cases h
      · cases h
      · exact (Prod.mk.inj h).2.symm

/-- Appending under one of the keys keeps a receipt verified. -/
theorem Verified.append {K : Set Key} {currentSecret : String} {previousSecret : Option String}
    {currentKey : Key} {stage : StageExecution} {r' : UnifiedReceipt} (hr : Verified c r K)
    (hkey : keyFromSecretStr c currentSecret = .ok currentKey) (hK : currentKey ∈ K)
    (h : appendStageWithSecrets c currentSecret previousSecret stage r = (.ok (), r')) :
    Verified c r' K ∧ r'.stages ≠ [] ∧ r'.id = r'.receiptCid := by
  obtain ⟨henc, rfl⟩ := append_eq_ok hkey h
  have hprev : r.prevCid = (shadowAt c r r.stages).prevCid := by
    simp only [prevCid, shadowAt, hr.cid]
  refine ⟨⟨fun _ => henc, ?_, rfl⟩, by simp [shadowAt], rfl⟩
  have hscheme (stages : List StageExecution) : scheme c (shadowAt c r stages) = scheme c r := rfl
  have hstages (stages : List StageExecution) : (shadowAt c r stages).stages = stages := rfl
  rw [hscheme, hstages, chainedFrom_concat]
  refine ⟨hr.chained, currentKey, hK, ?_⟩
  rw [signedStage, hprev]
  rfl

/-- The receipt with the denial written into it. -/
def denied (reason : String) (r : UnifiedReceipt) : UnifiedReceipt :=
  { r with
    decision := .deny
    effects := insertMember "deny_reason" (.string reason) r.effects
    effects_distinct := r.insertString_distinct "deny_reason" reason }

/-- Recomputing the CID touches nothing that is hashed. -/
theorem encodes_recomputeCid {d : UnifiedReceipt} {stages : List StageExecution} :
    Encodes c (recomputeCid c d).2 stages ↔ Encodes c d stages := by
  unfold recomputeCid
  cases cidOf c d.payload with
  | error e => exact Iff.rfl
  | ok cid => exact Iff.rfl

theorem stages_recomputeCid (d : UnifiedReceipt) : (recomputeCid c d).2.stages = d.stages := by
  unfold recomputeCid
  cases cidOf c d.payload with
  | error e => rfl
  | ok cid => rfl

theorem recomputeCid_eq_ok {d : UnifiedReceipt} (h : Encodes c d d.stages) :
    ∃ cid, cid ≠ "" ∧ recomputeCid c d = (.ok (), { d with receiptCid := cid, id := cid }) := by
  have hcid : cidOf c d.payload = .ok _ := (cidOf_eq_ok payload_distinct).mpr ⟨h, rfl⟩
  refine ⟨_, cid_ne_empty hcid, ?_⟩
  simp only [recomputeCid, hcid]

/-- A denial of a receipt with stages: the stages are signed anew under the current key. -/
theorem deny_eq (hlawful : c.text.Lawful) {reason currentSecret : String} {currentKey : Key}
    (hkey : keyFromSecretStr c currentSecret = .ok currentKey) (hstages : r.stages ≠ [])
    (henc : Encodes c (denyWithSecrets c reason (some currentSecret) r)
      (denyWithSecrets c reason (some currentSecret) r).stages) :
    Encodes c (denied reason r)
        (resignFrom (scheme c (denied reason r)) currentKey [] r.stages) ∧
      denyWithSecrets c reason (some currentSecret) r = shadowAt c (denied reason r)
        (resignFrom (scheme c (denied reason r)) currentKey [] r.stages) := by
  generalize hd : denied reason r = d at *
  have hstages' : d.stages = r.stages := by rw [← hd]; rfl
  -- the receipt that is hashed at the end
  generalize hfinal : rebuildAuthChainWithCurrentKey c (some currentSecret) d = final
  have hdeny : denyWithSecrets c reason (some currentSecret) r =
      { (recomputeCid c final).2 with id := (recomputeCid c final).2.receiptCid } := by
    rw [← hfinal, ← hd]
    rfl
  have hencodes : Encodes c final final.stages := by
    rw [hdeny] at henc
    have h : Encodes c (recomputeCid c final).2 (recomputeCid c final).2.stages := henc
    rwa [encodes_recomputeCid, stages_recomputeCid] at h
  rw [rebuildAuthChainWithCurrentKey] at hfinal
  simp only [hkey, hstages', if_neg hstages] at hfinal
  cases hrebuild : rebuildStages c currentKey d.shadow r.stages with
  | none =>
    rw [hrebuild] at hfinal
    subst hfinal
    rw [hstages'] at hencodes
    rw [shadow_eq c, rebuildStages_eq_some hlawful (by simpa using hencodes)] at hrebuild
    cases hrebuild
  | some stages =>
    rw [hrebuild] at hfinal
    rw [shadow_eq c d] at hrebuild
    obtain rfl := eq_resignFrom_of_rebuildStages hrebuild
    subst hfinal
    have hne : resignFrom (scheme c d) currentKey [] r.stages ≠ [] :=
      resignFrom_ne_nil currentKey [] hstages
    have henc' : Encodes c d (resignFrom (scheme c d) currentKey [] r.stages) := hencodes
    refine ⟨henc', ?_⟩
    rw [hdeny]
    simp only [recomputeCid, cidAt_eq hne henc']
    rfl

/-- A denial under one of the keys leaves a verified receipt behind, whatever the tokens were
before, if there is a stage and the outcome can be encoded. -/
theorem verified_deny (hlawful : c.text.Lawful) {K : Set Key} {reason currentSecret : String}
    {currentKey : Key} (hkey : keyFromSecretStr c currentSecret = .ok currentKey)
    (hK : currentKey ∈ K) (hstages : r.stages ≠ [])
    (henc : Encodes c (denyWithSecrets c reason (some currentSecret) r)
      (denyWithSecrets c reason (some currentSecret) r).stages) :
    Verified c (denyWithSecrets c reason (some currentSecret) r) K ∧
      (denyWithSecrets c reason (some currentSecret) r).stages ≠ [] ∧
      (denyWithSecrets c reason (some currentSecret) r).id =
        (denyWithSecrets c reason (some currentSecret) r).receiptCid := by
  obtain ⟨henc', hdeny⟩ := deny_eq hlawful hkey hstages henc
  rw [hdeny]
  exact ⟨⟨fun _ => henc', chainedFrom_resignFrom hK [] r.stages, rfl⟩,
    resignFrom_ne_nil currentKey [] hstages, rfl⟩

/-- A denial of a receipt without stages: the CID is set, and no stage stands behind it. -/
theorem deny_no_stages {reason : String} {currentSecret : Option String}
    (hstages : r.stages = [])
    (henc : Encodes c (denyWithSecrets c reason currentSecret r)
      (denyWithSecrets c reason currentSecret r).stages) :
    (denyWithSecrets c reason currentSecret r).stages = [] ∧
      (denyWithSecrets c reason currentSecret r).receiptCid ≠ "" := by
  have hrebuild : rebuildAuthChainWithCurrentKey c currentSecret (denied reason r) =
      denied reason r := by
    have hnil : (denied reason r).stages = [] := hstages
    unfold rebuildAuthChainWithCurrentKey
    cases currentSecret with
    | none => rfl
    | some secret =>
      cases hkey : keyFromSecretStr c secret with
      | error e => simp only [hkey]
      | ok key => simp only [hkey, hnil, if_true]
  have hdeny : denyWithSecrets c reason currentSecret r =
      { (recomputeCid c (denied reason r)).2 with
        id := (recomputeCid c (denied reason r)).2.receiptCid } := by
    conv_rhs => rw [← hrebuild]
    rfl
  rw [hdeny] at henc ⊢
  have henc : Encodes c (recomputeCid c (denied reason r)).2
      (recomputeCid c (denied reason r)).2.stages := henc
  rw [encodes_recomputeCid, stages_recomputeCid] at henc
  obtain ⟨cid, hcid, hrec⟩ := recomputeCid_eq_ok henc
  refine ⟨(stages_recomputeCid _).trans hstages, ?_⟩
  rw [hrec]
  exact hcid

end Chain

end UnifiedReceipt

end Ubl.Receipt
