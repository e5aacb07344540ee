import Ubl.Receipt.Unified

/-!
# The JSON form of a receipt

The members of every object that a receipt serialises to are some of a fixed list of names, in
order, so that its keys are distinct (`UnifiedReceipt.toJson_distinct`) and it can be encoded
exactly when its text is clean (`UnifiedReceipt.rho_toJson`).
-/

namespace Ubl.Receipt

open AssocMap
open Ubl.Nrf (Rho)

/-! ## Members -/

@[simp] theorem forall_mem_optional_map {P : String × Json → Prop} {key : String} {α : Type}
    {f : α → Json} {o : Option α} :
    (∀ e ∈ optional key (o.map f), P e) ↔ ∀ a, o = some a → P (key, f a) := by
  cases o with
  | none => simp [optional]
  | some a => simp [optional]

@[simp] theorem forall_mem_optional_unlessEmpty {P : String × Json → Prop} {key : String}
    {α : Type} {items : List α} {value : Json} :
    (∀ e ∈ optional key (unlessEmpty items value), P e) ↔ (items ≠ [] → P (key, value)) := by
  unfold unlessEmpty
  split_ifs with h <;> simp [optional, h]

theorem keys_append {κ ν : Type*} (l l' : List (κ × ν)) : keys (l ++ l') = keys l ++ keys l' :=
  List.map_append

theorem keys_optional (key : String) (value : Option Json) :
    (keys (optional key value)).Sublist [key] := by
  cases value with
  | none => exact List.nil_sublist _
  | some v => exact List.Sublist.refl _

/-! ## Distinct keys -/

theorem distinct_object {members : List (String × Json)} (names : List String)
    (hnames : names.Nodup) (hkeys : (keys members).Sublist names)
    (hvalues : ∀ e ∈ members, e.2.DistinctKeys) : (Json.object members).DistinctKeys :=
  .object members (hnames.sublist hkeys) hvalues

@[simp] theorem distinct_string (s : String) : (Json.string s).DistinctKeys := .string s trivial

@[simp] theorem distinct_number (n : Number) : (Json.number n).DistinctKeys := .number n trivial

@[simp] theorem distinct_bool (b : Bool) : (Json.bool b).DistinctKeys := .bool b trivial

@[simp] theorem distinct_decision (d : Policy.Decision) : (decisionJson d).DistinctKeys :=
  distinct_string _

@[simp] theorem distinct_stringOrNull (o : Option String) : (stringOrNull o).DistinctKeys := by
  cases o with
  | none => exact .null trivial
  | some s => exact distinct_string s

@[simp] theorem distinct_array {α : Type} (f : α → Json) (items : List α)
    (h : ∀ a ∈ items, (f a).DistinctKeys) : (Json.array (items.map f)).DistinctKeys := by
  refine .array _ trivial fun v hv => ?_
  obtain ⟨a, ha, rfl⟩ := List.mem_map.mp hv
  exact h a ha

theorem RbResult.toJson_distinct (r : RbResult) : r.toJson.DistinctKeys := by
  refine distinct_object _ (by decide) (List.Sublist.refl
    ["rb_id", "decision", "reason", "inputs_used", "duration_nanos"]) ?_
  simp [strings]

theorem PolicyTraceEntry.toJson_distinct (e : PolicyTraceEntry) : e.toJson.DistinctKeys := by
  refine distinct_object _ (by decide) (List.Sublist.refl
    ["level", "policy_id", "result", "reason", "rb_results", "duration_ms"]) ?_
  simp [RbResult.toJson_distinct]

theorem StageExecution.toJson_distinct (s : StageExecution) : s.toJson.DistinctKeys := by
  refine distinct_object ["stage", "timestamp", "input_cid", "output_cid", "fuel_used",
    "policy_trace", "vm_sig", "vm_sig_payload_cid", "auth_token", "duration_ms"] (by decide) ?_ ?_
  · simp only [keys_append]
    exact (((((List.Sublist.refl ["stage", "timestamp", "input_cid", "output_cid"]).append
      (keys_optional _ _)).append (keys_optional _ _)).append (keys_optional _ _)).append
      (keys_optional _ _)).append (List.Sublist.refl ["auth_token", "duration_ms"])
  · simp only [List.forall_mem_append, List.forall_mem_cons, forall_mem_optional_map,
      forall_mem_optional_unlessEmpty]
    simp [PolicyTraceEntry.toJson_distinct]

theorem Labels.toJson_distinct (l : Labels) : l.toJson.DistinctKeys := by
  refine distinct_object (keys l.entries) l.ascending.distinctKeys ?_ ?_
  · simp [keys, Function.comp_def]
  · simp only [List.forall_mem_map, distinct_string, implies_true]

theorem BuildMeta.toJson_distinct (b : BuildMeta) : b.toJson.DistinctKeys := by
  refine distinct_object ["rustc", "os", "arch", "profile", "git_commit", "git_dirty"]
    (by decide) ?_ ?_
  · simp only [keys_append]
    exact ((List.Sublist.refl ["rustc", "os", "arch", "profile"]).append
      (keys_optional _ _)).append (keys_optional _ _)
  · simp only [List.forall_mem_append, List.forall_mem_cons, forall_mem_optional_map]
    simp

theorem RuntimeInfo.toJson_distinct (rt : RuntimeInfo) : rt.toJson.DistinctKeys := by
  refine distinct_object ["binary_hash", "runtime_hash", "version", "build", "env", "certs"]
    (by decide) ?_ ?_
  · simp only [keys_append]
    exact ((((List.Sublist.refl ["binary_hash"]).append (keys_optional _ _)).append
      (List.Sublist.refl ["version", "build"])).append (keys_optional _ _)).append
      (keys_optional _ _)
  · simp only [List.forall_mem_append, List.forall_mem_cons, forall_mem_optional_unlessEmpty]
    simp [BuildMeta.toJson_distinct, Labels.toJson_distinct]

theorem UnifiedReceipt.toJson_distinct (r : UnifiedReceipt) : r.toJson.DistinctKeys := by
  refine distinct_object ["@type", "@id", "@ver", "@world", "v", "t", "did", "subject_did", "kid",
    "nonce", "stages", "decision", "effects", "prev_receipt_cid", "receipt_cid", "sig",
    "knock_cid", "rt"] (by decide) ?_ ?_
  · simp only [keys_append]
    exact ((((((List.Sublist.refl ["@type", "@id", "@ver", "@world", "v", "t", "did"]).append
      (keys_optional _ _)).append
      (List.Sublist.refl ["kid", "nonce", "stages", "decision", "effects"])).append
      (keys_optional _ _)).append (List.Sublist.refl ["receipt_cid", "sig"])).append
      (keys_optional _ _)).append (keys_optional _ _)
  · simp only [List.forall_mem_append, List.forall_mem_cons, forall_mem_optional_map]
    simp [StageExecution.toJson_distinct, RuntimeInfo.toJson_distinct, r.effects_distinct]

/-! ## Clean text -/

/-- A clean token does not change whether a stage can be encoded. -/
theorem StageExecution.rho_authToken {t : Nrf.Text} {s : StageExecution} {token : String}
    (htoken : t.Clean token) (h : Rho t s.toJson) :
    Rho t { s with authToken := token }.toJson := by
  simp only [Rho, StageExecution.toJson, Json.everywhere_object, List.forall_mem_append,
    List.forall_mem_cons, Json.everywhere_string] at h ⊢
  exact ⟨h.1, h.2.1, htoken, h.2.2.2⟩

/-- Whether a receipt can be encoded is decided stage by stage. -/
theorem UnifiedReceipt.rho_toJson {t : Nrf.Text} (r : UnifiedReceipt) :
    Rho t r.toJson ↔
      Rho t { r with stages := [] }.toJson ∧ ∀ s ∈ r.stages, Rho t s.toJson := by
  simp only [Rho, UnifiedReceipt.toJson, Json.everywhere_object, List.forall_mem_append,
    List.forall_mem_cons]
  constructor
  · rintro ⟨hkeys, ⟨⟨⟨⟨⟨hhead, ⟨hkid, hnonce, hstages, htail⟩⟩, hprev⟩, hcid⟩, hknock⟩, hrt⟩⟩
    have hstages := (Json.everywhere_array.mp hstages).2
    refine ⟨⟨hkeys, ⟨⟨⟨⟨⟨hhead, ⟨hkid, hnonce, .array [] trivial (by simp), htail⟩⟩, hprev⟩, hcid⟩,
      hknock⟩, hrt⟩⟩, ?_⟩
    exact fun s hs => hstages _ (List.mem_map_of_mem hs)
  · rintro ⟨⟨hkeys, ⟨⟨⟨⟨⟨hhead, ⟨hkid, hnonce, -, htail⟩⟩, hprev⟩, hcid⟩, hknock⟩, hrt⟩⟩, hstages⟩
    refine ⟨hkeys, ⟨⟨⟨⟨⟨hhead, ⟨hkid, hnonce, .array _ trivial ?_, htail⟩⟩, hprev⟩, hcid⟩, hknock⟩,
      hrt⟩⟩
    exact List.forall_mem_map.mpr hstages

end Ubl.Receipt
