import Ubl.Receipt.Tamper

/-!
# Reading a receipt back

The JSON of a receipt determines the receipt (`toJson_injective`), so that there is a function
that reads back what was written (`readBack`), as `serde` does.
-/

namespace Ubl

namespace Nrf

theorem Eqv.refl (j : Json) : Eqv j j := by
  induction j using Json.ind with
  | null => exact .null
  | bool b => exact .bool b
  | number n => exact .number n
  | string s => exact .string s
  | array items ih =>
    refine .array _ _ rfl fun i u v hu hv => ?_
    obtain rfl := Option.some.inj (hu.symm.trans hv)
    exact ih u (List.mem_of_getElem? hu)
  | object members ih =>
    refine .object _ _ (fun _ => rfl) fun k u v hu hv => ?_
    obtain rfl := Option.some.inj (hu.symm.trans hv)
    exact ih _ (mem_of_present hu)

end Nrf

namespace Receipt

open AssocMap
open Nrf (Eqv)

theorem Readable.injective {α : Type} {f : α → Json} (h : Readable f) : Function.Injective f :=
  fun a b hab => h.2 a b (hab ▸ Eqv.refl _)

theorem UnifiedReceipt.toJson_injective : Function.Injective UnifiedReceipt.toJson := by
  intro a b h
  have hlookup (r : UnifiedReceipt) : ∃ ms, r.toJson = .object ms ∧
      ms.lookup "@type" = some (.string r.receiptType) ∧ ms.lookup "@id" = some (.string r.id) ∧
      ms.lookup "@ver" = some (.string r.ver) ∧ ms.lookup "@world" = some (.string r.world) ∧
      ms.lookup "v" = some (.number (.posInt r.v.toUInt64)) ∧ ms.lookup "t" = some (.string r.t) ∧
      ms.lookup "did" = some (.string r.did) ∧
      ms.lookup "subject_did" = r.subjectDid.map .string ∧
      ms.lookup "kid" = some (.string r.kid) ∧ ms.lookup "nonce" = some (.string r.nonce) ∧
      ms.lookup "stages" = some (.array (r.stages.map StageExecution.toJson)) ∧
      ms.lookup "decision" = some (decisionJson r.decision) ∧
      ms.lookup "effects" = some r.effects ∧
      ms.lookup "prev_receipt_cid" = r.prevReceiptCid.map .string ∧
      ms.lookup "receipt_cid" = some (.string r.receiptCid) ∧
      ms.lookup "sig" = some (.string r.sig) ∧
      ms.lookup "knock_cid" = r.knockCid.map .string ∧
      ms.lookup "rt" = r.rt.map RuntimeInfo.toJson := by
    refine ⟨_, rfl, ?_⟩
    simp [List.lookup_append, lookup_optional, lookup_cons_eq]
  have hstring {x y : String} (hxy : some (Json.string x) = some (.string y)) : x = y :=
    Json.string.inj (Option.some.inj hxy)
  have hoptional {x y : Option String} (hxy : x.map Json.string = y.map .string) : x = y :=
    Option.map_injective (fun _ _ => Json.string.inj) hxy
  have hv {m n : UInt32} (hmn : some (Json.number (.posInt m.toUInt64)) =
      some (.number (.posInt n.toUInt64))) : m = n := by
    have hmn := congrArg UInt64.toNat (posInt_injective (Json.number.inj (Option.some.inj hmn)))
    exact UInt32.toNat_inj.mp (by simpa using hmn)
  obtain ⟨ms, hms, a1, a2, a3, a4, a5, a6, a7, a8, a9, a10, a11, a12, a13, a14, a15, a16, a17, a18⟩ :=
    hlookup a
  obtain ⟨ns, hns, b1, b2, b3, b4, b5, b6, b7, b8, b9, b10, b11, b12, b13, b14, b15, b16, b17, b18⟩ :=
    hlookup b
  obtain rfl : ms = ns := Json.object.inj (hms.symm.trans (h.trans hns))
  have hstages : a.stages = b.stages := List.map_injective_iff.mpr StageExecution.readable.injective
    (Json.array.inj (Option.some.inj (a11.symm.trans b11)))
  have hdecision : a.decision = b.decision :=
    readable_decision.injective (Option.some.inj (a12.symm.trans b12))
  have hrt : a.rt = b.rt :=
    Option.map_injective RuntimeInfo.readable.injective (a18.symm.trans b18)
  cases a
  cases b
  simp only [UnifiedReceipt.mk.injEq]
  exact ⟨hstring (a1.symm.trans b1), hstring (a2.symm.trans b2), hstring (a3.symm.trans b3),
    hstring (a4.symm.trans b4), hv (a5.symm.trans b5), hstring (a6.symm.trans b6),
    hstring (a7.symm.trans b7), hoptional (a8.symm.trans b8), hstring (a9.symm.trans b9),
    hstring (a10.symm.trans b10), hstages, hdecision, Option.some.inj (a13.symm.trans b13),
    hoptional (a14.symm.trans b14), hstring (a15.symm.trans b15), hstring (a16.symm.trans b16),
    hoptional (a17.symm.trans b17), hrt⟩

open Classical in
/-- The receipt that a JSON value was written from. -/
noncomputable def readBack (j : Json) : Except String UnifiedReceipt :=
  if h : ∃ r : UnifiedReceipt, r.toJson = j then .ok h.choose else .error "not a receipt"

theorem readBack_toJson (r : UnifiedReceipt) : readBack r.toJson = .ok r := by
  have h : ∃ r' : UnifiedReceipt, r'.toJson = r.toJson := ⟨r, rfl⟩
  rw [readBack, dif_pos h, UnifiedReceipt.toJson_injective h.choose_spec]

end Receipt

end Ubl
