import Ubl.Lib.Layers
import Ubl.Pipeline.Loader

/-!
# The ancestors of a request

`resolve_ancestry` walks up generation by generation, and its one set of visited chips is to find
cycles.  It takes every chip it meets a second time for a cycle, a shared ancestor or genesis
included: on a graph without cycles it resolves the ancestors exactly when no chip is named twice
(`resolvesAncestry_iff`).  Where it does, the generations in reverse are an order in which every
chip comes after its ancestors.
-/

namespace Ubl.Pipeline

open Layers Fueled ExceptLemmas

namespace PolicyLoader

variable (loader : PolicyLoader)

/-- The parents of a chip; genesis is the root of the graph. -/
def parentsOf (cid : String) : List String :=
  if loader.isGenesisChip cid then []
  else match loader.storage.getChip cid with
    | .ok (some chip) => chip.parents
    | _ => []

/-- No query for a chip fails. -/
def Answers : Prop := ∀ cid e, loader.storage.getChip cid ≠ .error e

/-- The CIDs of which there is a chip. -/
def stored : Set String := {cid | ∃ chip, loader.storage.getChip cid = .ok (some chip)}

/-- The walk comes to an end; it reports a cycle only if there is one, and if there is none it
returns every ancestor but genesis once, after all of its own. -/
def ResolvesAncestry (chipRequest : PolicyChipRequest) : Prop :=
  ∃ r : Except PolicyError (List String),
    Settles (fun fuel => loader.resolveAncestry fuel chipRequest) (r.mapError some) ∧
      (∀ cid, r = .error (.circularDependency cid) →
        Cyclic loader.parentsOf chipRequest.parents) ∧
      (¬ Cyclic loader.parentsOf chipRequest.parents → ∃ ancestry, r = .ok ancestry ∧
        ancestry.Nodup ∧
        (∀ cid, cid ∈ ancestry ↔ Reached loader.parentsOf chipRequest.parents cid ∧
          loader.isGenesisChip cid = false) ∧
        ∀ x ∈ ancestry, ∀ y ∈ ancestry, Above loader.parentsOf y x → [y, x].Sublist ancestry)

variable {loader} (hanswers : loader.Answers)

/-! ## One generation -/

section Generation

variable {walk : AncestryWalk} {parents : List String}

include hanswers

theorem visitParents_cons {parentCid : String} (hnew : parentCid ∉ walk.visited) :
    loader.visitParents walk (parentCid :: parents) =
      loader.visitParents ⟨insert parentCid walk.visited,
        walk.ancestry ++ [parentCid].filter (!loader.isGenesisChip ·),
        walk.nextParents ++ loader.parentsOf parentCid⟩ parents := by
  rw [visitParents, if_neg hnew, parentsOf]
  by_cases hgenesis : loader.isGenesisChip parentCid
  · simp [hgenesis]
  · cases hget : loader.storage.getChip parentCid with
    | error e => exact absurd hget (hanswers parentCid e)
    | ok chip => cases chip <;> simp [hgenesis]

theorem visitParents_ok (hnodup : parents.Nodup) (hfresh : ∀ cid ∈ parents, cid ∉ walk.visited) :
    loader.visitParents walk parents = .ok ⟨walk.visited ∪ parents.toFinset,
      walk.ancestry ++ parents.filter (!loader.isGenesisChip ·),
      walk.nextParents ++ parents.flatMap loader.parentsOf⟩ := by
  induction parents generalizing walk with
  | nil => simp [visitParents]
  | cons parentCid parents ih =>
    obtain ⟨hnot, hnodup⟩ := List.nodup_cons.mp hnodup
    obtain ⟨hnew, hfresh⟩ := List.forall_mem_cons.mp hfresh
    have hrest : ∀ cid ∈ parents, cid ∉ insert parentCid walk.visited := by
      intro cid hcid hin
      obtain rfl | hin := Finset.mem_insert.mp hin
      · exact hnot hcid
      · exact hfresh cid hcid hin
    have hvisited : insert parentCid walk.visited ∪ parents.toFinset =
        walk.visited ∪ (parentCid :: parents).toFinset := by
      ext cid
      simp only [Finset.mem_union, Finset.mem_insert, List.mem_toFinset, List.mem_cons]
      tauto
    have hfilter : [parentCid].filter (!loader.isGenesisChip ·) ++
        parents.filter (!loader.isGenesisChip ·) =
          (parentCid :: parents).filter (!loader.isGenesisChip ·) :=
      (List.filter_append [parentCid] parents).symm
    rw [visitParents_cons hanswers hnew, ih hnodup hrest, hvisited, List.append_assoc, hfilter,
      List.append_assoc, List.flatMap_cons]

/-- A chip met before, in this generation or an earlier one. -/
theorem visitParents_circular
    (h : ¬ (parents.Nodup ∧ ∀ cid ∈ parents, cid ∉ walk.visited)) :
    ∃ cid, loader.visitParents walk parents = .error (.circularDependency cid) := by
  induction parents generalizing walk with
  | nil => exact absurd ⟨List.nodup_nil, by simp⟩ h
  | cons parentCid parents ih =>
    by_cases hseen : parentCid ∈ walk.visited
    · exact ⟨parentCid, by rw [visitParents, if_pos hseen]⟩
    · rw [visitParents_cons hanswers hseen]
      refine ih fun ⟨hnodup, hfresh⟩ => h ⟨List.nodup_cons.mpr ⟨fun hin => ?_, hnodup⟩, ?_⟩
      · exact hfresh parentCid hin (Finset.mem_insert_self _ _)
      · refine List.forall_mem_cons.mpr ⟨hseen, fun cid hcid hin => ?_⟩
        exact hfresh cid hcid (Finset.mem_insert_of_mem hin)

end Generation

/-! ## The walk -/

theorem ancestryLoop_succ {fuel : Nat} {visited : Finset String}
    {ancestry parents : List String} :
    loader.ancestryLoop (fuel + 1) visited ancestry parents =
      ((loader.visitParents ⟨visited, ancestry, []⟩ parents).mapError some >>= fun walk =>
        loader.ancestryLoop fuel walk.visited walk.ancestry walk.nextParents) := by
  cases parents with
  | nil => exact ancestryLoop_nil.symm
  | cons parentCid parents => rfl

section Walk

variable (loader) (roots : List String)

/-- Where the next generation starts, with `n` generations behind it. -/
def walkAfter (n : Nat) : AncestryWalk :=
  ⟨(upTo loader.parentsOf roots n).toFinset,
    (upTo loader.parentsOf roots n).filter (!loader.isGenesisChip ·), []⟩

/-- The loop from there on. -/
def loopAfter (n fuel : Nat) : Except (Option PolicyError) (List String) :=
  loader.ancestryLoop fuel (loader.walkAfter roots n).visited (loader.walkAfter roots n).ancestry
    (level loader.parentsOf roots n)

variable {loader roots} {n m : Nat}

theorem visitParents_level (hanswers : loader.Answers)
    (hnodup : (upTo loader.parentsOf roots (n + 1)).Nodup) :
    loader.visitParents (loader.walkAfter roots n) (level loader.parentsOf roots n) =
      .ok { loader.walkAfter roots (n + 1) with
        nextParents := level loader.parentsOf roots (n + 1) } := by
  obtain ⟨-, hlevel, hapart⟩ := List.nodup_append'.mp hnodup
  have hfresh : ∀ cid ∈ level loader.parentsOf roots n,
      cid ∉ (loader.walkAfter roots n).visited :=
    fun cid hcid hin => hapart (List.mem_toFinset.mp hin) hcid
  rw [visitParents_ok hanswers hlevel hfresh, walkAfter, walkAfter, upTo, List.toFinset_append,
    List.filter_append, level, List.nil_append]

/-- The loop goes on as long as it meets no chip twice. -/
theorem loopAfter_succ (hanswers : loader.Answers)
    (hnodup : (upTo loader.parentsOf roots (n + 1)).Nodup) (fuel : Nat) :
    loader.loopAfter roots n (fuel + 1) = loader.loopAfter roots (n + 1) fuel := by
  have hvisit : loader.visitParents ⟨(loader.walkAfter roots n).visited,
      (loader.walkAfter roots n).ancestry, []⟩ (level loader.parentsOf roots n) = _ :=
    visitParents_level hanswers hnodup
  rw [loopAfter, ancestryLoop_succ, hvisit]
  rfl

/-- All generations are reversed at the end. -/
theorem loopAfter_ok (hanswers : loader.Answers) (h : NamedOnce loader.parentsOf roots)
    (hnil : level loader.parentsOf roots (n + m) = []) {fuel : Nat} (hfuel : m ≤ fuel) :
    loader.loopAfter roots n fuel =
      .ok ((upTo loader.parentsOf roots (n + m)).filter (!loader.isGenesisChip ·)).reverse := by
  induction m generalizing n fuel with
  | zero =>
    rw [Nat.add_zero] at hnil
    rw [loopAfter, hnil, ancestryLoop_nil]
    rfl
  | succ m ih =>
    obtain ⟨fuel, rfl⟩ : ∃ k, fuel = k + 1 := ⟨fuel - 1, by omega⟩
    have hshift : n + (m + 1) = n + 1 + m := by omega
    rw [hshift] at hnil ⊢
    rw [loopAfter_succ hanswers (h.upTo_nodup (n + 1)), ih hnil (by omega)]

/-- The generation in which a chip comes back is the last. -/
theorem loopAfter_circular (hanswers : loader.Answers)
    (hnodup : (upTo loader.parentsOf roots n).Nodup)
    (hagain : ¬ (upTo loader.parentsOf roots (n + m)).Nodup) :
    ∃ cid, ∀ fuel, m ≤ fuel →
      loader.loopAfter roots n fuel = .error (some (.circularDependency cid)) := by
  induction m generalizing n with
  | zero => exact absurd hnodup hagain
  | succ m ih =>
    have hshift : n + (m + 1) = n + 1 + m := by omega
    rw [hshift] at hagain
    by_cases hnext : (upTo loader.parentsOf roots (n + 1)).Nodup
    · obtain ⟨cid, hcid⟩ := ih hnext hagain
      refine ⟨cid, fun fuel hfuel => ?_⟩
      obtain ⟨fuel, rfl⟩ : ∃ k, fuel = k + 1 := ⟨fuel - 1, by omega⟩
      rw [loopAfter_succ hanswers hnext, hcid fuel (by omega)]
    · have hrepeat : ¬ ((level loader.parentsOf roots n).Nodup ∧
          ∀ cid ∈ level loader.parentsOf roots n,
            cid ∉ (loader.walkAfter roots n).visited) := by
        rintro ⟨hlevel, hfresh⟩
        refine hnext (List.nodup_append'.mpr ⟨hnodup, hlevel, fun cid hin hcid => ?_⟩)
        exact hfresh cid hcid (List.mem_toFinset.mpr hin)
      obtain ⟨cid, hcid⟩ := visitParents_circular hanswers hrepeat
      refine ⟨cid, fun fuel hfuel => ?_⟩
      obtain ⟨fuel, rfl⟩ : ∃ k, fuel = k + 1 := ⟨fuel - 1, by omega⟩
      have hvisit : loader.visitParents ⟨(loader.walkAfter roots n).visited,
        (loader.walkAfter roots n).ancestry, []⟩ (level loader.parentsOf roots n) = _ := hcid
      rw [loopAfter, ancestryLoop_succ, hvisit]
      rfl

end Walk

theorem parentsOf_finite (hfinite : loader.stored.Finite) :
    {cid | loader.parentsOf cid ≠ []}.Finite := by
  refine hfinite.subset fun cid hcid => ?_
  by_contra hnone
  refine hcid ?_
  unfold parentsOf
  split_ifs
  · rfl
  · split
    · rename_i chip hget
      exact absurd ⟨chip, hget⟩ hnone
    · rfl

variable {chipRequest : PolicyChipRequest}

/-- On a graph that names no chip twice. -/
theorem resolveAncestry_ok (hanswers : loader.Answers) (hfinite : loader.stored.Finite)
    (h : NamedOnce loader.parentsOf chipRequest.parents) :
    ∃ ancestry, Settles (fun fuel => loader.resolveAncestry fuel chipRequest) (.ok ancestry) ∧
      ancestry.Nodup ∧
      (∀ cid, cid ∈ ancestry ↔ Reached loader.parentsOf chipRequest.parents cid ∧
        loader.isGenesisChip cid = false) ∧
      ∀ x ∈ ancestry, ∀ y ∈ ancestry, Above loader.parentsOf y x → [y, x].Sublist ancestry := by
  obtain ⟨n, hnil⟩ := exists_level_nil (parentsOf_finite hfinite) h
  have hmem (cid : String) : cid ∈ ((upTo loader.parentsOf chipRequest.parents n).filter
      (!loader.isGenesisChip ·)).reverse ↔ Reached loader.parentsOf chipRequest.parents cid ∧
        loader.isGenesisChip cid = false := by
    rw [List.mem_reverse, List.mem_filter, reached_iff_mem_upTo hnil, Bool.not_eq_true']
  refine ⟨((upTo loader.parentsOf chipRequest.parents n).filter
    (!loader.isGenesisChip ·)).reverse, ⟨n, fun fuel hfuel => ?_⟩, ?_, hmem, ?_⟩
  · have hloop := @loopAfter_ok loader chipRequest.parents 0 n hanswers h
      ((Nat.zero_add n).symm ▸ hnil) fuel hfuel
    rw [Nat.zero_add] at hloop
    exact hloop
  · exact List.nodup_reverse.mpr ((h.upTo_nodup n).filter _)
  · intro x hx y hy hyx
    obtain ⟨hreached, hxgenesis⟩ := (hmem x).mp hx
    obtain ⟨-, hygenesis⟩ := (hmem y).mp hy
    -- in the order of the walk `x` comes first, and both stay
    have hsub := (sublist_upTo hnil hreached hyx).filter (!loader.isGenesisChip ·)
    rw [List.filter_eq_self.mpr (by simp [hxgenesis, hygenesis])] at hsub
    exact hsub.reverse

/-- On any other graph. -/
theorem resolveAncestry_circular (hanswers : loader.Answers)
    (h : ¬ NamedOnce loader.parentsOf chipRequest.parents) :
    ∃ cid, Settles (fun fuel => loader.resolveAncestry fuel chipRequest)
      (.error (some (.circularDependency cid))) := by
  rw [namedOnce_iff, not_forall] at h
  obtain ⟨n, hn⟩ := h
  obtain ⟨cid, hcid⟩ := @loopAfter_circular loader chipRequest.parents 0 n hanswers List.nodup_nil
    (by rwa [Nat.zero_add])
  exact ⟨cid, n, hcid⟩

/-- The ancestors are resolved where there is a cycle to be reported, and where no chip, genesis
included, is named twice by the request and its ancestors. -/
theorem resolvesAncestry_iff (loader : PolicyLoader) (hanswers : loader.Answers)
    (hfinite : loader.stored.Finite) (chipRequest : PolicyChipRequest) :
    loader.ResolvesAncestry chipRequest ↔ Cyclic loader.parentsOf chipRequest.parents ∨
      NamedOnce loader.parentsOf chipRequest.parents := by
  by_cases h : NamedOnce loader.parentsOf chipRequest.parents
  · refine ⟨fun _ => .inr h, fun _ => ?_⟩
    obtain ⟨ancestry, hsettles, hresult⟩ := resolveAncestry_ok hanswers hfinite h
    exact ⟨.ok ancestry, hsettles, nofun, fun _ => ⟨ancestry, rfl, hresult⟩⟩
  · obtain ⟨cid, hcircular⟩ := resolveAncestry_circular hanswers h
    constructor
    · rintro ⟨r, hsettles, hcyclic, -⟩
      have hr := hsettles.unique hcircular
      cases r with
      | ok ancestry => cases hr
      | error e =>
        obtain rfl := Option.some.inj (Except.error.inj hr)
        exact .inl (hcyclic cid rfl)
    · rintro (hcyclic | hnamed)
      · exact ⟨.error (.circularDependency cid), hcircular, fun _ _ => hcyclic,
          fun hacyclic => absurd hcyclic hacyclic⟩
      · exact absurd hnamed h

end PolicyLoader

/-! ## Graphs in memory -/

open UblPipeline (sampleLoader)

theorem InMemoryPolicyStorage.answers (s : InMemoryPolicyStorage) :
    (sampleLoader s.storage).Answers := nofun

theorem InMemoryPolicyStorage.stored_finite (s : InMemoryPolicyStorage) :
    (sampleLoader s.storage).stored.Finite := by
  refine (AssocMap.keys s.chips).finite_toSet.subset ?_
  rintro cid ⟨chip, hchip⟩
  exact AssocMap.mem_keys_of_mem (AssocMap.mem_of_lookup (Except.ok.inj hchip))

def sampleChip (cid : String) (parents : List String) : ChipData :=
  ⟨cid, "ubl/app", .object [], parents⟩

def childOf (parents : List String) : PolicyChipRequest :=
  ⟨"ubl/user", .object [], parents, "create"⟩

/-- A tenant of an app of genesis. -/
def tenantGraph : InMemoryPolicyStorage :=
  (InMemoryPolicyStorage.new.addChip (sampleChip "b3:app" ["b3:genesis"])).addChip
    (sampleChip "b3:tenant" ["b3:app"])

/-- Two chips of one app. -/
def diamondGraph : InMemoryPolicyStorage :=
  ((InMemoryPolicyStorage.new.addChip (sampleChip "b3:top" [])).addChip
    (sampleChip "b3:left" ["b3:top"])).addChip (sampleChip "b3:right" ["b3:top"])

namespace PolicyLoader

theorem resolvesAncestry_iff_tenant :
    (sampleLoader tenantGraph.storage).ResolvesAncestry (childOf ["b3:tenant"]) := by
  refine (resolvesAncestry_iff (sampleLoader tenantGraph.storage) tenantGraph.answers
    tenantGraph.stored_finite (childOf ["b3:tenant"])).mpr (.inr ?_)
  have hnil : level (sampleLoader tenantGraph.storage).parentsOf ["b3:tenant"] 3 = [] := by decide
  exact namedOnce_of_level_nil hnil (by decide)

/-- The app comes up twice on its way, and there is no cycle. -/
theorem diamond_circular :
    Settles (fun fuel => (sampleLoader diamondGraph.storage).resolveAncestry fuel
        (childOf ["b3:left", "b3:right"])) (.error (some (.circularDependency "b3:top"))) ∧
      ¬ Cyclic (sampleLoader diamondGraph.storage).parentsOf ["b3:left", "b3:right"] ∧
      ¬ (sampleLoader diamondGraph.storage).ResolvesAncestry
        (childOf ["b3:left", "b3:right"]) := by
  have hsettles : Settles (fun fuel => (sampleLoader diamondGraph.storage).resolveAncestry fuel
      (childOf ["b3:left", "b3:right"])) (.error (some (.circularDependency "b3:top"))) := by
    refine ⟨2, fun fuel hle => ?_⟩
    obtain ⟨fuel, rfl⟩ := Nat.exists_eq_add_of_le' hle
    with_unfolding_all rfl
  have hnil : level (sampleLoader diamondGraph.storage).parentsOf ["b3:left", "b3:right"] 2 = [] := by
    decide
  have hacyclic := not_cyclic_of_level_nil hnil
  refine ⟨hsettles, hacyclic, ?_⟩
  rintro ⟨r, hr, hcyclic, -⟩
  have heq := hr.unique hsettles
  cases r with
  | ok ancestry => cases heq
  | error e =>
    obtain rfl := Option.some.inj (Except.error.inj heq)
    exact hacyclic (hcyclic _ rfl)

end PolicyLoader

end Ubl.Pipeline
