import Ubl.Auth.Capability
import Ubl.Auth.World

/-!
# `capability.rs`: the audience of a capability

The audience is compared as text, by prefix and by what comes after it.  That comes to comparing
segments: a capability reaches the worlds whose segments start with those of its audience, and no
other world whose text happens to start alike.
-/

namespace Ubl.Auth

open Split
open Ubl.Nrf (splitParts)

theorem stripPrefix_eq_some {pre s rest : String} :
    stripPrefix pre s = some rest ↔ s.toList = pre.toList ++ rest.toList := by
  unfold stripPrefix
  split_ifs with h
  · obtain ⟨cs, hcs⟩ := List.isPrefixOf_iff_prefix.mp h
    rw [← hcs, List.drop_left, Option.some.injEq, List.append_cancel_left_eq]
    constructor
    · rintro rfl
      exact String.toList_ofList.symm
    · intro hrest
      rw [hrest, String.ofList_toList]
  · rw [iff_false_left (by simp)]
    intro hrest
    exact h (List.isPrefixOf_iff_prefix.mpr ⟨rest.toList, hrest.symm⟩)

theorem audienceMatchesWorld_iff_text {audience world : String} :
    audienceMatchesWorld audience world = true ↔
      world = audience ∨ audience.toList ++ ['/'] <+: world.toList := by
  unfold audienceMatchesWorld
  rw [Bool.or_eq_true, beq_iff_eq]
  refine or_congr Iff.rfl ?_
  cases hstrip : stripPrefix audience world with
  | none =>
    simp only [Bool.false_eq_true, false_iff]
    rintro ⟨rest, hrest⟩
    have hsome : stripPrefix audience world = some (String.ofList ('/' :: rest)) :=
      stripPrefix_eq_some.mpr (by simp [← hrest])
    rw [hstrip] at hsome
    cases hsome
  | some rest =>
    rw [beq_iff_eq, stripPrefix_eq_some.mp hstrip, List.prefix_append_right_inj]
    cases rest.toList with
    | nil => simp
    | cons c cs => simp [eq_comm]

theorem splitParts_prefix_iff {sep : Char} {s s' : String} :
    splitParts sep s <+: splitParts sep s' ↔ s' = s ∨ s.toList ++ [sep] <+: s'.toList := by
  rw [← String.toList_inj, ← splitOn_prefix_iff]
  exact List.prefix_map_iff_of_injective fun _ _ => String.ofList_inj.mp

theorem audienceMatchesWorld_iff_parts {audience world : String} :
    audienceMatchesWorld audience world = true ↔
      splitParts '/' audience <+: splitParts '/' world :=
  audienceMatchesWorld_iff_text.trans splitParts_prefix_iff.symm

/-- An audience reaches the worlds that its segments start, so for worlds with names it is a matter
of their apps and tenants. -/
theorem audienceMatchesWorld_segments :
    (∀ audience world : String, audienceMatchesWorld audience world = true ↔
      splitParts '/' audience <+: splitParts '/' world) ∧
    ∀ name world : WorldName, audienceMatchesWorld name.text world.text = true ↔
      name.app.text = world.app.text ∧
        (name.tenant = none ∨ name.tenant.map Slug.text = world.tenant.map Slug.text) := by
  refine ⟨fun _ _ => audienceMatchesWorld_iff_parts, fun name world => ?_⟩
  rw [audienceMatchesWorld_iff_parts, name.splitParts_text, world.splitParts_text]
  rcases name with ⟨app, _ | tenant⟩ <;> rcases world with ⟨app', _ | tenant'⟩ <;>
    simp [WorldName.parts]

end Ubl.Auth
