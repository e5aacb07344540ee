import Ubl.Auth.Onboarding
import Ubl.Lib.Rfc3339

/-!
# Times compared as texts

`is_expired` compares the text of a token with that of a time, and the store of chips the text a chip
was created at with those of a query.  For RFC 3339 this follows the instants where the first format
is sorted with the second (`Rfc3339.Format.Sorted`), and for no other two formats:

    (∀ a b token, token.expiresAt = a.text → (token.isExpired b.text ↔ a.instant < b.instant)) ↔
      f.Sorted g                                          (times_follow_instants_iff)

A token that expires at `2026-01-01T09:00:00+09:00` has not expired by `2026-01-01T01:00:00+00:00`,
an hour after it did.
-/

namespace Ubl.Auth

open Chipstore Rfc3339
open ChipStore (matchesQuery)

variable {f g : Format}

/-- The expiry of a token in one format, and the time in another. -/
def ExpiryFollows (f g : Format) : Prop :=
  ∀ (a : Stamp f) (b : Stamp g) (token : SessionToken), token.expiresAt = a.text →
    (token.isExpired b.text ↔ a.instant < b.instant)

/-- What was created after `a` is what is kept of the rest of the query. -/
def AfterFollows (f g : Format) : Prop :=
  ∀ (a : Stamp f) (b : Stamp g) (query : ChipQuery) (chip : StoredChip),
    query.createdAfter = some a.text → chip.createdAt = b.text →
      (matchesQuery query chip ↔
        matchesQuery { query with createdAfter := none } chip ∧ a.instant < b.instant)

/-- What was created before `b` is what is kept of the rest of the query. -/
def BeforeFollows (f g : Format) : Prop :=
  ∀ (a : Stamp f) (b : Stamp g) (query : ChipQuery) (chip : StoredChip),
    query.createdBefore = some b.text → chip.createdAt = a.text →
      (matchesQuery query chip ↔
        matchesQuery { query with createdBefore := none } chip ∧ a.instant < b.instant)

theorem matchesQuery_after {query : ChipQuery} {chip : StoredChip} {after : String}
    (h : query.createdAfter = some after) : matchesQuery query chip ↔
      matchesQuery { query with createdAfter := none } chip ∧ after < chip.createdAt := by
  simp only [matchesQuery, h, Option.all_some, Option.all_none, Bool.and_true, Bool.and_eq_true,
    decide_eq_true_iff]
  tauto

theorem matchesQuery_before {query : ChipQuery} {chip : StoredChip} {before : String}
    (h : query.createdBefore = some before) : matchesQuery query chip ↔
      matchesQuery { query with createdBefore := none } chip ∧ chip.createdAt < before := by
  simp only [matchesQuery, h, Option.all_some, Option.all_none, Bool.and_true, Bool.and_eq_true,
    decide_eq_true_iff]
  tauto

/-- A query for nothing but the time. -/
def timeQuery (createdAfter createdBefore : Option String) : ChipQuery where
  chipType := none
  tags := []
  createdAfter := createdAfter
  createdBefore := createdBefore
  executorDid := none
  limit := none
  offset := none

def chipCreatedAt (createdAt : String) : StoredChip where
  cid := "b3:0a"
  chipType := "ubl/document"
  chipData := .object []
  receiptCid := "b3:0b"
  createdAt := createdAt
  executionMetadata := ⟨"0.1.0", 5, 11, [], "did:key:z6Mk", true⟩
  tags := []
  relatedChips := []

theorem expiryFollows_iff : ExpiryFollows f g ↔ f.Sorted g := by
  rw [← agree_iff]
  constructor
  · intro h a b
    rw [← h a b ⟨"b3:0a", ["read"], a.text, "did:key:z6Mk#ed25519"⟩ rfl, SessionToken.isExpired,
      decide_eq_true_iff]
  · intro h a b token hexpires
    rw [SessionToken.isExpired, decide_eq_true_iff, hexpires, h a b]

theorem afterFollows_iff : AfterFollows f g ↔ f.Sorted g := by
  rw [← agree_iff]
  constructor
  · intro h a b
    have hiff := h a b (timeQuery (some a.text) none) (chipCreatedAt b.text) rfl rfl
    rw [matchesQuery_after rfl, and_congr_right_iff] at hiff
    exact hiff rfl
  · intro h a b query chip hafter hcreated
    rw [matchesQuery_after hafter, hcreated, h a b]

theorem beforeFollows_iff : BeforeFollows f g ↔ f.Sorted g := by
  rw [← agree_iff]
  constructor
  · intro h a b
    have hiff := h a b (timeQuery none (some b.text)) (chipCreatedAt a.text) rfl rfl
    rw [matchesQuery_before rfl, and_congr_right_iff] at hiff
    exact hiff rfl
  · intro h a b query chip hbefore hcreated
    rw [matchesQuery_before hbefore, hcreated, h a b]

/-- The comparisons follow the instants of all times of two formats just when the first format is
sorted with the second. -/
theorem times_follow_instants_iff (f g : Format) :
    (ExpiryFollows f g ↔ f.Sorted g) ∧ (AfterFollows f g ↔ f.Sorted g) ∧
      (BeforeFollows f g ↔ f.Sorted g) :=
  ⟨expiryFollows_iff, afterFollows_iff, beforeFollows_iff⟩

/-- Nine in the morning in Tokyo. -/
def sampleExpiry : Stamp ⟨.upper, 0, .numeric false 9 0⟩ :=
  ⟨newYear, 9, 0, 0, 0, by decide, by decide, by decide, by decide, by decide⟩

/-- An hour later. -/
def sampleNow : Stamp ⟨.upper, 0, .numeric false 0 0⟩ :=
  ⟨newYear, 1, 0, 0, 0, by decide, by decide, by decide, by decide, by decide⟩

theorem expired_token_passes :
    sampleExpiry.text = "2026-01-01T09:00:00+09:00" ∧
      sampleNow.text = "2026-01-01T01:00:00+00:00" ∧ ¬ ∀ f g : Format, ExpiryFollows f g := by
  have hexpiry : sampleExpiry.text = "2026-01-01T09:00:00+09:00" := by decide +kernel
  have hnow : sampleNow.text = "2026-01-01T01:00:00+00:00" := by decide +kernel
  refine ⟨hexpiry, hnow, fun h => ?_⟩
  have hinstant : sampleExpiry.instant < sampleNow.instant :=
    instant_lt_iff.mpr (.inl (by decide +kernel))
  have hexpired := (h _ _ sampleExpiry sampleNow
    ⟨"b3:0a", ["read"], sampleExpiry.text, "did:key:z6Mk#ed25519"⟩ rfl).mpr hinstant
  rw [SessionToken.isExpired, hexpiry, hnow] at hexpired
  exact absurd hexpired (by decide +kernel)

end Ubl.Auth
