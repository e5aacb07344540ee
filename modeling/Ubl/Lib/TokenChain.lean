import Mathlib

/-!
# Chains of keyed tokens

A log in which each entry carries a token computed, under a secret key, from the entries
before it.  `Scheme` is what such a log is made of; `ChainedFrom` says that behind a given
prefix every token is the expected one under one of the keys `K`; `resignFrom` writes all
tokens anew under one key.

    ChainedFrom pre (l ++ l') ↔ ChainedFrom pre l ∧ ChainedFrom (pre ++ l) l'
    k ∈ K → ChainedFrom pre (resignFrom k pre l)
-/

namespace TokenChain

/-- Entries `σ`, tokens `τ`, keys `κ`. -/
structure Scheme (σ τ κ : Type*) where
  token : σ → τ
  /-- The entry with its token replaced. -/
  sign : τ → σ → σ
  /-- The token of an entry behind a prefix, under a key. -/
  expected : List σ → κ → σ → τ
  token_sign : ∀ t s, token (sign t s) = t
  expected_sign : ∀ pre k t s, expected pre k (sign t s) = expected pre k s

variable {σ τ κ : Type*} (S : Scheme σ τ κ)

/-- Behind `pre`, every token is the expected one under one of the keys. -/
def ChainedFrom (K : Set κ) (pre : List σ) : List σ → Prop
  | [] => True
  | s :: l => (∃ k ∈ K, S.token s = S.expected pre k s) ∧ ChainedFrom K (pre ++ [s]) l

/-- The entries with all tokens written anew under one key. -/
def resignFrom (k : κ) (pre : List σ) : List σ → List σ
  | [] => []
  | s :: l =>
    S.sign (S.expected pre k s) s :: resignFrom k (pre ++ [S.sign (S.expected pre k s) s]) l

variable {S}

theorem chainedFrom_append {K : Set κ} {pre l l' : List σ} :
    ChainedFrom S K pre (l ++ l') ↔ ChainedFrom S K pre l ∧ ChainedFrom S K (pre ++ l) l' := by
  induction l generalizing pre with
  | nil => simp [ChainedFrom]
  | cons s l ih =>
    rw [List.cons_append, ChainedFrom, ChainedFrom, ih, List.append_assoc,
      List.singleton_append, and_assoc]

theorem chainedFrom_concat {K : Set κ} {l : List σ} {s : σ} :
    ChainedFrom S K [] (l ++ [s]) ↔
      ChainedFrom S K [] l ∧ ∃ k ∈ K, S.token s = S.expected l k s := by
  rw [chainedFrom_append]
  simp [ChainedFrom]

theorem ChainedFrom.mono {K K' : Set κ} (hK : K ⊆ K') {pre l : List σ}
    (h : ChainedFrom S K pre l) : ChainedFrom S K' pre l := by
  induction l generalizing pre with
  | nil => trivial
  | cons s l ih =>
    obtain ⟨⟨k, hk, htoken⟩, hrest⟩ := h
    exact ⟨⟨k, hK hk, htoken⟩, ih hrest⟩

theorem chainedFrom_resignFrom {K : Set κ} {k : κ} (hk : k ∈ K) (pre l : List σ) :
    ChainedFrom S K pre (resignFrom S k pre l) := by
  induction l generalizing pre with
  | nil => trivial
  | cons s l ih =>
    refine ⟨⟨k, hk, ?_⟩, ih _⟩
    rw [S.token_sign, S.expected_sign]

theorem resignFrom_ne_nil (k : κ) (pre : List σ) {l : List σ} (h : l ≠ []) :
    resignFrom S k pre l ≠ [] := by
  cases l with
  | nil => exact absurd rfl h
  | cons s l => simp [resignFrom]

end TokenChain
