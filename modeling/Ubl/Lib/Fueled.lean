import Mathlib.Order.Lattice
import Mathlib.Data.Nat.Basic

/-!
# Computations with fuel

A loop that may go on for ever is a function `X` of the fuel it is given, and says `spent` when
that is used up.  `Settles X r`: with enough fuel the computation comes to `r`.  `Never spent X`:
no fuel is enough.

    Settles X (.ok a) → Settles (F · a) r → Settles (fun n => X n >>= (F n ·)) r    (Settles.bind)

`Fate spent X o` puts the two together: `o` is the outcome, or `none` for a computation that
never ends.
-/

namespace Fueled

variable {ε α β : Type} {spent : ε} {X Y : Nat → Except ε α}

/-- With enough fuel the computation comes to `r`. -/
def Settles (X : Nat → Except ε α) (r : Except ε α) : Prop := ∃ n, ∀ fuel, n ≤ fuel → X fuel = r

/-- No fuel is enough. -/
def Never (spent : ε) (X : Nat → Except ε α) : Prop := ∀ fuel, X fuel = .error spent

theorem Settles.const (r : Except ε α) : Settles (fun _ => r) r := ⟨0, fun _ _ => rfl⟩

theorem Settles.unique {r r' : Except ε α} (h : Settles X r) (h' : Settles X r') : r = r' := by
  obtain ⟨n, hn⟩ := h
  obtain ⟨n', hn'⟩ := h'
  exact (hn _ (le_max_left n n')).symm.trans (hn' _ (le_max_right n n'))

theorem Settles.congr {r : Except ε α} (h : Settles X r) (heq : ∀ fuel, X fuel = Y fuel) :
    Settles Y r := by
  obtain ⟨n, hn⟩ := h
  exact ⟨n, fun fuel hle => (heq fuel).symm.trans (hn fuel hle)⟩

/-- A turn that takes one unit. -/
theorem Settles.succ {r : Except ε α} (h : Settles Y r) (hX : ∀ fuel, X (fuel + 1) = Y fuel) :
    Settles X r := by
  obtain ⟨n, hn⟩ := h
  refine ⟨n + 1, fun fuel hle => ?_⟩
  obtain ⟨fuel, rfl⟩ := Nat.exists_eq_add_of_le' (Nat.le_of_add_left_le hle)
  rw [hX fuel, hn fuel (Nat.le_of_succ_le_succ hle)]

theorem Settles.bind {a : α} {r : Except ε β} {F : Nat → α → Except ε β}
    (hX : Settles X (.ok a)) (hF : Settles (fun fuel => F fuel a) r) :
    Settles (fun fuel => X fuel >>= F fuel) r := by
  obtain ⟨n, hn⟩ := hX
  obtain ⟨n', hn'⟩ := hF
  refine ⟨max n n', fun fuel hle => ?_⟩
  have hx := hn fuel ((le_max_left n n').trans hle)
  simp only [hx]
  exact hn' fuel ((le_max_right n n').trans hle)

theorem Settles.bind_error {e : ε} {F : Nat → α → Except ε β} (hX : Settles X (.error e)) :
    Settles (fun fuel => X fuel >>= F fuel) (.error e) := by
  obtain ⟨n, hn⟩ := hX
  refine ⟨n, fun fuel hle => ?_⟩
  simp only [hn fuel hle]
  rfl

/-- One unit and then more never make an end. -/
theorem Never.succ (h : Never spent Y) (hzero : X 0 = .error spent)
    (hX : ∀ fuel, X (fuel + 1) = Y fuel) : Never spent X := by
  intro fuel
  cases fuel with
  | zero => exact hzero
  | succ fuel => rw [hX fuel, h fuel]

theorem Never.bind {F : Nat → α → Except ε β} (h : Never spent X) :
    Never spent (fun fuel => X fuel >>= F fuel) := by
  intro fuel
  simp only [h fuel]
  rfl

/-- What follows never ends, whenever it is reached. -/
theorem Never.bind_right {a : α} {F : Nat → α → Except ε β} (hF : Never spent fun fuel => F fuel a)
    (hX : ∀ fuel, X fuel = .ok a ∨ X fuel = .error spent) :
    Never spent (fun fuel => X fuel >>= F fuel) := by
  intro fuel
  rcases hX fuel with h | h
  · simp only [h]
    exact hF fuel
  · simp only [h]
    rfl

/-- The fuel makes no difference but that there may be too little of it. -/
def Stable (spent : ε) (X : Nat → Except ε α) (r : Except ε α) : Prop :=
  ∀ fuel, X fuel = r ∨ X fuel = .error spent

/-- How a computation ends, or `none` if it does not. -/
inductive Fate (spent : ε) (X : Nat → Except ε α) : Option (Except ε α) → Prop
  | ends {r : Except ε α} (hr : r ≠ .error spent) (hstable : Stable spent X r)
      (hsettles : Settles X r) : Fate spent X (some r)
  | never (h : Never spent X) : Fate spent X none

namespace Fate

variable {o : Option (Except ε α)}

theorem const {r : Except ε α} (hr : r ≠ .error spent) : Fate spent (fun _ => r) (some r) :=
  .ends hr (fun _ => .inl rfl) (.const r)

theorem succ (h : Fate spent Y o) (hzero : X 0 = .error spent)
    (hX : ∀ fuel, X (fuel + 1) = Y fuel) : Fate spent X o := by
  cases h with
  | ends hr hstable hsettles =>
    refine .ends hr (fun fuel => ?_) (hsettles.succ hX)
    cases fuel with
    | zero => exact .inr hzero
    | succ fuel => rw [hX fuel]; exact hstable fuel
  | never h => exact .never (h.succ hzero hX)

theorem bind {a : α} {o : Option (Except ε β)} {F : Nat → α → Except ε β}
    (hX : Fate spent X (some (.ok a))) (hF : Fate spent (fun fuel => F fuel a) o) :
    Fate spent (fun fuel => X fuel >>= F fuel) o := by
  cases hX with
  | ends _ hstableX hsettlesX =>
    cases hF with
    | ends hr hstable hsettles =>
      refine .ends hr (fun fuel => ?_) (hsettlesX.bind hsettles)
      rcases hstableX fuel with h | h
      · simp only [h]
        exact hstable fuel
      · simp only [h]
        exact .inr rfl
    | never h => exact .never (h.bind_right hstableX)

theorem bind_error {e : ε} {F : Nat → α → Except ε β} (hX : Fate spent X (some (.error e))) :
    Fate spent (fun fuel => X fuel >>= F fuel) (some (.error e)) := by
  cases hX with
  | ends hr hstable hsettles =>
    have hr' : (Except.error e : Except ε β) ≠ .error spent :=
      fun h => hr (congrArg Except.error (Except.error.inj h))
    refine .ends hr' (fun fuel => ?_) hsettles.bind_error
    rcases hstable fuel with h | h <;> simp only [h]
    · exact .inl rfl
    · exact .inr rfl

theorem bind_never {F : Nat → α → Except ε β} (hX : Fate spent X none) :
    Fate spent (fun fuel => X fuel >>= F fuel) none := by
  cases hX with
  | never h => exact .never h.bind

/-- What holds of a computation for some fuel, and not for want of it, holds of the outcome. -/
theorem exists_iff (h : Fate spent X o) {P : Except ε α → Prop} (hP : ¬ P (.error spent)) :
    (∃ fuel, P (X fuel)) ↔ ∃ r, o = some r ∧ P r := by
  cases h with
  | ends hr hstable hsettles =>
    constructor
    · rintro ⟨fuel, hX⟩
      rcases hstable fuel with h | h
      · exact ⟨_, rfl, h ▸ hX⟩
      · exact absurd (h ▸ hX) hP
    · rintro ⟨r, hr, h⟩
      obtain rfl := Option.some.inj hr
      obtain ⟨n, hn⟩ := hsettles
      exact ⟨n, (hn n le_rfl).symm ▸ h⟩
  | never hnever =>
    constructor
    · rintro ⟨fuel, hX⟩
      exact absurd (hnever fuel ▸ hX) hP
    · rintro ⟨r, hr, -⟩
      cases hr

end Fate

end Fueled
