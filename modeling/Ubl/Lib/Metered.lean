import Mathlib

/-!
# Metered computations and straight-line programs

A `Metered ε α` ends with a value or an error after a number of charged steps; a step
that fails has been charged too.  `exec step code` runs the instructions of `code` one
after the other and charges one for each:

    exec step (xs ++ ys) s = exec step xs s >>= exec step ys      (exec_append)

so what a program does is read off its parts.
-/

structure Metered (ε α : Type) where
  result : Except ε α
  cost : Nat

namespace Metered

variable {ε α β σ ι : Type}

instance : Monad (Metered ε) where
  pure a := ⟨.ok a, 0⟩
  bind x f :=
    match x.result with
    | .ok a => ⟨(f a).result, x.cost + (f a).cost⟩
    | .error e => ⟨.error e, x.cost⟩

/-- One charged step with the outcome `r`. -/
def charged (r : Except ε α) : Metered ε α := ⟨r, 1⟩

theorem pure_def (a : α) : (pure a : Metered ε α) = ⟨.ok a, 0⟩ := rfl

@[simp] theorem mk_ok_bind (a : α) (n : Nat) (f : α → Metered ε β) :
    ((⟨.ok a, n⟩ : Metered ε α) >>= f) = ⟨(f a).result, n + (f a).cost⟩ := rfl

@[simp] theorem mk_error_bind (e : ε) (n : Nat) (f : α → Metered ε β) :
    ((⟨.error e, n⟩ : Metered ε α) >>= f) = ⟨.error e, n⟩ := rfl

@[simp] theorem charged_error_bind (e : ε) (f : α → Metered ε β) :
    (charged (.error e) >>= f) = charged (.error e) := rfl

instance : LawfulMonad (Metered ε) := by
  refine LawfulMonad.mk' (Metered ε) ?_ ?_ ?_
  · rintro α ⟨r, n⟩
    cases r <;> rfl
  · intro α β a f
    change (⟨.ok a, 0⟩ >>= f : Metered ε β) = f a
    rw [mk_ok_bind, Nat.zero_add]
  · rintro α β γ ⟨r, n⟩ f g
    cases r with
    | error e => rfl
    | ok a =>
      rw [mk_ok_bind]
      rcases hf : f a with ⟨r', n'⟩
      cases r' with
      | error e => simp [hf]
      | ok b => simp [hf, Nat.add_assoc]

/-- `n` further charged steps that change nothing. -/
def spend (n : Nat) : Metered ε Unit := ⟨.ok (), n⟩

@[simp] theorem spend_zero : (spend 0 : Metered ε Unit) = pure () := rfl

theorem charged_ok_bind (a : α) (f : α → Metered ε β) :
    (charged (.ok a) >>= f) = spend 1 >>= fun _ => f a := rfl

@[simp] theorem spend_bind_spend (m n : Nat) (f : Unit → Metered ε β) :
    (spend m >>= fun _ => spend n >>= f) = spend (m + n) >>= f := by
  simp [spend, Nat.add_assoc]

theorem bind_result (x : Metered ε α) (f : α → Metered ε β) :
    (x >>= f).result = x.result >>= fun a => (f a).result := by
  rcases x with ⟨r, n⟩
  cases r <;> rfl

@[simp] theorem spend_bind_result (n : Nat) (f : Unit → Metered ε β) :
    (spend n >>= f).result = (f ()).result := rfl

@[simp] theorem spend_bind_cost (n : Nat) (f : Unit → Metered ε β) :
    (spend n >>= f).cost = n + (f ()).cost := rfl

theorem charged_map_bind {γ : Type} (r : Except ε α) (f : α → β) (g : β → Metered ε γ) :
    (charged (r.map f) >>= g) = charged r >>= fun a => g (f a) := by
  cases r <;> rfl

/-- Continuations need to agree on the values that come out only. -/
theorem bind_congr_result {x : Metered ε α} {f g : α → Metered ε β}
    (h : ∀ a, x.result = .ok a → f a = g a) : (x >>= f) = (x >>= g) := by
  rcases x with ⟨r, n⟩
  cases r with
  | error e => rfl
  | ok a => rw [mk_ok_bind, mk_ok_bind, h a rfl]

/-- The value of a metered computation that ends well, whatever it costs. -/
theorem bind_eq_of_result {x : Metered ε α} {a : α} (h : x.result = .ok a)
    (f : α → Metered ε β) : (x >>= f) = spend x.cost >>= fun _ => f a := by
  rcases x with ⟨r, n⟩
  obtain rfl : r = .ok a := h
  rfl

theorem bind_eq_of_error {x : Metered ε α} {e : ε} (h : x.result = .error e)
    (f : α → Metered ε β) : (x >>= f) = ⟨.error e, x.cost⟩ := by
  rcases x with ⟨r, n⟩
  obtain rfl : r = .error e := h
  rfl

/-! ## Kinds of outcome -/

/-- The computation does not fail. -/
def IsOk (m : Metered ε α) : Prop := ∃ a, m.result = .ok a

theorem isOk_bind_iff {x : Metered ε α} {f : α → Metered ε β} :
    (x >>= f).IsOk ↔ ∃ a, x.result = .ok a ∧ (f a).IsOk := by
  unfold IsOk
  rw [bind_result]
  cases x.result with
  | error e => exact ⟨fun ⟨_, h⟩ => (by cases h), fun ⟨_, h, _⟩ => (by cases h)⟩
  | ok a => exact ⟨fun h => ⟨a, rfl, h⟩, fun ⟨_, h, hf⟩ => Except.ok.inj h ▸ hf⟩

theorem isOk_bind_total {x : Metered ε α} {f : α → Metered ε β} (hf : ∀ a, (f a).IsOk) :
    (x >>= f).IsOk ↔ x.IsOk := by
  rw [isOk_bind_iff]
  exact ⟨fun ⟨a, h, _⟩ => ⟨a, h⟩, fun ⟨a, h⟩ => ⟨a, h, hf a⟩⟩

/-- Two computations in a row whose results are only put together. -/
theorem isOk_bind_both {γ : Type} {x : Metered ε α} {y : Metered ε β} {g : α → β → Metered ε γ}
    (hg : ∀ a b, (g a b).IsOk) :
    (x >>= fun a => y >>= g a).IsOk ↔ x.IsOk ∧ y.IsOk := by
  rw [isOk_bind_iff]
  constructor
  · rintro ⟨a, h, hy⟩
    exact ⟨⟨a, h⟩, (isOk_bind_total (hg a)).mp hy⟩
  · rintro ⟨⟨a, h⟩, hy⟩
    exact ⟨a, h, (isOk_bind_total (hg a)).mpr hy⟩

/-- The computation fails, if it does, with an error that `E` allows. -/
def FailsOnly (E : ε → Prop) (m : Metered ε α) : Prop := ∀ e, m.result = .error e → E e

section FailsOnly

variable {E : ε → Prop}

theorem failsOnly_pure (a : α) : FailsOnly E (pure a : Metered ε α) := by
  intro e h
  cases h

theorem failsOnly_spend (n : Nat) : FailsOnly E (spend n) := by
  intro e h
  cases h

theorem failsOnly_charged {r : Except ε α} (h : ∀ e, r = .error e → E e) :
    FailsOnly E (charged r) := h

theorem FailsOnly.bind_ok {x : Metered ε α} (hx : FailsOnly E x) {f : α → Metered ε β}
    (hf : ∀ a, x.result = .ok a → FailsOnly E (f a)) : FailsOnly E (x >>= f) := by
  intro e h
  rw [bind_result] at h
  cases hr : x.result with
  | error e' =>
    rw [hr] at h
    obtain rfl : e' = e := Except.error.inj h
    exact hx e' hr
  | ok a =>
    rw [hr] at h
    exact hf a hr e h

theorem FailsOnly.bind {x : Metered ε α} (hx : FailsOnly E x) {f : α → Metered ε β}
    (hf : ∀ a, FailsOnly E (f a)) : FailsOnly E (x >>= f) :=
  hx.bind_ok fun a _ => hf a

end FailsOnly

/-! ## Straight-line programs -/

section Exec

variable (step : ι → σ → Except ε σ)

/-- The instructions of a program in order, up to the first that fails. -/
def exec : List ι → σ → Metered ε σ
  | [], s => pure s
  | i :: code, s => charged (step i s) >>= exec code

@[simp] theorem exec_nil (s : σ) : exec step [] s = pure s := rfl

theorem exec_cons (i : ι) (code : List ι) (s : σ) :
    exec step (i :: code) s = charged (step i s) >>= exec step code := rfl

theorem exec_cons_ok {i : ι} {s s' : σ} (h : step i s = .ok s') (code : List ι) :
    exec step (i :: code) s = spend 1 >>= fun _ => exec step code s' := by
  rw [exec_cons, h, charged_ok_bind]

theorem exec_cons_error {i : ι} {s : σ} {e : ε} (h : step i s = .error e) (code : List ι) :
    exec step (i :: code) s = charged (.error e) := by
  rw [exec_cons, h, charged_error_bind]

theorem exec_append (xs ys : List ι) (s : σ) :
    exec step (xs ++ ys) s = exec step xs s >>= exec step ys := by
  induction xs generalizing s with
  | nil => rw [List.nil_append, exec_nil, pure_bind]
  | cons i xs ih =>
    rw [List.cons_append, exec_cons, exec_cons, bind_assoc]
    exact bind_congr ih

theorem exec_cost_le (code : List ι) (s : σ) : (exec step code s).cost ≤ code.length := by
  induction code generalizing s with
  | nil => simp [pure_def]
  | cons i code ih =>
    rw [exec_cons, List.length_cons]
    cases h : step i s with
    | error e => simp [charged]
    | ok s' =>
      have := ih s'
      simp only [charged_ok_bind, spend_bind_cost]
      omega

/-- A program that ends well has been charged for all of its instructions. -/
theorem exec_cost_of_ok {code : List ι} {s s' : σ} (h : (exec step code s).result = .ok s') :
    (exec step code s).cost = code.length := by
  induction code generalizing s with
  | nil => rfl
  | cons i code ih =>
    rw [exec_cons] at h ⊢
    cases hstep : step i s with
    | error e =>
      rw [hstep] at h
      cases h
    | ok s₁ =>
      rw [hstep, charged_ok_bind] at h
      rw [charged_ok_bind, spend_bind_cost, ih h, List.length_cons, Nat.add_comm]

end Exec

end Metered
