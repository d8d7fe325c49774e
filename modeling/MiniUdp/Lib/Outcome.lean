import Mathlib.Tactic.Common

/-!
# Outcomes of a call

A call returns a value, returns an error, panics, or never returns. Sequencing
stops at the first call that does not return a value.
-/

namespace MiniUdp

inductive Outcome (ε α : Type) where
  | ok (a : α)
  | err (e : ε)
  | panic
  | hang
  deriving DecidableEq, Repr

namespace Outcome

variable {ε α β σ : Type}

/-- A value or an error, no panic and no endless loop. -/
def returns : Outcome ε α → Bool
  | ok _ | err _ => true
  | panic | hang => false

/-- A value. -/
def isOk : Outcome ε α → Bool
  | ok _ => true
  | err _ | panic | hang => false

theorem isOk_iff {x : Outcome ε α} : x.isOk = true ↔ ∃ a, x = ok a := by
  cases x <;> simp [isOk]

/-- A value that passes the test. -/
def isOkAnd (p : α → Bool) : Outcome ε α → Bool
  | ok a => p a
  | err _ | panic | hang => false

theorem isOkAnd_iff {p : α → Bool} {x : Outcome ε α} :
    x.isOkAnd p = true ↔ ∃ a, x = ok a ∧ p a = true := by
  cases x <;> simp [isOkAnd]

def bind (x : Outcome ε α) (f : α → Outcome ε β) : Outcome ε β :=
  match x with
  | ok a => f a
  | err e => err e
  | panic => panic
  | hang => hang

instance : Monad (Outcome ε) where
  pure := ok
  bind := bind

instance : LawfulMonad (Outcome ε) := LawfulMonad.mk' (Outcome ε)
  (fun x => by cases x <;> rfl) (fun _ _ => rfl) (fun x _ _ => by cases x <;> rfl)

@[simp] theorem pure_def (a : α) : (pure a : Outcome ε α) = ok a := rfl

@[simp] theorem returns_ok (a : α) : (ok a : Outcome ε α).returns = true := rfl
@[simp] theorem returns_err (e : ε) : (err e : Outcome ε α).returns = true := rfl
@[simp] theorem returns_panic : (panic : Outcome ε α).returns = false := rfl
@[simp] theorem returns_hang : (hang : Outcome ε α).returns = false := rfl

@[simp] theorem bind_ok (a : α) (f : α → Outcome ε β) : (ok a >>= f) = f a := rfl
@[simp] theorem bind_err (e : ε) (f : α → Outcome ε β) : (err e >>= f) = err e := rfl
@[simp] theorem bind_panic (f : α → Outcome ε β) : (panic >>= f) = panic := rfl
@[simp] theorem bind_hang (f : α → Outcome ε β) : (hang >>= f) = hang := rfl

@[simp] theorem map_ok (f : α → β) (a : α) : f <$> (ok a : Outcome ε α) = ok (f a) := rfl
@[simp] theorem map_err (f : α → β) (e : ε) : f <$> (err e : Outcome ε α) = err e := rfl
@[simp] theorem map_panic (f : α → β) : f <$> (panic : Outcome ε α) = panic := rfl
@[simp] theorem map_hang (f : α → β) : f <$> (hang : Outcome ε α) = hang := rfl

/-- A sequence returns a value just when both calls do. -/
theorem bind_eq_ok {x : Outcome ε α} {f : α → Outcome ε β} {b : β} :
    (x >>= f) = ok b ↔ ∃ a, x = ok a ∧ f a = ok b := by
  cases x <;> simp

theorem returns_bind {x : Outcome ε α} {f : α → Outcome ε β} (hx : x.returns = true)
    (hf : ∀ a, x = ok a → (f a).returns = true) : (x >>= f).returns = true := by
  cases x with
  | ok a => exact hf a rfl
  | err e => rfl
  | panic | hang => cases hx

theorem ne_hang_of_returns {x : Outcome ε α} (h : x.returns = true) : x ≠ hang := by
  rintro rfl
  cases h

/-- A sequence ends when both calls do. -/
theorem bind_ne_hang {x : Outcome ε α} {f : α → Outcome ε β} (hx : x ≠ hang)
    (hf : ∀ a, f a ≠ hang) : (x >>= f) ≠ hang := by
  cases x with
  | ok a => exact hf a
  | err | panic => exact fun h => (nomatch h)
  | hang => exact absurd rfl hx

/-- A loop over a list that returns a value has kept its invariant, item by item. -/
theorem foldlM_invariant {f : σ → α → Outcome ε σ} {P : List α → σ → Prop} {l : List α}
    {s s' : σ} (h0 : P [] s)
    (hstep : ∀ done a rest s1 s2, l = done ++ a :: rest → P done s1 → f s1 a = ok s2 →
      P (done ++ [a]) s2)
    (h : l.foldlM f s = ok s') : P l s' := by
  suffices hgen : ∀ rest done s1, l = done ++ rest → P done s1 → rest.foldlM f s1 = ok s' →
      P l s' from hgen l [] s rfl h0 h
  intro rest
  induction rest with
  | nil =>
    intro done s1 hl hP hr
    simp only [List.foldlM_nil, pure_def, ok.injEq] at hr
    subst hr
    rwa [hl, List.append_nil]
  | cons a rest ih =>
    intro done s1 hl hP hr
    rw [List.foldlM_cons, bind_eq_ok] at hr
    obtain ⟨s2, h2, hr⟩ := hr
    exact ih (done ++ [a]) s2 (by simp [hl]) (hstep done a rest s1 s2 hl hP h2) hr

/-- A loop over a list whose every step returns a value returns one. -/
theorem foldlM_total {f : σ → α → Outcome ε σ} {P : List α → σ → Prop} {l : List α} {s : σ}
    (h0 : P [] s)
    (hstep : ∀ done a rest s1, l = done ++ a :: rest → P done s1 →
      ∃ s2, f s1 a = ok s2 ∧ P (done ++ [a]) s2) :
    ∃ s', l.foldlM f s = ok s' ∧ P l s' := by
  suffices hgen : ∀ rest done s1, l = done ++ rest → P done s1 →
      ∃ s', rest.foldlM f s1 = ok s' ∧ P l s' from hgen l [] s rfl h0
  intro rest
  induction rest with
  | nil =>
    intro done s1 hl hP
    exact ⟨s1, rfl, by rwa [hl, List.append_nil]⟩
  | cons a rest ih =>
    intro done s1 hl hP
    obtain ⟨s2, h2, hP2⟩ := hstep done a rest s1 hl hP
    obtain ⟨s', hs', hP'⟩ := ih (done ++ [a]) s2 (by simp [hl]) hP2
    exact ⟨s', by rw [List.foldlM_cons, h2, bind_ok, hs'], hP'⟩

/-- A loop of which only `φ` is seen is the loop over what is seen. -/
theorem foldlM_map {τ : Type} {φ : σ → τ} {f : σ → α → Outcome ε σ} {g : τ → α → Outcome ε τ}
    {P : List α → σ → Prop} {l : List α} {s : σ} (h0 : P [] s)
    (hstep : ∀ done a rest s1, l = done ++ a :: rest → P done s1 →
      φ <$> f s1 a = g (φ s1) a ∧ ∀ s2, f s1 a = ok s2 → P (done ++ [a]) s2) :
    φ <$> l.foldlM f s = l.foldlM g (φ s) := by
  suffices hgen : ∀ rest done s1, l = done ++ rest → P done s1 →
      φ <$> rest.foldlM f s1 = rest.foldlM g (φ s1) from hgen l [] s rfl h0
  intro rest
  induction rest with
  | nil => exact fun _ _ _ _ => rfl
  | cons a rest ih =>
    intro done s1 hl hP
    obtain ⟨hmap, hkeeps⟩ := hstep done a rest s1 hl hP
    rw [List.foldlM_cons, List.foldlM_cons, ← hmap]
    cases hf : f s1 a with
    | ok s2 => exact ih (done ++ [a]) s2 (by simp [hl]) (hkeeps s2 hf)
    | err | panic | hang => rfl

end Outcome

end MiniUdp
