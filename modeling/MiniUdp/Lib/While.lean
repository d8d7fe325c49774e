import MiniUdp.Lib.Outcome
import Mathlib.Logic.Function.Iterate
import Mathlib.Tactic.Common

/-!
# While loops

`while guard { body }` on a state, run for at most a number of iterations:
`runWhile n` is `none` when the guard still holds after `n` of them. A loop
halts from a state when its guard fails after some number of iterations
(`Halts`). `tryWhile` is the loop whose body may fail, which ends it.
-/

namespace MiniUdp.While

variable {σ : Type} {guard : σ → Bool} {body : σ → σ} {P : σ → Prop} {μ : σ → Nat}

/-- Run the loop for at most `n` iterations. -/
def runWhile (guard : σ → Bool) (body : σ → σ) : Nat → σ → Option σ
  | 0, s => if guard s then none else some s
  | n + 1, s => if guard s then runWhile guard body n (body s) else some s

/-- The guard fails after some number of iterations. -/
def Halts (guard : σ → Bool) (body : σ → σ) (s : σ) : Prop :=
  ∃ n, guard (body^[n] s) = false

/-- Every iteration the loop really makes lowers the measure. -/
def Progresses (guard : σ → Bool) (body : σ → σ) (μ : σ → Nat) (s : σ) : Prop :=
  ∀ n, (∀ m ≤ n, guard (body^[m] s) = true) → μ (body^[n + 1] s) < μ (body^[n] s)

/-- What the body keeps holds at the end, and there the guard fails. -/
theorem runWhile_invariant (hb : ∀ s, P s → guard s = true → P (body s)) {n : Nat} {s t : σ}
    (h0 : P s) (h : runWhile guard body n s = some t) : P t ∧ guard t = false := by
  induction n generalizing s with
  | zero =>
    simp only [runWhile] at h
    split at h
    · cases h
    · cases h; exact ⟨h0, by simpa using ‹¬ guard _ = true›⟩
  | succ n ih =>
    simp only [runWhile] at h
    split at h
    · exact ih (hb s h0 ‹_›) h
    · cases h; exact ⟨h0, by simpa using ‹¬ guard _ = true›⟩

/-- A loop that lowers a measure ends within that many iterations. -/
theorem runWhile_total (hb : ∀ s, P s → guard s = true → P (body s) ∧ μ (body s) < μ s)
    {n : Nat} {s : σ} (h0 : P s) (hn : μ s ≤ n) : ∃ t, runWhile guard body n s = some t := by
  induction n generalizing s with
  | zero =>
    simp only [runWhile]
    split
    · have := (hb s h0 ‹_›).2; omega
    · exact ⟨_, rfl⟩
  | succ n ih =>
    simp only [runWhile]
    split
    · obtain ⟨hP, hlt⟩ := hb s h0 ‹_›
      exact ih hP (by omega)
    · exact ⟨_, rfl⟩

/-- A loop whose guard fails after `n` iterations ends within them. -/
theorem runWhile_of_guard {n : Nat} {s : σ} (h : guard (body^[n] s) = false) :
    ∃ t, runWhile guard body n s = some t := by
  induction n generalizing s with
  | zero => exact ⟨s, if_neg (by simpa using h)⟩
  | succ n ih =>
    unfold runWhile
    split
    · exact ih h
    · exact ⟨s, rfl⟩

/-- Progress cannot go on for ever. -/
theorem Progresses.halts {s : σ} (h : Progresses guard body μ s) : Halts guard body s := by
  by_contra hc
  have hg : ∀ n, guard (body^[n] s) = true := fun n => by
    by_contra hn
    exact hc ⟨n, by simpa using hn⟩
  have hle : ∀ n, μ (body^[n] s) + n ≤ μ s := fun n => by
    induction n with
    | zero => exact Nat.le_refl _
    | succ n ih => have := h n fun m _ => hg m; omega
  have := hle (μ s + 1)
  omega

/-- A body that keeps the guard true runs for ever. -/
theorem not_halts (hb : ∀ s, P s → guard s = true ∧ P (body s)) {s : σ} (h0 : P s) :
    ¬ Halts guard body s := by
  have hP : ∀ n, P (body^[n] s) := fun n => by
    induction n with
    | zero => exact h0
    | succ n ih => rw [Function.iterate_succ_apply']; exact (hb _ ih).2
  rintro ⟨n, hn⟩
  rw [(hb _ (hP n)).1] at hn
  cases hn

/-! ## Bodies that may fail -/

section Try

variable {ε : Type} {step : σ → Outcome ε σ}

/-- Run a loop whose body may fail for at most `n` iterations. -/
def tryWhile (guard : σ → Bool) (step : σ → Outcome ε σ) : Nat → σ → Option (Outcome ε σ)
  | 0, s => if guard s then none else some (.ok s)
  | n + 1, s =>
    if guard s then
      match step s with
      | .ok s' => tryWhile guard step n s'
      | .err e => some (.err e)
      | .panic => some .panic
      | .hang => none
    else some (.ok s)

theorem tryWhile_done {s : σ} (h : guard s = false) (n : Nat) :
    tryWhile guard step n s = some (.ok s) := by
  cases n <;> simp [tryWhile, h]

theorem tryWhile_step {s s' : σ} (h : guard s = true) (hs : step s = .ok s') (n : Nat) :
    tryWhile guard step (n + 1) s = tryWhile guard step n s' := by
  rw [tryWhile, if_pos h, hs]

theorem tryWhile_invariant (hb : ∀ s s', P s → guard s = true → step s = .ok s' → P s')
    {n : Nat} {s t : σ} (h0 : P s) (h : tryWhile guard step n s = some (.ok t)) :
    P t ∧ guard t = false := by
  induction n generalizing s with
  | zero =>
    unfold tryWhile at h
    split at h
    · cases h
    · cases h; exact ⟨h0, by simpa using ‹¬ guard _ = true›⟩
  | succ n ih =>
    unfold tryWhile at h
    split at h
    · rename_i hg
      cases hs : step s with
      | ok s' => rw [hs] at h; exact ih (hb s s' h0 hg hs) h
      | err e => rw [hs] at h; cases h
      | panic => rw [hs] at h; cases h
      | hang => rw [hs] at h; cases h
    · cases h; exact ⟨h0, by simpa using ‹¬ guard _ = true›⟩

/-- A loop that lowers a measure with every iteration that does not fail ends within that many. -/
theorem tryWhile_total (hh : ∀ s, P s → step s ≠ .hang)
    (hb : ∀ s s', P s → guard s = true → step s = .ok s' → P s' ∧ μ s' < μ s)
    {n : Nat} {s : σ} (h0 : P s) (hn : μ s < n) : ∃ r, tryWhile guard step n s = some r := by
  induction n generalizing s with
  | zero => omega
  | succ n ih =>
    unfold tryWhile
    split
    · rename_i hg
      cases hs : step s with
      | ok s' =>
        obtain ⟨hP, hlt⟩ := hb s s' h0 hg hs
        exact ih hP (by omega)
      | err e => exact ⟨_, rfl⟩
      | panic => exact ⟨_, rfl⟩
      | hang => exact absurd hs (hh s h0)
    · exact ⟨_, rfl⟩

/-- A body that keeps the guard true and does not fail, unless it hangs, runs for ever. -/
theorem tryWhile_never
    (hb : ∀ s, P s → guard s = true ∧ (step s = .hang ∨ ∃ s', step s = .ok s' ∧ P s')) {s : σ}
    (h0 : P s) (n : Nat) : tryWhile guard step n s = none := by
  induction n generalizing s with
  | zero => exact if_pos (hb s h0).1
  | succ n ih =>
    obtain ⟨hg, hs | ⟨s', hs, hP⟩⟩ := hb s h0
    · rw [tryWhile, if_pos hg, hs]
    · rw [tryWhile_step hg hs]
      exact ih hP

end Try

end MiniUdp.While
