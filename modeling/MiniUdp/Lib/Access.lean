import Mathlib.Tactic.Common
import Mathlib.Data.List.Basic

/-!
# Accesses to a buffer

What a program does with a buffer of any length, when the places do not depend
on what is in it: a checked access ends the program with an error if it is out
of bounds, a slice that starts out of bounds does so with a panic. A program
does not panic if every slice starts within what was accessed before it
(`Sheltered`).
-/

namespace MiniUdp

inductive Access where
  | checked (stop : Nat)
  | sliced (start : Nat)
  deriving DecidableEq, Repr

namespace Access

/-- The length the buffer needs. -/
def need : Access → Nat
  | checked stop => stop
  | sliced start => start

/-- The access in a part of the buffer that starts at `a`. -/
def shift (a : Nat) : Access → Access
  | checked stop => checked (a + stop)
  | sliced start => sliced (a + start)

@[simp] theorem need_shift (a : Nat) (x : Access) : (x.shift a).need = a + x.need := by
  cases x <;> rfl

/-- The length the buffer needs for all of them. -/
def reach : List Access → Nat
  | [] => 0
  | x :: xs => max x.need (reach xs)

/-- The first access that is out of bounds. -/
def firstBeyond (n : Nat) (xs : List Access) : Option Access := xs.find? fun x => n < x.need

/-- If the buffer has `k` elements, no slice is the first access out of bounds. -/
def Sheltered : Nat → List Access → Prop
  | _, [] => True
  | k, checked stop :: xs => Sheltered (max k stop) xs
  | k, sliced start :: xs => start ≤ k ∧ Sheltered k xs

variable {n k a : Nat} {xs ys : List Access}

@[simp] theorem reach_append : reach (xs ++ ys) = max (reach xs) (reach ys) := by
  induction xs with
  | nil => simp [reach]
  | cons x xs ih => rw [List.cons_append, reach, reach, ih, Nat.max_assoc]

/-- What is accessed in a part that starts at `a`, with its start. -/
theorem max_reach_shift : max a (reach (xs.map (shift a))) = a + reach xs := by
  induction xs with
  | nil => simp [reach]
  | cons x xs ih =>
    rw [List.map_cons, reach, reach, need_shift]
    omega

theorem firstBeyond_cons {x : Access} :
    firstBeyond n (x :: xs) = if n < x.need then some x else firstBeyond n xs := by
  unfold firstBeyond
  rw [List.find?_cons]
  by_cases hx : n < x.need <;> simp [hx]

theorem firstBeyond_append :
    firstBeyond n (xs ++ ys) = (firstBeyond n xs).or (firstBeyond n ys) := List.find?_append

theorem firstBeyond_eq_none : firstBeyond n xs = none ↔ reach xs ≤ n := by
  induction xs with
  | nil => simp [firstBeyond, reach]
  | cons x xs ih =>
    rw [firstBeyond_cons, reach]
    split
    · simp; omega
    · rw [ih]; omega

theorem firstBeyond_shift (h : a ≤ n) :
    firstBeyond n (xs.map (shift a)) = (firstBeyond (n - a) xs).map (shift a) := by
  unfold firstBeyond
  rw [List.find?_map]
  congr 2
  funext x
  simp only [Function.comp, need_shift, decide_eq_decide]
  omega

theorem sheltered_append :
    Sheltered k (xs ++ ys) ↔ Sheltered k xs ∧ Sheltered (max k (reach xs)) ys := by
  induction xs generalizing k with
  | nil => simp [Sheltered, reach]
  | cons x xs ih =>
    cases x with
    | checked stop =>
      rw [List.cons_append, Sheltered, Sheltered, ih, reach, need, Nat.max_assoc]
    | sliced start =>
      rw [List.cons_append, Sheltered, Sheltered, ih, reach, need, and_assoc]
      refine and_congr_right fun h => and_congr_right fun _ => ?_
      rw [← Nat.max_assoc, Nat.max_eq_left h]

theorem sheltered_shift (h : a ≤ k) : Sheltered k (xs.map (shift a)) ↔ Sheltered (k - a) xs := by
  induction xs generalizing k with
  | nil => rfl
  | cons x xs ih =>
    cases x with
    | checked stop =>
      rw [List.map_cons, shift, Sheltered, Sheltered, ih (by omega),
        show max k (a + stop) - a = max (k - a) stop by omega]
    | sliced start =>
      rw [List.map_cons, shift, Sheltered, Sheltered, ih h, show a + start ≤ k ↔ start ≤ k - a by omega]

/-- A slice is the first access out of bounds on no buffer just when every one is sheltered. -/
theorem sheltered_iff : Sheltered k xs ↔ ∀ n ≥ k, ∀ start, firstBeyond n xs ≠ some (sliced start) := by
  induction xs generalizing k with
  | nil => simp [Sheltered, firstBeyond]
  | cons x xs ih =>
    cases x with
    | checked stop =>
      rw [Sheltered, ih]
      constructor
      · intro h n hn start
        rw [firstBeyond_cons]
        split
        · exact fun h => nomatch h
        · rename_i hstop
          exact h n (by simp only [need] at hstop; omega) start
      · intro h n hn start
        have hn' := h n (by omega) start
        rwa [firstBeyond_cons, if_neg (by simp only [need]; omega)] at hn'
    | sliced start =>
      rw [Sheltered, ih]
      constructor
      · intro h n hn start'
        rw [firstBeyond_cons, if_neg (by simp only [need]; omega)]
        exact h.2 n hn start'
      · intro h
        have hstart : start ≤ k := by
          by_contra hno
          have := h k (Nat.le_refl k) start
          rw [firstBeyond_cons, if_pos (by simp only [need]; omega)] at this
          exact this rfl
        refine ⟨hstart, fun n hn start' => ?_⟩
        have hn' := h n hn start'
        rwa [firstBeyond_cons, if_neg (by simp only [need]; omega)] at hn'

end Access

end MiniUdp
