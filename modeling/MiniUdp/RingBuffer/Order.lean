import MiniUdp.RingBuffer
import Mathlib.Order.Defs.Unbundled

/-!
# The order of a window

`wrappingGt` subtracts and adds 16-bit numbers without a wrap, which a build
with overflow checks refuses when the result does not fit. `checkedWrappingGt`
is the same function with the checks; none of them ever fails
(`checkedWrappingGt_eq`). On a run of consecutive numbers `wrappingGt` compares
positions (`wrappingGt_run`), so that it is a strict total order there.
-/

namespace MiniUdp

open Serial

/-- `a - b` with the overflow check. -/
def checkedSub (a b : UInt16) : Option UInt16 := if b ≤ a then some (a - b) else none

/-- `a + b` with the overflow check. -/
def checkedAdd (a b : UInt16) : Option UInt16 :=
  if a.toNat + b.toNat < 65536 then some (a + b) else none

/-- `u16::MAX - x < max_dif && y <= x && u16::MAX - x + y < max_dif` with the overflow checks:
counting up from `x` and past the end, less than `maxDif` steps lead to `y`. -/
def checkedPastEnd (x y maxDif : UInt16) : Option Bool :=
  (checkedSub 65535 x).bind fun left =>
    if left < maxDif then
      if y ≤ x then (checkedAdd left y).map fun steps => decide (steps < maxDif)
      else some false
    else some false

/-- `wrappingGt` with the overflow checks. -/
def checkedWrappingGt (x y maxDif : UInt16) : Option Bool := do
  if ← checkedPastEnd x y maxDif then return false
  else if ← checkedPastEnd y x maxDif then return true
  return decide (y < x)

/-- The numbers of the run of `m + 1` numbers from `s` on. -/
def InRun (s m x : UInt16) : Prop := (x - s).toNat ≤ m.toNat

theorem checkedSub_max (x : UInt16) : checkedSub 65535 x = some (65535 - x) := by
  have hx := toNat_lt' x
  have e : (65535 : UInt16).toNat = 65535 := rfl
  exact if_pos (UInt16.le_iff_toNat_le.mpr (by omega))

/-- The sum is only reached when `y ≤ x`, and then fits. -/
theorem checkedAdd_max {x y : UInt16} (h : y ≤ x) :
    checkedAdd (65535 - x) y = some (65535 - x + y) := by
  have hx := toNat_lt' x
  have hyx := UInt16.le_iff_toNat_le.mp h
  have e : (65535 : UInt16).toNat = 65535 := rfl
  refine if_pos ?_
  rw [UInt16.toNat_sub, e]
  omega

theorem checkedPastEnd_eq (x y m : UInt16) : checkedPastEnd x y m =
    some (decide (65535 - x < m ∧ y ≤ x ∧ 65535 - x + y < m)) := by
  rw [checkedPastEnd, checkedSub_max, Option.bind_some]
  by_cases h1 : 65535 - x < m
  · rw [if_pos h1]
    by_cases h2 : y ≤ x
    · rw [if_pos h2, checkedAdd_max h2, Option.map_some]
      simp only [h1, h2, true_and]
    · rw [if_neg h2, decide_eq_false fun h => h2 h.2.1]
  · rw [if_neg h1, decide_eq_false fun h => h1 h.1]

/-- No step of the comparison overflows. -/
theorem checkedWrappingGt_eq (x y m : UInt16) :
    checkedWrappingGt x y m = some (wrappingGt x y m) := by
  rw [checkedWrappingGt, wrappingGt, checkedPastEnd_eq, checkedPastEnd_eq]
  by_cases h1 : 65535 - x < m ∧ y ≤ x ∧ 65535 - x + y < m
  · rw [if_pos h1, decide_eq_true h1]
    rfl
  · rw [if_neg h1, decide_eq_false h1]
    by_cases h2 : 65535 - y < m ∧ x ≤ y ∧ 65535 - y + x < m
    · rw [if_pos h2, decide_eq_true h2]
      rfl
    · rw [if_neg h2, decide_eq_false h2]
      rfl

/-! ## Runs of consecutive numbers -/

section Run

variable {s m x y z : UInt16}

/-- Two numbers of one run are within its length of each other. -/
theorem InRun.near (hx : InRun s m x) (hy : InRun s m y) :
    (x - y).toNat ≤ m.toNat ∨ (y - x).toNat ≤ m.toNat := by
  have h1 := dist_trans x s y
  have h2 := dist_comm y s
  have h3 := dist_trans y s x
  have h4 := dist_comm x s
  unfold InRun at hx hy
  omega

/-- On a run `wrappingGt` compares the distances from the start. -/
theorem wrappingGt_run (hm : m.toNat < 32768) (hx : InRun s m x) (hy : InRun s m y) :
    wrappingGt x y m = true ↔ (y - s).toNat < (x - s).toNat := by
  have hd := dist_trans x s y
  have hc := dist_comm y s
  rw [wrappingGt_iff hm (hx.near hy)]
  unfold InRun at hx hy
  omega

/-- Position `i` of the run from `s` on. -/
theorem dist_run {i : Nat} (hi : i ≤ m.toNat) : (s + UInt16.ofNat i - s).toNat = i := by
  have hm := toNat_lt' m
  rw [dist_add_left, dist_self, UInt16.toNat_ofNat']
  omega

theorem inRun_add {i : Nat} (hi : i ≤ m.toNat) : InRun s m (s + UInt16.ofNat i) := by
  unfold InRun
  rw [dist_run hi]
  exact hi

/-- Distances from the start carry the order of the naturals over to a run. -/
theorem strictTotalOrder_run (hm : m.toNat < 32768) :
    IsStrictTotalOrder {x // InRun s m x} fun x y => wrappingGt x.1 y.1 m = true where
  irrefl x h := by
    rw [wrappingGt_run hm x.2 x.2] at h
    exact Nat.lt_irrefl _ h
  trans x y z hxy hyz := by
    rw [wrappingGt_run hm x.2 y.2] at hxy
    rw [wrappingGt_run hm y.2 z.2] at hyz
    rw [wrappingGt_run hm x.2 z.2]
    exact Nat.lt_trans hyz hxy
  trichotomous x y hxy hyx := by
    rw [wrappingGt_run hm x.2 y.2] at hxy
    rw [wrappingGt_run hm y.2 x.2] at hyx
    have e : (x.1 - s).toNat = (y.1 - s).toNat := by omega
    have hs := toNat_lt' s; have hx := toNat_lt' x.1; have hy := toNat_lt' y.1
    simp only [UInt16.toNat_sub] at e
    exact Subtype.ext (eq_of_toNat (by omega))

end Run

/-- `wrappingGt` is the order of serial numbers inside its window: it never overflows, on numbers
at most `m` apart it tells whether the first is 1 to `m` after the second, and on `m + 1`
consecutive numbers it is a strict total order, that of their positions. -/
theorem wrappingGt_isSerialOrder {m : UInt16} (hm : m.toNat ≤ 2 ^ 15 - 1) :
    (∀ x y : UInt16, (x - y).toNat ≤ m.toNat ∨ (y - x).toNat ≤ m.toNat →
      checkedWrappingGt x y m = some (wrappingGt x y m) ∧
      (wrappingGt x y m = true ↔ 1 ≤ (x - y).toNat ∧ (x - y).toNat ≤ m.toNat)) ∧
    ∀ s : UInt16,
      (∀ i j : Nat, i ≤ m.toNat → j ≤ m.toNat →
        (wrappingGt (s + UInt16.ofNat i) (s + UInt16.ofNat j) m = true ↔ j < i)) ∧
      IsStrictTotalOrder {x // InRun s m x} fun x y => wrappingGt x.1 y.1 m = true := by
  have hm : m.toNat < 32768 := by omega
  refine ⟨fun x y h => ⟨checkedWrappingGt_eq x y m, wrappingGt_iff hm h⟩, fun s => ⟨?_, ?_⟩⟩
  · intro i j hi hj
    rw [wrappingGt_run hm (inRun_add hi) (inRun_add hj), dist_run hi, dist_run hj]
  · exact strictTotalOrder_run hm

/-- The largest window; 30 comes after 65535 in it. -/
theorem wrappingGt_isSerialOrder_max :
    ((∀ x y : UInt16,
      (x - y).toNat ≤ (32767 : UInt16).toNat ∨ (y - x).toNat ≤ (32767 : UInt16).toNat →
      checkedWrappingGt x y 32767 = some (wrappingGt x y 32767) ∧
      (wrappingGt x y 32767 = true ↔
        1 ≤ (x - y).toNat ∧ (x - y).toNat ≤ (32767 : UInt16).toNat)) ∧
    ∀ s : UInt16,
      (∀ i j : Nat, i ≤ (32767 : UInt16).toNat → j ≤ (32767 : UInt16).toNat →
        (wrappingGt (s + UInt16.ofNat i) (s + UInt16.ofNat j) 32767 = true ↔ j < i)) ∧
      IsStrictTotalOrder {x // InRun s 32767 x} fun x y => wrappingGt x.1 y.1 32767 = true) ∧
    wrappingGt 30 65535 32767 = true :=
  ⟨wrappingGt_isSerialOrder (by simp), by decide⟩

end MiniUdp
