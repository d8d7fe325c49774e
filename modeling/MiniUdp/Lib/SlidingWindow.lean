import Mathlib.Data.Set.Basic
import Mathlib.Tactic.Common

/-!
# Sliding windows

A sender numbers its items from 0 and keeps the last `W` of them until they are
acknowledged; a receiver accepts items in any order. `Inv` holds as long as the
sender never drops an item by itself and only makes room for a new one when the
item `W` places back is settled. Then the sender is at most `W` items ahead of
the receiver (`Inv.next_le`).
-/

namespace MiniUdp

structure SlidingWindow where
  /-- How many items there are. -/
  next : Nat
  pending : Set Nat
  accepted : Set Nat

namespace SlidingWindow

variable {W : Nat} {s t : SlidingWindow}

structure Inv (W : Nat) (s : SlidingWindow) : Prop where
  pending_near : ∀ k ∈ s.pending, k < s.next ∧ s.next ≤ k + W
  accepted_lt : ∀ k ∈ s.accepted, k < s.next
  /-- No item is lost. -/
  cover : ∀ k < s.next, k ∈ s.pending ∨ k ∈ s.accepted

/-- A new item, once the one `W` places back is not pending any more. -/
structure Alloc (W : Nat) (s t : SlidingWindow) : Prop where
  next : t.next = s.next + 1
  room : ∀ k ∈ s.pending, k + W ≠ s.next
  pending : ∀ k, k ∈ t.pending ↔ k = s.next ∨ k ∈ s.pending
  accepted : t.accepted = s.accepted

/-- Accepted items stop being pending. -/
structure Settle (s t : SlidingWindow) : Prop where
  next : t.next = s.next
  pending : ∀ k ∈ t.pending, k ∈ s.pending
  settled : ∀ k ∈ s.pending, k ∉ t.pending → k ∈ s.accepted
  accepted : t.accepted = s.accepted

/-- An item reaches the receiver. -/
structure Accept (k : Nat) (s t : SlidingWindow) : Prop where
  lt : k < s.next
  next : t.next = s.next
  pending : t.pending = s.pending
  accepted : ∀ i, i ∈ t.accepted ↔ i = k ∨ i ∈ s.accepted

theorem Inv.alloc (h : Inv W s) (a : Alloc W s t) (hW : 0 < W) : Inv W t where
  pending_near k hk := by
    rw [a.next]
    rcases (a.pending k).mp hk with rfl | hk
    · omega
    · have := h.pending_near k hk
      have := a.room k hk
      omega
  accepted_lt k hk := by
    rw [a.next]
    have := h.accepted_lt k (a.accepted ▸ hk)
    omega
  cover k hk := by
    rw [a.next] at hk
    rw [a.accepted, a.pending]
    by_cases e : k = s.next
    · exact .inl (.inl e)
    · exact (h.cover k (by omega)).imp .inr id

theorem Inv.settle (h : Inv W s) (a : Settle s t) : Inv W t where
  pending_near k hk := a.next ▸ h.pending_near k (a.pending k hk)
  accepted_lt k hk := a.next ▸ h.accepted_lt k (a.accepted ▸ hk)
  cover k hk := by
    rw [a.accepted]
    by_cases e : k ∈ t.pending
    · exact .inl e
    · refine .inr ?_
      rcases h.cover k (a.next ▸ hk) with hp | hp
      · exact a.settled k hp e
      · exact hp

theorem Inv.accept {k : Nat} (h : Inv W s) (a : Accept k s t) : Inv W t where
  pending_near i hi := a.next ▸ h.pending_near i (a.pending ▸ hi)
  accepted_lt i hi := by
    rw [a.next]
    rcases (a.accepted i).mp hi with rfl | hi
    · exact a.lt
    · exact h.accepted_lt i hi
  cover i hi := by
    rw [a.pending, a.accepted]
    exact (h.cover i (a.next ▸ hi)).imp id .inr

/-- The sender is at most `W` items ahead of everything accepted. -/
theorem Inv.next_le (h : Inv W s) {top : Nat} (htop : ∀ k ∈ s.accepted, k < top) :
    s.next ≤ top + W := by
  by_contra hc
  rcases h.cover (s.next - W - 1) (by omega) with hk | hk
  · have := h.pending_near _ hk
    omega
  · have := htop _ hk
    omega

end SlidingWindow

end MiniUdp
