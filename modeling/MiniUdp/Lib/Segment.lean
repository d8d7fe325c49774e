import Mathlib.Data.List.Basic

/-!
# Segments

`Segment xs a ys` says that the list `ys` stands in `xs` at the offset `a`.
-/

namespace MiniUdp

variable {α : Type}

def Segment (xs : List α) (a : Nat) (ys : List α) : Prop :=
  ∃ pre post, xs = pre ++ ys ++ post ∧ pre.length = a

namespace Segment

variable {xs ys zs : List α} {a : Nat}

theorem self (xs rest : List α) : Segment (xs ++ rest) 0 xs := ⟨[], rest, rfl, rfl⟩

theorem refl (xs : List α) : Segment xs 0 xs := ⟨[], [], by simp, rfl⟩

theorem le_length (h : Segment xs a ys) : a + ys.length ≤ xs.length := by
  obtain ⟨pre, post, rfl, rfl⟩ := h
  simp only [List.length_append]
  omega

theorem left (h : Segment xs a (ys ++ zs)) : Segment xs a ys := by
  obtain ⟨pre, post, rfl, rfl⟩ := h
  exact ⟨pre, zs ++ post, by simp, rfl⟩

theorem right (h : Segment xs a (ys ++ zs)) : Segment xs (a + ys.length) zs := by
  obtain ⟨pre, post, rfl, rfl⟩ := h
  exact ⟨pre ++ ys, post, by simp, by simp⟩

theorem getElem? (h : Segment xs a ys) {i : Nat} (hi : i < ys.length) : xs[a + i]? = ys[i]? := by
  obtain ⟨pre, post, rfl, rfl⟩ := h
  rw [List.append_assoc, List.getElem?_append_right (by omega), Nat.add_sub_cancel_left,
    List.getElem?_append_left hi]

end Segment

end MiniUdp
