import Mathlib.Algebra.BigOperators.Group.List.Basic
import Mathlib.Algebra.Order.BigOperators.Group.List
import Mathlib.Algebra.GroupWithZero.Nat

/-!
# Greedy chunks

A list cut into chunks, each the longest prefix of what is left whose weight
stays within a budget (`Chunked`); one more chunk is cut off at the end
(`Chunked.snoc`).
-/

namespace MiniUdp.Greedy

variable {α : Type} {weight : α → Nat} {budget : Nat}

/-- The longest prefix of the list within the budget. -/
structure Longest (weight : α → Nat) (budget : Nat) (chunk list : List α) : Prop where
  isPrefix : chunk <+: list
  within : (chunk.map weight).sum ≤ budget
  longest : ∀ l, l <+: list → (l.map weight).sum ≤ budget → l <+: chunk

/-- A list cut into chunks and what is left of it. -/
inductive Chunked (weight : α → Nat) (budget : Nat) : List (List α) → List α → List α → Prop where
  | nil (list : List α) : Chunked weight budget [] list list
  | cons {chunk : List α} {chunks : List (List α)} {list rest : List α} :
      Longest weight budget chunk list →
      Chunked weight budget chunks (list.drop chunk.length) rest →
      Chunked weight budget (chunk :: chunks) list rest

namespace Chunked

variable {chunks : List (List α)} {chunk list rest : List α}

theorem snoc (h : Chunked weight budget chunks list rest) (hl : Longest weight budget chunk rest) :
    Chunked weight budget (chunks ++ [chunk]) list (rest.drop chunk.length) := by
  induction h with
  | nil list => exact .cons hl (.nil _)
  | cons hl' _ ih => exact .cons hl' (ih hl)

theorem within (h : Chunked weight budget chunks list rest) :
    ∀ c ∈ chunks, (c.map weight).sum ≤ budget := by
  induction h with
  | nil => exact fun c hc => (nomatch hc)
  | cons hl _ ih =>
    intro c hc
    rcases List.mem_cons.mp hc with rfl | hc
    · exact hl.within
    · exact ih c hc

end Chunked

end MiniUdp.Greedy
