import Mathlib.Tactic.Common
import Mathlib.Data.List.Basic

/-!
# Scopes

A scope is the list of what was bound under which name, the last binding first.
What is used later goes by identifiers `u : ι`, each of which has a name;
bindings of other names do not change what an identifier stands for. Two scopes
`Agree` on the identifiers that are still used although the names differ.
-/

namespace MiniUdp.Scope

variable {ι κ κ' ν : Type} [BEq κ] [LawfulBEq κ] [BEq κ'] [LawfulBEq κ']

theorem lookup_cons_self (key : κ) (x : ν) (s : List (κ × ν)) :
    ((key, x) :: s).lookup key = some x := by simp

theorem lookup_cons_of_ne {key key' : κ} (h : key ≠ key') (x : ν) (s : List (κ × ν)) :
    ((key', x) :: s).lookup key = s.lookup key := by
  have hne : (key == key') = false := by simpa using h
  simp [List.lookup_cons, hne]

/-- The identifiers in use stand for the same under both namings. -/
def Agree (live : ι → Prop) (name : ι → κ) (name' : ι → κ') (s : List (κ × ν))
    (s' : List (κ' × ν)) : Prop :=
  ∀ u, live u → s.lookup (name u) = s'.lookup (name' u)

variable {live live' : ι → Prop} {name : ι → κ} {name' : ι → κ'} {s : List (κ × ν)}
  {s' : List (κ' × ν)}

omit [LawfulBEq κ] [LawfulBEq κ'] in
theorem Agree.mono (h : Agree live name name' s s') (hl : ∀ u, live' u → live u) :
    Agree live' name name' s s' := fun u hu => h u (hl u hu)

/-- A binding hides the same identifiers under both namings. -/
theorem Agree.cons (h : Agree live name name' s s') {a : ι}
    (hsame : ∀ u, live u → (name u = name a ↔ name' u = name' a)) (x : ν) :
    Agree (fun u => live u ∨ u = a) name name' ((name a, x) :: s) ((name' a, x) :: s') := by
  intro u hu
  by_cases ha : name u = name a
  · have ha' : name' u = name' a := by
      rcases hu with hu | rfl
      · exact (hsame u hu).mp ha
      · rfl
    rw [ha, ha', lookup_cons_self, lookup_cons_self]
  · have hne : u ≠ a := fun hua => ha (congrArg name hua)
    have hlive := hu.resolve_right hne
    have ha' : name' u ≠ name' a := fun h => ha ((hsame u hlive).mpr h)
    rw [lookup_cons_of_ne ha, lookup_cons_of_ne ha']
    exact h u hlive

/-- What each identifier in use stands for has the property asked of it. -/
def Holds (P : ι → Option ν → Prop) (live : ι → Prop) (name : ι → κ) (s : List (κ × ν)) : Prop :=
  ∀ u, live u → P u (s.lookup (name u))

theorem Holds.cons {P : ι → Option ν → Prop} (h : Holds P live name s) {key : κ} {x : ν}
    (hx : ∀ u, live' u → name u = key → P u (some x))
    (hl : ∀ u, live' u → name u ≠ key → live u) : Holds P live' name ((key, x) :: s) := by
  intro u hu
  by_cases hkey : name u = key
  · rw [hkey, lookup_cons_self]
    exact hx u hu hkey
  · rw [lookup_cons_of_ne hkey]
    exact h u (hl u hu hkey)

end MiniUdp.Scope
