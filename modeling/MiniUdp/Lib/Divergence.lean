import MiniUdp.Lib.Outcome

/-!
# Calls that may never return

`x.ReturnsIff p a` tells when a call returns: it returns `a` if `p` holds, and
hangs if not. `x.Runs total P y` compares a call with one that goes on where
it hangs. They agree unless `x` hangs, which it does not if `total` holds, and
a value that `y` returns is returned by `x` just when it has `P`. Both go
through a sequence of calls.
-/

namespace MiniUdp.Outcome

variable {ε α β : Type}

/-! ## When a call returns -/

structure ReturnsIff (x : Outcome ε α) (p : Prop) (a : α) : Prop where
  ok : p → x = .ok a
  hang : ¬ p → x = .hang

namespace ReturnsIff

variable {x : Outcome ε α} {p q : Prop} {a : α} {b : β}

theorem pure (a : α) : (Pure.pure a : Outcome ε α).ReturnsIff True a :=
  ⟨fun _ => rfl, fun h => (h trivial).elim⟩

theorem of_iff (h : x.ReturnsIff p a) (hpq : q ↔ p) : x.ReturnsIff q a :=
  ⟨fun hq => h.ok (hpq.mp hq), fun hq => h.hang fun hp => hq (hpq.mpr hp)⟩

theorem bind {f : α → Outcome ε β} (h : x.ReturnsIff p a) (hf : p → (f a).ReturnsIff q b) :
    (x >>= f).ReturnsIff (p ∧ q) b where
  ok hpq := by
    rw [h.ok hpq.1, bind_ok]
    exact (hf hpq.1).ok hpq.2
  hang hpq := by
    by_cases hp : p
    · rw [h.ok hp, bind_ok]
      exact (hf hp).hang fun hq => hpq ⟨hp, hq⟩
    · rw [h.hang hp]
      rfl

theorem map (h : x.ReturnsIff p a) (g : α → β) :
    (x >>= fun a => Pure.pure (g a)).ReturnsIff p (g a) :=
  (h.bind fun _ => pure (g a)).of_iff (iff_of_eq (and_true _)).symm

/-- What is returned is `a`, and then `p` holds. -/
theorem of_eq_ok (h : x.ReturnsIff p a) {b : α} (hx : x = .ok b) : p ∧ b = a := by
  by_cases hp : p
  · exact ⟨hp, Outcome.ok.inj (hx.symm.trans (h.ok hp))⟩
  · rw [h.hang hp] at hx
    cases hx

end ReturnsIff

/-! ## A call and one that goes on -/

structure Runs (total : Prop) (P : α → Prop) (x y : Outcome ε α) : Prop where
  below : x = .hang ∨ x = y
  ok : ∀ a, y = .ok a → x.ReturnsIff (P a) a
  eq : total → x = y

namespace Runs

variable {total total' : Prop} {P P' : α → Prop} {x y : Outcome ε α}

/-- Without a call that may hang. -/
theorem refl (x : Outcome ε α) : x.Runs total (fun _ => True) x :=
  ⟨.inr rfl, fun _ hx => ⟨fun _ => hx, fun h => (h trivial).elim⟩, fun _ => rfl⟩

theorem of_iff (h : x.Runs total P y) (hP : ∀ a, y = .ok a → (P' a ↔ P a)) : x.Runs total P' y :=
  ⟨h.below, fun a ha => (h.ok a ha).of_iff (hP a ha), h.eq⟩

theorem mono (h : x.Runs total P y) (ht : total' → total) : x.Runs total' P y :=
  ⟨h.below, h.ok, fun h' => h.eq (ht h')⟩

theorem bind {f g : α → Outcome ε β} {Q : α → β → Prop} {R : β → Prop} (h : x.Runs total P y)
    (hf : ∀ a, y = .ok a → (f a).Runs total (Q a) (g a))
    (hR : ∀ a b, y = .ok a → g a = .ok b → (R b ↔ P a ∧ Q a b)) :
    (x >>= f).Runs total R (y >>= g) where
  below := by
    rcases h.below with rfl | rfl
    · exact .inl rfl
    · cases x with
      | ok a => exact (hf a rfl).below
      | err | panic | hang => exact .inr rfl
  ok b hb := by
    obtain ⟨a, ha, hb⟩ := bind_eq_ok.mp hb
    exact ((h.ok a ha).bind fun _ => (hf a ha).ok b hb).of_iff (hR a b ha hb)
  eq ht := by
    obtain rfl := h.eq ht
    cases x with
    | ok a => exact (hf a rfl).eq ht
    | err | panic | hang => rfl

/-- Before a call that does not hang. -/
theorem map {g : α → β} {R : β → Prop} (h : x.Runs total P y)
    (hR : ∀ a, y = .ok a → (R (g a) ↔ P a)) :
    (x >>= fun a => Pure.pure (g a)).Runs total R (y >>= fun a => Pure.pure (g a)) :=
  h.bind (Q := fun _ _ => True) (fun a _ => refl (Pure.pure (g a))) fun a b ha hb => by
    cases hb
    rw [hR a ha, and_true]

/-- After a call that does not hang. -/
theorem of_bind {z : Outcome ε β} {f g : β → Outcome ε α}
    (hf : ∀ a, z = .ok a → (f a).Runs total P (g a)) : (z >>= f).Runs total P (z >>= g) :=
  (refl z).bind (Q := fun _ => P) hf fun _ _ _ _ => (iff_of_eq (true_and _)).symm

/-- After a call that may hang, where the other one goes on without it. -/
theorem step {z : Outcome ε β} {p : Prop} {b : β} {f : β → Outcome ε α} (h : z.ReturnsIff p b)
    (ht : total → p) (hf : p → (f b).Runs total P y) (hP : ∀ a, y = .ok a → (P' a ↔ p ∧ P a)) :
    (z >>= f).Runs total P' y := by
  by_cases hp : p
  · rw [h.ok hp, bind_ok]
    exact (hf hp).of_iff fun a ha => (hP a ha).trans (and_iff_right hp)
  · rw [h.hang hp]
    exact ⟨.inl rfl, fun a ha => ⟨fun hR => absurd ((hP a ha).mp hR).1 hp, fun _ => rfl⟩,
      fun h => absurd (ht h) hp⟩

/-- A value that is returned would be so, too, and has `P`. -/
theorem of_eq_ok (h : x.Runs total P y) {a : α} (hx : x = .ok a) : y = .ok a ∧ P a := by
  rcases h.below with hy | rfl
  · rw [hx] at hy
    cases hy
  · exact ⟨hx, ((h.ok a hx).of_eq_ok hx).1⟩

end Runs

end MiniUdp.Outcome
