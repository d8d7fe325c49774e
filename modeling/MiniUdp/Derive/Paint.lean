import MiniUdp.Lib.Segment
import MiniUdp.ByteRepr

/-!
# Painting

A derived writer does not go through the buffer from front to back: fixed
parts come first, and a `Cow` goes back to its own. `Paints` says which places
a writer gives the content they have in a target; writers in a row paint the
places of both, in any order and more than once. A writer that paints the
whole target writes it (`Paints.writes`).
-/

namespace MiniUdp

variable {α β : Type}

/-- On every slice that is long enough, `w` gives the places in `places` the content they have in
`target`, changes no other and returns `r`. -/
def Paints (target : Bytes) (w : Write α) (places : Nat → Prop) (r : α) : Prop :=
  ∀ bytes : Bytes, target.length ≤ bytes.length → ∃ bytes', w bytes = (bytes', .ok r) ∧
    bytes'.length = bytes.length ∧
    ∀ i, (places i → bytes'[i]? = target[i]?) ∧ (¬ places i → bytes'[i]? = bytes[i]?)

/-- The `len` places from `a` on. -/
def From (a len i : Nat) : Prop := a ≤ i ∧ i < a + len

theorem from_append (a m n i : Nat) : From a m i ∨ From (a + m) n i ↔ From a (m + n) i := by
  unfold From
  omega

namespace Paints

variable {target bs : Bytes} {w : Write α} {f : α → Write β} {places places' : Nat → Prop}
  {r : α} {r' : β} {a : Nat}

theorem pure (r : α) : Paints target (Pure.pure r) (fun _ => False) r := fun bytes _ =>
  ⟨bytes, rfl, rfl, fun _ => ⟨False.elim, fun _ => rfl⟩⟩

theorem congr (h : Paints target w places r) (hiff : ∀ i, places i ↔ places' i) :
    Paints target w places' r := by
  rwa [← (funext fun i => propext (hiff i) : places = places')]

theorem bind (h : Paints target w places r) (h' : Paints target (f r) places' r') :
    Paints target (w >>= f) (fun i => places i ∨ places' i) r' := by
  intro bytes hlen
  obtain ⟨bytes1, hw, hlen1, hpaint1⟩ := h bytes hlen
  obtain ⟨bytes2, hf, hlen2, hpaint2⟩ := h' bytes1 (by omega)
  refine ⟨bytes2, ?_, by omega, fun i => ⟨fun hi => ?_, fun hi => ?_⟩⟩
  · show Write.bind w f bytes = _
    rw [Write.bind, hw]
    exact hf
  · by_cases hi' : places' i
    · exact (hpaint2 i).1 hi'
    · rw [(hpaint2 i).2 hi']
      exact (hpaint1 i).1 (hi.resolve_right hi')
  · rw [(hpaint2 i).2 fun hi' => hi (.inr hi'), (hpaint1 i).2 fun hi' => hi (.inl hi')]

theorem bind_pure (r' : β) (h : Paints target w places r) (hr : f r = Pure.pure r') :
    Paints target (w >>= f) places r' := by
  have hpure : Paints target (f r) (fun _ => False) r' := hr ▸ pure r'
  exact (h.bind hpure).congr fun i => by simp

/-- A writer that puts a segment of the target in its place. -/
theorem of_writes {w : Write Unit} (h : Writes w a bs) (hseg : Segment target a bs) :
    Paints target w (From a bs.length) () := by
  intro bytes hlen
  have hle := hseg.le_length
  refine ⟨_, h bytes (by omega), by simp; omega, fun i => ⟨?_, fun hi => ?_⟩⟩
  · rintro ⟨hai, hib⟩
    obtain ⟨j, rfl⟩ := Nat.exists_eq_add_of_le hai
    have htake : (bytes.take a).length = a := List.length_take_of_le (by omega)
    rw [hseg.getElem? (by omega), List.append_assoc, List.getElem?_append_right (by omega), htake,
      Nat.add_sub_cancel_left, List.getElem?_append_left (by omega)]
  · unfold From at hi
    by_cases hia : i < a
    · rw [List.append_assoc, List.getElem?_append_left (by simp; omega),
        List.getElem?_take_of_lt hia]
    · rw [List.getElem?_append_right (by simp; omega), List.getElem?_drop]
      congr 1
      simp
      omega

/-- A writer that paints the whole target writes it. -/
theorem writes {w : Write Unit} (h : Paints target w (From 0 target.length) ()) :
    Writes w 0 target := by
  intro bytes hlen
  obtain ⟨bytes', hw, hlen', hpaint⟩ := h bytes (by omega)
  rw [hw, List.take_zero, List.nil_append, Nat.zero_add]
  congr 1
  refine List.ext_getElem? fun i => ?_
  by_cases hi : i < target.length
  · rw [List.getElem?_append_left hi]
    exact (hpaint i).1 ⟨Nat.zero_le i, by omega⟩
  · rw [List.getElem?_append_right (by omega), List.getElem?_drop, (hpaint i).2 fun h => hi (by
      have := h.2
      omega)]
    congr 1
    omega

end Paints

end MiniUdp
