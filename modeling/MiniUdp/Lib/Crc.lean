import Mathlib.Data.BitVec
import Mathlib.Logic.Function.Iterate

/-!
# Cyclic redundancy checks

A register of `w` bits that takes in a message bit by bit, most significant
bit first. Where the polynomial has a constant term, the register after a
message determines the register before it (`feed_injective`), and up to `w`
bits fed one after the other determine each other by the register they leave
(`feed_burst`): a CRC of width `w` finds every burst of up to `w` bits.
-/

namespace MiniUdp.Crc

variable {w : Nat}

/-- One step of the register. -/
def shift (poly c : BitVec w) : BitVec w := (c <<< 1) ^^^ (if c.msb then poly else 0)

/-- A bit in the most significant place. -/
def top (b : Bool) : BitVec w := if b then BitVec.intMin w else 0

def feedBit (poly c : BitVec w) (b : Bool) : BitVec w := shift poly (c ^^^ top b)

def feed (poly c : BitVec w) (bits : List Bool) : BitVec w := bits.foldl (feedBit poly) c

/-- Bits in the most significant places, the first one on top. -/
def pack : List Bool → BitVec w
  | [] => 0
  | b :: bits => top b ^^^ (pack bits >>> 1)

theorem getLsbD_top (b : Bool) (i : Nat) :
    (top b : BitVec w).getLsbD i = (b && decide (i + 1 = w)) := by
  unfold top
  cases b with
  | false => simp
  | true => simp [BitVec.getLsbD_intMin, eq_comm]

theorem getLsbD_shift (poly c : BitVec w) (i : Nat) : (shift poly c).getLsbD i =
    ((decide (i < w) && decide (0 < i) && c.getLsbD (i - 1)) ^^ (c.msb && poly.getLsbD i)) := by
  unfold shift
  rw [BitVec.getLsbD_xor, BitVec.getLsbD_shiftLeft]
  cases c.msb with
  | false => cases i <;> simp
  | true => cases i <;> simp

/-! ## The register steps are linear -/

theorem shift_xor (poly a b : BitVec w) :
    shift poly (a ^^^ b) = shift poly a ^^^ shift poly b := by
  refine BitVec.eq_of_getLsbD_eq fun i hi => ?_
  simp only [getLsbD_shift, BitVec.getLsbD_xor, BitVec.msb_xor]
  cases a.msb <;> cases b.msb <;> cases poly.getLsbD i <;>
    cases a.getLsbD (i - 1) <;> cases b.getLsbD (i - 1) <;> cases decide (i < w) <;>
    cases decide (0 < i) <;> rfl

section Constant

variable {poly : BitVec w} (hpoly : poly.getLsbD 0 = true)
include hpoly

/-- The lowest bit of the result is the highest bit of the register. -/
theorem shift_injective : Function.Injective (shift poly) := by
  intro a b h
  have hbit : ∀ i, (shift poly a).getLsbD i = (shift poly b).getLsbD i := fun i => by rw [h]
  simp only [getLsbD_shift] at hbit
  have hmsb : a.msb = b.msb := by simpa [hpoly] using hbit 0
  refine BitVec.eq_of_getLsbD_eq fun i hi => ?_
  by_cases htop : i + 1 < w
  · have hi1 := hbit (i + 1)
    rw [hmsb] at hi1
    simpa [htop] using hi1
  · have e : i = w - 1 := by omega
    rw [e, ← BitVec.msb_eq_getLsbD_last, ← BitVec.msb_eq_getLsbD_last, hmsb]

theorem feedBit_injective (b : Bool) : Function.Injective fun c => feedBit poly c b :=
  fun _ _ h => BitVec.xor_left_inj _ |>.mp (shift_injective hpoly h)

theorem feed_injective (bits : List Bool) : Function.Injective fun c => feed poly c bits := by
  induction bits with
  | nil => exact fun _ _ h => h
  | cons b bits ih => exact fun _ _ h => feedBit_injective hpoly b (ih h)

end Constant

/-! ## Bursts -/

theorem getLsbD_pack (bits : List Bool) (i : Nat) :
    (pack bits : BitVec w).getLsbD i = (decide (i < w) && bits.getD (w - 1 - i) false) := by
  induction bits generalizing i with
  | nil => simp [pack]
  | cons b bits ih =>
    rw [pack, BitVec.getLsbD_xor, getLsbD_top, BitVec.getLsbD_ushiftRight, ih]
    by_cases htop : i + 1 = w
    · have h0 : w - 1 - i = 0 := by omega
      have h1 : ¬ 1 + i < w := by omega
      have h2 : i < w := by omega
      rw [h0]
      simp [htop, h1, h2]
    · by_cases hi : i < w
      · have h1 : 1 + i < w := by omega
        have h2 : w - 1 - i = (w - 1 - (1 + i)) + 1 := by omega
        rw [h2, List.getD_cons_succ]
        simp [htop, hi, h1]
      · have h1 : ¬ 1 + i < w := by omega
        simp [htop, hi, h1]

/-- A step undoes a shift to the right that lost no bit. -/
theorem shift_ushiftRight (poly : BitVec w) {y : BitVec w} (hy : y.getLsbD 0 = false) :
    shift poly (y >>> 1) = y := by
  refine BitVec.eq_of_getLsbD_eq fun i hi => ?_
  have hmsb : (y >>> 1).msb = false := by
    rw [BitVec.msb_eq_getLsbD_last, BitVec.getLsbD_ushiftRight]
    exact BitVec.getLsbD_of_ge _ _ (by omega)
  rw [getLsbD_shift, hmsb, BitVec.getLsbD_ushiftRight]
  cases i with
  | zero => simp [hy]
  | succ i => simp [hi, Nat.add_comm]

/-- Up to `w` bits may be put into the register all at once. -/
theorem feed_eq_iterate (poly c : BitVec w) {bits : List Bool} (h : bits.length ≤ w) :
    feed poly c bits = (shift poly)^[bits.length] (c ^^^ pack bits) := by
  induction bits generalizing c with
  | nil => simp [feed, pack]
  | cons b bits ih =>
    have hlen : bits.length < w := h
    have hlow : (pack bits : BitVec w).getLsbD 0 = false := by
      rw [getLsbD_pack, List.getD_eq_getElem?_getD, List.getElem?_eq_none (by omega)]
      exact Bool.and_false _
    calc feed poly c (b :: bits) = feed poly (feedBit poly c b) bits := rfl
      _ = (shift poly)^[bits.length] (feedBit poly c b ^^^ pack bits) := ih _ hlen.le
      _ = (shift poly)^[bits.length] (shift poly (c ^^^ top b ^^^ (pack bits >>> 1))) := by
          rw [shift_xor, shift_ushiftRight poly hlow, feedBit]
      _ = (shift poly)^[(b :: bits).length] (c ^^^ pack (b :: bits)) := by
          rw [pack, BitVec.xor_assoc, List.length_cons, Function.iterate_succ_apply]

theorem pack_injective {bits bits' : List Bool} (hlen : bits.length = bits'.length)
    (hw : bits.length ≤ w) (h : (pack bits : BitVec w) = pack bits') : bits = bits' := by
  refine List.ext_getElem hlen fun k hk hk' => ?_
  have hbit : (pack bits : BitVec w).getLsbD (w - 1 - k) =
      (pack bits' : BitVec w).getLsbD (w - 1 - k) := by rw [h]
  have e : w - 1 - (w - 1 - k) = k := by omega
  have hlt : w - 1 - k < w := by omega
  rw [getLsbD_pack, getLsbD_pack, e, decide_eq_true hlt, Bool.true_and, Bool.true_and,
    List.getD_eq_getElem?_getD, List.getD_eq_getElem?_getD, List.getElem?_eq_getElem hk,
    List.getElem?_eq_getElem hk'] at hbit
  exact hbit

theorem feed_append (poly c : BitVec w) (bits bits' : List Bool) :
    feed poly c (bits ++ bits') = feed poly (feed poly c bits) bits' :=
  List.foldl_append

/-- Messages that leave the same register and only differ in a burst of at most `w` bits are the
same. -/
theorem feed_burst {poly : BitVec w} (hpoly : poly.getLsbD 0 = true) (c : BitVec w)
    {before bits bits' after : List Bool} (hlen : bits.length = bits'.length)
    (hw : bits.length ≤ w)
    (h : feed poly c (before ++ bits ++ after) = feed poly c (before ++ bits' ++ after)) :
    bits = bits' := by
  simp only [feed_append] at h
  have hmid := feed_injective hpoly after h
  simp only [feed_eq_iterate poly (feed poly c before) hw,
    feed_eq_iterate poly (feed poly c before) (hlen.symm.le.trans hw), ← hlen] at hmid
  have hpack := (shift_injective hpoly).iterate bits.length hmid
  exact pack_injective hlen hw ((BitVec.xor_right_inj _).mp hpack)

end MiniUdp.Crc
