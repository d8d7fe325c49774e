import Mathlib.Data.UInt
import Mathlib.Tactic.Ring

/-!
# Serial numbers

A 16-bit counter names the items of an unbounded sequence: `seq k` is the
number of item `k`. The distance `(a - b).toNat` from `b` up to `a` is taken
modulo `2^16`; on items fewer than `2^16` apart it determines the items
(`seq_inj`). Indices are integers, so that the number before the first item is
`seq (-1)`.
-/

namespace MiniUdp.Serial

/-- The serial number of item `k`. -/
def seq (k : Int) : UInt16 := UInt16.ofNat (k % 65536).toNat

theorem toNat_seq (k : Int) : (seq k).toNat = (k % 65536).toNat := by
  simp only [seq, UInt16.toNat_ofNat']
  omega

theorem eq_of_toNat {a b : UInt16} (h : a.toNat = b.toNat) : a = b := UInt16.toNat_inj.mp h

/-- Every serial number is the number of the item at its own value. -/
theorem seq_toNat (a : UInt16) : seq a.toNat = a := by
  have := a.toNat_lt
  exact eq_of_toNat (by rw [toNat_seq]; omega)

theorem seq_add (a b : Int) : seq (a + b) = seq a + seq b :=
  eq_of_toNat (by simp only [toNat_seq, UInt16.toNat_add]; omega)

theorem seq_sub (a b : Int) : seq (a - b) = seq a - seq b :=
  eq_of_toNat (by simp only [toNat_seq, UInt16.toNat_sub]; omega)

theorem seq_add_one (k : Int) : seq (k + 1) = seq k + 1 := seq_add k 1

/-- The distance between two items, modulo the number space. -/
theorem dist_seq (a b : Int) : (seq a - seq b).toNat = ((a - b) % 65536).toNat := by
  rw [← seq_sub, toNat_seq]

/-- Nearby items with one serial number are the same item. -/
theorem seq_inj {a b : Int} (h : seq a = seq b) (h1 : a - b < 65536) (h2 : b - a < 65536) :
    a = b := by
  have := congrArg UInt16.toNat h
  simp only [toNat_seq] at this
  omega

theorem dist_self (a : UInt16) : (a - a).toNat = 0 := by
  have := a.toNat_lt
  simp only [UInt16.toNat_sub]; omega

/-- Two numbers at the same distance behind a third are equal. -/
theorem eq_of_dist_eq {n a b : UInt16} (h : (n - a).toNat = (n - b).toNat) : a = b := by
  have ha := a.toNat_lt; have hb := b.toNat_lt; have hn := n.toNat_lt
  simp only [UInt16.toNat_sub] at h
  exact eq_of_toNat (by omega)

theorem toNat_lt' (a : UInt16) : a.toNat < 65536 := a.toNat_lt

/-! ## Distances to a common point

Distances add up modulo the number space; with these a statement about several
numbers becomes one about their distances to one of them. -/

theorem dist_trans (a b c : UInt16) :
    (a - c).toNat = ((a - b).toNat + (b - c).toNat) % 65536 := by
  have ha := a.toNat_lt; have hb := b.toNat_lt; have hc := c.toNat_lt
  simp only [UInt16.toNat_sub]; omega

theorem dist_comm (a b : UInt16) : (b - a).toNat = (65536 - (a - b).toNat) % 65536 := by
  have ha := a.toNat_lt; have hb := b.toNat_lt
  simp only [UInt16.toNat_sub]; omega

theorem dist_sub_right (a b p : UInt16) :
    (a - (b - p)).toNat = ((a - b).toNat + p.toNat) % 65536 := by
  have ha := a.toNat_lt; have hb := b.toNat_lt; have hp := p.toNat_lt
  simp only [UInt16.toNat_sub]; omega

theorem dist_sub_left (a b p : UInt16) :
    (a - p - b).toNat = ((a - b).toNat + (65536 - p.toNat)) % 65536 := by
  have ha := a.toNat_lt; have hb := b.toNat_lt; have hp := p.toNat_lt
  simp only [UInt16.toNat_sub]; omega

theorem dist_add_left (a b p : UInt16) :
    (a + p - b).toNat = ((a - b).toNat + p.toNat) % 65536 := by
  have ha := a.toNat_lt; have hb := b.toNat_lt; have hp := p.toNat_lt
  simp only [UInt16.toNat_sub, UInt16.toNat_add]; omega

end MiniUdp.Serial
