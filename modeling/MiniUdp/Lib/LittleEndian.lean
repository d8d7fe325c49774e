import Mathlib.Data.UInt
import Mathlib.Tactic.Ring

/-!
# Little-endian bytes

`toLe w n` is the number `n` as `w` bytes, lowest first; `fromLe` reads them
back. Bits above the width are lost (`fromLe_toLe`).
-/

namespace MiniUdp

abbrev Bytes := List UInt8

/-- The low `w` bytes of `n`, lowest first. -/
def toLe : Nat → Nat → Bytes
  | 0, _ => []
  | w + 1, n => UInt8.ofNat n :: toLe w (n / 256)

def fromLe : Bytes → Nat
  | [] => 0
  | b :: bs => b.toNat + 256 * fromLe bs

theorem fromLe_lt (bs : Bytes) : fromLe bs < 256 ^ bs.length := by
  induction bs with
  | nil => simp [fromLe]
  | cons b bs ih =>
    have hb : b.toNat < 256 := b.toNat_lt
    rw [fromLe, List.length_cons, Nat.pow_succ']
    omega

@[simp] theorem length_toLe (w n : Nat) : (toLe w n).length = w := by
  induction w generalizing n with
  | zero => rfl
  | succ w ih => simp [toLe, ih]

theorem fromLe_toLe (w n : Nat) : fromLe (toLe w n) = n % 256 ^ w := by
  induction w generalizing n with
  | zero => simp [toLe, fromLe, Nat.mod_one]
  | succ w ih =>
    have e : n % 256 ^ (w + 1) = n % 256 + 256 * (n / 256 % 256 ^ w) := by
      rw [Nat.pow_succ', Nat.mod_mul]
    rw [e, toLe, fromLe, ih, UInt8.toNat_ofNat']

theorem fromLe_toLe_of_lt {w n : Nat} (h : n < 256 ^ w) : fromLe (toLe w n) = n := by
  rw [fromLe_toLe, Nat.mod_eq_of_lt h]

theorem toLe_fromLe (bs : Bytes) : toLe bs.length (fromLe bs) = bs := by
  induction bs with
  | nil => rfl
  | cons b bs ih =>
    have hb : b.toNat < 256 := b.toNat_lt
    have hdiv : (b.toNat + 256 * fromLe bs) / 256 = fromLe bs := by omega
    have hlow : UInt8.ofNat (b.toNat + 256 * fromLe bs) = b := by
      apply UInt8.toNat_inj.mp
      rw [UInt8.toNat_ofNat']
      omega
    rw [List.length_cons, fromLe, toLe, hdiv, hlow, ih]

end MiniUdp
