import MiniUdp.Lib.Serial
import MiniUdp.Lib.Outcome
import Mathlib.Data.Vector.Basic
import Mathlib.Data.Int.ModEq

/-!
# The ring buffer

`RingBuffer T N` keeps the last `N` items of a 16-bit numbered sequence: the
number of the newest item and one slot per residue modulo `N`. The number of
items has to be a power of two that divides the number space (`Capacity`), so
that the `N` numbers of a window never share a slot (`slot_inj`). The
operations are specified through `get` alone: `get_push`, `get_take`,
`get_insert`, `get_retain`.
-/

namespace MiniUdp

open Serial

/-- Is `x` after `y`, counting a wrap of less than `maxDif` as going up? -/
def wrappingGt (x y maxDif : UInt16) : Bool :=
  if 65535 - x < maxDif ∧ y ≤ x ∧ 65535 - x + y < maxDif then false
  else if 65535 - y < maxDif ∧ x ≤ y ∧ 65535 - y + x < maxDif then true
  else decide (y < x)

/-- The numbers from `start` up to (and without) `stop`, wrapping around. -/
def wrappingRange (start stop : UInt16) : List UInt16 :=
  (List.range (stop - start).toNat).map fun i => start + UInt16.ofNat i

/-- The sizes a ring buffer may have: powers of two, twice which fit the number type. -/
class Capacity (N : Nat) : Prop where
  pow : ∃ k, N = 2 ^ k
  double : 2 * N < 65536

instance : Capacity 32 := ⟨⟨5, rfl⟩, by decide⟩

namespace Capacity

variable {N : Nat} [Capacity N]

theorem pos : 0 < N := by
  obtain ⟨k, rfl⟩ := pow (N := N)
  exact Nat.two_pow_pos k

theorem exists_pow : ∃ k ≤ 14, N = 2 ^ k := by
  obtain ⟨k, rfl⟩ := pow (N := N)
  have h : 2 * 2 ^ k < 2 ^ 16 := double
  have hk : k + 1 < 16 :=
    (Nat.pow_lt_pow_iff_right (a := 2) (by decide)).mp (by rw [Nat.pow_succ]; omega)
  exact ⟨k, by omega, rfl⟩

theorem le : N ≤ 16384 := by
  obtain ⟨k, hk, rfl⟩ := exists_pow (N := N)
  exact (Nat.pow_le_pow_right (by decide) hk : 2 ^ k ≤ 2 ^ 14)

theorem dvd : N ∣ 65536 := by
  obtain ⟨k, hk, rfl⟩ := exists_pow (N := N)
  exact (Nat.pow_dvd_pow 2 (by omega) : 2 ^ k ∣ 2 ^ 16)

/-- What `default` asserts of its capacity. -/
theorem assertions : N < 65535 ∧ 65535 % N = N - 1 := by
  obtain ⟨k, hk, rfl⟩ := exists_pow (N := N)
  exact (by decide : ∀ k ≤ 14, 2 ^ k < 65535 ∧ 65535 % 2 ^ k = 2 ^ k - 1) k hk

end Capacity

structure RingBuffer (T : Type) (N : Nat) where
  newest : UInt16
  items : Vector (Option T) N

namespace RingBuffer

variable {T U : Type} {N : Nat}

/-- The assertions of `default` hold of every capacity (`Capacity.assertions`). -/
def new : RingBuffer T N := ⟨65535, Vector.replicate N none⟩

section Defs

variable [Capacity N]

/-- The slot of an index: `index as usize % NUM_ITEMS`. -/
def slot (N : Nat) [Capacity N] (index : UInt16) : Fin N :=
  ⟨index.toNat % N, Nat.mod_lt _ Capacity.pos⟩

def get (r : RingBuffer T N) (index : UInt16) : Option T :=
  if (r.newest - index).toNat < N then r.items[slot N index] else none

/-- `get_mut`: what is there before and after the caller has changed it with `f`. -/
def getMut (r : RingBuffer T N) (index : UInt16) (f : T → T) : Option T × RingBuffer T N :=
  if (r.newest - index).toNat < N then
    (r.items[slot N index],
      { r with items := r.items.set (slot N index) (r.items[slot N index].map f) })
  else (none, r)

def set (r : RingBuffer T N) (index : UInt16) (item : Option T) : RingBuffer T N :=
  { r with items := r.items.set (slot N index) item }

def push (r : RingBuffer T N) (item : T) : RingBuffer T N :=
  { r with newest := r.newest + 1 }.set (r.newest + 1) (some item)

def take (r : RingBuffer T N) (index : UInt16) : Option T × RingBuffer T N :=
  if (r.newest - index).toNat < N then (r.items[slot N index], r.set index none) else (none, r)

def insert (r : RingBuffer T N) (index : UInt16) (item : T) : RingBuffer T N :=
  let n := UInt16.ofNat N
  let prevOldest := r.newest - (n - 1)
  if wrappingGt prevOldest index (n * 2) || wrappingGt index (r.newest + (n - 1)) (n * 2) then
    -- older than the oldest possible entry, or at least `N` ahead: start afresh
    { newest := index, items := Vector.replicate N none : RingBuffer T N }.set index (some item)
  else if wrappingGt (r.newest + 1) index n && wrappingGt index (r.newest - n) n then
    r.set index (some item)
  else
    let purged := (wrappingRange (r.newest - (n - 1)) (index - (n - 1))).foldl
      (fun r i => (r.take i).2) r
    { purged with newest := index }.set index (some item)

/-- The numbers of the window, oldest first. -/
def window (r : RingBuffer T N) : List UInt16 :=
  wrappingRange (r.newest - (UInt16.ofNat N - 1)) (r.newest + 1)

/-- The numbers of the items in the buffer, oldest first. -/
def keys (r : RingBuffer T N) : List UInt16 :=
  r.window.filter fun i => (r.get i).isSome

/-- One iteration of `retain`: call the closure on the entry at `index`, if there is one. -/
def visit {ε σ : Type} (f : UInt16 → T → σ → Outcome ε (Bool × T × σ))
    (rs : RingBuffer T N × σ) (index : UInt16) : Outcome ε (RingBuffer T N × σ) :=
  if (rs.1.newest - index).toNat < N then
    match rs.1.items[slot N index] with
    | some value => do
      let (keep, value, s) ← f index value rs.2
      pure (rs.1.set index (if keep then some value else none), s)
    | none => pure rs
  else pure rs

/-- Visit the entries of the window, oldest first, with a closure that may change each value and
a state `s` of its own, and keep those it answers `true` for. -/
def retain {ε σ : Type} (r : RingBuffer T N) (f : UInt16 → T → σ → Outcome ε (Bool × T × σ))
    (s : σ) : Outcome ε (RingBuffer T N × σ) :=
  r.window.foldlM (visit f) (r, s)

def pushWillOverride (r : RingBuffer T N) : Bool := (r.items[slot N (r.newest + 1)]).isSome

def getNewestIndex (r : RingBuffer T N) : UInt16 := r.newest

def getNextIndex (r : RingBuffer T N) : UInt16 := r.newest + 1

def len (r : RingBuffer T N) : Nat := r.items.toList.countP Option.isSome

def isEmpty (r : RingBuffer T N) : Bool := r.len == 0

end Defs

end RingBuffer

/-! ## Comparison and ranges -/

/-- `wrappingGt` on the values of its arguments. -/
theorem wrappingGt_toNat (x y m : UInt16) : wrappingGt x y m = true ↔
    ¬ (65535 - x.toNat < m.toNat ∧ y.toNat ≤ x.toNat ∧ 65535 - x.toNat + y.toNat < m.toNat) ∧
    ((65535 - y.toNat < m.toNat ∧ x.toNat ≤ y.toNat ∧ 65535 - y.toNat + x.toNat < m.toNat) ∨
      y.toNat < x.toNat) := by
  have hx := toNat_lt' x; have hy := toNat_lt' y; have hm := toNat_lt' m
  have e : (65535 : UInt16).toNat = 65535 := rfl
  unfold wrappingGt
  simp only [UInt16.lt_iff_toNat_lt, UInt16.le_iff_toNat_le, UInt16.toNat_sub, UInt16.toNat_add, e]
  split
  · simp only [Bool.false_eq_true, false_iff]; omega
  · split
    · simp only [true_iff]; omega
    · simp only [decide_eq_true_eq]; omega

/-- Within its window `wrappingGt` is the order of serial numbers. -/
theorem wrappingGt_iff {x y m : UInt16} (hm : m.toNat < 32768)
    (h : (x - y).toNat ≤ m.toNat ∨ (y - x).toNat ≤ m.toNat) :
    wrappingGt x y m = true ↔ 1 ≤ (x - y).toNat ∧ (x - y).toNat ≤ m.toNat := by
  have hx := toNat_lt' x; have hy := toNat_lt' y
  rw [wrappingGt_toNat]
  simp only [UInt16.toNat_sub] at *
  omega

/-- Outside its window `wrappingGt` compares plain values. -/
theorem wrappingGt_far {x y m : UInt16} (h1 : m.toNat < (x - y).toNat)
    (h2 : m.toNat < (y - x).toNat) : wrappingGt x y m = true ↔ y.toNat < x.toNat := by
  have hx := toNat_lt' x; have hy := toNat_lt' y
  rw [wrappingGt_toNat]
  simp only [UInt16.toNat_sub] at *
  omega

theorem mem_wrappingRange {start stop i : UInt16} :
    i ∈ wrappingRange start stop ↔ (i - start).toNat < (stop - start).toNat := by
  have hs := toNat_lt' start; have hi := toNat_lt' i; have ht := toNat_lt' (stop - start)
  simp only [wrappingRange, List.mem_map, List.mem_range]
  constructor
  · rintro ⟨k, hk, rfl⟩
    simp only [UInt16.toNat_sub, UInt16.toNat_add, UInt16.toNat_ofNat'] at *
    omega
  · intro h
    refine ⟨(i - start).toNat, h, eq_of_toNat ?_⟩
    simp only [UInt16.toNat_sub, UInt16.toNat_add, UInt16.toNat_ofNat'] at *
    omega

namespace RingBuffer

variable {T U : Type} {N : Nat} [Capacity N]

/-! ## Slots -/

theorem slot_eq_iff {n a b : UInt16} (ha : (n - a).toNat < N) (hb : (n - b).toNat < N) :
    slot N a = slot N b ↔ a = b := by
  refine ⟨fun h => ?_, fun h => by rw [h]⟩
  have hdvd : N ∣ 65536 := Capacity.dvd
  have h : a.toNat % N = b.toNat % N := congrArg Fin.val h
  have ha' := toNat_lt' a; have hb' := toNat_lt' b; have hn := toNat_lt' n
  -- counting back from `n`, the two distances agree modulo `N`
  have key : ∀ c : UInt16, (n - c).toNat < N → (c.toNat + (n - c).toNat) % N = n.toNat % N := by
    intro c _
    have hc := toNat_lt' c
    have : (c.toNat + (n - c).toNat) % 65536 = n.toNat % 65536 := by
      simp only [UInt16.toNat_sub]; omega
    rw [← Nat.mod_mod_of_dvd _ hdvd, this, Nat.mod_mod_of_dvd _ hdvd]
  have e : (n - a).toNat ≡ (n - b).toNat [MOD N] := by
    have h' : a.toNat ≡ b.toNat [MOD N] := h
    exact h'.add_left_cancel ((key a ha).trans (key b hb).symm)
  exact eq_of_dist_eq (Nat.ModEq.eq_of_lt_of_lt e ha hb)

/-- The number `N` places earlier has the same slot. -/
theorem slot_sub_cap (a : UInt16) : slot N (a - UInt16.ofNat N) = slot N a := by
  have hdvd : N ∣ 65536 := Capacity.dvd
  have h2 : 2 * N < 65536 := Capacity.double
  have ha := toNat_lt' a
  apply Fin.ext
  show (a - UInt16.ofNat N).toNat % N = a.toNat % N
  have e : (a - UInt16.ofNat N).toNat + N ≡ a.toNat [MOD 65536] := by
    show (_ % 65536 : Nat) = _ % 65536
    simp only [UInt16.toNat_sub, UInt16.toNat_ofNat']; omega
  have := e.of_dvd hdvd
  rw [← Nat.add_mod_right]
  exact this

theorem get_eq_none {r : RingBuffer T N} {j : UInt16} (h : ¬ (r.newest - j).toNat < N) :
    r.get j = none := if_neg h

theorem dist_of_get {r : RingBuffer T N} {j : UInt16} {x : T} (h : r.get j = some x) :
    (r.newest - j).toNat < N := by
  by_contra hc
  rw [get_eq_none hc] at h; cases h

@[simp] theorem get_new (j : UInt16) : (new : RingBuffer T N).get j = none := by
  unfold get new
  split
  · simp
  · rfl

@[simp] theorem newest_set (r : RingBuffer T N) (i : UInt16) (v : Option T) :
    (r.set i v).newest = r.newest := rfl

theorem get_set {r : RingBuffer T N} {i : UInt16} (v : Option T) (j : UInt16)
    (hi : (r.newest - i).toNat < N) :
    (r.set i v).get j = if j = i then v else r.get j := by
  unfold get
  rw [newest_set]
  by_cases hj : (r.newest - j).toNat < N
  · simp only [if_pos hj, set, Fin.getElem_fin, Vector.getElem_set]
    by_cases e : j = i
    · subst e; simp
    · have : ¬ (slot N i).val = (slot N j).val := fun h =>
        e ((slot_eq_iff hj hi).mp (Fin.ext h.symm))
      simp [e, this]
  · have e : j ≠ i := fun e => hj (e ▸ hi)
    simp [hj, e]

@[simp] theorem newest_push (r : RingBuffer T N) (x : T) : (r.push x).newest = r.newest + 1 := rfl

theorem getElem_slot_sub_cap (r : RingBuffer T N) (j : UInt16) :
    r.items[slot N j] = r.items[slot N (j - UInt16.ofNat N)] := by simp only [slot_sub_cap]

/-- What is stored under a number of the window is what its slot holds. -/
theorem getElem_slot {r : RingBuffer T N} {j : UInt16} (h : (r.newest - j).toNat < N) :
    r.items[slot N j] = r.get j := (if_pos h).symm

theorem get_push (r : RingBuffer T N) (x : T) (j : UInt16) : (r.push x).get j =
    if j = r.newest + 1 then some x
    else if (r.newest + 1 - j).toNat < N then r.get j else none := by
  have hpos : 0 < N := Capacity.pos
  have h0 : ((r.newest + 1) - (r.newest + 1)).toNat < N := by rw [dist_self]; exact hpos
  unfold push
  rw [get_set (r := { r with newest := r.newest + 1 }) _ _ h0]
  by_cases e : j = r.newest + 1
  · simp [e]
  · simp only [e, if_false, get]
    by_cases hj : (r.newest + 1 - j).toNat < N
    · have hj' : (r.newest - j).toNat < N := by
        have hn := toNat_lt' r.newest; have hjl := toNat_lt' j
        have : j.toNat ≠ (r.newest + 1).toNat := fun h => e (eq_of_toNat h)
        simp only [UInt16.toNat_sub, UInt16.toNat_add, UInt16.toNat_one] at *
        omega
      simp only [if_pos hj, if_pos hj']
    · simp only [if_neg hj]

@[simp] theorem newest_take (r : RingBuffer T N) (i : UInt16) : (r.take i).2.newest = r.newest := by
  unfold take; split <;> rfl

theorem fst_take (r : RingBuffer T N) (i : UInt16) : (r.take i).1 = r.get i := by
  unfold take get; split <;> rfl

theorem get_take (r : RingBuffer T N) (i j : UInt16) :
    (r.take i).2.get j = if j = i then none else r.get j := by
  unfold take
  split
  · rename_i h
    exact get_set none j h
  · rename_i h
    by_cases e : j = i
    · subst e; simp [get_eq_none h]
    · simp [e]

@[simp] theorem newest_purge (l : List UInt16) (r : RingBuffer T N) :
    (l.foldl (fun r i => (r.take i).2) r).newest = r.newest := by
  induction l generalizing r with
  | nil => rfl
  | cons i l ih => simp [ih]

theorem get_purge (l : List UInt16) (r : RingBuffer T N) (j : UInt16) :
    (l.foldl (fun r i => (r.take i).2) r).get j = if j ∈ l then none else r.get j := by
  induction l generalizing r with
  | nil => simp
  | cons i l ih =>
    simp only [List.foldl_cons, ih, get_take, List.mem_cons]
    by_cases h1 : j ∈ l <;> by_cases h2 : j = i <;> simp [h1, h2]

/-! ### Insertion -/

theorem toNat_cap : (UInt16.ofNat N).toNat = N := by
  have h2 : 2 * N < 65536 := Capacity.double
  rw [UInt16.toNat_ofNat']; omega

theorem toNat_cap_sub_one : (UInt16.ofNat N - 1).toNat = N - 1 := by
  have h2 : 2 * N < 65536 := Capacity.double
  have hpos : 0 < N := Capacity.pos
  rw [UInt16.toNat_sub, toNat_cap, UInt16.toNat_one]; omega

theorem toNat_cap_mul_two : (UInt16.ofNat N * 2).toNat = 2 * N := by
  have h2 : 2 * N < 65536 := Capacity.double
  have e : (2 : UInt16).toNat = 2 := rfl
  rw [UInt16.toNat_mul, toNat_cap, e]; omega

/-- The test for starting afresh holds exactly `N` or more away on either side. -/
theorem reset_iff (a i : UInt16) :
    (wrappingGt (a - (UInt16.ofNat N - 1)) i (UInt16.ofNat N * 2) ||
      wrappingGt i (a + (UInt16.ofNat N - 1)) (UInt16.ofNat N * 2)) = true ↔
    ¬ (a - i).toNat < N ∧ N ≤ (i - a).toNat := by
  have hle : N ≤ 16384 := Capacity.le
  have hpos : 0 < N := Capacity.pos
  have ha := toNat_lt' a; have hi := toNat_lt' i
  have hp := toNat_cap_sub_one (N := N)
  have hm := toNat_cap_mul_two (N := N)
  generalize UInt16.ofNat N - 1 = p at *
  generalize UInt16.ofNat N * 2 = m at *
  simp only [Bool.or_eq_true, wrappingGt_toNat]
  simp only [UInt16.toNat_sub, UInt16.toNat_add, hp, hm]
  omega

/-- The test for an index inside the window, once starting afresh is ruled out. -/
theorem inWindow_iff {a i : UInt16} (_h : ¬ (¬ (a - i).toNat < N ∧ N ≤ (i - a).toNat)) :
    (wrappingGt (a + 1) i (UInt16.ofNat N) &&
      wrappingGt i (a - UInt16.ofNat N) (UInt16.ofNat N)) = true ↔ (a - i).toNat < N := by
  have hle : N ≤ 16384 := Capacity.le
  have hpos : 0 < N := Capacity.pos
  have ha := toNat_lt' a; have hi := toNat_lt' i
  have hn := toNat_cap (N := N)
  generalize UInt16.ofNat N = n at *
  simp only [Bool.and_eq_true, wrappingGt_toNat]
  simp only [UInt16.toNat_sub, UInt16.toNat_add, UInt16.toNat_one, hn] at *
  omega

/-- The three branches of `insert`, by the distance between the index and the newest number. -/
theorem insert_eq (r : RingBuffer T N) (i : UInt16) (x : T) : r.insert i x =
    if (r.newest - i).toNat < N then r.set i (some x)
    else if N ≤ (i - r.newest).toNat then
      { newest := i, items := Vector.replicate N none : RingBuffer T N }.set i (some x)
    else
      { newest := i, items := ((wrappingRange (r.newest - (UInt16.ofNat N - 1))
          (i - (UInt16.ofNat N - 1))).foldl (fun r i => (r.take i).2) r).items
        : RingBuffer T N }.set i (some x) := by
  unfold insert
  simp only [reset_iff]
  by_cases h : ¬ (r.newest - i).toNat < N ∧ N ≤ (i - r.newest).toNat
  · rw [if_pos h, if_neg h.1, if_pos h.2]
  · rw [if_neg h, if_congr (inWindow_iff h) rfl rfl]
    by_cases h' : (r.newest - i).toNat < N
    · rw [if_pos h', if_pos h']
    · rw [if_neg h', if_neg h', if_neg (fun h2 => h ⟨h', h2⟩)]

theorem newest_insert (r : RingBuffer T N) (i : UInt16) (x : T) :
    (r.insert i x).newest = if (r.newest - i).toNat < N then r.newest else i := by
  rw [insert_eq]
  split
  · rfl
  · split <;> rfl

/-- The purge for an index `i` less than `N` ahead removes what leaves the window. -/
theorem mem_purge_iff {n i j : UInt16} (h : (i - n).toNat < N) (hj : (n - j).toNat < N) :
    j ∈ wrappingRange (n - (UInt16.ofNat N - 1)) (i - (UInt16.ofNat N - 1)) ↔
    ¬ (i - j).toNat < N := by
  have hle : N ≤ 16384 := Capacity.le
  have hpos : 0 < N := Capacity.pos
  have hp := toNat_cap_sub_one (N := N)
  generalize UInt16.ofNat N - 1 = p at *
  rw [mem_wrappingRange, dist_sub_right, dist_sub_right, dist_sub_left, dist_comm n j,
    dist_trans i n j, hp]
  omega

/-- After the purge for an index `i` less than `N` ahead, the slots of the window ending at `i`
hold what the old window still has there. -/
theorem getElem_purge {r : RingBuffer T N} {i j : UInt16} (h : (i - r.newest).toNat < N)
    (hw : (i - j).toNat < N) :
    ((wrappingRange (r.newest - (UInt16.ofNat N - 1)) (i - (UInt16.ofNat N - 1))).foldl
      (fun r i => (r.take i).2) r).items[slot N j] = r.get j := by
  by_cases hold : (r.newest - j).toNat < N
  · rw [getElem_slot (by rwa [newest_purge]), get_purge, if_neg]
    rw [mem_purge_iff h hold]
    exact fun hc => hc hw
  · -- the slot belonged to the number `N` earlier, which the purge removes
    have hle : N ≤ 16384 := Capacity.le
    have hi := dist_trans i r.newest j
    have hn := toNat_lt' (r.newest - j); have hij := toNat_lt' (i - j)
    have e1 := dist_sub_right r.newest j (UInt16.ofNat N)
    have e2 := dist_sub_right i j (UInt16.ofNat N)
    rw [toNat_cap] at e1 e2
    have hold' : (r.newest - (j - UInt16.ofNat N)).toNat < N := by omega
    rw [get_eq_none hold, getElem_slot_sub_cap, getElem_slot (by rwa [newest_purge]), get_purge, if_pos]
    rw [mem_purge_iff h hold']
    omega

/-- An insertion keeps the entries of the new window, apart from the written one. -/
theorem get_insert (r : RingBuffer T N) (i : UInt16) (x : T) (j : UInt16) :
    (r.insert i x).get j = if j = i then some x
      else if ((r.insert i x).newest - j).toNat < N then r.get j else none := by
  have hle : N ≤ 16384 := Capacity.le
  have hpos : 0 < N := Capacity.pos
  have h0 : (i - i).toNat < N := by rw [dist_self]; exact hpos
  have ha := toNat_lt' r.newest; have hi := toNat_lt' i; have hj := toNat_lt' j
  rw [newest_insert, insert_eq]
  by_cases near : (r.newest - i).toNat < N
  · rw [if_pos near, if_pos near, get_set _ _ near]
    by_cases e : j = i
    · rw [if_pos e, if_pos e]
    · rw [if_neg e, if_neg e]
      split
      · rfl
      · rename_i hw; exact get_eq_none hw
  rw [if_neg near, if_neg near]
  split
  · rename_i far
    rw [get_set _ _ h0]
    by_cases e : j = i
    · rw [if_pos e, if_pos e]
    rw [if_neg e, if_neg e]
    by_cases hw : (i - j).toNat < N
    · -- the old and the new window do not meet
      have hj' : ¬ (r.newest - j).toNat < N := by
        have := dist_trans i r.newest j
        have := dist_comm i r.newest
        omega
      rw [if_pos hw, get_eq_none hj']
      simp [get]
    · rw [if_neg hw, get_eq_none hw]
  · rename_i ahead
    rw [get_set _ _ h0]
    by_cases e : j = i
    · rw [if_pos e, if_pos e]
    rw [if_neg e, if_neg e]
    by_cases hw : (i - j).toNat < N
    · rw [if_pos hw]
      unfold get
      rw [if_pos hw]
      exact getElem_purge (by omega) hw
    · rw [if_neg hw, get_eq_none hw]

/-! ### The window -/

theorem mem_window {r : RingBuffer T N} {i : UInt16} :
    i ∈ r.window ↔ (r.newest - i).toNat < N := by
  have hle : N ≤ 16384 := Capacity.le
  have hpos : 0 < N := Capacity.pos
  have hp := toNat_cap_sub_one (N := N)
  unfold window
  generalize UInt16.ofNat N - 1 = p at *
  rw [mem_wrappingRange, dist_sub_right, dist_sub_right, dist_add_left, dist_self,
    UInt16.toNat_one, dist_comm r.newest i, hp]
  have := toNat_lt' (r.newest - i)
  omega

/-- The window of a buffer whose newest item is item `m`. -/
theorem window_seq {r : RingBuffer T N} {m : Int} (h : r.newest = seq m) :
    r.window = (List.range N).map fun j : Nat => seq (m + 1 - N + j) := by
  have hle : N ≤ 16384 := Capacity.le
  have hpos : 0 < N := Capacity.pos
  have hp := toNat_cap_sub_one (N := N)
  unfold window wrappingRange
  generalize UInt16.ofNat N - 1 = p at *
  have hlen : (r.newest + 1 - (r.newest - p)).toNat = N := by
    rw [dist_sub_right, dist_add_left, dist_self, UInt16.toNat_one, hp]
    omega
  rw [hlen, h]
  refine List.map_congr_left fun j hj => eq_of_toNat ?_
  have hj : j < N := List.mem_range.mp hj
  simp only [UInt16.toNat_add, UInt16.toNat_sub, UInt16.toNat_ofNat', toNat_seq, hp]
  omega

theorem nodup_window (r : RingBuffer T N) : r.window.Nodup := by
  have hle : N ≤ 16384 := Capacity.le
  rw [window_seq (m := r.newest.toNat) (seq_toNat _).symm]
  refine List.Nodup.map_on (fun i hi j hj h => ?_) List.nodup_range
  have hi := List.mem_range.mp hi
  have hj := List.mem_range.mp hj
  have := seq_inj h (by omega) (by omega)
  omega

theorem mem_keys {r : RingBuffer T N} {i : UInt16} : i ∈ r.keys ↔ (r.get i).isSome := by
  simp only [keys, List.mem_filter, mem_window, and_iff_right_iff_imp]
  intro h
  obtain ⟨x, hx⟩ := Option.isSome_iff_exists.mp h
  exact dist_of_get hx

/-- The slot of the next number holds the oldest entry of the window. -/
theorem pushWillOverride_eq (r : RingBuffer T N) :
    r.pushWillOverride = (r.get (r.newest + 1 - UInt16.ofNat N)).isSome := by
  have hle : N ≤ 16384 := Capacity.le
  have hpos : 0 < N := Capacity.pos
  have h : (r.newest - (r.newest + 1 - UInt16.ofNat N)).toNat < N := by
    have e : (r.newest - (r.newest + 1)).toNat = 65535 := by
      rw [dist_comm (r.newest + 1) r.newest, dist_add_left, dist_self, UInt16.toNat_one]
    rw [dist_sub_right, e, toNat_cap]
    omega
  rw [pushWillOverride, getElem_slot_sub_cap, getElem_slot h]

/-- Every slot is the slot of some number of the window. -/
theorem exists_slot (r : RingBuffer T N) (s : Nat) (hs : s < N) :
    ∃ i, (r.newest - i).toNat < N ∧ (slot N i).val = s := by
  have hle : N ≤ 16384 := Capacity.le
  have hpos : 0 < N := Capacity.pos
  have hn := toNat_lt' r.newest
  -- count back from the newest number to the residue `s`
  have hd : (r.newest.toNat + (N - s)) % N < N := Nat.mod_lt _ hpos
  refine ⟨r.newest - UInt16.ofNat ((r.newest.toNat + (N - s)) % N), ?_, ?_⟩
  · rw [dist_sub_right, dist_self, UInt16.toNat_ofNat']
    omega
  · show (r.newest - _ : UInt16).toNat % N = s
    generalize hk : (r.newest.toNat + (N - s)) % N = k at *
    have e : (r.newest - UInt16.ofNat k).toNat ≡ r.newest.toNat + (65536 - k) [MOD 65536] := by
      show (_ % 65536 : Nat) = _ % 65536
      simp only [UInt16.toNat_sub, UInt16.toNat_ofNat']; omega
    have e' := e.of_dvd (Capacity.dvd (N := N))
    have hkm : k ≡ r.newest.toNat + (N - s) [MOD N] := by
      rw [← hk]; exact Nat.mod_modEq _ _
    have hz : 65536 ≡ 0 [MOD N] := (Nat.modEq_zero_iff_dvd).mpr Capacity.dvd
    have hN : N ≡ 0 [MOD N] := (Nat.modEq_zero_iff_dvd).mpr (Nat.dvd_refl N)
    have goal : (r.newest - UInt16.ofNat k).toNat ≡ s [MOD N] := by
      refine Nat.ModEq.add_right_cancel' k ?_
      calc (r.newest - UInt16.ofNat k).toNat + k
          ≡ r.newest.toNat + (65536 - k) + k [MOD N] := e'.add_right k
        _ = r.newest.toNat + 65536 := by omega
        _ ≡ r.newest.toNat + N [MOD N] := (hz.trans hN.symm).add_left _
        _ = s + (r.newest.toNat + (N - s)) := by omega
        _ ≡ s + k [MOD N] := hkm.symm.add_left s
    exact Nat.mod_eq_of_lt hs ▸ goal

theorem isEmpty_iff (r : RingBuffer T N) : r.isEmpty = true ↔ ∀ i, r.get i = none := by
  simp only [isEmpty, len, beq_iff_eq, List.countP_eq_zero, Vector.mem_toList_iff]
  constructor
  · intro h i
    unfold get
    split
    · simpa using h r.items[slot N i] (Vector.getElem_mem (slot N i).isLt)
    · rfl
  · intro h x hx
    obtain ⟨s, hs, rfl⟩ := Vector.mem_iff_getElem.mp hx
    obtain ⟨i, hi, rfl⟩ := r.exists_slot s hs
    have e : r.items[slot N i] = none := (getElem_slot hi).trans (h i)
    rw [Fin.getElem_fin] at e
    simp [e]

/-! ### Retain -/

section Retain

variable {ε σ : Type} {f : UInt16 → T → σ → Outcome ε (Bool × T × σ)}

theorem visit_of_get {r : RingBuffer T N} {s : σ} {i : UInt16} (h : (r.newest - i).toNat < N) :
    visit f (r, s) i = match r.get i with
      | some v => do
        let (keep, v', s') ← f i v s
        pure (r.set i (if keep then some v' else none), s')
      | none => pure (r, s) := by
  simp only [visit, if_pos h, getElem_slot h]

/-- What has become of the entries when the numbers `done` are visited: `Q` relates each visited
entry to what is left of it, the others are untouched. -/
structure Retained (r : RingBuffer T N) (Q : UInt16 → T → Option T → Prop) (done : List UInt16)
    (r' : RingBuffer T N) : Prop where
  newest : r'.newest = r.newest
  visited : ∀ i ∈ done, ∀ v, r.get i = some v → Q i v (r'.get i)
  absent : ∀ i, r.get i = none → r'.get i = none
  rest : ∀ i, i ∉ done → r'.get i = r.get i

theorem Retained.nil (r : RingBuffer T N) (Q : UInt16 → T → Option T → Prop) :
    Retained r Q [] r := ⟨rfl, by simp, fun _ h => h, fun _ _ => rfl⟩

theorem Retained.skip {r r' : RingBuffer T N} {Q : UInt16 → T → Option T → Prop}
    {done : List UInt16} {i : UInt16} (h : Retained r Q done r') (hi : r.get i = none) :
    Retained r Q (done ++ [i]) r' where
  newest := h.newest
  visited j hj v hv := by
    rcases List.mem_append.mp hj with hj | hj
    · exact h.visited j hj v hv
    · rw [List.mem_singleton.mp hj, hi] at hv; cases hv
  absent := h.absent
  rest j hj := h.rest j fun hd => hj (List.mem_append_left _ hd)

theorem Retained.change {r r' : RingBuffer T N} {Q : UInt16 → T → Option T → Prop}
    {done : List UInt16} {i : UInt16} {v : T} {o : Option T} (h : Retained r Q done r')
    (hi : r.get i = some v) (hd : i ∉ done) (hQ : Q i v o) :
    Retained r Q (done ++ [i]) (r'.set i o) := by
  have hw : (r'.newest - i).toNat < N := h.newest ▸ dist_of_get hi
  refine ⟨h.newest, fun j hj w hw' => ?_, fun j hj => ?_, fun j hj => ?_⟩
  · rw [get_set _ _ hw]
    rcases List.mem_append.mp hj with hj | hj
    · have e : j ≠ i := fun e => hd (e ▸ hj)
      rw [if_neg e]
      exact h.visited j hj w hw'
    · obtain rfl := List.mem_singleton.mp hj
      rw [if_pos rfl]
      rw [hi] at hw'; cases hw'
      exact hQ
  · rw [get_set _ _ hw, if_neg (by rintro rfl; rw [hi] at hj; cases hj)]
    exact h.absent j hj
  · rw [get_set _ _ hw, if_neg (by rintro rfl; exact hj (by simp))]
    exact h.rest j fun hd => hj (List.mem_append_left _ hd)

/-- A visit to a number of the window that has not been visited yet. -/
theorem Retained.step {r r1 : RingBuffer T N} {Q : UInt16 → T → Option T → Prop}
    {done rest : List UInt16} {i : UInt16} (h : Retained r Q done r1)
    (hl : r.window = done ++ i :: rest) (s : σ) : i ∉ done ∧
    visit f (r1, s) i = match r.get i with
      | some v => do
        let (keep, v', s') ← f i v s
        pure (r1.set i (if keep then some v' else none), s')
      | none => pure (r1, s) := by
  have hnd := r.nodup_window
  rw [hl, List.nodup_append] at hnd
  have hd : i ∉ done := fun hd => hnd.2.2 i hd i (by simp) rfl
  have hw : (r1.newest - i).toNat < N := by
    rw [h.newest, ← mem_window, hl]; simp
  exact ⟨hd, by rw [visit_of_get hw, h.rest i hd]⟩

/-- The rule for `retain`: what every call of the closure keeps holds after all of them, and
every entry is related to what is left of it. -/
theorem retain_invariant {P : List UInt16 → σ → Prop} {Q : UInt16 → T → Option T → Prop}
    {r r' : RingBuffer T N} {s s' : σ} (h0 : P [] s)
    (hskip : ∀ done i s, r.get i = none → P done s → P (done ++ [i]) s)
    (hvisit : ∀ done i v s keep v' s', r.get i = some v → P done s →
      f i v s = .ok (keep, v', s') →
      P (done ++ [i]) s' ∧ Q i v (if keep then some v' else none))
    (h : r.retain f s = .ok (r', s')) : P r.window s' ∧ Retained r Q r.window r' := by
  refine Outcome.foldlM_invariant (P := fun done rs => P done rs.2 ∧ Retained r Q done rs.1)
    ⟨h0, .nil r Q⟩ ?_ h
  rintro done i rest ⟨r1, s1⟩ ⟨r2, s2⟩ hl ⟨hP, hR⟩ hstep
  obtain ⟨hd, e⟩ := hR.step (f := f) hl s1
  rw [e] at hstep
  cases hi : r.get i with
  | none =>
    simp only [hi, Outcome.pure_def, Outcome.ok.injEq, Prod.mk.injEq] at hstep
    obtain ⟨rfl, rfl⟩ := hstep
    exact ⟨hskip done i s1 hi hP, hR.skip hi⟩
  | some v =>
    simp only [hi, Outcome.bind_eq_ok] at hstep
    obtain ⟨⟨keep, v', s3⟩, hf, hstep⟩ := hstep
    simp only [Outcome.pure_def, Outcome.ok.injEq, Prod.mk.injEq] at hstep
    obtain ⟨rfl, rfl⟩ := hstep
    obtain ⟨hP', hQ⟩ := hvisit done i v s1 keep v' s3 hi hP hf
    exact ⟨hP', hR.change hi hd hQ⟩

/-- `retain` returns when every call of the closure does. -/
theorem retain_total {P : List UInt16 → σ → Prop} {r : RingBuffer T N} {s : σ} (h0 : P [] s)
    (hskip : ∀ done i s, r.get i = none → P done s → P (done ++ [i]) s)
    (hvisit : ∀ done i v s, r.get i = some v → P done s →
      ∃ keep v' s', f i v s = .ok (keep, v', s') ∧ P (done ++ [i]) s') :
    ∃ r' s', r.retain f s = .ok (r', s') := by
  obtain ⟨⟨r', s'⟩, h, -⟩ := Outcome.foldlM_total (f := visit f) (l := r.window)
    (P := fun done rs => P done rs.2 ∧ Retained r (fun _ _ _ => True) done rs.1)
    (s := (r, s)) ⟨h0, .nil r _⟩ (by
      rintro done i rest ⟨r1, s1⟩ hl ⟨hP, hR⟩
      obtain ⟨hd, e⟩ := hR.step (f := f) hl s1
      cases hi : r.get i with
      | none => exact ⟨(r1, s1), by simp [e, hi], hskip done i s1 hi hP, hR.skip hi⟩
      | some v =>
        obtain ⟨keep, v', s2, hf, hP'⟩ := hvisit done i v s1 hi hP
        exact ⟨_, by simp only [e, hi, hf]; rfl, hP', hR.change hi hd trivial⟩)
  exact ⟨r', s', h⟩

/-- `retain` with a closure of whose state only `φ` is seen. -/
theorem retain_map {τ : Type} {φ : σ → τ} {g : UInt16 → T → τ → Outcome ε (Bool × T × τ)}
    {r : RingBuffer T N} (h : ∀ i v s, r.get i = some v →
      Prod.map id (Prod.map id φ) <$> f i v s = g i v (φ s)) (s : σ) :
    Prod.map id φ <$> r.retain f s = r.retain g (φ s) := by
  refine Outcome.foldlM_map (φ := Prod.map id φ)
    (P := fun done rs => Retained r (fun _ _ _ => True) done rs.1) (.nil r _) ?_
  rintro done i rest ⟨r1, s1⟩ hl hR
  obtain ⟨hd, e⟩ := hR.step (f := f) hl s1
  obtain ⟨-, e'⟩ := hR.step (f := g) hl (φ s1)
  rw [e]
  change _ = visit g (r1, φ s1) i ∧ _
  rw [e']
  cases hi : r.get i with
  | none =>
    refine ⟨rfl, fun rs hrs => ?_⟩
    cases hrs
    exact hR.skip hi
  | some v =>
    dsimp only
    rw [← h i v s1 hi]
    cases hf : f i v s1 with
    | ok out =>
      refine ⟨rfl, fun rs hrs => ?_⟩
      cases hrs
      exact hR.change hi hd trivial
    | err | panic | hang => exact ⟨rfl, fun rs hrs => (nomatch hrs)⟩

end Retain

end RingBuffer

end MiniUdp
