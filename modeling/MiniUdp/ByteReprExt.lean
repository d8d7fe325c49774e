import MiniUdp.ByteRepr
import MiniUdp.Lib.Greedy
import MiniUdp.Lib.While

/-!
# Many values in one slice

`writeMany` writes values one after the other for as long as they fit;
`readMany` reads values until fewer bytes are left than any value takes. With a
codec that can be relied on, and values that take at least one byte, they agree
on every boundary between two values (`readMany_writeMany`).
-/

namespace MiniUdp

open ByteRepr Greedy While

variable {M : Type} [ByteRepr M]

/-! ## Writing -/

/-- The loop of `write_many`, with `i` values written and `ptr` behind them. `ptr` does not pass
the end, so that `bytes.len() - ptr` does not overflow. -/
def writeManyFrom : List M → Nat → Nat → Bytes → Bytes × Outcome Empty (Nat × Nat)
  | [], i, ptr, bytes => (bytes, .ok (i, ptr))
  | v :: values, i, ptr, bytes =>
    if bytes.length - ptr < byteLen v then (bytes, .ok (i, ptr))
    else
      match Write.suffix ptr (writeToBytes v) bytes with
      | (bytes, .ok ()) => writeManyFrom values (i + 1) (ptr + byteLen v) bytes
      | (bytes, .err _) => (bytes, .ok (i, ptr))
      | (bytes, .panic) => (bytes, .panic)
      | (bytes, .hang) => (bytes, .hang)

def writeMany (values : List M) (bytes : Bytes) : Bytes × Outcome Empty (Nat × Nat) :=
  writeManyFrom values 0 0 bytes

/-! ## Reading -/

/-- The locals of `read_many`. -/
structure ReadMany (M : Type) where
  ptr : Nat
  out : List M

def ReadMany.guard (bytes : Bytes) (s : ReadMany M) : Bool :=
  decide (s.ptr < bytes.length ∧ minByteLen M ≤ bytes.length - s.ptr)

def ReadMany.step (bytes : Bytes) (s : ReadMany M) : Res (ReadMany M) := do
  let v ← fromBytes (← suffixFrom bytes s.ptr)
  pure ⟨s.ptr + byteLen v, s.out ++ [v]⟩

/-- `read_many`, for at most `fuel` iterations of its loop. -/
def readMany (M : Type) [ByteRepr M] (fuel : Nat) (bytes : Bytes) : Option (Res (List M × Nat)) :=
  (tryWhile (ReadMany.guard bytes) (ReadMany.step bytes) fuel ⟨0, []⟩).map fun result => do
    let s ← result
    pure (s.out, s.ptr)

/-! ## Both on encodings -/

section Lawful

variable [LawfulByteRepr M]

/-- The encodings of the values, one after the other. -/
def encodeMany (values : List M) : Bytes := values.flatMap LawfulByteRepr.encode

theorem length_encodeMany (values : List M) :
    (encodeMany values).length = (values.map byteLen).sum := by
  induction values with
  | nil => rfl
  | cons v values ih =>
    unfold encodeMany at *
    rw [List.flatMap_cons, List.length_append, LawfulByteRepr.length_encode, ih, List.map_cons,
      List.sum_cons]

/-- The loop of `write_many` writes the encodings of the longest prefix that fits. -/
theorem writeManyFrom_eq (values : List M) (i : Nat) {ptr : Nat} {bytes : Bytes}
    (h : ptr ≤ bytes.length) : ∃ k ≤ values.length,
      Longest byteLen (bytes.length - ptr) (values.take k) values ∧
      writeManyFrom values i ptr bytes =
        (bytes.take ptr ++ encodeMany (values.take k) ++
          bytes.drop (ptr + (encodeMany (values.take k)).length),
          .ok (i + k, ptr + (encodeMany (values.take k)).length)) := by
  induction values generalizing i ptr bytes with
  | nil =>
    refine ⟨0, Nat.le_refl 0, ⟨List.prefix_refl [], by simp, fun l hl _ => hl⟩, ?_⟩
    simp [writeManyFrom, encodeMany]
  | cons v values ih =>
    unfold writeManyFrom
    by_cases hv : bytes.length - ptr < byteLen v
    · rw [if_pos hv]
      refine ⟨0, Nat.zero_le _, ⟨by simp, by simp, fun l hl hw => ?_⟩, by simp [encodeMany]⟩
      cases l with
      | nil => exact List.prefix_refl []
      | cons w l =>
        obtain ⟨rfl, _⟩ := List.cons_prefix_cons.mp hl
        rw [List.map_cons, List.sum_cons] at hw
        omega
    · rw [if_neg hv]
      -- there is room for `v`: it is written at `ptr`, and the rest behind it
      have hl := LawfulByteRepr.length_encode v
      have hw := (LawfulByteRepr.writes v).suffix ptr bytes (by omega)
      simp only [Nat.add_zero] at hw
      have hlen : (bytes.take ptr ++ LawfulByteRepr.encode v ++
          bytes.drop (ptr + (LawfulByteRepr.encode v).length)).length = bytes.length := by
        simp; omega
      have hroom : ptr + byteLen v ≤ (bytes.take ptr ++ LawfulByteRepr.encode v ++
          bytes.drop (ptr + (LawfulByteRepr.encode v).length)).length := by omega
      obtain ⟨k, hk, hlong, he⟩ := ih (i + 1) hroom
      rw [hlen] at hlong
      refine ⟨k + 1, Nat.succ_le_succ hk, ⟨?_, ?_, fun l hp hs => ?_⟩, ?_⟩
      · exact List.take_prefix _ _
      · rw [List.take_succ_cons, List.map_cons, List.sum_cons]
        have := hlong.within
        omega
      · cases l with
        | nil => exact List.nil_prefix
        | cons w l =>
          obtain ⟨rfl, hp'⟩ := List.cons_prefix_cons.mp hp
          rw [List.map_cons, List.sum_cons] at hs
          rw [List.take_succ_cons, List.cons_prefix_cons]
          exact ⟨rfl, hlong.longest l hp' (by omega)⟩
      · have hpre : (bytes.take ptr ++ LawfulByteRepr.encode v).length = ptr + byteLen v := by
          simp; omega
        rw [hw]
        simp only [he]
        rw [← hpre, List.take_left, ← List.drop_drop, List.drop_left, hpre, ← hl, List.drop_drop]
        simp only [encodeMany, List.take_succ_cons, List.flatMap_cons, List.length_append,
          List.append_assoc, Nat.add_assoc, Nat.add_comm 1]

theorem writeMany_eq (values : List M) (bytes : Bytes) : ∃ k ≤ values.length,
    Longest byteLen bytes.length (values.take k) values ∧
    writeMany values bytes =
      (encodeMany (values.take k) ++ bytes.drop ((values.take k).map byteLen).sum,
        .ok (k, ((values.take k).map byteLen).sum)) := by
  obtain ⟨k, hk, hlong, he⟩ := writeManyFrom_eq values 0 (Nat.zero_le bytes.length)
  refine ⟨k, hk, hlong, ?_⟩
  unfold writeMany
  rw [he, ← length_encodeMany, List.take_zero, List.nil_append, Nat.zero_add, Nat.zero_add]

/-- The loop of `read_many` goes over encodings value by value. -/
theorem tryWhile_encodeMany (hpos : ∀ v : M, 1 ≤ byteLen v)
    (hmin : ∀ v : M, minByteLen M ≤ byteLen v) (values : List M) (pre : Bytes) (out : List M)
    {fuel : Nat} (hf : values.length ≤ fuel) :
    tryWhile (ReadMany.guard (pre ++ encodeMany values))
      (ReadMany.step (pre ++ encodeMany values)) fuel ⟨pre.length, out⟩ =
      some (.ok ⟨(pre ++ encodeMany values).length, out ++ values⟩) := by
  induction values generalizing pre out fuel with
  | nil =>
    rw [encodeMany, List.flatMap_nil, List.append_nil, List.append_nil]
    have hguard : ReadMany.guard pre (⟨pre.length, out⟩ : ReadMany M) = false :=
      decide_eq_false fun h => Nat.lt_irrefl _ h.1
    exact tryWhile_done hguard fuel
  | cons v values ih =>
    obtain ⟨fuel, rfl⟩ : ∃ n, fuel = n + 1 := Nat.exists_eq_add_one.mpr (by
      rw [List.length_cons] at hf
      omega)
    have hv := LawfulByteRepr.length_encode v
    have e : pre ++ encodeMany (v :: values) =
        (pre ++ LawfulByteRepr.encode v) ++ encodeMany values := by
      rw [encodeMany, List.flatMap_cons, List.append_assoc]
      rfl
    have hguard : ReadMany.guard (pre ++ encodeMany (v :: values))
        (⟨pre.length, out⟩ : ReadMany M) = true := by
      have h1 := hpos v
      have h2 := hmin v
      refine decide_eq_true ?_
      rw [e]
      simp only [List.length_append]
      omega
    have hstep : ReadMany.step (pre ++ encodeMany (v :: values)) ⟨pre.length, out⟩ =
        .ok ⟨(pre ++ LawfulByteRepr.encode v).length, out ++ [v]⟩ := by
      unfold ReadMany.step
      rw [suffixFrom_append pre _ rfl, Outcome.bind_ok, encodeMany, List.flatMap_cons,
        LawfulByteRepr.fromBytes_encode, Outcome.bind_ok, List.length_append, hv]
      rfl
    rw [tryWhile_step hguard hstep, e, ih _ _ (by simpa using hf), List.append_assoc out]
    rfl

end Lawful

/-- What `write_many` writes, `read_many` reads back: `write_many` writes the longest prefix of
the values that fits, and only there; `read_many` on the bytes written returns these values. -/
theorem readMany_writeMany [LawfulByteRepr M] (hpos : ∀ v : M, 1 ≤ byteLen v)
    (hmin : ∀ v : M, minByteLen M ≤ byteLen v) (values : List M) (bytes : Bytes) :
    ∃ bytes' k n, writeMany values bytes = (bytes', .ok (k, n)) ∧ k ≤ values.length ∧
      Longest byteLen bytes.length (values.take k) values ∧
      n = ((values.take k).map byteLen).sum ∧ bytes'.length = bytes.length ∧
      bytes'.drop n = bytes.drop n ∧
      ∀ fuel ≥ k, readMany M fuel (bytes'.take n) = some (.ok (values.take k, n)) := by
  obtain ⟨k, hk, hlong, he⟩ := writeMany_eq values bytes
  have hwithin := hlong.within
  have hl := length_encodeMany (values.take k)
  refine ⟨_, k, _, he, hk, hlong, rfl, ?_, ?_, fun fuel hf => ?_⟩
  · rw [List.length_append, hl, List.length_drop]
    omega
  · rw [← hl, List.drop_left]
  · have hfuel : (values.take k).length ≤ fuel := by
      rw [List.length_take]
      omega
    have hread := tryWhile_encodeMany hpos hmin (values.take k) [] [] hfuel
    rw [List.nil_append, List.nil_append] at hread
    unfold readMany
    rw [← hl, List.take_left]
    exact congrArg (Option.map _) hread

/-- Four booleans and room for three. -/
theorem readMany_writeMany_bool :
    ∃ bytes' k n, writeMany [true, false, true, true] [7, 7, 7] = (bytes', .ok (k, n)) ∧
      k ≤ 4 ∧ Longest byteLen 3 ([true, false, true, true].take k) [true, false, true, true] ∧
      n = (([true, false, true, true].take k).map byteLen).sum ∧ bytes'.length = 3 ∧
      bytes'.drop n = List.drop n [7, 7, 7] ∧
      ∀ fuel ≥ k, readMany Bool fuel (bytes'.take n) =
        some (.ok ([true, false, true, true].take k, n)) :=
  readMany_writeMany (fun _ => Nat.le_refl 1) (fun _ => Nat.le_refl 1) _ _

end MiniUdp
