import MiniUdp.Derive.Decode

/-!
# How far an access gets

An access that returns looked at nothing beyond where it got: it returns the same
of any prefix that reaches there. A fixed part that was read was in bounds.
-/

namespace MiniUdp.Derive

/-! ## Prefixes -/

section Take

variable {bytes : Bytes} {a m : Nat}

theorem readRange_take {w : Nat} (h : a + w ≤ m) :
    readRange (bytes.take m) a w = readRange bytes a w := by
  have hbytes : ((bytes.take m).drop a).take w = (bytes.drop a).take w := by
    rw [List.drop_take, List.take_take, Nat.min_eq_left (by omega)]
  have hlen : a + w ≤ (bytes.take m).length ↔ a + w ≤ bytes.length := by
    rw [List.length_take]
    omega
  unfold readRange
  simp only [hbytes, hlen]

theorem readByte_take (h : a < m) : readByte (bytes.take m) a = readByte bytes a := by
  unfold readByte
  rw [List.getElem?_take_of_lt h]

theorem sliceOf_take {b : Nat} (h : b ≤ m) : sliceOf (bytes.take m) a b = sliceOf bytes a b := by
  have hlen : b ≤ (bytes.take m).length ↔ b ≤ bytes.length := by
    rw [List.length_take]
    omega
  unfold sliceOf
  simp only [List.take_take, Nat.min_eq_left h, hlen]

theorem sliceOf_ok {b : Nat} {bs : Bytes} (h : sliceOf bytes a b = .ok bs) :
    a ≤ b ∧ b ≤ bytes.length ∧ bs.length = b - a := by
  unfold sliceOf at h
  split at h
  · rename_i hin
    cases h
    refine ⟨hin.1, hin.2, ?_⟩
    rw [List.length_drop, List.length_take_of_le hin.2]
  · cases h

theorem suffixFrom_eq_ok {rest : Bytes} :
    suffixFrom bytes a = .ok rest ↔ a ≤ bytes.length ∧ rest = bytes.drop a := by
  unfold suffixFrom
  split
  · rename_i h
    simp only [h, true_and, Outcome.ok.injEq, eq_comm]
  · rename_i h
    simp only [h, false_and, reduceCtorEq]

theorem suffixFrom_take {rest : Bytes} (h : a ≤ m) (hrest : suffixFrom bytes a = .ok rest) :
    suffixFrom (bytes.take m) a = .ok (rest.take (m - a)) := by
  obtain ⟨ha, rfl⟩ := suffixFrom_eq_ok.mp hrest
  refine suffixFrom_eq_ok.mpr ⟨?_, List.drop_take.symm⟩
  rw [List.length_take]
  omega

theorem readFlag_take (h : a + 1 ≤ m) : readFlag (bytes.take m) a = readFlag bytes a := by
  rw [readFlag, readByte_take h, readFlag]

theorem readLen_take (h : a + 4 ≤ m) : readLen (bytes.take m) a = readLen bytes a := by
  rw [readLen, readRange_take h, readLen]

theorem Number.read_take {n : Number} (h : a + n.bytes ≤ m) :
    n.read (bytes.take m) a = n.read bytes a := by
  unfold read
  split
  · rw [readByte_take (by omega)]
  · rw [readRange_take h]

end Take

/-! ## Fixed parts -/

section Fixed

variable {bytes : Bytes} {o : ByteOffset} {bytePtr : Nat}

theorem readByte_ok {a : Nat} {byte : UInt8} (h : readByte bytes a = .ok byte) :
    a + 1 ≤ bytes.length := by
  by_contra hshort
  rw [readByte_short (by omega)] at h
  cases h

theorem readRange_ok {a w : Nat} {bs : Bytes} (h : readRange bytes a w = .ok bs) :
    a + w ≤ bytes.length := by
  by_contra hshort
  rw [readRange, if_neg hshort] at h
  cases h

theorem Number.read_ok {n : Number} {a : Nat} {x : BitVec (8 * n.bytes)}
    (h : n.read bytes a = .ok x) : a + n.bytes ≤ bytes.length := by
  unfold read at h
  split at h <;> obtain ⟨bs, hbs, -⟩ := Outcome.bind_eq_ok.mp h
  · rename_i hone
    exact hone ▸ readByte_ok hbs
  · exact readRange_ok hbs

/-- A fixed part that was read was in bounds. -/
theorem Value.readFixedPart_ok {p : Nat} : (v : Value) → v.isCow = false → (f : v.Fixed) →
    v.readFixedPart o bytes bytePtr = .ok (f, p) →
    p = o.next v.fixedBytes bytePtr ∧ InBounds bytes.length (o.get bytePtr) v.fixedBytes
  | .cow _, hcow, _, _ => by cases hcow
  | .emptyTuple, _, _, h | .array _ _, _, _, h | .delegated _, _, _, h => by
    cases h
    exact ⟨by cases o <;> rfl, .inl rfl⟩
  | .bool, _, _, h | .option _, _, _, h => by
    obtain ⟨b, hb, hp⟩ := Outcome.bind_eq_ok.mp h
    obtain ⟨byte, hbyte, -⟩ := Outcome.bind_eq_ok.mp hb
    cases hp
    exact ⟨rfl, .inr (readByte_ok hbyte)⟩
  | .number n, _, _, h => by
    obtain ⟨x, hx, hp⟩ := Outcome.bind_eq_ok.mp h
    cases hp
    exact ⟨rfl, .inr (Number.read_ok hx)⟩
  | .string, _, _, h | .vec _, _, _, h => by
    obtain ⟨len, hlen, hp⟩ := Outcome.bind_eq_ok.mp h
    obtain ⟨bs, hbs, -⟩ := Outcome.bind_eq_ok.mp hlen
    cases hp
    exact ⟨rfl, .inr (readRange_ok hbs)⟩

theorem Value.readFixedPart_take {m : Nat} (v : Value) (h : o.get bytePtr + v.fixedBytes ≤ m) :
    v.readFixedPart o (bytes.take m) bytePtr = v.readFixedPart o bytes bytePtr := by
  cases v with
  | emptyTuple | cow | array | delegated => rfl
  | bool | option => rw [readFixedPart, readFlag_take h, readFixedPart]
  | number => rw [readFixedPart, Number.read_take h, readFixedPart]
  | string | vec => rw [readFixedPart, readLen_take h, readFixedPart]

theorem Value.readFixedPart_static {offset p : Nat} {v : Value} {f : v.Fixed}
    (h : v.readFixedPart (.static offset) bytes bytePtr = .ok (f, p)) : p = bytePtr := by
  cases hcow : v.isCow with
  | false => exact (v.readFixedPart_ok (o := .static offset) hcow f h).1
  | true =>
    cases v with
    | cow => exact (Prod.mk.inj (Outcome.ok.inj h)).2.symm
    | _ => cases hcow

theorem Fields.readFixedPart_ok : (fs : Fields) → {offset : Nat} → (f : fs.Fixed) →
    fs.readFixedPart offset bytes = .ok f →
    fs.FixedInBounds bytes.length (fun v => v.isCow = false) offset
  | .nil, _, _, _ => trivial
  | .cons v fs, offset, _, h => by
    obtain ⟨⟨f, p⟩, hv, h⟩ := Outcome.bind_eq_ok.mp h
    obtain ⟨rest, hfs, -⟩ := Outcome.bind_eq_ok.mp h
    exact ⟨fun hcow => (v.readFixedPart_ok hcow f hv).2, fs.readFixedPart_ok rest hfs⟩

theorem Fields.readFixedPart_take {m : Nat} : (fs : Fields) → {offset : Nat} →
    offset + fs.fixedBytes ≤ m →
    fs.readFixedPart offset (bytes.take m) = fs.readFixedPart offset bytes
  | .nil, _, _ => rfl
  | .cons v fs, offset, h => by
    rw [fixedBytes] at h
    have hv : (ByteOffset.static offset).get 0 + v.fixedBytes ≤ m :=
      Nat.le_trans (by rw [ByteOffset.get]; omega) h
    rw [readFixedPart, v.readFixedPart_take hv, fs.readFixedPart_take (by omega), readFixedPart]

end Fixed

end MiniUdp.Derive
