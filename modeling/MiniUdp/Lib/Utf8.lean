import MiniUdp.Lib.LittleEndian
import Mathlib.Tactic.Common

/-!
# UTF-8

The bytes of a string, and the decoder that puts a replacement character where
the bytes are not well formed. It gives the string back from its own bytes
(`fromUtf8Lossy_asBytes`), and changes the length of others.
-/

namespace MiniUdp.Utf8

/-- `str::as_bytes` -/
def asBytes (s : String) : Bytes := s.toByteArray.data.toList

/-- The character whose encoding the bytes start with. -/
def firstChar (bytes : Bytes) : Option Char := bytes.toByteArray.utf8DecodeChar? 0

/-- Can `second` follow `first` in the encoding of a character of three bytes or four? -/
def followed (first second : UInt8) : Bool :=
  if first = 0xE0 then 0xA0 ≤ second ∧ second ≤ 0xBF
  else if first = 0xED then 0x80 ≤ second ∧ second ≤ 0x9F
  else if first = 0xF0 then 0x90 ≤ second ∧ second ≤ 0xBF
  else if first = 0xF4 then 0x80 ≤ second ∧ second ≤ 0x8F
  else 0xE1 ≤ first ∧ first ≤ 0xF3 ∧ 0x80 ≤ second ∧ second ≤ 0xBF

/-- How many bytes one replacement character stands for, where no character starts. -/
def maximalSubpart : Bytes → Nat
  | first :: second :: rest =>
    if followed first second then
      match rest with
      | third :: _ => if 0xF0 ≤ first ∧ 0x80 ≤ third ∧ third ≤ 0xBF then 3 else 2
      | [] => 2
    else 1
  | _ => 1

def lossyChars : Nat → Bytes → List Char
  | _, [] | 0, _ => []
  | n + 1, byte :: bytes =>
    match firstChar (byte :: bytes) with
    | some c => c :: lossyChars n ((byte :: bytes).drop c.utf8Size)
    | none => '\uFFFD' :: lossyChars n ((byte :: bytes).drop (maximalSubpart (byte :: bytes)))

/-- `String::from_utf8_lossy` -/
def fromUtf8Lossy (bytes : Bytes) : String := String.ofList (lossyChars bytes.length bytes)

theorem asBytes_ofList (cs : List Char) :
    asBytes (String.ofList cs) = cs.flatMap String.utf8EncodeChar := by
  simp [asBytes, String.toByteArray_ofList, List.utf8Encode]

theorem asBytes_eq (s : String) : asBytes s = s.toList.flatMap String.utf8EncodeChar := by
  rw [← asBytes_ofList, String.ofList_toList]

theorem firstChar_append (c : Char) (rest : Bytes) :
    firstChar (String.utf8EncodeChar c ++ rest) = some c := by
  rw [firstChar, List.toByteArray_append, ByteArray.utf8DecodeChar?_utf8EncodeChar_append]

theorem lossyChars_char (n : Nat) (c : Char) (rest : Bytes) :
    lossyChars (n + 1) (String.utf8EncodeChar c ++ rest) = c :: lossyChars n rest := by
  have hfirst := firstChar_append c rest
  have hdrop : (String.utf8EncodeChar c ++ rest).drop c.utf8Size = rest := by
    rw [← String.length_utf8EncodeChar, List.drop_left]
  have hpos : (String.utf8EncodeChar c ++ rest) ≠ [] := by
    intro h
    have hlen := congrArg List.length h
    have := c.utf8Size_pos
    rw [List.length_append, String.length_utf8EncodeChar, List.length_nil] at hlen
    omega
  obtain ⟨byte, bytes, hcons⟩ := List.exists_cons_of_ne_nil hpos
  rw [hcons] at hfirst hdrop ⊢
  simp only [lossyChars, hfirst, hdrop]

theorem lossyChars_append (cs : List Char) (rest : Bytes) (n : Nat) :
    lossyChars (cs.length + n) (cs.flatMap String.utf8EncodeChar ++ rest) =
      cs ++ lossyChars n rest := by
  induction cs with
  | nil => simp
  | cons c cs ih =>
    rw [List.length_cons, Nat.add_right_comm, List.flatMap_cons, List.append_assoc,
      lossyChars_char, ih, List.cons_append]

theorem length_le_length_flatMap (cs : List Char) :
    cs.length ≤ (cs.flatMap String.utf8EncodeChar).length := by
  induction cs with
  | nil => exact Nat.le_refl 0
  | cons c cs ih =>
    have := c.utf8Size_pos
    rw [List.flatMap_cons, List.length_append, String.length_utf8EncodeChar, List.length_cons]
    omega

/-- Well-formed bytes are decoded as they are. -/
theorem fromUtf8Lossy_asBytes (s : String) : fromUtf8Lossy (asBytes s) = s := by
  have hle := length_le_length_flatMap s.toList
  obtain ⟨n, hn⟩ := Nat.exists_eq_add_of_le hle
  have hchars := lossyChars_append s.toList [] n
  rw [List.append_nil] at hchars
  rw [fromUtf8Lossy, asBytes_eq, hn, hchars]
  cases n <;> simp [lossyChars]

theorem maximalSubpart_bounds (bytes : Bytes) :
    1 ≤ maximalSubpart bytes ∧ maximalSubpart bytes ≤ 3 := by
  unfold maximalSubpart
  split
  · split
    · split
      · split <;> omega
      · omega
    · omega
  · omega

/-- A decoded byte becomes four at most. -/
theorem length_lossyChars_le (n : Nat) (bytes : Bytes) :
    ((lossyChars n bytes).flatMap String.utf8EncodeChar).length ≤ 4 * bytes.length := by
  induction n generalizing bytes with
  | zero => cases bytes <;> simp [lossyChars]
  | succ n ih =>
    cases bytes with
    | nil => simp [lossyChars]
    | cons byte bytes =>
      have hstep : ∀ (c : Char) (k : Nat), 1 ≤ k →
          ((c :: lossyChars n ((byte :: bytes).drop k)).flatMap String.utf8EncodeChar).length ≤
            4 * (byte :: bytes).length := by
        intro c k hk
        have hrest := ih ((byte :: bytes).drop k)
        have hc := c.utf8Size_le_four
        rw [List.length_drop] at hrest
        rw [List.flatMap_cons, List.length_append, String.length_utf8EncodeChar]
        simp only [List.length_cons] at hrest ⊢
        omega
      rw [lossyChars]
      split
      · exact hstep _ _ (Char.utf8Size_pos _)
      · exact hstep _ _ (maximalSubpart_bounds _).1

theorem le_length_lossyChars (n : Nat) (bytes : Bytes) (h : bytes.length ≤ n) :
    bytes.length ≤ ((lossyChars n bytes).flatMap String.utf8EncodeChar).length := by
  induction n generalizing bytes with
  | zero => omega
  | succ n ih =>
    cases bytes with
    | nil => exact Nat.zero_le _
    | cons byte bytes =>
      have hstep : ∀ (c : Char) (k : Nat), 1 ≤ k → k ≤ c.utf8Size →
          (byte :: bytes).length ≤
          ((c :: lossyChars n ((byte :: bytes).drop k)).flatMap String.utf8EncodeChar).length := by
        intro c k hk hc
        have hdrop : ((byte :: bytes).drop k).length ≤ n := by
          rw [List.length_drop]
          omega
        have hrest := ih ((byte :: bytes).drop k) hdrop
        rw [List.length_drop] at hrest
        rw [List.flatMap_cons, List.length_append, String.length_utf8EncodeChar]
        omega
      rw [lossyChars]
      split
      · exact hstep _ _ (Char.utf8Size_pos _) (Nat.le_refl _)
      · exact hstep _ _ (maximalSubpart_bounds _).1 (maximalSubpart_bounds _).2

/-- Decoding makes nothing shorter. -/
theorem le_length_fromUtf8Lossy (bytes : Bytes) :
    bytes.length ≤ (asBytes (fromUtf8Lossy bytes)).length := by
  rw [fromUtf8Lossy, asBytes_ofList]
  exact le_length_lossyChars bytes.length bytes (Nat.le_refl _)

/-- Cutting well-formed bytes off spoils one character. -/
theorem length_fromUtf8Lossy_take (s : String) (k : Nat) :
    (asBytes (fromUtf8Lossy ((asBytes s).take k))).length ≤ k + 16 := by
  have hsplit : ∀ (cs : List Char) (k : Nat), ∃ (cs' : List Char) (tail : Bytes),
      (cs.flatMap String.utf8EncodeChar).take k = cs'.flatMap String.utf8EncodeChar ++ tail ∧
        tail.length ≤ 4 := by
    intro cs
    induction cs with
    | nil => exact fun k => ⟨[], [], by simp, by simp⟩
    | cons c cs ih =>
      intro k
      by_cases hk : k ≤ c.utf8Size
      · refine ⟨[], (String.utf8EncodeChar c).take k, ?_, ?_⟩
        · rw [List.flatMap_cons, List.take_append_of_le_length
            (by rwa [String.length_utf8EncodeChar])]
          rfl
        · have := c.utf8Size_le_four
          rw [List.length_take]
          omega
      · obtain ⟨cs', tail, htake, htail⟩ := ih (k - c.utf8Size)
        refine ⟨c :: cs', tail, ?_, htail⟩
        rw [List.flatMap_cons, List.take_append, String.length_utf8EncodeChar, htake,
          List.take_of_length_le (by rw [String.length_utf8EncodeChar]; omega),
          List.flatMap_cons, List.append_assoc]
  obtain ⟨cs, tail, htake, htail⟩ := hsplit s.toList k
  have hk : (cs.flatMap String.utf8EncodeChar).length + tail.length ≤ k := by
    have hlen := congrArg List.length htake
    rw [List.length_take, List.length_append] at hlen
    omega
  have hle := length_le_length_flatMap cs
  obtain ⟨n, hn⟩ : ∃ n, (cs.flatMap String.utf8EncodeChar ++ tail).length = cs.length + n :=
    Nat.exists_eq_add_of_le (by rw [List.length_append]; omega)
  have hrest := length_lossyChars_le n tail
  rw [fromUtf8Lossy, asBytes_eq s, htake, hn, lossyChars_append, asBytes_ofList,
    List.flatMap_append, List.length_append]
  omega

/-- A byte no character starts with becomes the three of the replacement character. -/
example : asBytes (fromUtf8Lossy [0xFF]) = [0xEF, 0xBF, 0xBD] := by decide +kernel

end MiniUdp.Utf8
