import MiniUdp.Derive.Access
import MiniUdp.Derive.Run

/-!
# Writing to a buffer that is too short

On a buffer that is too short a writer should return an error. It panics
instead if it slices out of bounds before it has checked an access that far.
When nothing is written twice, a field that slices has another one before it
that was checked up to `byte_ptr`, unless it is the first: then what is before
it are the fixed parts, of which a `Cow` leaves out its own, and the number of
the variant, which is written last. On top of that the length of the value has
to be found (`Ty.runsCleanly_iff`).
-/

namespace MiniUdp.Derive

open Access Utf8

/-! ## What is first done at `byte_ptr` -/

inductive Touch where
  | nothing
  | checks
  | slices
  deriving DecidableEq, Repr

/-- What the variable part of a field first does at `byte_ptr`. -/
def Value.touch : (v : Value) → v.Val → Touch
  | .emptyTuple, _ | .bool, _ | .number _, _ | .option _, none => .nothing
  | .string, _ => .checks
  | .cow v, x => v.touch x.get
  | .option v, some x => if v.fixedBytes = 0 then v.touch x else .checks
  | .array _ _, xs => if xs.val = [] then .nothing else .slices
  | .vec _, xs => if xs = [] then .nothing else .slices
  | .delegated _, _ => .slices

/-- The first field that does something at `byte_ptr` slices. -/
def Fields.SlicesFirst : (fs : Fields) → fs.Val → Prop
  | .nil, _ => False
  | .cons v fs, (x, xs) =>
    match v.touch x with
    | .nothing => fs.SlicesFirst xs
    | .checks => False
    | .slices => True

/-- The last of the fixed parts is left out at first. -/
def Fields.lastSkipped : Fields → Bool
  | .nil => false
  | .cons v fs =>
    if fs.fixedBytes = 0 then v.skipsFixedPart && v.fixedBytes != 0 else fs.lastSkipped

/-- The first field that does something at `byte_ptr` slices, and the last of the fixed parts, which
is left out at first, is that of a later field. -/
def Fields.SlicesEarly : (fs : Fields) → fs.Val → Prop
  | .nil, _ => False
  | .cons v fs, (x, xs) =>
    match v.touch x with
    | .nothing => fs.SlicesEarly xs
    | .checks => False
    | .slices => fs.lastSkipped = true

mutual

def Value.Checks : (v : Value) → v.Val → Prop
  | .emptyTuple, _ | .bool, _ | .number _, _ | .string, _ | .option _, none => True
  | .cow v, x => v.Checks x.get
  | .option v, some x => v.Checks x
  | .array t _, xs => ∀ x ∈ xs.val, t.Checks x
  | .vec t, xs => ∀ x ∈ xs, t.Checks x
  | .delegated t, x => t.Checks x

/-- Nowhere in the value is a slice the first access that is out of bounds. -/
def Ty.Checks : (t : Ty) → t.Val → Prop
  | .lone v, x => v.Checks x
  | .struct fs, x => fs.Checks x ∧ ¬ fs.SlicesEarly x
  | .enum vs, x => vs.Checks (2 ≤ vs.length) x

def Fields.Checks : (fs : Fields) → fs.Val → Prop
  | .nil, _ => True
  | .cons v fs, (x, xs) => v.Checks x ∧ fs.Checks xs

/-- If the variants are `numbered`, there has to be a fixed part before a slice. -/
def Variants.Checks : (vs : Variants) → (numbered : Prop) → vs.Val → Prop
  | .nil, _, x => nomatch x
  | .cons fs _, numbered, .inl x => fs.Checks x ∧ ¬ fs.SlicesEarly x ∧
    (numbered → fs.fixedBytes = 0 → ¬ fs.SlicesFirst x)
  | .cons _ vs, numbered, .inr x => vs.Checks numbered x

end

/-! ## Parts of a writer -/

/-- A part that takes `len` bytes from `p` on, when the first `k` bytes are known to be there, and
`k'` after the fixed part in it. It is sheltered if its own parts are and what it first slices
is there. -/
structure Part (touch : Touch) (checks : Prop) (k k' p len : Nat) (xs : List Access) : Prop where
  sheltered : Sheltered k xs ↔ (touch = .slices → p ≤ k') ∧ checks
  reach : max k (reach xs) = if touch = .nothing then k' else p + len
  len : touch = .nothing → len = 0

namespace Part

variable {touch : Touch} {checks : Prop} {k k' p len : Nat} {xs : List Access}

theorem nothing : Part .nothing True k k p 0 [] :=
  ⟨by simp [Sheltered], by simp [Access.reach], fun _ => rfl⟩

/-- If the bytes before `p` are there, those up to the end of the part are, after it. -/
theorem reach_end (h : Part touch checks k p p len xs) : max k (Access.reach xs) = p + len := by
  rw [h.reach]
  split
  · rw [h.len ‹_›, Nat.add_zero]
  · rfl

/-- A fixed part that is somewhere else. -/
theorem header {stop : Nat} (h : Part touch checks (max k stop) k' p len xs) :
    Part touch checks k k' p len (.checked stop :: xs) where
  sheltered := h.sheltered
  reach := by rw [Access.reach, need, ← Nat.max_assoc, h.reach]
  len := h.len

/-- A fixed part at `p`, before the rest. -/
theorem checked {w : Nat} (hk : k ≤ p) (h : Part touch checks (p + w) (p + w) (p + w) len xs) :
    Part .checks checks k k p (w + len) (.checked (p + w) :: xs) := by
  have hend := h.reach_end
  refine ⟨?_, ?_, fun h => (nomatch h)⟩
  · rw [Sheltered, Nat.max_eq_right (by omega), h.sheltered]
    simp
  · rw [Access.reach, need, if_neg (fun h => (nomatch h))]
    omega

end Part

theorem itemAccesses_part {t : Ty} {xs : List t.Val}
    (h : ∀ x ∈ xs, (Sheltered 0 (t.accesses x) ↔ t.Checks x) ∧ reach (t.accesses x) = t.byteLen x)
    {k p : Nat} (hk : k ≤ p) :
    Part (if xs = [] then .nothing else .slices) (∀ x ∈ xs, t.Checks x) k k p
      (xs.map t.byteLen).sum (itemAccesses t.accesses t.byteLen xs p) := by
  induction xs generalizing k p with
  | nil => exact ⟨by simp [itemAccesses, Sheltered], by simp [itemAccesses, reach], fun _ => rfl⟩
  | cons x xs ih =>
    obtain ⟨hx, hlen⟩ := h x List.mem_cons_self
    have hrest := ih (fun y hy => h y (List.mem_cons_of_mem x hy)) (Nat.le_refl (p + t.byteLen x))
    have hend := hrest.reach_end
    have hshift : max p (reach ((t.accesses x).map (shift p))) = p + t.byteLen x := by
      rw [max_reach_shift, hlen]
    rw [if_neg (List.cons_ne_nil x xs)]
    refine ⟨?_, ?_, fun h => Touch.noConfusion h⟩
    · rw [itemAccesses, List.cons_append, Sheltered]
      have hall : p ≤ k → (Sheltered k ((t.accesses x).map (shift p) ++
          itemAccesses t.accesses t.byteLen xs (p + t.byteLen x)) ↔
            ∀ y ∈ x :: xs, t.Checks y) := by
        intro hp
        obtain rfl : k = p := Nat.le_antisymm hk hp
        rw [sheltered_append, hshift, sheltered_shift (Nat.le_refl k), Nat.sub_self, hx,
          hrest.sheltered, List.forall_mem_cons]
        simp
      simp only [forall_const]
      exact and_congr_right hall
    · rw [itemAccesses, List.cons_append, reach, reach_append, need, List.map_cons, List.sum_cons,
        if_neg (fun h => Touch.noConfusion h)]
      omega

theorem delegatedAccesses_part {t : Ty} {x : t.Val}
    (h : (Sheltered 0 (t.accesses x) ↔ t.Checks x) ∧ reach (t.accesses x) = t.byteLen x)
    {k p : Nat} (hk : k ≤ p) :
    Part .slices (t.Checks x) k k p (t.byteLen x)
      (.sliced p :: (t.accesses x).map (shift p)) := by
  have hitem := itemAccesses_part (fun y (hy : y ∈ [x]) => List.mem_singleton.mp hy ▸ h) hk
  simpa [itemAccesses] using hitem

/-! ## Values -/

/-- With the fixed part of the field at `offset`, if that comes with the variable one. -/
def Value.known (v : Value) (offset k : Nat) : Nat :=
  if v.isCow && v.fixedBytes != 0 then max k (offset + v.fixedBytes) else k

/-- The variable part of a field that is written once, at a fixed offset and in an `Option`. -/
structure Value.Shelters (v : Value) (x : v.Val) : Prop where
  static : ∀ offset p k, offset + v.fixedBytes ≤ p → k ≤ p →
    Part (v.touch x) (v.Checks x) k (v.known offset k) p (v.unknownLength x)
      (v.accesses (.static offset) x p)
  dynamic : (v.isCow = true → v.isStatic = false) → ∀ p k, k ≤ p →
    Part (if v.fixedBytes = 0 then v.touch x else .checks) (v.Checks x) k k p
      (v.fixedBytes + v.unknownLength x)
      (v.fixedAccesses .dynamic p ++ v.accesses .dynamic x (v.fixedNext .dynamic p))

/-- A field that is no `Cow` has its variable part at `byte_ptr`. -/
theorem Value.Shelters.of_bytePtr {v : Value} {x : v.Val} (hcow : v.isCow = false)
    (h : ∀ o p k, k ≤ p → Part (v.touch x) (v.Checks x) k k p (v.unknownLength x)
      (v.accesses o x p)) : v.Shelters x where
  static offset p k _ hk := by
    rw [known, hcow, Bool.false_and, if_neg Bool.false_ne_true]
    exact h _ p k hk
  dynamic _ p k hk := by
    have hskips : v.skipsFixedPart = false := by rw [skipsFixedPart, hcow, Bool.false_and]
    rw [fixedAccesses, fixedNext, hskips, if_neg Bool.false_ne_true, ByteOffset.next]
    by_cases hzero : v.fixedBytes = 0
    · rw [hzero, if_pos rfl, Nat.zero_add]
      exact h .dynamic p k hk
    · rw [if_neg hzero, if_neg (by simpa using hzero)]
      exact .checked hk (h .dynamic _ _ (Nat.le_refl _))

theorem Value.known_of_cow {v : Value} (hcow : v.isCow = true) (offset k : Nat) :
    v.known offset k = if v.fixedBytes = 0 then k else max k (offset + v.fixedBytes) := by
  rw [known, hcow, Bool.true_and]
  by_cases hzero : v.fixedBytes = 0 <;> simp [hzero]

theorem Value.Shelters.cow {v : Value} {x : Cow v.Val} (h : v.Shelters x.get) :
    Value.Shelters (.cow v) x where
  static offset p k hp hk := by
    have hnext : v.fixedNext (.static offset) p = p := ite_self p
    rw [known_of_cow rfl, accesses, hnext, fixedAccesses]
    change offset + v.fixedBytes ≤ p at hp
    show Part _ _ _ (if v.fixedBytes = 0 then _ else max k (offset + v.fixedBytes)) _ _ _
    by_cases hskips : v.skipsFixedPart = true
    · have hcow : v.isCow = true := v.skipsFixedPart_or_isCow.resolve_left (by simp [hskips])
      have hpart := h.static offset p k hp hk
      rw [known_of_cow hcow] at hpart
      rw [hskips, Bool.true_or, if_pos rfl]
      exact hpart
    · rw [Bool.eq_false_iff.mpr hskips, Bool.false_or]
      by_cases hzero : v.fixedBytes = 0
      · have hpart := h.static offset p k hp hk
        have hknown : v.known offset k = k := by simp [known, hzero]
        rw [hknown] at hpart
        rw [hzero, if_pos rfl]
        exact hpart
      · have hpart := h.static offset p (max k (offset + v.fixedBytes)) hp (by omega)
        have hknown : v.known offset (max k (offset + v.fixedBytes)) =
            max k (offset + v.fixedBytes) := by
          unfold known
          split <;> omega
        rw [hknown] at hpart
        rw [if_neg hzero, if_neg (by simpa using hzero)]
        exact .header hpart
  dynamic hstatic p k hk := by
    have hskips : (Value.cow v).skipsFixedPart = true := by
      rw [skipsFixedPart, hstatic rfl]
      rfl
    have hpart := h.dynamic (fun _ => hstatic rfl) p k hk
    rw [fixedAccesses, fixedNext, hskips, Bool.true_or, if_pos rfl, if_pos rfl, List.nil_append]
    exact hpart

theorem Value.Shelters.some {v : Value} {x : v.Val} (h : v.Shelters x)
    (hsingle : v.isCow = true → v.isStatic = false) :
    Value.Shelters (.option v) (Option.some x) :=
  .of_bytePtr rfl fun _ p k hk => h.dynamic hsingle p k hk

/-- A field that is written once ends where its length says. -/
theorem Value.next_eq : (v : Value) → (x : v.Val) → v.Single x →
    (∀ offset p, v.next (.static offset) x p = p + v.unknownLength x) ∧
    ((v.isCow = true → v.isStatic = false) → ∀ p,
      v.next .dynamic x (v.fixedNext .dynamic p) = p + (v.fixedBytes + v.unknownLength x))
  | .emptyTuple, _, _ | .bool, _, _ | .number _, _, _ | .option _, none, _ =>
    ⟨fun _ _ => rfl, fun _ _ => rfl⟩
  | .string, _, _ | .array _ _, _, _ | .vec _, _, _ | .delegated _, _, _ =>
    ⟨fun _ _ => rfl, fun _ _ => Nat.add_assoc _ _ _⟩
  | .cow v, x, h => by
    obtain ⟨hstatic, hdynamic⟩ := v.next_eq x.get h
    refine ⟨fun offset p => ?_, fun hno p => ?_⟩
    · have hnext : v.fixedNext (.static offset) p = p := ite_self p
      rw [next, hnext]
      exact hstatic offset p
    · have hskips : (Value.cow v).skipsFixedPart = true := by
        rw [skipsFixedPart, hno rfl]
        rfl
      rw [fixedNext, hskips, if_pos rfl]
      exact hdynamic (fun _ => hno rfl) p
  | .option v, some x, h =>
    have hinner := (v.next_eq x h.2).2 h.1
    ⟨fun _ p => hinner p, fun _ p => (hinner (p + 1)).trans (Nat.add_assoc _ _ _)⟩

/-! ## Fields -/

/-- What the first field that does something at `byte_ptr` slices is there, if the first `k` bytes
are. -/
def Fields.Starts : (fs : Fields) → fs.Val → (offset k p : Nat) → Prop
  | .nil, _, _, _, _ => True
  | .cons v fs, (x, xs), offset, k, p =>
    match v.touch x with
    | .nothing => fs.Starts xs (offset + v.fixedBytes) (v.known offset k) p
    | .checks => True
    | .slices => p ≤ v.known offset k

/-- The variable parts of fields that are written once. -/
def Fields.Shelters (fs : Fields) (x : fs.Val) : Prop :=
  ∀ offset p k, offset + fs.fixedBytes ≤ p → k ≤ p →
    (Sheltered k (fs.accesses offset x p) ↔ fs.Starts x offset k p ∧ fs.Checks x)

/-- Once the bytes before `byte_ptr` are known to be there, they stay so. -/
theorem Fields.starts_of_known : (fs : Fields) → (x : fs.Val) → (offset p : Nat) →
    offset + fs.fixedBytes ≤ p → fs.Starts x offset p p
  | .nil, _, _, _, _ => trivial
  | .cons v fs, (x, xs), offset, p, h => by
    rw [fixedBytes] at h
    have hknown : v.known offset p = p := by
      unfold Value.known
      split <;> omega
    rw [Starts, hknown]
    split
    · exact fs.starts_of_known xs _ p (by omega)
    · trivial
    · exact Nat.le_refl p

theorem Fields.Shelters.cons {v : Value} {fs : Fields} {x : v.Val} {xs : fs.Val}
    (hsingle : v.Single x) (hv : v.Shelters x) (hfs : fs.Shelters xs) :
    Fields.Shelters (.cons v fs) (x, xs) := by
  intro offset p k hp hk
  rw [fixedBytes] at hp
  have hpart := hv.static offset p k (by omega) hk
  have hnext := (v.next_eq x hsingle).1 offset p
  rw [accesses, sheltered_append, hpart.sheltered, hpart.reach, hnext, Starts, Checks]
  cases htouch : v.touch x with
  | nothing =>
    have hlen := hpart.len htouch
    have hknown : v.known offset k ≤ p := by
      unfold Value.known
      split <;> omega
    rw [if_pos rfl, hlen, Nat.add_zero, hfs _ p _ (by omega) hknown]
    simp only [reduceCtorEq, false_implies, true_and]
    exact and_left_comm
  | checks | slices =>
    have hstarts := fs.starts_of_known xs (offset + v.fixedBytes) (p + v.unknownLength x)
      (by omega)
    rw [if_neg (fun h => (nomatch h)), hfs _ _ _ (by omega) (Nat.le_refl _)]
    simp only [reduceCtorEq, false_implies, true_and, forall_const, hstarts, and_assoc]

/-! ## After the fixed parts -/

theorem Fields.lastSkipped_of_zero : (fs : Fields) → fs.fixedBytes = 0 → fs.lastSkipped = false
  | .nil, _ => rfl
  | .cons v fs, h => by
    obtain ⟨hv, hfs⟩ := Nat.add_eq_zero_iff.mp h
    rw [lastSkipped, if_pos hfs, hv, bne_self_eq_false, Bool.and_false]

theorem Fields.not_slicesEarly_of_zero : (fs : Fields) → (x : fs.Val) → fs.fixedBytes = 0 →
    ¬ fs.SlicesEarly x
  | .nil, _, _ => id
  | .cons v fs, (x, xs), h => by
    obtain ⟨-, hfs⟩ := Nat.add_eq_zero_iff.mp h
    rw [SlicesEarly]
    split
    · exact fs.not_slicesEarly_of_zero xs hfs
    · exact id
    · rw [fs.lastSkipped_of_zero hfs]
      exact Bool.false_ne_true

/-- Up to the end of the fixed parts everything is known just when the last of them is. -/
theorem Value.known_eq_iff {v : Value} {fs : Fields} {offset k p : Nat}
    (hp : offset + (v.fixedBytes + fs.fixedBytes) = p) (hk : k ≤ p)
    (hlast : k = p ↔ (Fields.cons v fs).lastSkipped = false) :
    v.known offset k ≤ p ∧ (v.known offset k = p ↔ fs.lastSkipped = false) := by
  rw [Fields.lastSkipped] at hlast
  by_cases hfs : fs.fixedBytes = 0
  · rw [if_pos hfs] at hlast
    have hrest := fs.lastSkipped_of_zero hfs
    cases hcow : v.isCow with
    | true =>
      rw [known_of_cow hcow]
      split
      · rename_i hzero
        have hkp := hlast.mpr (by simp [hzero])
        exact ⟨hk, iff_of_true hkp hrest⟩
      · exact ⟨by omega, iff_of_true (by omega) hrest⟩
    | false =>
      have hkp := hlast.mpr (by simp [skipsFixedPart, hcow])
      rw [known, hcow, Bool.false_and, if_neg Bool.false_ne_true]
      exact ⟨hk, iff_of_true hkp hrest⟩
  · rw [if_neg hfs] at hlast
    rw [← hlast]
    unfold known
    split <;> omega

/-- If the fixed parts are known up to the last one that is left out, a slice is out of bounds just
when it comes before that. -/
theorem Fields.starts_iff : (fs : Fields) → (x : fs.Val) → {offset k p : Nat} →
    offset + fs.fixedBytes = p → k ≤ p → (k = p ↔ fs.lastSkipped = false) →
    (fs.Starts x offset k p ↔ ¬ fs.SlicesEarly x)
  | .nil, _, _, _, _, _, _, _ => iff_of_true trivial id
  | .cons v fs, (x, xs), offset, k, p, hp, hk, hlast => by
    obtain ⟨hle, hknown⟩ := Value.known_eq_iff hp hk hlast
    rw [Starts, SlicesEarly]
    cases v.touch x with
    | nothing =>
      rw [fixedBytes, ← Nat.add_assoc] at hp
      exact fs.starts_iff xs hp hle hknown
    | checks => exact iff_of_true trivial id
    | slices =>
      rw [Bool.not_eq_true, ← hknown]
      exact ⟨fun h => Nat.le_antisymm hle h, fun h => h.ge⟩

/-- Without a fixed part nothing is known. -/
theorem Fields.starts_of_zero : (fs : Fields) → (x : fs.Val) → {offset k p : Nat} →
    fs.fixedBytes = 0 → k < p → (fs.Starts x offset k p ↔ ¬ fs.SlicesFirst x)
  | .nil, _, _, _, _, _, _ => iff_of_true trivial id
  | .cons v fs, (x, xs), offset, k, p, h, hk => by
    obtain ⟨hv, hfs⟩ := Nat.add_eq_zero_iff.mp h
    have hknown : v.known offset k = k := by simp [Value.known, hv]
    rw [Starts, SlicesFirst, hknown]
    cases v.touch x with
    | nothing => exact fs.starts_of_zero xs hfs hk
    | checks => exact iff_of_true trivial id
    | slices => exact iff_of_false (Nat.not_le.mpr hk) fun h => h trivial

theorem Fields.sheltered_fixedAccesses : (fs : Fields) → (offset k : Nat) →
    Sheltered k (fs.fixedAccesses offset)
  | .nil, _, _ => trivial
  | .cons v fs, offset, k => by
    rw [fixedAccesses, Value.fixedAccesses]
    split
    · exact fs.sheltered_fixedAccesses _ k
    · exact fs.sheltered_fixedAccesses _ _

/-- How far the fixed parts get that are written at first. -/
theorem Fields.reach_fixedAccesses : (fs : Fields) → (offset : Nat) →
    reach (fs.fixedAccesses offset) ≤ offset + fs.fixedBytes ∧
    (fs.fixedBytes = 0 → reach (fs.fixedAccesses offset) = 0) ∧
    (fs.fixedBytes ≠ 0 →
      (reach (fs.fixedAccesses offset) = offset + fs.fixedBytes ↔ fs.lastSkipped = false))
  | .nil, _ => ⟨Nat.zero_le _, fun _ => rfl, fun h => absurd rfl h⟩
  | .cons v fs, offset => by
    obtain ⟨hle, hzero, hlast⟩ := fs.reach_fixedAccesses (offset + v.fixedBytes)
    have hv : reach (v.fixedAccesses (.static offset) 0) =
        if v.skipsFixedPart || v.fixedBytes == 0 then 0 else offset + v.fixedBytes := by
      unfold Value.fixedAccesses
      split <;> simp [reach, need, ByteOffset.get]
    rw [fixedAccesses, reach_append, fixedBytes, lastSkipped, hv]
    by_cases hfs : fs.fixedBytes = 0
    · rw [if_pos hfs, hzero hfs, hfs]
      by_cases hv0 : v.fixedBytes = 0
      · simp [hv0]
      · cases hskips : v.skipsFixedPart with
        | true => simp [hv0]; omega
        | false => simp [hv0]
    · rw [if_neg hfs, ← hlast hfs]
      split <;> omega

/-- The fields of a struct or a variant, from `offset` on. -/
theorem Fields.Shelters.both {fs : Fields} {x : fs.Val} (h : fs.Shelters x) (offset : Nat) :
    Sheltered 0 (fs.fixedAccesses offset ++ fs.accesses offset x (offset + fs.fixedBytes)) ↔
      fs.Checks x ∧ ¬ fs.SlicesEarly x ∧
        (offset ≠ 0 → fs.fixedBytes = 0 → ¬ fs.SlicesFirst x) := by
  obtain ⟨hle, hzero, hlast⟩ := fs.reach_fixedAccesses offset
  rw [sheltered_append, and_iff_right (fs.sheltered_fixedAccesses offset 0), Nat.zero_max,
    h _ _ _ (Nat.le_refl _) hle, and_comm]
  refine and_congr_right fun _ => ?_
  by_cases hfixed : fs.fixedBytes = 0
  · have hearly := fs.not_slicesEarly_of_zero x hfixed
    rw [hzero hfixed, hfixed, Nat.add_zero, and_iff_right hearly]
    by_cases hoffset : offset = 0
    · subst hoffset
      exact iff_of_true (fs.starts_of_known x 0 0 (by omega)) fun h => absurd rfl h
    · rw [fs.starts_of_zero x hfixed (Nat.pos_of_ne_zero hoffset)]
      simp [hoffset]
  · rw [fs.starts_iff x rfl hle (hlast hfixed)]
    simp [hfixed]

/-! ## Every type -/

theorem outcome_eq_ok {α : Type} {r r' : α} {first : Option Access}
    (h : outcome r first = .ok r') : first = none := by
  rcases first with _ | _ | _
  · rfl
  all_goals cases h

/-- A writer needs `byte_len` bytes. -/
theorem Ty.byteLen_le_reach {t : Ty} (ha : t.Accepted) (x : t.Val) :
    t.byteLen x ≤ reach (t.accesses x) := by
  have hlen : (List.replicate (reach (t.accesses x)) (0 : UInt8)).length = reach (t.accesses x) :=
    List.length_replicate
  refine ((t.within ha x _ _ hlen).2 () ?_).1
  rw [(t.accesses_spec x).result, hlen, firstBeyond_eq_none.mpr (Nat.le_refl _)]
  rfl

/-- If everything is written once, it needs no more. -/
theorem Ty.reach_accesses {t : Ty} (ha : t.Accepted) {x : t.Val} (h : t.Single x) :
    reach (t.accesses x) = t.byteLen x := by
  refine Nat.le_antisymm ?_ (Ty.byteLen_le_reach ha x)
  have hlen : (List.replicate (t.byteLen x) (0 : UInt8)).length = t.byteLen x :=
    List.length_replicate
  have hw := t.writes ha x h (List.replicate (t.byteLen x) 0) (by rw [t.length_encode, hlen]; omega)
  have hresult := (t.accesses_spec x).result (List.replicate (t.byteLen x) 0)
  rw [hw, hlen] at hresult
  exact firstBeyond_eq_none.mp (outcome_eq_ok hresult.symm)

theorem Value.Shelters.nothing {v : Value} {x : v.Val} (hcow : v.isCow = false)
    (htouch : v.touch x = .nothing) (hchecks : v.Checks x) (hlen : v.unknownLength x = 0)
    (haccesses : ∀ o p, v.accesses o x p = []) : v.Shelters x :=
  .of_bytePtr hcow fun o p k _ => by
    rw [htouch, hlen, haccesses, eq_true hchecks]
    exact .nothing

theorem Variants.variantLen_ne_zero {vs : Variants} (h : vs.length ≤ 256) :
    vs.variantLen ≠ 0 ↔ 2 ≤ vs.length := by
  by_cases hone : vs.length ≤ 1
  · rw [variantLen_of_le_one hone]
    exact iff_of_false (fun h => h rfl) (by omega)
  · rw [variantLen_eq_one (by omega) h]
    exact iff_of_true Nat.one_ne_zero (by omega)

mutual

theorem Value.shelters : (v : Value) → v.Accepted → (x : v.Val) → v.Single x → v.Shelters x
  | .emptyTuple, _, _, _ | .bool, _, _, _ | .number _, _, _, _ | .option _, _, none, _ =>
    .nothing rfl rfl trivial rfl fun _ _ => rfl
  | .string, _, s, _ => .of_bytePtr rfl fun _ _ _ hk =>
    .checked (w := (asBytes s).length) hk .nothing
  | .cow v, h, x, hx => .cow (v.shelters h.2.2 x.get hx)
  | .option v, h, some x, hx => .some (v.shelters h x hx.2) hx.1
  | .array t _, h, _, hxs => .of_bytePtr rfl fun _ _ _ hk => itemAccesses_part
    (fun x hx => ⟨t.sheltered_iff h x (hxs x hx), Ty.reach_accesses h (hxs x hx)⟩) hk
  | .vec t, h, _, hxs => .of_bytePtr rfl fun _ _ _ hk => itemAccesses_part
    (fun x hx => ⟨t.sheltered_iff h x (hxs x hx), Ty.reach_accesses h (hxs x hx)⟩) hk
  | .delegated t, h, x, hx => .of_bytePtr rfl fun _ _ _ hk =>
    delegatedAccesses_part ⟨t.sheltered_iff h x hx, Ty.reach_accesses h hx⟩ hk

theorem Ty.sheltered_iff : (t : Ty) → t.Accepted → (x : t.Val) → t.Single x →
    (Sheltered 0 (t.accesses x) ↔ t.Checks x)
  | .lone v, h, x, hx => by
    have hfields : Fields.Shelters (.cons v .nil) (x, ()) :=
      .cons hx (v.shelters h x hx) fun _ _ _ _ _ => iff_of_true trivial ⟨trivial, trivial⟩
    have hboth := hfields.both 0
    have hearly : ¬ (Fields.cons v .nil).SlicesEarly (x, ()) := by
      rw [Fields.SlicesEarly]
      cases v.touch x with
      | nothing | checks => exact id
      | slices => exact Bool.false_ne_true
    simp only [Fields.fixedAccesses, Fields.accesses, Fields.fixedBytes, List.append_nil,
      Nat.zero_add, Nat.add_zero, Fields.Checks, and_true] at hboth
    rw [Ty.accesses, hboth, Ty.Checks]
    simp [hearly]
  | .struct fs, h, x, hx => by
    have hboth := (fs.shelters h x hx).both 0
    rw [Nat.zero_add] at hboth
    rw [Ty.accesses, hboth, Ty.Checks]
    simp
  | .enum vs, h, x, hx => by
    have hnumber : ∀ k, Sheltered k (if vs.length ≤ 1 then [] else [.checked 1]) := fun k => by
      split <;> trivial
    rw [Ty.accesses, sheltered_append, vs.sheltered_iff h.2.2 x hx, Ty.Checks,
      and_iff_left (hnumber _), propext (Variants.variantLen_ne_zero h.2.1)]

theorem Fields.shelters : (fs : Fields) → fs.Accepted → (x : fs.Val) → fs.Single x →
    fs.Shelters x
  | .nil, _, _, _ => fun _ _ _ _ _ => iff_of_true trivial ⟨trivial, trivial⟩
  | .cons v fs, h, (x, xs), hx =>
    .cons hx.1 (v.shelters h.1 x hx.1) (fs.shelters h.2 xs hx.2)

theorem Variants.sheltered_iff : (vs : Variants) → vs.Accepted → (x : vs.Val) → vs.Single x →
    ∀ {variantLen : Nat}, (Sheltered 0 (vs.accesses variantLen x) ↔ vs.Checks (variantLen ≠ 0) x)
  | .nil, _, x, _ => nomatch x
  | .cons fs _, h, .inl x, hx => (fs.shelters h.1 x hx).both _
  | .cons _ vs, h, .inr x, hx => vs.sheltered_iff h.2 x hx

end

/-- The writer returns a value if the buffer has `byte_len` bytes and an error if it has not, and
what is in the buffer after them stays. -/
def Ty.WritesCleanly (t : Ty) (x : t.Val) (bytes : Bytes) : Prop :=
  (t.writeToBytes x bytes).2 =
    (if t.byteLen x ≤ bytes.length then .ok () else .err .sliceTooShort) ∧
  (t.writeToBytes x bytes).1.drop (t.byteLen x) = bytes.drop (t.byteLen x)

theorem Ty.writesCleanly_of_accesses {t : Ty} (ha : t.Accepted) {x : t.Val}
    (hsheltered : Sheltered 0 (t.accesses x)) (hreach : reach (t.accesses x) ≤ t.byteLen x)
    (bytes : Bytes) : t.WritesCleanly x bytes := by
  obtain ⟨-, hresult, hframe⟩ := t.accesses_spec x
  refine ⟨?_, hframe bytes _ hreach⟩
  rw [hresult]
  split
  · rw [firstBeyond_eq_none.mpr (by omega)]
    rfl
  · rename_i hshort
    have hno := Access.sheltered_iff.mp hsheltered bytes.length (Nat.zero_le _)
    have hle := Ty.byteLen_le_reach ha x
    rcases hfirst : firstBeyond bytes.length (t.accesses x) with _ | stop | start
    · have := firstBeyond_eq_none.mp hfirst
      omega
    · rfl
    · exact absurd hfirst (hno start)

theorem Ty.accesses_of_writesCleanly {t : Ty} {x : t.Val} (h : ∀ bytes, t.WritesCleanly x bytes) :
    Sheltered 0 (t.accesses x) ∧ reach (t.accesses x) ≤ t.byteLen x := by
  have hresult : ∀ n, outcome () (firstBeyond n (t.accesses x)) =
      if t.byteLen x ≤ n then .ok () else .err .sliceTooShort := by
    intro n
    have hlen : (List.replicate n (0 : UInt8)).length = n := List.length_replicate
    have hn := (h (List.replicate n 0)).1
    rwa [(t.accesses_spec x).result, hlen] at hn
  constructor
  · refine Access.sheltered_iff.mpr fun n _ start hfirst => ?_
    have hn := hresult n
    rw [hfirst] at hn
    split at hn <;> cases hn
  · have hn := hresult (t.byteLen x)
    rw [if_pos (Nat.le_refl _)] at hn
    exact firstBeyond_eq_none.mp (outcome_eq_ok hn)

/-- `byte_len` returns, and on every buffer the writer returns a value if there are that many bytes
and an error if there are not, and what is in the buffer after them stays. -/
def Ty.RunsCleanly (t : Ty) (x : t.Val) : Prop :=
  ∃ n, t.runByteLen x = .ok n ∧ ∀ bytes : Bytes,
    (t.runWriteToBytes x bytes).2 = (if n ≤ bytes.length then .ok () else .err .sliceTooShort) ∧
    (t.runWriteToBytes x bytes).1.drop n = bytes.drop n

theorem Ty.runsCleanly_iff_writesCleanly (t : Ty) (x : t.Val) :
    t.RunsCleanly x ↔ t.Measured x ∧ ∀ bytes, t.WritesCleanly x bytes := by
  constructor
  · rintro ⟨n, hn, hwrite⟩
    obtain ⟨hx, rfl⟩ := (t.runByteLen_returnsIff x).of_eq_ok hn
    rw [t.runWriteToBytes_eq x (t.stepped_of_measured x hx)] at hwrite
    exact ⟨hx, hwrite⟩
  · rintro ⟨hx, hwrite⟩
    refine ⟨t.byteLen x, Ty.runByteLen_of_measured hx, ?_⟩
    rw [t.runWriteToBytes_eq x (t.stepped_of_measured x hx)]
    exact hwrite

/-- A value is written cleanly on every buffer just when its length is found, each slice comes after
a checked access that far, and no access is beyond the length. For a value without an `Option` that
holds a `Cow` of a number the last two are so unless, in some struct or variant, the first field to
do something at `byte_ptr` slices: before the `Cow` with the last of the fixed parts, or in a
variant with a number and no fixed part. -/
theorem Ty.runsCleanly_iff (t : Ty) (haccepted : t.Accepted) (x : t.Val) :
    (t.RunsCleanly x ↔
      t.Measured x ∧ Sheltered 0 (t.accesses x) ∧ reach (t.accesses x) ≤ t.byteLen x) ∧
    (t.Single x → (t.RunsCleanly x ↔ t.Measured x ∧ t.Checks x)) := by
  have hall : (∀ bytes, t.WritesCleanly x bytes) ↔
      Sheltered 0 (t.accesses x) ∧ reach (t.accesses x) ≤ t.byteLen x :=
    ⟨Ty.accesses_of_writesCleanly, fun h => Ty.writesCleanly_of_accesses haccepted h.1 h.2⟩
  rw [t.runsCleanly_iff_writesCleanly, hall]
  refine ⟨Iff.rfl, fun hsingle => ?_⟩
  rw [t.sheltered_iff haccepted x hsingle, and_iff_left (Ty.reach_accesses haccepted hsingle).le]

/-- `struct Id(u16);` -/
def id16 : Ty := .struct (.cons (.number .u16) .nil)

/-- `struct { name: String, ids: [Id; 2] }` -/
def namedIds : Ty := .struct (.cons .string (.cons (.array id16 2) .nil))

def namedIdsVal : namedIds.Val := ("a", ⟨[(1, ()), (2, ())], rfl⟩, ())

theorem Ty.runsCleanly_iff_namedIds : namedIds.RunsCleanly namedIdsVal :=
  ((Ty.runsCleanly_iff namedIds ⟨trivial, ⟨trivial, trivial⟩, trivial⟩ namedIdsVal).2
    ⟨trivial, fun _ _ => ⟨trivial, trivial⟩, trivial⟩).mpr
    ⟨⟨trivial, fun _ _ => ⟨trivial, trivial⟩, trivial⟩,
      ⟨trivial, fun _ _ => ⟨⟨trivial, trivial⟩, id⟩, trivial⟩, id⟩

/-- `enum { A(Id), B }` -/
def idOrNone : Ty := .enum (.cons (.cons (.delegated id16) .nil) (.cons .nil .nil))

/-- `struct { id: Option<Cow<u16>> }` -/
def cowId : Ty := .struct (.cons (.option (.cow (.number .u16))) .nil)

/-- `struct { c: C }` with `struct C { id: Cow<Id> }` -/
def cowIdInside : Ty :=
  .struct (.cons (.delegated (.struct (.cons (.cow (.delegated id16)) .nil))) .nil)

/-- The field of `A` is sliced from the second byte of no bytes. A number in a `Cow` in an `Option`
takes five bytes where `byte_len` is three: three are too few, and of five the last two change. The
length of a struct with a `Cow` of another one is never found, also after it has been written. -/
theorem Ty.not_runsCleanly :
    idOrNone.Accepted ∧ cowId.Accepted ∧ cowIdInside.Accepted ∧
    (idOrNone.runWriteToBytes (.inl ((1#16, ()), ())) []).2 = .panic ∧
    ¬ idOrNone.RunsCleanly (.inl ((1#16, ()), ())) ∧
    cowId.runByteLen (some (.owned 1#16), ()) = .ok 3 ∧
    (cowId.runWriteToBytes (some (.owned 1#16), ()) [7, 7, 7]).2 = .err .sliceTooShort ∧
    ¬ cowId.RunsCleanly (some (.owned 1#16), ()) ∧
    cowId.runWriteToBytes (some (.owned 1#16), ()) [7, 7, 7, 7, 7] = ([1, 1, 0, 1, 0], .ok ()) ∧
    cowIdInside.runByteLen ((.owned (1#16, ()), ()), ()) = .hang ∧
    cowIdInside.runWriteToBytes ((.owned (1#16, ()), ()), ()) [7, 7] = ([1, 0], .hang) ∧
    ¬ cowIdInside.RunsCleanly ((.owned (1#16, ()), ()), ()) := by
  have hpanic : (idOrNone.runWriteToBytes (.inl ((1#16, ()), ())) []).2 = .panic := by
    decide +kernel
  have hlen : cowId.runByteLen (some (.owned 1#16), ()) = .ok 3 := by decide +kernel
  have hshort : (cowId.runWriteToBytes (some (.owned 1#16), ()) [7, 7, 7]).2 =
      .err .sliceTooShort := by decide +kernel
  have hhang : cowIdInside.runByteLen ((.owned (1#16, ()), ()), ()) = .hang := rfl
  refine ⟨⟨by decide, by decide, ⟨⟨trivial, trivial⟩, trivial⟩, trivial, trivial⟩,
    ⟨⟨by decide, by decide, trivial⟩, trivial⟩,
    ⟨⟨⟨by decide, by decide, trivial, trivial⟩, trivial⟩, trivial⟩, hpanic, ?_, hlen, hshort, ?_,
    by decide +kernel, hhang, by decide +kernel, ?_⟩
  · rintro ⟨n, -, hwrite⟩
    have hresult := hpanic.symm.trans (hwrite []).1
    split at hresult <;> cases hresult
  · rintro ⟨n, hn, hwrite⟩
    obtain rfl : 3 = n := Outcome.ok.inj (hlen.symm.trans hn)
    cases hshort.symm.trans (hwrite [7, 7, 7]).1
  · rintro ⟨n, hn, -⟩
    cases hhang.symm.trans hn

end MiniUdp.Derive
