import MiniUdp.Derive.Capture

/-!
# Names without captures

When no header is captured, every name stands for what was meant, and named
fields are read as the fields of the model without names
(`Fields.readNamed_eq_readBoth`, `Ty.fromBytes_struct_named`).
-/

namespace MiniUdp.Derive

/-! ## Values by position -/

/-- The value of a field, with what it is taken for. -/
def Fields.nth? : (fs : Fields) → fs.Val → Nat → Option ((v : Value) × v.Val)
  | .nil, _, _ => none
  | .cons v _, (x, _), 0 => some ⟨v, x⟩
  | .cons _ fs, (_, xs), i + 1 => fs.nth? xs i

theorem Fields.get?_of_nth? : {fs : Fields} → {xs : fs.Val} → {i : Nat} →
    {vx : (v : Value) × v.Val} → fs.nth? xs i = some vx → fs.get? i = some vx.1
  | .nil, _, _, _, h => nomatch h
  | .cons v fs, (x, xs), 0, _, h => by
    obtain rfl := Option.some.inj h
    rfl
  | .cons v fs, (x, xs), i + 1, vx, h => by
    have hi : fs.nth? xs i = some vx := h
    have hget : fs.get? i = some vx.1 := Fields.get?_of_nth? hi
    exact hget

theorem Fields.nth?_suffix {all fs : Fields} {xs : all.Val} {v : Value} {x : v.Val} {ys : fs.Val}
    {k : Nat} (h : ∀ m, all.nth? xs (k + m) = (Fields.cons v fs).nth? (x, ys) m) (m : Nat) :
    all.nth? xs (k + 1 + m) = fs.nth? ys m := by
  rw [Nat.add_assoc, Nat.add_comm 1]
  exact h (m + 1)

theorem Fields.exists_nth? : (fs : Fields) → (xs : fs.Val) → {i : Nat} → {v : Value} →
    fs.get? i = some v → ∃ x, fs.nth? xs i = some ⟨v, x⟩
  | .nil, _, _, _, h => nomatch h
  | .cons _ _, (x, _), 0, _, h => by
    obtain rfl := Option.some.inj h
    exact ⟨x, rfl⟩
  | .cons _ fs, (_, xs), _ + 1, _, h => fs.exists_nth? xs h

theorem Fields.nth?_owned : (fs : Fields) → (xs : fs.Val) → (i : Nat) →
    fs.nth? (fs.owned xs) i = (fs.nth? xs i).map fun vx => ⟨vx.1, vx.1.owned vx.2⟩
  | .nil, _, _ | .cons _ _, _, 0 => rfl
  | .cons _ fs, (_, xs), i + 1 => fs.nth?_owned xs i

theorem Fields.small_nth? : (fs : Fields) → (xs : fs.Val) → fs.Small xs → {i : Nat} → {v : Value} →
    {x : v.Val} → fs.nth? xs i = some ⟨v, x⟩ → v.Small x
  | .nil, _, _, _, _, _, h => nomatch h
  | .cons _ _, (_, _), hsmall, 0, _, _, h => by
    cases h
    exact hsmall.1
  | .cons _ fs, (_, xs), hsmall, _ + 1, _, _, h => fs.small_nth? xs hsmall.2 h

/-- Fields whose names stand for values are bound to them. -/
theorem bindFields_eq {names : Nat → String} {s : Scope} : (fs : Fields) → (xs : fs.Val) →
    (k : Nat) → (∀ m w y, fs.nth? xs m = some ⟨w, y⟩ →
      s.lookup (asTokens (names (k + m))) = some (w.toLocal y)) →
    fs.bindFields names k s = .ok xs
  | .nil, _, _, _ => rfl
  | .cons v fs, (x, xs), k, h => by
    have hhead : s.lookup (asTokens (names k)) = some (v.toLocal x) := h 0 v x rfl
    have htail := bindFields_eq fs xs (k + 1) fun m w y hm => by
      rw [Nat.add_assoc, Nat.add_comm 1]
      exact h (m + 1) w y hm
    rw [Fields.bindFields, hhead, Option.bind_some, Value.ofLocal_toLocal, typed_some,
      Outcome.bind_ok, htail]
    rfl

/-- The variable parts from field `k` on do not bind the name. -/
def Fields.Keeps (fs : Fields) (names : Nat → String) (k : Nat) (name : String) : Prop :=
  ∀ m w, k ≤ m → fs.get? m = some w → w.isFixed = false → name ≠ asTokens (names m)

theorem Fields.Keeps.mono {fs : Fields} {names : Nat → String} {k k' : Nat} {name : String}
    (h : fs.Keeps names k name) (hk : k ≤ k') : fs.Keeps names k' name :=
  fun m w hm => h m w (Nat.le_trans hk hm)

/-! ## The scope in the end -/

/-- The bindings of the variable parts. -/
def Fields.letValues (names : Nat → String) : (fs : Fields) → Nat → fs.Val → Scope → Scope
  | .nil, _, _, s => s
  | .cons v fs, i, (x, xs), s =>
    fs.letValues names (i + 1) xs (if v.isFixed then s else (asTokens (names i), v.toLocal x) :: s)

/-- The names of the headers from field `i` on stand for the headers themselves. -/
def Fields.HeadersRead (names : Nat → String) : (fs : Fields) → Nat → fs.Fixed → Scope → Prop
  | .nil, _, _, _ => True
  | .cons v fs, i, (f, rest), s =>
    (v.isFixed = false → v.header (s.lookup (fixedIdent (names i))) = .ok f) ∧
    fs.HeadersRead names (i + 1) rest s

/-- The values that the fixed parts bind are the values read. -/
def Fields.Fits : (fs : Fields) → fs.Fixed → fs.Val → Prop
  | .nil, _, _ => True
  | .cons v fs, (f, rest), (x, xs) =>
    (v.isFixed = true → ∀ ident s, v.letFixed ident f s = (asTokens ident, v.toLocal x) :: s) ∧
    fs.Fits rest xs

theorem Value.exists_readVariablePart {v : Value} (h : v.isFixed = true) (f : v.Fixed) :
    ∃ x : v.Val, (∀ ident s, v.letFixed ident f s = (asTokens ident, v.toLocal x) :: s) ∧
      ∀ o bytes bytePtr, v.readVariablePart o f bytes bytePtr = pure (x, bytePtr) := by
  cases v with
  | emptyTuple | bool | number n =>
    refine ⟨f, fun _ _ => rfl, fun o bytes bytePtr => ?_⟩
    rw [readVariablePart]
  | _ => exact nomatch h

theorem Fields.fits_of_read : (fs : Fields) → (f : fs.Fixed) → {offset : Nat} → {bytes : Bytes} →
    {bytePtr r : Nat} → {xs : fs.Val} →
    fs.readVariablePart offset f bytes bytePtr = .ok (xs, r) → fs.Fits f xs
  | .nil, _, _, _, _, _, _, _ => trivial
  | .cons v fs, (f, rest), _, _, _, _, xs, h => by
    rw [readVariablePart] at h
    obtain ⟨⟨y, _⟩, hy, h⟩ := Outcome.bind_eq_ok.mp h
    obtain ⟨⟨ys, _⟩, hys, h⟩ := Outcome.bind_eq_ok.mp h
    cases h
    refine ⟨fun hfixed => ?_, fs.fits_of_read rest hys⟩
    obtain ⟨x, hlet, hread⟩ := Value.exists_readVariablePart hfixed f
    rw [hread] at hy
    cases hy
    exact hlet

section Uncaptured

variable {all : Fields} {names : Nat → String}

theorem letValues_lookup {name : String} : (fs : Fields) → (xs : fs.Val) → (k : Nat) →
    (s : Scope) → (∀ m, all.get? (k + m) = fs.get? m) → all.Keeps names k name →
    (fs.letValues names k xs s).lookup name = s.lookup name
  | .nil, _, _, _, _, _ => rfl
  | .cons v fs, (x, xs), k, s, hsuffix, h => by
    rw [Fields.letValues, letValues_lookup fs xs (k + 1) _ (Fields.get?_suffix hsuffix)
      (h.mono (Nat.le_succ k))]
    split
    · rfl
    · rename_i hfixed
      exact Scope.lookup_cons_of_ne (h k v (Nat.le_refl k) (hsuffix 0) (by simpa using hfixed)) _ s

variable (hd : all.Distinct names)

include hd

theorem letValues_value : (fs : Fields) → (xs : fs.Val) → (k : Nat) → (s : Scope) →
    (∀ m, all.get? (k + m) = fs.get? m) → ∀ {m w y}, fs.nth? xs m = some ⟨w, y⟩ →
    w.isFixed = false → (fs.letValues names k xs s).lookup (asTokens (names (k + m))) =
      some (w.toLocal y)
  | .nil, _, _, _, _, _, _, _, hm, _ => nomatch hm
  | .cons v fs, (x, xs), k, s, hsuffix, m, w, y, hm, hfixed => by
    have hrest := Fields.get?_suffix hsuffix
    cases m with
    | zero =>
      cases hm
      have hkeeps : all.Keeps names (k + 1) (asTokens (names k)) := by
        intro m u hkm hu _ heq
        obtain rfl := hd k m v u (hsuffix 0) hu (asTokens_inj.mp heq)
        omega
      rw [Fields.letValues, Nat.add_zero, letValues_lookup fs xs (k + 1) _ hrest hkeeps, hfixed]
      exact Scope.lookup_cons_self _ _ s
    | succ m =>
      have htail := letValues_value fs xs (k + 1) (if v.isFixed then s else
        (asTokens (names k), v.toLocal x) :: s) hrest hm hfixed
      rwa [Nat.add_assoc, Nat.add_comm 1] at htail

variable (hnone : ∀ i j, ¬all.Captures names i j)

include hnone

/-- The fixed parts of later fields do not bind what those before have bound. -/
theorem letFixed_lookup {u : Ident} : (fs : Fields) → (f : fs.Fixed) → (k : Nat) → (s : Scope) →
    (∀ m, all.get? (k + m) = fs.get? m) → all.LiveFixed k u →
    (fs.letFixed names k f s).lookup (u.name names) = s.lookup (u.name names)
  | .nil, _, _, _, _, _ => rfl
  | .cons v fs, (f, rest), k, s, hsuffix, hu => by
    have hk : all.get? k = some v := hsuffix 0
    have hu' : all.LiveFixed (k + 1) u := by
      cases u with
      | value j =>
        obtain ⟨w, hj, hw, hlt⟩ := hu
        exact ⟨w, hj, hw, Nat.lt_succ_of_lt hlt⟩
      | header i =>
        obtain ⟨w, hi, hw, hlt⟩ := hu
        exact ⟨w, hi, hw, Nat.lt_succ_of_lt hlt⟩
    rw [Fields.letFixed, letFixed_lookup fs rest (k + 1) _ (Fields.get?_suffix hsuffix) hu']
    rcases v.letFixed_cases f with ⟨hfixed, l, hl⟩ | ⟨hheader, l, hl⟩ | ⟨-, -, hl⟩
    · rw [hl]
      refine Scope.lookup_cons_of_ne ?_ l s
      intro heq
      cases u with
      | value j =>
        obtain ⟨w, hj, -, hlt⟩ := hu
        exact Nat.ne_of_lt hlt (hd j k w v hj hk (asTokens_inj.mp heq))
      | header i =>
        obtain ⟨w, hi, hw, -⟩ := hu
        exact hnone i k ((Fields.captures_iff hi hk hw (.inl hfixed)).mp heq.symm)
    · rw [hl]
      refine Scope.lookup_cons_of_ne ?_ l s
      intro heq
      cases u with
      | value j =>
        obtain ⟨w, hj, hw, -⟩ := hu
        exact hnone k j ((Fields.captures_iff hk hj hheader (.inl hw)).mp heq)
      | header i =>
        obtain ⟨w, hi, -, hlt⟩ := hu
        exact Nat.ne_of_lt hlt (hd i k w v hi hk (fixedIdent_inj.mp heq))
    · rw [hl]

theorem headersRead_letFixed : (fs : Fields) → (f : fs.Fixed) → (k : Nat) → (s : Scope) →
    (∀ m, all.get? (k + m) = fs.get? m) → fs.HeadersRead names k f (fs.letFixed names k f s)
  | .nil, _, _, _, _ => trivial
  | .cons v fs, (f, rest), k, s, hsuffix => by
    have hrest := Fields.get?_suffix hsuffix
    refine ⟨fun hfixed => ?_, headersRead_letFixed fs rest (k + 1) _ hrest⟩
    rw [← Value.header_letFixed hfixed (names k) f s, Fields.letFixed]
    cases hv : v.hasHeader with
    | true =>
      have hlive : all.LiveFixed (k + 1) (.header k) := ⟨v, hsuffix 0, hv, Nat.lt_succ_self k⟩
      exact congrArg v.header (letFixed_lookup hd hnone fs rest (k + 1) _ hrest hlive)
    | false => exact Value.header_congr hv _ _

/-- The fixed parts bind the values they read. -/
theorem letFixed_value : (fs : Fields) → (f : fs.Fixed) → (xs : fs.Val) → (k : Nat) →
    (s : Scope) → (∀ m, all.get? (k + m) = fs.get? m) → fs.Fits f xs → ∀ {m w y},
    fs.nth? xs m = some ⟨w, y⟩ → w.isFixed = true →
    (fs.letFixed names k f s).lookup (asTokens (names (k + m))) = some (w.toLocal y)
  | .nil, _, _, _, _, _, _, _, _, _, hm, _ => nomatch hm
  | .cons v fs, (f, rest), (x, xs), k, s, hsuffix, hfits, m, w, y, hm, hfixed => by
    have hrest := Fields.get?_suffix hsuffix
    cases m with
    | zero =>
      cases hm
      have hlive : all.LiveFixed (k + 1) (.value k) := ⟨v, hsuffix 0, hfixed, Nat.lt_succ_self k⟩
      have hlookup := letFixed_lookup hd hnone fs rest (k + 1) (v.letFixed (names k) f s) hrest hlive
      rw [hfits.1 hfixed, Ident.name, Scope.lookup_cons_self] at hlookup
      rw [Fields.letFixed, hfits.1 hfixed, Nat.add_zero, hlookup]
    | succ m =>
      have htail := letFixed_value fs rest xs (k + 1) (v.letFixed (names k) f s) hrest hfits.2 hm hfixed
      rwa [Nat.add_assoc, Nat.add_comm 1] at htail

omit hd in
/-- A variable part binds no name of a later header. -/
theorem headersRead_let {j : Nat} {w : Value} (hj : all.get? j = some w) (l : Local) (s : Scope) :
    (fs : Fields) → (f : fs.Fixed) → (k : Nat) → (∀ m, all.get? (k + m) = fs.get? m) → j < k →
    fs.HeadersRead names k f s → fs.HeadersRead names k f ((asTokens (names j), l) :: s)
  | .nil, _, _, _, _, _ => trivial
  | .cons v fs, (f, rest), k, hsuffix, hjk, h => by
    have hrest := headersRead_let hj l s fs rest (k + 1) (Fields.get?_suffix hsuffix)
      (Nat.lt_succ_of_lt hjk) h.2
    refine ⟨fun hfixed => ?_, hrest⟩
    rw [← h.1 hfixed]
    cases hv : v.hasHeader with
    | true =>
      have hne : fixedIdent (names k) ≠ asTokens (names j) := by
        intro heq
        exact hnone k j ((Fields.captures_iff (hsuffix 0) hj hv (.inr hjk)).mp heq.symm)
      rw [Scope.lookup_cons_of_ne hne]
    | false => exact Value.header_congr hv _ _

omit hd in
/-- The variable parts are read with their own headers. -/
theorem letVariable_eq (bytes : Bytes) : (fs : Fields) → (f : fs.Fixed) → (k offset : Nat) →
    (s : Scope) → (bytePtr : Nat) → (∀ m, all.get? (k + m) = fs.get? m) →
    fs.HeadersRead names k f s →
    fs.letVariable names k offset s bytes bytePtr =
      (fs.readVariablePart offset f bytes bytePtr >>= fun (xs, bytePtr) =>
        pure (fs.letValues names k xs s, bytePtr))
  | .nil, _, _, _, _, _, _, _ => rfl
  | .cons v fs, (f, rest), k, offset, s, bytePtr, hsuffix, h => by
    have hsuffix' := Fields.get?_suffix hsuffix
    have hrest := letVariable_eq bytes fs rest (k + 1) (offset + v.fixedBytes)
    rw [Fields.letVariable, Fields.readVariablePart]
    cases hfixed : v.isFixed with
    | true =>
      obtain ⟨x, -, hread⟩ := Value.exists_readVariablePart hfixed f
      rw [v.letVariable_fixed hfixed, hread]
      simp only [pure_bind, bind_assoc, Fields.letValues, hfixed, if_true]
      exact hrest s bytePtr hsuffix' h.2
    | false =>
      rw [v.letsValue hfixed, h.1 hfixed]
      simp only [Outcome.bind_ok, pure_bind, bind_assoc, Fields.letValues, hfixed,
        Bool.false_eq_true, if_false]
      congr 1
      funext r
      have hheaders := headersRead_let hnone (hsuffix 0) (v.toLocal r.1) s fs rest (k + 1) hsuffix'
        (Nat.lt_succ_self k) h.2
      exact hrest _ r.2 hsuffix' hheaders

end Uncaptured

/-- In the end every field is bound to the value read for it. -/
theorem bindFields_letValues {fs : Fields} {names : Nat → String} (hd : fs.Distinct names)
    (hnone : ∀ i j, ¬fs.Captures names i j) {f : fs.Fixed} {xs : fs.Val} (hfits : fs.Fits f xs) :
    fs.bindFields names 0 (fs.letValues names 0 xs (fs.letFixed names 0 f [])) = .ok xs := by
  have hsuffix : ∀ m, fs.get? (0 + m) = fs.get? m := fun m => by rw [Nat.zero_add]
  refine bindFields_eq fs xs 0 fun m w y hm => ?_
  rw [Nat.zero_add]
  cases hfixed : w.isFixed with
  | true =>
    have hkeeps : fs.Keeps names 0 (asTokens (names m)) := by
      intro j u _ hj hnotFixed heq
      have hm' := Fields.get?_of_nth? hm
      obtain rfl := hd m j w u hm' hj (asTokens_inj.mp heq)
      obtain rfl := Option.some.inj (hm'.symm.trans hj)
      rw [hfixed] at hnotFixed
      exact nomatch hnotFixed
    rw [letValues_lookup fs xs 0 _ hsuffix hkeeps]
    have hvalue := letFixed_value hd hnone fs f xs 0 [] hsuffix hfits hm hfixed
    rwa [Nat.zero_add] at hvalue
  | false =>
    have hvalue := letValues_value hd fs xs 0 (fs.letFixed names 0 f []) hsuffix hm hfixed
    rwa [Nat.zero_add] at hvalue

/-- Fields without captures are read as if they had no names. -/
theorem Fields.readNamed_eq_readBoth {fs : Fields} {names : Nat → String} (hd : fs.Distinct names)
    (hnone : ∀ i j, ¬fs.Captures names i j) (offset : Nat) (bytes : Bytes) :
    fs.readNamed names offset bytes = value (fs.readBoth offset bytes) := by
  have hsuffix : ∀ m, fs.get? (0 + m) = fs.get? m := fun m => by rw [Nat.zero_add]
  unfold readNamed readBoth value
  rw [bind_assoc]
  congr 1
  funext f
  rw [letVariable_eq hnone bytes fs f 0 offset _ _ hsuffix
    (headersRead_letFixed hd hnone fs f 0 [] hsuffix), bind_assoc]
  cases hread : fs.readVariablePart offset f bytes (offset + fs.fixedBytes) with
  | ok out => exact bindFields_letValues hd hnone (fs.fits_of_read f hread)
  | err | panic | hang => rfl

/-- A struct with these names. -/
theorem Ty.fromBytes_struct_named {fs : Fields} {names : Nat → String} (hd : fs.Distinct names)
    (hnone : ∀ i j, ¬fs.Captures names i j) (bytes : Bytes) :
    fs.readNamed names 0 bytes = (Ty.struct fs).fromBytes bytes := by
  rw [Fields.readNamed_eq_readBoth hd hnone, fromBytes, read_struct]

end MiniUdp.Derive
