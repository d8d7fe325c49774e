import MiniUdp.Derive.Amount

/-!
# Renaming fields

Under two namings with different captures there are bytes that are read
differently. A field takes its header from the value it captures, whatever its
own header is, so that only values where the two are equal are read back from
their encoding (`Fields.readNamed_encode`): we encode values with the captures
of one naming and not those of the other.
-/

namespace MiniUdp.Derive

open Utf8

/-! ## What a captured name stands for -/

/-- A captured name is bound before it is used for a header. -/
theorem Fields.Captures.keeps {fs : Fields} {names : Nat → String} (hd : fs.Distinct names)
    {i j : Nat} (h : fs.Captures names i j) : fs.Keeps names i (asTokens (names j)) := by
  obtain ⟨v, w, -, hj, -, -, hbound⟩ := h
  intro m u hm hu hnotFixed heq
  obtain rfl := hd j m w u hj hu (asTokens_inj.mp heq)
  obtain rfl := Option.some.inj (hj.symm.trans hu)
  rcases hbound with hfixed | hlt
  · rw [hnotFixed] at hfixed
    exact nomatch hfixed
  · omega

theorem Value.typeFixed_header {v : Value} (hv : v.hasHeader = true) (ident : String) (Γ : Types) :
    v.typeFixed ident Γ = (fixedIdent ident, v.headerTy) :: Γ := by
  cases v with
  | string | vec t | option v => rfl
  | _ => exact nomatch hv

theorem Value.typeFixed_cases (v : Value) :
    (v.isFixed = true ∧ ∃ τ, ∀ ident Γ, v.typeFixed ident Γ = (asTokens ident, τ) :: Γ) ∨
    (v.hasHeader = true ∧ ∀ ident Γ, v.typeFixed ident Γ = (fixedIdent ident, v.headerTy) :: Γ) ∨
    ∀ ident Γ, v.typeFixed ident Γ = Γ := by
  cases v with
  | emptyTuple | bool | number n => exact .inl ⟨rfl, _, fun _ _ => rfl⟩
  | string | vec t | option v => exact .inr (.inl ⟨rfl, fun _ _ => rfl⟩)
  | cow v | array t n | delegated t => exact .inr (.inr fun _ _ => rfl)

section Suffix

variable {all : Fields} {names : Nat → String} {name : String}

theorem typeVariable_lookup : (fs : Fields) → (k : Nat) → (Γ : Types) →
    (∀ m, all.get? (k + m) = fs.get? m) → all.Keeps names k name →
    (fs.typeVariable names k Γ).lookup name = Γ.lookup name
  | .nil, _, _, _, _ => rfl
  | .cons v fs, k, Γ, hsuffix, h => by
    rw [Fields.typeVariable, typeVariable_lookup fs (k + 1) _ (Fields.get?_suffix hsuffix)
      (h.mono (Nat.le_succ k))]
    unfold Value.typeVariable
    split
    · rfl
    · rename_i hfixed
      exact Scope.lookup_cons_of_ne (h k v (Nat.le_refl k) (hsuffix 0) (by simpa using hfixed)) _ Γ

theorem valuesTyped_get : (fs : Fields) → (k : Nat) → {Γ : Types} →
    (∀ m, all.get? (k + m) = fs.get? m) → fs.ValuesTyped names k Γ →
    ∀ {j w}, k ≤ j → all.get? j = some w → Γ.lookup (asTokens (names j)) = some w.localTy
  | .nil, _, _, hsuffix, _, _, _, hkj, hj =>
    absurd (Fields.lt_of_get? hsuffix hj) (Nat.not_lt.mpr hkj)
  | .cons v fs, k, Γ, hsuffix, h, j, w, hkj, hj => by
    rcases Nat.eq_or_lt_of_le hkj with rfl | hlt
    · obtain rfl := Option.some.inj ((hsuffix 0).symm.trans hj)
      exact h.1
    · exact valuesTyped_get fs (k + 1) (Fields.get?_suffix hsuffix) h.2 hlt hj

/-- A header is used at the type that its name has in the end. -/
theorem headersTyped_get : (fs : Fields) → (k : Nat) → {Γ : Types} →
    (∀ m, all.get? (k + m) = fs.get? m) → fs.HeadersTyped names k Γ →
    ∀ {i v}, k ≤ i → all.get? i = some v → v.hasHeader = true →
    all.Keeps names i (fixedIdent (names i)) →
    ∃ τ, (fs.typeVariable names k Γ).lookup (fixedIdent (names i)) = some τ ∧ v.Takes τ
  | .nil, _, _, hsuffix, _, _, _, hki, hi, _, _ =>
    absurd (Fields.lt_of_get? hsuffix hi) (Nat.not_lt.mpr hki)
  | .cons v fs, k, Γ, hsuffix, h, i, w, hki, hi, hw, hkeeps => by
    rcases Nat.eq_or_lt_of_le hki with rfl | hlt
    · obtain rfl := Option.some.inj ((hsuffix 0).symm.trans hi)
      obtain ⟨τ, hτ, htakes⟩ := h.1 hw
      exact ⟨τ, (typeVariable_lookup (.cons v fs) k Γ hsuffix hkeeps).trans hτ, htakes⟩
    · exact headersTyped_get fs (k + 1) (Fields.get?_suffix hsuffix) h.2 hlt hi hw hkeeps

/-- After the fixed parts, the name of a header that no later field hides stands for one. -/
theorem typeFixed_header (hd : all.Distinct names) {i : Nat} {v : Value}
    (hi : all.get? i = some v) (hv : v.hasHeader = true)
    (hlast : ∀ m w, i < m → all.get? m = some w → w.isFixed = true →
      fixedIdent (names i) ≠ asTokens (names m)) : (fs : Fields) → (k : Nat) → (Γ : Types) →
    (∀ m, all.get? (k + m) = fs.get? m) →
    (i < k → Γ.lookup (fixedIdent (names i)) = some v.headerTy) →
    (fs.typeFixed names k Γ).lookup (fixedIdent (names i)) = some v.headerTy
  | .nil, _, _, hsuffix, hΓ => hΓ (Fields.lt_of_get? hsuffix hi)
  | .cons w fs, k, Γ, hsuffix, hΓ => by
    have hk : all.get? k = some w := hsuffix 0
    refine typeFixed_header hd hi hv hlast fs (k + 1) _ (Fields.get?_suffix hsuffix) fun hik => ?_
    rcases Nat.lt_succ_iff_lt_or_eq.mp hik with hlt | rfl
    · rcases w.typeFixed_cases with ⟨hw, τ, hτ⟩ | ⟨hw, hτ⟩ | hτ
      · rw [hτ, Scope.lookup_cons_of_ne (hlast k w hlt hk hw)]
        exact hΓ hlt
      · have hne : fixedIdent (names i) ≠ fixedIdent (names k) := by
          intro h
          exact Nat.ne_of_lt hlt (hd i k v w hi hk (fixedIdent_inj.mp h))
        rw [hτ, Scope.lookup_cons_of_ne hne]
        exact hΓ hlt
      · rw [hτ]
        exact hΓ hlt
    · obtain rfl := Option.some.inj (hk.symm.trans hi)
      rw [Value.typeFixed_header hv, Scope.lookup_cons_self]

end Suffix

theorem Fields.Captures.name_eq {fs : Fields} {names : Nat → String} {i j : Nat}
    (h : fs.Captures names i j) : asTokens (names j) = fixedIdent (names i) := by
  obtain ⟨-, -, -, -, -, hname, -⟩ := h
  exact asTokens_eq_fixedIdent.mpr hname

/-- A header can be taken from the value it captures. -/
theorem Fields.Compiles.takes {fs : Fields} {names : Nat → String} (h : fs.Compiles names)
    {i j : Nat} {v w : Value} (hc : fs.Captures names i j) (hi : fs.get? i = some v)
    (hj : fs.get? j = some w) (hv : v.hasHeader = true) : v.Takes w.localTy := by
  have hsuffix : ∀ m, fs.get? (0 + m) = fs.get? m := fun m => by rw [Nat.zero_add]
  have hkeeps := hc.keeps h.distinct
  rw [hc.name_eq] at hkeeps
  obtain ⟨τ, hτ, htakes⟩ := headersTyped_get fs 0 hsuffix h.headers (Nat.zero_le i) hi hv hkeeps
  have hvalue := valuesTyped_get fs 0 hsuffix h.values (Nat.zero_le j) hj
  rw [hc.name_eq, hτ] at hvalue
  rwa [← Option.some.inj hvalue]

/-- A value whose name is bound again for a header has the header's type. -/
theorem Fields.Compiles.localTy_eq {fs : Fields} {names : Nat → String} (h : fs.Compiles names)
    {i j : Nat} {v w : Value} (hc : fs.Captures names i j) (hi : fs.get? i = some v)
    (hj : fs.get? j = some w) (hv : v.hasHeader = true) (hw : w.isFixed = true) (hlt : j < i) :
    w.localTy = v.headerTy := by
  have hsuffix : ∀ m, fs.get? (0 + m) = fs.get? m := fun m => by rw [Nat.zero_add]
  have hkeeps : fs.Keeps names 0 (asTokens (names j)) := by
    intro m u _ hu hnotFixed heq
    obtain rfl := h.distinct j m w u hj hu (asTokens_inj.mp heq)
    obtain rfl := Option.some.inj (hj.symm.trans hu)
    rw [hnotFixed] at hw
    exact nomatch hw
  have hlast : ∀ m u, i < m → fs.get? m = some u → u.isFixed = true →
      fixedIdent (names i) ≠ asTokens (names m) := by
    intro m u hm hu _ heq
    rw [← hc.name_eq] at heq
    obtain rfl := h.distinct j m w u hj hu (asTokens_inj.mp heq)
    omega
  have hvalue := valuesTyped_get fs 0 hsuffix h.values (Nat.zero_le j) hj
  rw [typeVariable_lookup fs 0 _ hsuffix hkeeps, hc.name_eq,
    typeFixed_header h.distinct hi hv hlast fs 0 [] hsuffix (fun h => nomatch h)] at hvalue
  exact (Option.some.inj hvalue).symm

/-! ## What a captured header is taken from -/

theorem Value.not_isFixed_of_hasHeader {v : Value} (h : v.hasHeader = true) : v.isFixed = false := by
  cases v with
  | string | vec t | option v => rfl
  | _ => exact nomatch h

section Runs

variable {all : Fields} {names : Nat → String} {name : String} {bytes : Bytes}

theorem letVariable_lookup : (fs : Fields) → (k : Nat) → {offset : Nat} → {s s' : Scope} →
    {bytePtr r : Nat} → (∀ m, all.get? (k + m) = fs.get? m) → all.Keeps names k name →
    fs.letVariable names k offset s bytes bytePtr = .ok (s', r) → s'.lookup name = s.lookup name
  | .nil, _, _, _, _, _, _, _, _, h => by
    cases h
    rfl
  | .cons v fs, k, _, s, s', _, _, hsuffix, hkeeps, h => by
    obtain ⟨⟨s₁, bytePtr₁⟩, hv, hrest⟩ := Outcome.bind_eq_ok.mp h
    rw [letVariable_lookup fs (k + 1) (Fields.get?_suffix hsuffix) (hkeeps.mono (Nat.le_succ k)) hrest]
    cases hfixed : v.isFixed with
    | true =>
      rw [v.letVariable_fixed hfixed] at hv
      cases hv
      rfl
    | false =>
      rw [v.letsValue hfixed] at hv
      obtain ⟨f, -, hv⟩ := Outcome.bind_eq_ok.mp hv
      obtain ⟨⟨x, _⟩, -, hv⟩ := Outcome.bind_eq_ok.mp hv
      cases hv
      exact Scope.lookup_cons_of_ne (hkeeps k v (Nat.le_refl k) (hsuffix 0) hfixed) _ s

/-- A field with a header is read with what the name of its header stands for in the end. -/
theorem letVariable_header (hd : all.Distinct names) {i : Nat} {v : Value}
    (hi : all.get? i = some v) (hfixed : v.isFixed = false)
    (hkeeps : all.Keeps names i (fixedIdent (names i))) : (fs : Fields) → (k : Nat) →
    {offset : Nat} → {s s' : Scope} → {bytePtr r : Nat} → (∀ m, all.get? (k + m) = fs.get? m) →
    k ≤ i → fs.letVariable names k offset s bytes bytePtr = .ok (s', r) →
    ∃ o f x a b, v.header (s'.lookup (fixedIdent (names i))) = .ok f ∧
      v.readVariablePart o f bytes a = .ok (x, b) ∧
      s'.lookup (asTokens (names i)) = some (v.toLocal x)
  | .nil, _, _, _, _, _, _, hsuffix, hki, _ =>
    absurd (Fields.lt_of_get? hsuffix hi) (Nat.not_lt.mpr hki)
  | .cons w fs, k, offset, s, s', bytePtr, r, hsuffix, hki, h => by
    have hrest := Fields.get?_suffix hsuffix
    have hrun := h
    obtain ⟨⟨s₁, bytePtr₁⟩, hw, h⟩ := Outcome.bind_eq_ok.mp h
    rcases Nat.eq_or_lt_of_le hki with rfl | hlt
    · obtain rfl := Option.some.inj ((hsuffix 0).symm.trans hi)
      rw [w.letsValue hfixed] at hw
      obtain ⟨f, hf, hw⟩ := Outcome.bind_eq_ok.mp hw
      obtain ⟨⟨x, b⟩, hx, hw⟩ := Outcome.bind_eq_ok.mp hw
      cases hw
      have hvalue : all.Keeps names (k + 1) (asTokens (names k)) := by
        intro m u hm hu _ heq
        obtain rfl := hd k m w u hi hu (asTokens_inj.mp heq)
        omega
      refine ⟨.static offset, f, x, bytePtr, bytePtr₁, ?_, hx, ?_⟩
      · rw [letVariable_lookup (.cons w fs) k hsuffix hkeeps hrun]
        exact hf
      · rw [letVariable_lookup fs (k + 1) hrest hvalue h, Scope.lookup_cons_self]
    · exact letVariable_header hd hi hfixed hkeeps fs (k + 1) hrest hlt h

theorem typed_eq_ok {α : Type} {r : Option α} {x : α} : typed r = .ok x ↔ r = some x := by
  cases r with
  | none => exact ⟨fun h => (nomatch h), fun h => (nomatch h)⟩
  | some y => exact ⟨fun h => congrArg some (Outcome.ok.inj h), fun h => congrArg typed h⟩

theorem bindFields_nth? : (fs : Fields) → (k : Nat) → {s : Scope} → {xs : fs.Val} →
    fs.bindFields names k s = .ok xs → ∀ {j w y}, fs.nth? xs j = some ⟨w, y⟩ →
    s.lookup (asTokens (names (k + j))) = some (w.toLocal y)
  | .nil, _, _, _, _, _, _, _, hj => nomatch hj
  | .cons v fs, k, s, xs, h, j, w, y, hj => by
    obtain ⟨x, hx, h⟩ := Outcome.bind_eq_ok.mp h
    obtain ⟨rest, hrest, h⟩ := Outcome.bind_eq_ok.mp h
    cases h
    cases j with
    | zero =>
      cases hj
      obtain ⟨l, hlookup, hl⟩ := Option.bind_eq_some_iff.mp (typed_eq_ok.mp hx)
      rw [Nat.add_zero, hlookup, (Value.ofLocal_eq_some _).mp hl]
    | succ j =>
      have htail := bindFields_nth? fs (k + 1) hrest hj
      rwa [Nat.add_assoc, Nat.add_comm 1] at htail

/-- What a field with a captured header is read as depends on the value captured. -/
theorem Fields.Captures.amount_zero (hd : all.Distinct names) {i j : Nat}
    (hc : all.Captures names i j) {offset : Nat} {xs : all.Val}
    (hrun : all.readNamed names offset bytes = .ok xs) {v w : Value} {x : v.Val} {y : w.Val}
    (hi : all.nth? xs i = some ⟨v, x⟩) (hj : all.nth? xs j = some ⟨w, y⟩)
    (hv : v.hasHeader = true) (hy : w.amount y = 0) : v.amount x = 0 := by
  have hi' := Fields.get?_of_nth? hi
  have hj' := Fields.get?_of_nth? hj
  have hsuffix : ∀ m, all.get? (0 + m) = all.get? m := fun m => by rw [Nat.zero_add]
  have hkeeps := hc.keeps hd
  rw [hc.name_eq] at hkeeps
  obtain ⟨f₀, -, hrun⟩ := Outcome.bind_eq_ok.mp hrun
  obtain ⟨⟨s, r⟩, hlet, hbind⟩ := Outcome.bind_eq_ok.mp hrun
  obtain ⟨o, f, x', a, b, hf, hread, hx'⟩ := letVariable_header hd hi' (Value.not_isFixed_of_hasHeader hv)
    hkeeps all 0 hsuffix (Nat.zero_le i) hlet
  have hx := bindFields_nth? all 0 hbind hi
  have hy' := bindFields_nth? all 0 hbind hj
  rw [Nat.zero_add] at hx hy'
  rw [hc.name_eq] at hy'
  rw [hy'] at hf
  have hlocal : v.toLocal x = v.toLocal x' := Option.some.inj (hx.symm.trans hx')
  unfold Value.amount
  rw [hlocal]
  exact Value.amount_of_header_zero hv hf hy hread

end Runs

/-! ## Reading an encoding -/

theorem Value.letFixed_header {v : Value} {f : v.Fixed} {l : Local} (h : v.headerLocal f = some l)
    (ident : String) (s : Scope) : v.letFixed ident f s = (fixedIdent ident, l) :: s := by
  cases v with
  | string | vec t | option v =>
    obtain rfl := Option.some.inj h
    rfl
  | _ => exact nomatch h

theorem Value.letFixed_value {v : Value} (h : v.isFixed = true) (x : v.Val) (ident : String)
    (s : Scope) :
    v.letFixed ident (v.fixedOf x) s = (asTokens ident, v.toLocal (v.owned x)) :: s := by
  cases v with
  | emptyTuple | bool | number n => rfl
  | _ => exact nomatch h

theorem Value.encodeVariable_fixed {v : Value} (h : v.isFixed = true) (x : v.Val) :
    v.encodeVariable x = [] := by
  cases v with
  | emptyTuple | bool | number n => rfl
  | _ => exact nomatch h

theorem Value.header_none {v : Value} (hfixed : v.isFixed = false) (hheader : v.hasHeader = false)
    (x : v.Val) (l : Option Local) : v.header l = .ok (v.fixedOf x) := by
  cases v with
  | cow v | array t n | delegated t => rfl
  | emptyTuple | bool | number n => exact Bool.noConfusion hfixed
  | string | vec t | option v => exact Bool.noConfusion hheader

/-- A header captured from the values is the header of the value itself. -/
def Fields.Coherent (fs : Fields) (names : Nat → String) (xs : fs.Val) : Prop :=
  ∀ i j v x w y, fs.nth? xs i = some ⟨v, x⟩ → fs.nth? xs j = some ⟨w, y⟩ → fs.Captures names i j →
    v.header (some (w.toLocal (w.owned y))) = .ok (v.fixedOf x) ∧
    (w.isFixed = true → j < i → v.headerLocal (v.fixedOf x) = some (w.toLocal (w.owned y)))

/-- What a name should stand for when `xs` are read. -/
def Fields.Stands (fs : Fields) (xs : fs.Val) : Ident → Option Local → Prop
  | .value j, l => ∀ w y, fs.nth? xs j = some ⟨w, y⟩ → l = some (w.toLocal (w.owned y))
  | .header i, l => ∀ v x, fs.nth? xs i = some ⟨v, x⟩ → v.header l = .ok (v.fixedOf x)

section Encoded

variable {all : Fields} {names : Nat → String} {xs : all.Val}

theorem stands_letFixed_step (hd : all.Distinct names) (hcoherent : all.Coherent names xs) {k : Nat}
    {v : Value} {x : v.Val} (hk : all.nth? xs k = some ⟨v, x⟩) (hsmall : v.Small x) {s : Scope}
    (h : Scope.Holds (all.Stands xs) (all.LiveFixed k) (Ident.name names) s) :
    Scope.Holds (all.Stands xs) (all.LiveFixed (k + 1)) (Ident.name names)
      (v.letFixed (names k) (v.fixedOf x) s) := by
  have hk' := Fields.get?_of_nth? hk
  rcases v.letFixed_cases (v.fixedOf x) with ⟨hfixed, -⟩ | ⟨hheader, -⟩ | ⟨hfixed, hheader, hl⟩
  · rw [Value.letFixed_value hfixed]
    refine h.cons (fun u hu hname => ?_) (fun u hu hname => ?_)
    · cases u with
      | value j =>
        obtain ⟨w, hj, -⟩ := hu
        obtain rfl := hd j k w v hj hk' (asTokens_inj.mp hname)
        intro w' y hy
        cases hk.symm.trans hy
        rfl
      | header i =>
        obtain ⟨u, hi, hheader, -⟩ := hu
        intro v' x' hx'
        have hcapture := (Fields.captures_iff hi hk' hheader (.inl hfixed)).mp hname.symm
        exact (hcoherent i k v' x' v x hx' hk hcapture).1
    · rcases Fields.liveFixed_succ hk' hu with hu | ⟨rfl, -⟩ | ⟨-, hheader⟩
      · exact hu
      · exact absurd rfl hname
      · rw [Value.hasHeader_of_isFixed hfixed] at hheader
        exact nomatch hheader
  · obtain ⟨l, hl, -, -, hlheader⟩ := Value.exists_headerLocal hheader hsmall
    rw [Value.letFixed_header hl]
    refine h.cons (fun u hu hname => ?_) (fun u hu hname => ?_)
    · cases u with
      | value j =>
        obtain ⟨u, hj, hfixed, hlt⟩ := hu
        intro w y hy
        obtain rfl := Option.some.inj (hj.symm.trans (Fields.get?_of_nth? hy))
        have hne : j ≠ k := by
          rintro rfl
          obtain rfl := Option.some.inj (hk'.symm.trans hj)
          rw [Value.hasHeader_of_isFixed hfixed] at hheader
          exact nomatch hheader
        have hcapture := (Fields.captures_iff hk' hj hheader (.inl hfixed)).mp hname
        rw [← hl]
        exact (hcoherent k j v x u y hk hy hcapture).2 hfixed (by omega)
      | header i =>
        obtain ⟨u, hi, -⟩ := hu
        obtain rfl := hd i k u v hi hk' (fixedIdent_inj.mp hname)
        intro v' x' hx'
        cases hk.symm.trans hx'
        exact hlheader
    · rcases Fields.liveFixed_succ hk' hu with hu | ⟨-, hfixed⟩ | ⟨rfl, -⟩
      · exact hu
      · rw [Value.hasHeader_of_isFixed hfixed] at hheader
        exact nomatch hheader
      · exact absurd rfl hname
  · rw [hl]
    intro u hu
    rcases Fields.liveFixed_succ hk' hu with hu | ⟨-, hfixed'⟩ | ⟨-, hheader'⟩
    · exact h u hu
    · rw [hfixed] at hfixed'
      exact nomatch hfixed'
    · rw [hheader] at hheader'
      exact nomatch hheader'

theorem stands_letFixed (hd : all.Distinct names) (hcoherent : all.Coherent names xs) :
    (fs : Fields) → (ys : fs.Val) → fs.Small ys → (k : Nat) → (s : Scope) →
    (∀ m, all.nth? xs (k + m) = fs.nth? ys m) → (∀ m, all.get? (k + m) = fs.get? m) →
    Scope.Holds (all.Stands xs) (all.LiveFixed k) (Ident.name names) s →
    Scope.Holds (all.Stands xs) (all.Live 0) (Ident.name names)
      (fs.letFixed names k (fs.fixedOf ys) s)
  | .nil, _, _, k, s, _, hsuffix, h => by
    intro u hu
    exact h u (Fields.liveFixed_of_live hsuffix hu)
  | .cons v fs, (x, ys), hsmall, k, s, hnth, hsuffix, h =>
    stands_letFixed hd hcoherent fs ys hsmall.2 (k + 1) _ (Fields.nth?_suffix hnth)
      (Fields.get?_suffix hsuffix)
      (stands_letFixed_step hd hcoherent (hnth 0) hsmall.1 h)

theorem stands_let (hd : all.Distinct names) (hcoherent : all.Coherent names xs) {k : Nat}
    {v : Value} {x : v.Val} (hk : all.nth? xs k = some ⟨v, x⟩) {s : Scope}
    (h : Scope.Holds (all.Stands xs) (all.Live k) (Ident.name names) s) :
    Scope.Holds (all.Stands xs) (all.Live (k + 1)) (Ident.name names)
      ((asTokens (names k), v.toLocal (v.owned x)) :: s) := by
  have hk' := Fields.get?_of_nth? hk
  refine h.cons (fun u hu hname => ?_) (fun u hu hname => ?_)
  · cases u with
    | value j =>
      obtain ⟨w, hj, -⟩ := hu
      obtain rfl := hd j k w v hj hk' (asTokens_inj.mp hname)
      intro w' y hy
      cases hk.symm.trans hy
      rfl
    | header i =>
      obtain ⟨u, hi, hheader, hlt⟩ := hu
      intro v' x' hx'
      have hcapture := (Fields.captures_iff hi hk' hheader (.inr hlt)).mp hname.symm
      exact (hcoherent i k v' x' v x hx' hk hcapture).1
  · rcases Fields.live_succ hu with hu | rfl
    · exact hu
    · exact absurd rfl hname

/-- The variable parts of an encoding. -/
theorem letVariable_encode (hd : all.Distinct names) (hcoherent : all.Coherent names xs)
    (bytes : Bytes) : (fs : Fields) → (ys : fs.Val) → fs.Accepted → fs.Small ys → (k offset : Nat) →
    (s : Scope) → (bytePtr : Nat) → (∀ m, all.nth? xs (k + m) = fs.nth? ys m) →
    (∀ m, all.get? (k + m) = fs.get? m) → Segment bytes offset (fs.encodeFixed ys) →
    Segment bytes bytePtr (fs.encodeVariable ys) →
    Scope.Holds (all.Stands xs) (all.Live k) (Ident.name names) s →
    ∃ s' r, fs.letVariable names k offset s bytes bytePtr = .ok (s', r) ∧
      ∀ j w y, all.nth? xs j = some ⟨w, y⟩ →
        s'.lookup (asTokens (names j)) = some (w.toLocal (w.owned y))
  | .nil, _, _, _, k, _, s, bytePtr, _, hsuffix, _, _, h => by
    refine ⟨s, bytePtr, rfl, fun j w y hy => ?_⟩
    have hj := Fields.get?_of_nth? hy
    exact h (.value j) ⟨w, hj, .inr (Fields.lt_of_get? hsuffix hj)⟩ w y hy
  | .cons v fs, (x, ys), haccepted, hsmall, k, offset, s, bytePtr, hnth, hsuffix, hfixed, hvariable,
      h => by
    have hk : all.nth? xs k = some ⟨v, x⟩ := hnth 0
    have hright := hfixed.right
    rw [v.length_encodeFixed] at hright
    have hrest := letVariable_encode hd hcoherent bytes fs ys haccepted.2 hsmall.2 (k + 1)
      (offset + v.fixedBytes)
    rw [Fields.letVariable]
    cases hfix : v.isFixed with
    | true =>
      have hlive : Scope.Holds (all.Stands xs) (all.Live (k + 1)) (Ident.name names) s := by
        intro u hu
        rcases Fields.live_succ hu with hu | rfl
        · exact h u hu
        · exact h (.value k) ⟨v, Fields.get?_of_nth? hk, .inl hfix⟩
      rw [v.letVariable_fixed hfix, pure_bind]
      have hnil : v.encodeVariable x = [] := Value.encodeVariable_fixed hfix x
      have hvariable' := hvariable.right
      rw [hnil, List.length_nil, Nat.add_zero] at hvariable'
      exact hrest s bytePtr (Fields.nth?_suffix hnth) (Fields.get?_suffix hsuffix) hright hvariable'
        hlive
    | false =>
      have hheader : v.header (s.lookup (fixedIdent (names k))) = .ok (v.fixedOf x) := by
        cases hv : v.hasHeader with
        | true => exact h (.header k) ⟨v, Fields.get?_of_nth? hk, hv, Nat.le_refl k⟩ v x hk
        | false => exact Value.header_none hfix hv x _
      have hread := (v.reads haccepted.1 x hsmall.1).static bytes offset bytePtr hfixed.left
        hvariable.left
      rw [v.letsValue hfix, hheader, Outcome.bind_ok, hread, Outcome.bind_ok, pure_bind]
      exact hrest _ _ (Fields.nth?_suffix hnth) (Fields.get?_suffix hsuffix) hright hvariable.right
        (stands_let hd hcoherent hk h)

end Encoded

/-- Values with the captures of a naming are read back. -/
theorem Fields.readNamed_encode {fs : Fields} {names : Nat → String} (hd : fs.Distinct names)
    (haccepted : fs.Accepted) {xs : fs.Val} (hsmall : fs.Small xs)
    (hcoherent : fs.Coherent names xs) {bytes : Bytes} {offset : Nat}
    (hseg : Segment bytes offset (fs.encodeFixed xs ++ fs.encodeVariable xs)) :
    fs.readNamed names offset bytes = .ok (fs.owned xs) := by
  have hnth : ∀ m, fs.nth? xs (0 + m) = fs.nth? xs m := fun m => by rw [Nat.zero_add]
  have hsuffix : ∀ m, fs.get? (0 + m) = fs.get? m := fun m => by rw [Nat.zero_add]
  have hright := hseg.right
  rw [fs.length_encodeFixed] at hright
  have hnone : Scope.Holds (fs.Stands xs) (fs.LiveFixed 0) (Ident.name names) ([] : Scope) := by
    intro u hu
    cases u with
    | value j =>
      obtain ⟨-, -, -, hlt⟩ := hu
      exact absurd hlt (Nat.not_lt_zero j)
    | header i =>
      obtain ⟨-, -, -, hlt⟩ := hu
      exact absurd hlt (Nat.not_lt_zero i)
  have hfixed := stands_letFixed hd hcoherent fs xs hsmall 0 [] hnth hsuffix hnone
  obtain ⟨s, r, hlet, hvalues⟩ := letVariable_encode hd hcoherent bytes fs xs haccepted hsmall 0 offset
    _ _ hnth hsuffix hseg.left hright hfixed
  rw [readNamed, fs.readFixedPart_segment xs offset hseg.left, Outcome.bind_ok, hlet, Outcome.bind_ok]
  refine bindFields_eq fs (fs.owned xs) 0 fun m w y hm => ?_
  rw [fs.nth?_owned] at hm
  obtain ⟨⟨w, y⟩, hy, hm⟩ := Option.map_eq_some_iff.mp hm
  cases hm
  rw [Nat.zero_add]
  exact hvalues m w y hy

/-- Captured values of the same amounts as what captures them. -/
theorem Fields.Compiles.coherent {fs : Fields} {names : Nat → String} (h : fs.Compiles names)
    {xs : fs.Val} (hsmall : ∀ i v x, fs.nth? xs i = some ⟨v, x⟩ → v.Small x)
    (hamounts : ∀ i j v x w y, fs.nth? xs i = some ⟨v, x⟩ → fs.nth? xs j = some ⟨w, y⟩ →
      fs.Captures names i j → w.amount y = v.amount x) : fs.Coherent names xs := by
  intro i j v x w y hx hy hc
  have hi := Fields.get?_of_nth? hx
  have hj := Fields.get?_of_nth? hy
  have hv : v.hasHeader = true := by
    obtain ⟨v', -, hi', -, hv, -⟩ := hc
    obtain rfl := Option.some.inj (hi.symm.trans hi')
    exact hv
  have hamount : w.amount (w.owned y) = v.amount x :=
    (w.amount_owned y).trans (hamounts i j v x w y hx hy hc)
  refine ⟨Value.header_of_amount hv (h.takes hc hi hj hv) hamount (hsmall i v x hx), ?_⟩
  intro hw hlt
  obtain ⟨l, hl, hty, hlamount, -⟩ := Value.exists_headerLocal hv (hsmall i v x hx)
  have hwty := (w.ty_toLocal (w.owned y)).trans (h.localTy_eq hc hi hj hv hw hlt)
  rw [hl, Local.eq_of_amount hty hwty (hlamount.trans hamount.symm)]

/-! ## Telling namings apart -/

theorem Fields.Captures.hasHeader {fs : Fields} {names : Nat → String} {i j : Nat}
    (h : fs.Captures names i j) {v : Value} (hi : fs.get? i = some v) : v.hasHeader = true := by
  obtain ⟨u, -, hu, -, hheader, -⟩ := h
  obtain rfl := Option.some.inj (hi.symm.trans hu)
  exact hheader

/-- What is captured has no header of its own. -/
theorem Fields.Compiles.captured_counts {fs : Fields} {names : Nat → String} (h : fs.Compiles names)
    {i j : Nat} (hc : fs.Captures names i j) {w : Value} (hj : fs.get? j = some w) :
    w.localTy.Counts := by
  have hcaptures := hc
  obtain ⟨v, -, hi, -, hv, -⟩ := hcaptures
  exact (h.takes hc hi hj hv).counts hv

/-- Values that one naming reads back, while another takes the header of field `i` from field `j`. -/
theorem Fields.Compiles.exists_apart {fs : Fields} {names names' : Nat → String}
    (h : fs.Compiles names) (h' : fs.Compiles names') {i j : Nat} (hc : fs.Captures names i j)
    (hc' : ¬fs.Captures names' i j) (offset : Nat) :
    ∃ bytes, fs.readNamed names offset bytes ≠ fs.readNamed names' offset bytes := by
  classical
  have hcaptures := hc
  obtain ⟨v, w, hi, hj, hv, -⟩ := hcaptures
  -- 1 for field `i` and what it captures under `names'`, 0 for the others
  obtain ⟨xs, hsmall, hamounts⟩ := fs.exists_amounts h.accepted
    (fun k => if k = i ∨ fs.Captures names' i k then 1 else 0) fun k u hk => by
      by_cases hone : k = i ∨ fs.Captures names' i k
      · refine .inr ⟨if_pos hone, ?_⟩
        rcases hone with rfl | hk'
        · exact .inl (hc.hasHeader hk)
        · exact .inr (h'.captured_counts hk' hk)
      · exact .inl (if_neg hone)
  have hcoherent : fs.Coherent names' xs := by
    refine h'.coherent (fun k u x hk => fs.small_nth? xs hsmall hk) ?_
    intro k m u x w y hx hy hkm
    have hk := Fields.get?_of_nth? hx
    have hm := Fields.get?_of_nth? hy
    have hcounts := h'.captured_counts hkm hm
    have hheader := hkm.hasHeader hk
    have hmi : m ≠ i := by
      rintro rfl
      exact Value.not_counts_of_hasHeader (hc.hasHeader hm) hcounts
    have hik : ¬fs.Captures names' i k := fun hik =>
      Value.not_counts_of_hasHeader hheader (h'.captured_counts hik hk)
    have hiff : fs.Captures names' i m ↔ k = i := by
      constructor
      · intro him
        have hname := him.name_eq.symm.trans hkm.name_eq
        exact (h'.distinct i k v u hi hk (fixedIdent_inj.mp hname)).symm
      · rintro rfl
        exact hkm
    rw [hamounts k u x hx, hamounts m w y hy]
    simp only [hmi, hik, hiff, false_or, or_false]
  obtain ⟨x, hx⟩ := fs.exists_nth? xs hi
  obtain ⟨y, hy⟩ := fs.exists_nth? xs hj
  have hji : j ≠ i := by
    rintro rfl
    exact Value.not_counts_of_hasHeader (hc.hasHeader hj) (h.captured_counts hc hj)
  have hone : v.amount x = 1 := (hamounts i v x hx).trans (if_pos (.inl rfl))
  have hzero : w.amount y = 0 :=
    (hamounts j w y hy).trans (if_neg (not_or.mpr ⟨hji, hc'⟩))
  refine ⟨List.replicate offset 0 ++ (fs.encodeFixed xs ++ fs.encodeVariable xs), ?_⟩
  have hseg : Segment (List.replicate offset 0 ++ (fs.encodeFixed xs ++ fs.encodeVariable xs)) offset
      (fs.encodeFixed xs ++ fs.encodeVariable xs) :=
    ⟨List.replicate offset 0, [], (List.append_nil _).symm, List.length_replicate⟩
  rw [Fields.readNamed_encode h'.distinct h'.accepted hsmall hcoherent hseg]
  intro hrun
  have hx' : fs.nth? (fs.owned xs) i = some ⟨v, v.owned x⟩ := by rw [fs.nth?_owned, hx, Option.map_some]
  have hy' : fs.nth? (fs.owned xs) j = some ⟨w, w.owned y⟩ := by rw [fs.nth?_owned, hy, Option.map_some]
  have hread := hc.amount_zero h.distinct hrun hx' hy' hv ((w.amount_owned y).trans hzero)
  rw [v.amount_owned x, hone] at hread
  exact nomatch hread

/-- Two namings read the same if and only if every header is captured by the same field. -/
theorem Fields.readNamed_eq_iff {fs : Fields} {names names' : Nat → String} (h : fs.Compiles names)
    (h' : fs.Compiles names') (offset : Nat) :
    (∀ bytes, fs.readNamed names offset bytes = fs.readNamed names' offset bytes) ↔
      ∀ i j, fs.Captures names i j ↔ fs.Captures names' i j := by
  constructor
  · intro hread i j
    constructor
    · intro hc
      by_contra hc'
      obtain ⟨bytes, hbytes⟩ := h.exists_apart h' hc hc' offset
      exact hbytes (hread bytes)
    · intro hc'
      by_contra hc
      obtain ⟨bytes, hbytes⟩ := h'.exists_apart h hc' hc offset
      exact hbytes (hread bytes).symm
  · intro hsame bytes
    exact readNamed_congr h.distinct h'.distinct hsame offset bytes

def plainNames (i : Nat) : String := if i = 0 then "x" else "y"

theorem clash_distinct {names : Nat → String} (h : names 0 ≠ names 1) : clash.Distinct names := by
  intro i j v w hi hj hnames
  match i, j with
  | 0, 0 | 1, 1 => rfl
  | 0, 1 => exact absurd hnames h
  | 1, 0 => exact absurd hnames.symm h
  | i + 2, _ => exact nomatch hi
  | 0, j + 2 | 1, j + 2 => exact nomatch hj

theorem clash_compiles : clash.Compiles clashNames where
  accepted := ⟨trivial, trivial, trivial⟩
  distinct := clash_distinct (by decide)
  headers := ⟨fun _ => ⟨.usize, rfl, rfl⟩, fun h => (nomatch h), trivial⟩
  values := ⟨rfl, rfl, trivial⟩

theorem plain_compiles : clash.Compiles plainNames where
  accepted := ⟨trivial, trivial, trivial⟩
  distinct := clash_distinct (by decide)
  headers := ⟨fun _ => ⟨.usize, rfl, rfl⟩, fun h => (nomatch h), trivial⟩
  values := ⟨rfl, rfl, trivial⟩

theorem clash_readNamed_eq_iff :
    (∀ bytes, clash.readNamed clashNames 0 bytes = clash.readNamed plainNames 0 bytes) ↔
      ∀ i j, clash.Captures clashNames i j ↔ clash.Captures plainNames i j :=
  Fields.readNamed_eq_iff clash_compiles plain_compiles 0

/-- Under the names `a` and `a_fixed` the string is read with the number for its length. -/
theorem Fields.not_readNamed_eq : ¬∀ (fs : Fields) (names names' : Nat → String),
    fs.Compiles names → fs.Compiles names' → ∀ offset bytes,
    fs.readNamed names offset bytes = fs.readNamed names' offset bytes := by
  intro h
  have hread := h clash clashNames plainNames clash_compiles plain_compiles 0
    [2, 0, 0, 0, 0, 0, 0, 0, 0, 0, 0, 0, 104, 105]
  have hstring := congrArg (fun r : Res clash.Val => r >>= fun x => (pure x.1 : Res String)) hread
  exact absurd hstring (by decide +kernel)

end MiniUdp.Derive
