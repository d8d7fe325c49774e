import MiniUdp.Lib.Outcome
import Mathlib.Logic.Function.Basic
import Mathlib.Data.List.Dedup

/-!
# Families that share a resource

Machines kept under keys, and one resource they all use, such as a buffer. An
event changes the machine of its key and the resource, or fails. If what a
machine does is the same with every resource that fits (`Blind`), the run of a
family is, key by key, the run of one machine on its own events with a resource
of its own, and it fails just when one of these does (`run_iff`).
-/

namespace MiniUdp.Family

variable {E κ ε σ β : Type} [DecidableEq κ] (key : ε → κ)
  (act : ε → β → σ → Outcome E (β × σ))

def step (st : β × (κ → σ)) (e : ε) : Outcome E (β × (κ → σ)) := do
  let (b, s) ← act e st.1 (st.2 (key e))
  pure (b, Function.update st.2 (key e) s)

def run (st : β × (κ → σ)) (es : List ε) : Outcome E (β × (κ → σ)) := es.foldlM (step key act) st

omit [DecidableEq κ] in
/-- One machine with a resource of its own. -/
def runAlone (st : β × σ) (es : List ε) : Outcome E (β × σ) :=
  es.foldlM (fun st e => act e st.1 st.2) st

/-- No machine that is `sound` sees more of a resource that `fits` than that it does. -/
structure Blind (fits : β → Prop) (sound : σ → Prop) : Prop where
  same : ∀ e b c s, fits b → fits c → sound s → Prod.snd <$> act e b s = Prod.snd <$> act e c s
  keeps : ∀ e b s b' s', fits b → sound s → act e b s = .ok (b', s') → fits b' ∧ sound s'

variable {key act} {fits : β → Prop} {sound : σ → Prop}

omit [DecidableEq κ] in
theorem Blind.ok (h : Blind act fits sound) {e : ε} {b b' c : β} {s s' : σ} (hb : fits b)
    (hc : fits c) (hs : sound s) (ha : act e b s = .ok (b', s')) :
    ∃ c', act e c s = .ok (c', s') := by
  have hsame := h.same e b c s hb hc hs
  rw [ha] at hsame
  cases hact : act e c s with
  | ok r =>
    rw [hact] at hsame
    obtain rfl : s' = r.2 := Outcome.ok.inj hsame
    exact ⟨r.1, rfl⟩
  | err | panic | hang => rw [hact] at hsame; exact nomatch hsame

omit [DecidableEq κ] in
/-- The resource it has does not matter to a machine that runs alone. -/
theorem Blind.runAlone_ok (h : Blind act fits sound) {es : List ε} {b b' c : β} {s s' : σ}
    (hb : fits b) (hc : fits c) (hs : sound s) (hr : runAlone act (b, s) es = .ok (b', s')) :
    ∃ c', runAlone act (c, s) es = .ok (c', s') := by
  induction es generalizing b c s with
  | nil =>
    cases hr
    exact ⟨c, rfl⟩
  | cons e es ih =>
    unfold runAlone at hr
    rw [List.foldlM_cons, Outcome.bind_eq_ok] at hr
    obtain ⟨⟨b1, s1⟩, h1, hr⟩ := hr
    obtain ⟨c1, hc1⟩ := h.ok hb hc hs h1
    obtain ⟨hfb, hs1⟩ := h.keeps e b s b1 s1 hb hs h1
    obtain ⟨c', hc'⟩ := ih hfb (h.keeps e c s c1 s1 hc hs hc1).1 hs1 hr
    refine ⟨c', ?_⟩
    unfold runAlone
    rw [List.foldlM_cons]
    exact Outcome.bind_eq_ok.mpr ⟨(c1, s1), hc1, hc'⟩

omit [DecidableEq κ] in
theorem Blind.runAlone_keeps (h : Blind act fits sound) {es : List ε} {b b' : β} {s s' : σ}
    (hb : fits b) (hs : sound s) (hr : runAlone act (b, s) es = .ok (b', s')) :
    fits b' ∧ sound s' := by
  refine Outcome.foldlM_invariant (P := fun _ st => fits st.1 ∧ sound st.2) ⟨hb, hs⟩ ?_ hr
  intro _ e _ st st' _ hst he
  exact h.keeps e st.1 st.2 st'.1 st'.2 hst.1 hst.2 he

theorem sound_update {m : κ → σ} (hm : ∀ k, sound (m k)) {k : κ} {s : σ} (hs : sound s)
    (j : κ) : sound (Function.update m k s j) := by
  by_cases hj : j = k
  · subst hj
    simpa using hs
  · simpa [hj] using hm j

theorem Blind.run_keeps (h : Blind act fits sound) {es : List ε} {b b' : β} {m m' : κ → σ}
    (hb : fits b) (hm : ∀ k, sound (m k)) (hr : run key act (b, m) es = .ok (b', m')) :
    fits b' ∧ ∀ k, sound (m' k) := by
  refine Outcome.foldlM_invariant (P := fun _ st => fits st.1 ∧ ∀ k, sound (st.2 k)) ⟨hb, hm⟩
    ?_ hr
  intro _ e _ st st' _ hst he
  obtain ⟨⟨b1, s1⟩, ha, he⟩ := Outcome.bind_eq_ok.mp he
  cases he
  obtain ⟨hb1, hs1⟩ := h.keeps e st.1 _ b1 s1 hst.1 (hst.2 (key e)) ha
  exact ⟨hb1, sound_update hst.2 hs1⟩

theorem run_cons (st : β × (κ → σ)) (e : ε) (es : List ε) : run key act st (e :: es) =
    act e st.1 (st.2 (key e)) >>= fun r =>
      run key act (r.1, Function.update st.2 (key e) r.2) es := by
  unfold run
  rw [List.foldlM_cons]
  cases h : act e st.1 (st.2 (key e)) <;> simp [step, h]

omit [DecidableEq κ] in
theorem runAlone_cons (st : β × σ) (e : ε) (es : List ε) :
    runAlone act st (e :: es) = act e st.1 st.2 >>= fun r => runAlone act r es := by
  unfold runAlone
  rw [List.foldlM_cons]

theorem run_append (st : β × (κ → σ)) (es es' : List ε) : run key act st (es ++ es') =
    run key act st es >>= fun st => run key act st es' := List.foldlM_append ..

/-- A loop each round of which is an event. -/
theorem run_loop {α τ : Type} {φ : τ → β × (κ → σ)} {g : τ → α → τ} {ev : α → ε}
    (h : ∀ t a, step key act (φ t) (ev a) = .ok (φ (g t a))) (t : τ) (l : List α) :
    run key act (φ t) (l.map ev) = .ok (φ (l.foldl g t)) := by
  induction l generalizing t with
  | nil => rfl
  | cons a l ih =>
    unfold run at ih ⊢
    rw [List.map_cons, List.foldlM_cons, h, Outcome.bind_ok, ih]
    rfl

/-- The run of a family is the runs of its machines, each with a resource of its own. -/
theorem Blind.run_iff (h : Blind act fits sound) {es : List ε} {b c : β} {m m' : κ → σ}
    (hb : fits b) (hc : fits c) (hm : ∀ k, sound (m k)) :
    (∃ b', run key act (b, m) es = .ok (b', m')) ↔
      ∀ k, ∃ c', runAlone act (c, m k) (es.filter fun e => key e = k) = .ok (c', m' k) := by
  induction es generalizing b c m with
  | nil =>
    constructor
    · rintro ⟨b', hr⟩ k
      cases hr
      exact ⟨c, rfl⟩
    · intro hall
      have hm' : m = m' := by
        funext k
        obtain ⟨c', hc'⟩ := hall k
        exact congrArg Prod.snd (Outcome.ok.inj hc')
      exact ⟨b, by rw [hm']; rfl⟩
  | cons e es ih =>
    have hfilter : ∀ k, (e :: es).filter (fun e => key e = k) =
        if key e = k then e :: es.filter (fun e => key e = k)
        else es.filter (fun e => key e = k) := by
      intro k
      simp only [List.filter_cons, decide_eq_true_eq]
    constructor
    · rintro ⟨b', hr⟩ k
      rw [run_cons, Outcome.bind_eq_ok] at hr
      obtain ⟨⟨b1, s1⟩, ha, hr⟩ := hr
      obtain ⟨hb1, hs1⟩ := h.keeps e b _ b1 s1 hb (hm (key e)) ha
      obtain ⟨c1, hc1⟩ := h.ok hb hc (hm (key e)) ha
      have hc1fits := (h.keeps e c _ c1 s1 hc (hm (key e)) hc1).1
      have hm1 := sound_update (k := key e) hm hs1
      rw [hfilter]
      by_cases hk : key e = k
      · subst hk
        obtain ⟨c', hc'⟩ := (ih hb1 hc1fits hm1).mp ⟨b', hr⟩ (key e)
        rw [Function.update_self] at hc'
        rw [if_pos rfl, runAlone_cons]
        exact ⟨c', Outcome.bind_eq_ok.mpr ⟨(c1, s1), hc1, hc'⟩⟩
      · obtain ⟨c', hc'⟩ := (ih hb1 hc hm1).mp ⟨b', hr⟩ k
        rw [Function.update_of_ne (Ne.symm hk)] at hc'
        rw [if_neg hk]
        exact ⟨c', hc'⟩
    · intro hall
      obtain ⟨c', hc'⟩ := hall (key e)
      rw [hfilter, if_pos rfl, runAlone_cons, Outcome.bind_eq_ok] at hc'
      obtain ⟨⟨c1, s1⟩, ha, hc'⟩ := hc'
      obtain ⟨hc1, hs1⟩ := h.keeps e c _ c1 s1 hc (hm (key e)) ha
      obtain ⟨b1, hab⟩ := h.ok hc hb (hm (key e)) ha
      have hb1 := (h.keeps e b _ b1 s1 hb (hm (key e)) hab).1
      have hm1 := sound_update (k := key e) hm hs1
      obtain ⟨b', hr⟩ := (ih (m := Function.update m (key e) s1) hb1 hc1 hm1).mpr (by
        intro k
        by_cases hk : key e = k
        · subst hk
          rw [Function.update_self]
          exact ⟨c', hc'⟩
        · obtain ⟨c2, hc2⟩ := hall k
          rw [hfilter, if_neg hk] at hc2
          rw [Function.update_of_ne (Ne.symm hk)]
          exact h.runAlone_ok hc hc1 (hm k) hc2)
      refine ⟨b', ?_⟩
      rw [run_cons]
      exact Outcome.bind_eq_ok.mpr ⟨(b1, s1), hab, hr⟩

/-! ## Orders of the keys -/

/-- An order in which the machines there are can be visited. -/
structure Enumerates (order : List κ) (m : κ → Option σ) : Prop where
  nodup : order.Nodup
  mem : ∀ k, k ∈ order ↔ (m k).isSome

theorem run_apply_of_forall_ne {es : List ε} {st st' : β × (κ → σ)}
    (hr : run key act st es = .ok st') {k : κ} (h : ∀ e ∈ es, key e ≠ k) : st'.2 k = st.2 k := by
  induction es generalizing st with
  | nil =>
    cases hr
    rfl
  | cons e es ih =>
    rw [run_cons, Outcome.bind_eq_ok] at hr
    obtain ⟨⟨b, s⟩, -, hr⟩ := hr
    rw [ih hr fun d hd => h d (List.mem_cons_of_mem e hd)]
    exact Function.update_of_ne (h e List.mem_cons_self).symm _ _

omit [DecidableEq κ] in
/-- Keys that are among those of an order and some more can be put in an order. -/
theorem exists_enumerates {m : κ → Option σ} {order : List κ} (h : Enumerates order m)
    (m' : κ → Option σ) (more : List κ) (hm : ∀ k, k ∉ more → (m' k).isSome → (m k).isSome) :
    ∃ order', Enumerates order' m' := by
  classical
  refine ⟨((order ++ more).filter fun k => (m' k).isSome).dedup, List.nodup_dedup _, fun k => ?_⟩
  rw [List.mem_dedup, List.mem_filter]
  refine ⟨fun hk => hk.2, fun hk => ⟨?_, hk⟩⟩
  rw [List.mem_append, h.mem]
  by_cases hmore : k ∈ more
  · exact .inr hmore
  · exact .inl (hm k hmore hk)

/-- A loop over different keys that carries a state is one that does not, with the choices that
the first one made. -/
theorem exists_choices {α τ χ ω : Type} [DecidableEq α] (g : τ → α → χ → τ)
    (choice : τ → ω → α → χ × ω) [Inhabited χ] {l : List α} (h : l.Nodup) (t : τ) (w : ω) :
    ∃ c : α → χ, (l.foldl (fun st a => (g st.1 a (choice st.1 st.2 a).1,
      (choice st.1 st.2 a).2)) (t, w)).1 = l.foldl (fun t a => g t a (c a)) t := by
  induction l generalizing t w with
  | nil => exact ⟨fun _ => default, rfl⟩
  | cons a l ih =>
    obtain ⟨ha, h⟩ := List.nodup_cons.mp h
    obtain ⟨c, hc⟩ := ih h (g t a (choice t w a).1) (choice t w a).2
    refine ⟨Function.update c a (choice t w a).1, ?_⟩
    rw [List.foldl_cons, hc, List.foldl_cons, Function.update_self]
    refine List.foldl_ext _ _ _ fun t b hb => ?_
    rw [Function.update_of_ne (ne_of_mem_of_not_mem hb ha)]

end MiniUdp.Family
