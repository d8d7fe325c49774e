import MiniUdp.RingBuffer
import MiniUdp.Lib.WindowedMap

/-!
# The ring buffer is a windowed map

What a ring buffer stands for is `abs`: the newest number and a map whose keys
are among the `N` numbers that end there. Every operation of the buffer is the
operation of the map (`abs_push`, `abs_insert`, …), so every run of operations
gives the same answers on both (`run_new_eq`).
-/

namespace MiniUdp

open Serial

/-- The `N` numbers that end at `newest`, oldest first. -/
def windowIds (N : Nat) (newest : UInt16) : List UInt16 :=
  (List.range N).map fun j => newest - UInt16.ofNat (N - 1 - j)

namespace RingBuffer

variable {T σ : Type} {N : Nat} [Capacity N]

theorem window_eq (r : RingBuffer T N) : r.window = windowIds N r.newest := by
  have hle : N ≤ 16384 := Capacity.le
  rw [window_seq (m := r.newest.toNat) (seq_toNat _).symm, windowIds]
  refine List.map_congr_left fun j hj => eq_of_toNat ?_
  have hj : j < N := List.mem_range.mp hj
  have hn := toNat_lt' r.newest
  simp only [UInt16.toNat_sub, UInt16.toNat_ofNat', toNat_seq]
  omega

theorem mem_windowIds {n i : UInt16} : i ∈ windowIds N n ↔ (n - i).toNat < N := by
  rw [← window_eq (⟨n, Vector.replicate N none⟩ : RingBuffer Unit N), mem_window]

theorem self_mem_windowIds (n : UInt16) : n ∈ windowIds N n := by
  rw [mem_windowIds, dist_self]
  exact Capacity.pos

theorem ite_mem_windowIds (n i : UInt16) (x : Option T) :
    (if i ∈ windowIds N n then x else none) = if (n - i).toNat < N then x else none :=
  if_congr mem_windowIds rfl rfl

/-- What the buffer stands for. -/
def abs (r : RingBuffer T N) : WindowedMap (windowIds N) T where
  newest := r.newest
  entries := r.get
  mem_window _ _ h := mem_windowIds.mpr (dist_of_get h)

/-- Buffers that stand for the same map are the same. -/
theorem ext_get {r r' : RingBuffer T N} (hn : r.newest = r'.newest)
    (hg : ∀ i, r.get i = r'.get i) : r = r' := by
  obtain ⟨n, items⟩ := r
  obtain ⟨n', items'⟩ := r'
  obtain rfl : n = n' := hn
  have hitems : items = items' := by
    refine Vector.ext fun s hs => ?_
    obtain ⟨i, hi, rfl⟩ := exists_slot (⟨n, items⟩ : RingBuffer T N) s hs
    have h := hg i
    rw [← getElem_slot hi, ← getElem_slot (r := ⟨n, items'⟩) hi] at h
    exact h
  rw [hitems]

/-! ## The operations -/

theorem abs_new : (new : RingBuffer T N).abs = .empty (windowIds N) 65535 :=
  WindowedMap.ext rfl get_new

theorem abs_push (r : RingBuffer T N) (x : T) : (r.push x).abs =
    (r.abs.slide (r.newest + 1)).bind (r.newest + 1) x (self_mem_windowIds _) := by
  have hget := get_push r x
  have hnew : (r.push x).newest = r.newest + 1 := rfl
  generalize r.push x = r' at hget hnew ⊢
  refine WindowedMap.ext hnew fun j => ?_
  show r'.get j = if j = r.newest + 1 then some x
    else if j ∈ windowIds N (r.newest + 1) then r.get j else none
  rw [hget, ite_mem_windowIds]

theorem abs_eq_insert {r r' : RingBuffer T N} {i : UInt16} {x : T}
    (hnew : r'.newest = if (r.newest - i).toNat < N then r.newest else i)
    (hget : ∀ j, r'.get j =
      if j = i then some x else if (r'.newest - j).toNat < N then r.get j else none) :
    r'.abs = r.abs.insert self_mem_windowIds i x := by
  by_cases h : i ∈ windowIds N r.newest
  · rw [if_pos (mem_windowIds.mp h)] at hnew
    rw [WindowedMap.insert_of_mem r.abs self_mem_windowIds x h]
    refine WindowedMap.ext hnew fun j => ?_
    show r'.get j = if j = i then some x else r.get j
    rw [hget, hnew]
    by_cases hj : (r.newest - j).toNat < N
    · rw [if_pos hj]
    · rw [if_neg hj, get_eq_none hj]
  · rw [if_neg (mt mem_windowIds.mpr h)] at hnew
    rw [WindowedMap.insert_of_not_mem r.abs self_mem_windowIds x h]
    refine WindowedMap.ext hnew fun j => ?_
    show r'.get j = if j = i then some x else if j ∈ windowIds N i then r.get j else none
    rw [hget, hnew, ite_mem_windowIds]

theorem abs_insert (r : RingBuffer T N) (i : UInt16) (x : T) :
    (r.insert i x).abs = r.abs.insert self_mem_windowIds i x :=
  abs_eq_insert (newest_insert r i x) (get_insert r i x)

theorem abs_take (r : RingBuffer T N) (i : UInt16) : (r.take i).2.abs = r.abs.erase i :=
  WindowedMap.ext (newest_take r i) fun j => get_take r i j

theorem getMut_eq (r : RingBuffer T N) (i : UInt16) (f : T → T) :
    (r.getMut i f).1 = r.get i ∧ (r.getMut i f).2.abs = r.abs.modify i (Option.map f) rfl := by
  unfold getMut
  by_cases h : (r.newest - i).toNat < N
  · rw [if_pos h]
    refine ⟨getElem_slot h, WindowedMap.ext rfl fun j => ?_⟩
    show (r.set i (r.items[slot N i].map f)).get j = if j = i then (r.get j).map f else r.get j
    rw [get_set _ _ h, getElem_slot h]
    by_cases e : j = i
    · rw [if_pos e, if_pos e, e]
    · rw [if_neg e, if_neg e]
  · rw [if_neg h]
    refine ⟨(get_eq_none h).symm, WindowedMap.ext rfl fun j => ?_⟩
    show r.get j = if j = i then (r.get j).map f else r.get j
    by_cases e : j = i
    · rw [if_pos e, e, get_eq_none h]
      rfl
    · rw [if_neg e]

/-- The loop of `retain` over some of the numbers. -/
theorem foldlM_visit (f : UInt16 → T → σ → Bool × T × σ) {ε : Type} {r : RingBuffer T N}
    {is : List UInt16} (hmem : ∀ i ∈ is, i ∈ r.window) (hnd : is.Nodup) {r1 : RingBuffer T N}
    (hn : r1.newest = r.newest) (hsame : ∀ i ∈ is, r1.get i = r.get i) (s : σ) :
    ∃ r2, is.foldlM (visit (ε := ε) fun i v s => .ok (f i v s)) (r1, s) =
        .ok (r2, (r.abs.answers f is s).2) ∧ r2.newest = r.newest ∧
      ∀ i, r2.get i = if i ∈ is then
        (r.get i).bind fun _ => ((r.abs.answers f is s).1.lookup i).join else r1.get i := by
  induction is generalizing r1 s with
  | nil => exact ⟨r1, rfl, hn, fun i => by rw [if_neg List.not_mem_nil]⟩
  | cons i is ih =>
    obtain ⟨hi, hnd⟩ := List.nodup_cons.mp hnd
    have hw : (r1.newest - i).toNat < N := by
      rw [hn, ← mem_window]
      exact hmem i List.mem_cons_self
    have hmem' : ∀ j ∈ is, j ∈ r.window := fun j hj => hmem j (List.mem_cons_of_mem i hj)
    have hne : ∀ j ∈ is, j ≠ i := fun j hj e => hi (e ▸ hj)
    rw [List.foldlM_cons, visit_of_get hw, hsame i List.mem_cons_self]
    unfold WindowedMap.answers
    cases hv : r.get i with
    | none =>
      have hv' : r.abs.entries i = none := hv
      obtain ⟨r2, h2, hn2, hget⟩ := ih hmem' hnd hn
        (fun j hj => hsame j (List.mem_cons_of_mem i hj)) s
      refine ⟨r2, by rw [hv']; exact h2, hn2, fun j => ?_⟩
      rw [hget, hv']
      by_cases e : j = i
      · subst e
        rw [if_neg hi, if_pos List.mem_cons_self, hsame j List.mem_cons_self, hv]
        rfl
      · simp only [List.mem_cons, e, false_or]
    | some v =>
      have hv' : r.abs.entries i = some v := hv
      have hn' : (r1.set i (if (f i v s).1 then some (f i v s).2.1 else none)).newest = r.newest :=
        hn
      have hsame' : ∀ j ∈ is, (r1.set i (if (f i v s).1 then some (f i v s).2.1 else none)).get j =
          r.get j := fun j hj => by
        rw [get_set _ _ hw, if_neg (hne j hj)]
        exact hsame j (List.mem_cons_of_mem i hj)
      obtain ⟨r2, h2, hn2, hget⟩ := ih hmem' hnd hn' hsame' (f i v s).2.2
      refine ⟨r2, by rw [hv']; exact h2, hn2, fun j => ?_⟩
      rw [hget, get_set _ _ hw, hv']
      by_cases e : j = i
      · subst e
        rw [if_neg hi, if_pos rfl, if_pos List.mem_cons_self, hv, Option.bind_some]
        simp only [List.lookup_cons_self, Option.join_some]
      · simp only [List.mem_cons, e, false_or, if_false, List.lookup_cons, beq_false_of_ne e]

theorem abs_retain (r : RingBuffer T N) (f : UInt16 → T → σ → Bool × T × σ) {ε : Type} (s : σ) :
    ∃ r', r.retain (ε := ε) (fun i v s => .ok (f i v s)) s = .ok (r', (r.abs.retain f s).2) ∧
      r'.abs = (r.abs.retain f s).1 := by
  have hsame : ∀ i ∈ r.window, r.get i = r.get i := fun _ _ => rfl
  obtain ⟨r', h, hn, hget⟩ := foldlM_visit f (ε := ε) (fun _ h => h) r.nodup_window rfl hsame s
  have hids : windowIds N r.abs.newest = r.window := (window_eq r).symm
  unfold WindowedMap.retain
  rw [hids]
  refine ⟨r', h, WindowedMap.ext hn fun i => (hget i).trans ?_⟩
  show _ = (r.get i).bind _
  cases hv : r.get i with
  | none => simp
  | some v => rw [if_pos (mem_window.mpr (dist_of_get hv))]

/-- The slots and the numbers of the window hold the same items. -/
theorem len_window (r : RingBuffer T N) :
    r.len = r.window.countP fun i => (r.get i).isSome := by
  have hperm : (r.window.map (slot N)).Perm (List.finRange N) := by
    refine (List.perm_ext_iff_of_nodup ?_ (List.nodup_finRange N)).mpr fun s => ?_
    · refine r.nodup_window.map_on fun i hi j hj h => ?_
      exact (slot_eq_iff (mem_window.mp hi) (mem_window.mp hj)).mp h
    · obtain ⟨i, hi, hs⟩ := r.exists_slot s s.isLt
      simp only [List.mem_finRange, iff_true]
      exact List.mem_map.mpr ⟨i, mem_window.mpr hi, Fin.ext hs⟩
  have hitems : r.items.toList = (List.finRange N).map fun s => r.items[s] := by
    apply List.ext_getElem <;> simp
  calc r.len = (r.window.map (slot N)).countP fun s => r.items[s].isSome := by
        rw [len, hitems, List.countP_map, hperm.countP_eq]
        rfl
    _ = r.window.countP fun i => (r.get i).isSome := by
        rw [List.countP_map]
        refine List.countP_congr fun i hi => ?_
        rw [← getElem_slot (mem_window.mp hi)]
        exact Iff.rfl

theorem len_eq (r : RingBuffer T N) : r.len = r.abs.size := by
  have hkeys : {i | r.abs.entries i ≠ none} = {i | i ∈ r.keys} := Set.ext fun i => by
    rw [Set.mem_ofPred_eq, Set.mem_ofPred_eq, mem_keys, Option.isSome_iff_ne_none]
    exact Iff.rfl
  have hnd : r.keys.Nodup := r.nodup_window.filter _
  calc r.len = r.keys.length := by
        rw [len_window]
        exact List.countP_eq_length_filter
    _ = r.abs.size := by
        rw [WindowedMap.size, hkeys, ← List.coe_toFinset, Set.ncard_coe_finset,
          List.toFinset_card_of_nodup hnd]

theorem pushWillOverride_abs (r : RingBuffer T N) : r.pushWillOverride =
    (r.abs.entries (r.newest - UInt16.ofNat (N - 1))).isSome := by
  have hpos : 0 < N := Capacity.pos
  have hle : N ≤ 16384 := Capacity.le
  have e : r.newest + 1 - UInt16.ofNat N = r.newest - UInt16.ofNat (N - 1) := eq_of_toNat (by
    simp only [UInt16.toNat_sub, UInt16.toNat_add, UInt16.toNat_ofNat', UInt16.toNat_one]
    omega)
  rw [pushWillOverride_eq, e]
  rfl

/-! ## Runs -/

/-- The operations of a ring buffer. The caller of `get_mut` changes the item with a function;
the closure of `retain` may change each item and a state of its own. -/
inductive Op (T σ : Type) where
  | push (item : T)
  | insert (index : UInt16) (item : T)
  | take (index : UInt16)
  | get (index : UInt16)
  | getMut (index : UInt16) (change : T → T)
  | retain (f : UInt16 → T → σ → Bool × T × σ)
  | len
  | pushWillOverride

/-- What an operation returns. -/
inductive Answer (T : Type) where
  | unit
  | index (i : UInt16)
  | item (x : Option T)
  | number (n : Nat)
  | flag (b : Bool)
  deriving DecidableEq

variable {ε : Type}

/-- One operation, on a buffer and the state of the closures. -/
def perform (r : RingBuffer T N) (s : σ) : Op T σ → Outcome ε (Answer T × RingBuffer T N × σ)
  | .push x => pure (.index (r.push x).getNewestIndex, r.push x, s)
  | .insert i x => pure (.unit, r.insert i x, s)
  | .take i => pure (.item (r.take i).1, (r.take i).2, s)
  | .get i => pure (.item (r.get i), r, s)
  | .getMut i f => pure (.item (r.getMut i f).1, (r.getMut i f).2, s)
  | .retain f => do
    let (r, s) ← r.retain (fun i x s => .ok (f i x s)) s
    pure (.unit, r, s)
  | .len => pure (.number r.len, r, s)
  | .pushWillOverride => pure (.flag r.pushWillOverride, r, s)

def run (r : RingBuffer T N) (s : σ) :
    List (Op T σ) → Outcome ε (List (Answer T) × RingBuffer T N × σ)
  | [] => pure ([], r, s)
  | op :: ops => do
    let (answer, r, s) ← r.perform s op
    let (answers, r, s) ← r.run s ops
    pure (answer :: answers, r, s)

/-- One operation of the windowed map the buffer stands for. -/
noncomputable def mapPerform (m : WindowedMap (windowIds N) T) (s : σ) :
    Op T σ → Answer T × WindowedMap (windowIds N) T × σ
  | .push x => (.index (m.newest + 1),
      (m.slide (m.newest + 1)).bind (m.newest + 1) x (self_mem_windowIds _), s)
  | .insert i x => (.unit, m.insert self_mem_windowIds i x, s)
  | .take i => (.item (m.entries i), m.erase i, s)
  | .get i => (.item (m.entries i), m, s)
  | .getMut i f => (.item (m.entries i), m.modify i (Option.map f) rfl, s)
  | .retain f => (.unit, m.retain f s)
  | .len => (.number m.size, m, s)
  | .pushWillOverride => (.flag (m.entries (m.newest - UInt16.ofNat (N - 1))).isSome, m, s)

noncomputable def mapRun (m : WindowedMap (windowIds N) T) (s : σ) :
    List (Op T σ) → List (Answer T) × WindowedMap (windowIds N) T × σ
  | [] => ([], m, s)
  | op :: ops =>
    let (answer, m, s) := mapPerform m s op
    let (answers, m, s) := mapRun m s ops
    (answer :: answers, m, s)

theorem perform_eq (r : RingBuffer T N) (s : σ) (op : Op T σ) :
    ∃ answer r' s', r.perform (ε := ε) s op = .ok (answer, r', s') ∧
      mapPerform r.abs s op = (answer, r'.abs, s') := by
  cases op with
  | push x => exact ⟨_, _, _, rfl, by rw [abs_push]; rfl⟩
  | insert i x => exact ⟨_, _, _, rfl, by rw [abs_insert]; rfl⟩
  | take i => exact ⟨_, _, _, rfl, by rw [abs_take, fst_take]; rfl⟩
  | get i => exact ⟨_, _, _, rfl, rfl⟩
  | getMut i f => exact ⟨_, _, _, rfl, by rw [(getMut_eq r i f).1, (getMut_eq r i f).2]; rfl⟩
  | retain f =>
    obtain ⟨r', h, habs⟩ := r.abs_retain f (ε := ε) s
    refine ⟨.unit, r', (r.abs.retain f s).2, ?_, ?_⟩
    · simp only [perform, h, Outcome.bind_ok, Outcome.pure_def]
    · simp only [mapPerform, habs]
  | len => exact ⟨_, _, _, rfl, by rw [len_eq]; rfl⟩
  | pushWillOverride => exact ⟨_, _, _, rfl, by rw [pushWillOverride_abs]; rfl⟩

/-- From any buffer, both give the same answers and end in corresponding states. -/
theorem run_abs (ops : List (Op T σ)) (r : RingBuffer T N) (s : σ) :
    ∃ answers r' s', r.run (ε := ε) s ops = .ok (answers, r', s') ∧
      mapRun r.abs s ops = (answers, r'.abs, s') := by
  induction ops generalizing r s with
  | nil => exact ⟨[], r, s, rfl, rfl⟩
  | cons op ops ih =>
    obtain ⟨answer, r1, s1, h1, hm1⟩ := r.perform_eq (ε := ε) s op
    obtain ⟨answers, r2, s2, h2, hm2⟩ := ih r1 s1
    refine ⟨answer :: answers, r2, s2, ?_, ?_⟩
    · simp only [run, h1, h2, Outcome.bind_ok, Outcome.pure_def]
    · simp only [mapRun, hm1, hm2]

/-- Every run of operations from a new buffer is the run of the windowed map from the empty one,
and a `retain` whose closure has no state filters the map. -/
theorem run_new_eq (N : Nat) [Capacity N] (ops : List (Op T σ)) (s : σ) :
    (∃ answers r' s', (new : RingBuffer T N).run (ε := ε) s ops = .ok (answers, r', s') ∧
      mapRun (.empty (windowIds N) 65535) s ops = (answers, r'.abs, s')) ∧
    ∀ (m : WindowedMap (windowIds N) T) (g : UInt16 → T → Bool × T),
      mapPerform m s (.retain fun i x s => ((g i x).1, (g i x).2, s)) =
        (.unit, m.filterMap fun i x => if (g i x).1 then some (g i x).2 else none, s) := by
  refine ⟨?_, fun m g => ?_⟩
  · rw [← abs_new]
    exact run_abs ops new s
  · rw [mapPerform, m.retain_filter g s]

/-- The buffers of the communicator, over a run that jumps back behind the window. -/
theorem run_new_eq_communicator :
    ∃ answers r' s', (new : RingBuffer Nat 32).run (ε := Unit) ()
      [.push 1, .insert 40 2, .insert 65000 3, .get 40, .take 65000, .len] =
        .ok (answers, r', s') ∧
      mapRun (.empty (windowIds 32) 65535) ()
        [.push 1, .insert 40 2, .insert 65000 3, .get 40, .take 65000, .len] =
        (answers, r'.abs, s') :=
  (run_new_eq 32 _ ()).1

end RingBuffer

end MiniUdp
