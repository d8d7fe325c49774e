import MiniUdp.RingBuffer.Refinement

/-!
# Iterators of the ring buffer

The five iterators keep a cursor: the buffer and the number to look at next.
`next` looks up the numbers from there to the newest one and stops behind the
first that has an entry. The iterators differ in what they hand out for an
entry; those that hand out mutable references first assert that the cursor has
not passed the window. `At` says how far a cursor has come; `At.next` is what
one call does to it.
-/

namespace MiniUdp

open Serial

namespace RingBuffer

variable {T α : Type} {N : Nat} [Capacity N]

/-! ## The cursor -/

structure Cursor (T : Type) (N : Nat) where
  i : UInt16
  ring : RingBuffer T N

/-- The loop of `next` over the numbers `l`, with the cursor at `i`. -/
def scan (found : UInt16 → Option α) : List UInt16 → UInt16 → Option α × UInt16
  | [], i => (none, i)
  | j :: l, i =>
    match found j with
    | some a => (some a, i + 1)
    | none => scan found l (i + 1)

/-- `next`, handing out `pick i x` for the entry `x` of number `i`. -/
def Cursor.next (pick : UInt16 → T → α) (c : Cursor T N) : Option α × Cursor T N :=
  let (item, i) := scan (fun i => (c.ring.get i).map (pick i))
    (wrappingRange c.i (c.ring.newest + 1)) c.i
  (item, { c with i })

/-- `size_hint`, the same code in all five iterators. -/
def Cursor.sizeHint (c : Cursor T N) : Nat × Option Nat :=
  let len := c.ring.len
  if len = 0 ∨ wrappingGt (c.i - 1) c.ring.newest (UInt16.ofNat N) then (0, some 0)
  else
    let unvisited := (c.ring.newest - c.i + 1).toNat
    (len - (N - unvisited), some (min unvisited len))

/-- The condition that `next` of the mutable iterators asserts. -/
def Cursor.assertion (c : Cursor T N) : Bool :=
  decide (c.ring.newest + 1 - c.i ≤ UInt16.ofNat N)

/-- Where each of the iterators starts. -/
def cursor (r : RingBuffer T N) : Cursor T N := ⟨r.newest - (UInt16.ofNat N - 1), r⟩

/-- A mutable reference into the buffer: the slot it points to, and the value there when it was
handed out. -/
structure RefMut (T : Type) (N : Nat) where
  slot : Fin N
  value : T

/-- What `get_mut` returns for number `i` where the entry is `x`. -/
def refMut (i : UInt16) (x : T) : RefMut T N := ⟨slot N i, x⟩

/-- The caller stores `x` through a mutable reference to slot `s`. -/
def Cursor.write (c : Cursor T N) (s : Fin N) (x : T) : Cursor T N :=
  { c with ring.items := c.ring.items.set s (some x) }

/-! ## The five iterators -/

def Iter.next (c : Cursor T N) : Option (UInt16 × T) × Cursor T N :=
  c.next fun i x => (i, x)

def IterMut.next (c : Cursor T N) : Outcome Empty (Option (UInt16 × RefMut T N) × Cursor T N) :=
  if c.assertion then pure (c.next fun i x => (i, refMut i x)) else .panic

def IterValues.next (c : Cursor T N) : Option T × Cursor T N :=
  c.next fun _ x => x

def IterValuesMut.next (c : Cursor T N) : Outcome Empty (Option (RefMut T N) × Cursor T N) :=
  if c.assertion then pure (c.next refMut) else .panic

def IterKeys.next (c : Cursor T N) : Option UInt16 × Cursor T N :=
  c.next fun i _ => i

/-! ## What is iterated -/

/-- What is handed out for the entries under the numbers `l`. -/
def itemsOf (r : RingBuffer T N) (pick : UInt16 → T → α) (l : List UInt16) : List α :=
  l.filterMap fun i => (r.get i).map (pick i)

/-- The live entries, oldest first. -/
def entries (r : RingBuffer T N) : List (UInt16 × T) := r.itemsOf (fun i x => (i, x)) r.window

/-- The place of a number in the window, the oldest at 0. -/
def place (r : RingBuffer T N) (i : UInt16) : Nat := (i - (r.newest - (UInt16.ofNat N - 1))).toNat

theorem mem_entries {r : RingBuffer T N} {i : UInt16} {x : T} :
    (i, x) ∈ r.entries ↔ r.get i = some x := by
  simp only [entries, itemsOf, List.mem_filterMap, Option.map_eq_some_iff, Prod.mk.injEq]
  constructor
  · rintro ⟨j, _, y, h, rfl, rfl⟩
    exact h
  · intro h
    exact ⟨i, mem_window.mpr (dist_of_get h), x, h, rfl, rfl⟩

theorem itemsOf_window (r : RingBuffer T N) (pick : UInt16 → T → α) :
    r.itemsOf pick r.window = r.entries.map fun e => pick e.1 e.2 := by
  unfold entries itemsOf
  rw [List.map_filterMap]
  refine List.filterMap_congr fun i _ => ?_
  cases r.get i <;> rfl

omit [Capacity N] in
theorem pairwise_window (r : RingBuffer T N) :
    r.window.Pairwise fun a b => r.place a < r.place b := by
  unfold window wrappingRange place
  refine List.pairwise_map.mpr (List.pairwise_lt_range.imp_of_mem fun {a b} ha hb h => ?_)
  have hl := toNat_lt' (r.newest + 1 - (r.newest - (UInt16.ofNat N - 1)))
  have ha := List.mem_range.mp ha
  have hb := List.mem_range.mp hb
  rw [dist_add_left, dist_add_left, dist_self, UInt16.toNat_ofNat', UInt16.toNat_ofNat']
  omega

/-- The entries come in increasing order, starting from the oldest number of the window. -/
theorem pairwise_entries (r : RingBuffer T N) :
    r.entries.Pairwise fun a b => r.place a.1 < r.place b.1 := by
  unfold entries itemsOf
  refine List.pairwise_filterMap.mpr (r.pairwise_window.imp fun {i j} h a ha b hb => ?_)
  obtain ⟨_, _, rfl⟩ := Option.map_eq_some_iff.mp ha
  obtain ⟨_, _, rfl⟩ := Option.map_eq_some_iff.mp hb
  exact h

theorem length_itemsOf (r : RingBuffer T N) (pick : UInt16 → T → α) (l : List UInt16) :
    (r.itemsOf pick l).length = l.countP fun i => (r.get i).isSome := by
  simp [itemsOf, List.length_filterMap_eq_countP]

theorem length_window (r : RingBuffer T N) : r.window.length = N := by
  rw [window_seq (m := r.newest.toNat) (seq_toNat _).symm, List.length_map, List.length_range]

/-! ## One call of `next` -/

theorem wrappingRange_cons {i stop j : UInt16} {l : List UInt16}
    (h : wrappingRange i stop = j :: l) : j = i ∧ wrappingRange (i + 1) stop = l := by
  have hi := toNat_lt' i; have hs := toNat_lt' stop
  unfold wrappingRange at *
  obtain ⟨n, hn⟩ : ∃ n, (stop - i).toNat = n + 1 := Nat.exists_eq_succ_of_ne_zero fun h0 => by
    rw [h0] at h
    cases h
  have hn' : (stop - (i + 1)).toNat = n := by
    simp only [UInt16.toNat_sub, UInt16.toNat_add, UInt16.toNat_one] at *
    omega
  rw [hn, List.range_succ_eq_map, List.map_cons, List.cons.injEq, List.map_map] at h
  rw [hn']
  obtain ⟨h0, rfl⟩ := h
  refine ⟨?_, List.map_congr_left fun k hk => eq_of_toNat ?_⟩
  · rw [← h0]
    exact eq_of_toNat (by simp only [UInt16.toNat_add, UInt16.toNat_ofNat']; omega)
  · have hk := List.mem_range.mp hk
    simp only [Function.comp_apply, UInt16.toNat_add, UInt16.toNat_ofNat', UInt16.toNat_one]
    omega

theorem length_wrappingRange (i stop : UInt16) :
    (wrappingRange i stop).length = (stop - i).toNat := by
  rw [wrappingRange, List.length_map, List.length_range]

/-- The loop finds the first entry of its range, and leaves the cursor behind it. -/
theorem scan_spec (found : UInt16 → Option α) {l : List UInt16} {i stop : UInt16}
    (h : wrappingRange i stop = l) : ∃ past rest, l = past ++ rest ∧
      wrappingRange (scan found l i).2 stop = rest ∧
      (scan found l i).1 = (l.filterMap found).head? ∧
      rest.filterMap found = (l.filterMap found).tail ∧
      ∀ a, (scan found l i).1 = some a → ∃ j ∈ past, found j = some a := by
  induction l generalizing i with
  | nil => exact ⟨[], [], rfl, h, rfl, rfl, fun a ha => by cases ha⟩
  | cons j l ih =>
    obtain ⟨rfl, hl⟩ := wrappingRange_cons h
    unfold scan
    cases hj : found j with
    | some a =>
      refine ⟨[j], l, rfl, hl, ?_, ?_, ?_⟩
      · simp [hj]
      · simp [hj]
      · intro b hb
        exact ⟨j, by simp, hj.trans hb⟩
    | none =>
      obtain ⟨past, rest, e, hrange, hhead, htail, hmem⟩ := ih hl
      refine ⟨j :: past, rest, by rw [e, List.cons_append], hrange, ?_, ?_, ?_⟩
      · simpa [hj] using hhead
      · simpa [hj] using htail
      · intro a ha
        obtain ⟨k, hk, hka⟩ := hmem a ha
        exact ⟨k, List.mem_cons_of_mem j hk, hka⟩

/-- How far an iterator over `r` has come: the numbers `past` are behind the cursor, `rest` before
it. The entries under `rest` are still those of `r`; the ones behind may have been changed, but
not removed. -/
structure At (r : RingBuffer T N) (past rest : List UInt16) (c : Cursor T N) : Prop where
  window : r.window = past ++ rest
  range : wrappingRange c.i (c.ring.newest + 1) = rest
  newest : c.ring.newest = r.newest
  ahead : ∀ i ∈ rest, c.ring.get i = r.get i
  live : ∀ i, (c.ring.get i).isSome = (r.get i).isSome

theorem At.start (r : RingBuffer T N) : At r [] r.window r.cursor :=
  ⟨rfl, rfl, rfl, fun _ _ => rfl, fun _ => rfl⟩

section At

variable {r : RingBuffer T N} {past rest : List UInt16} {c : Cursor T N}

theorem At.itemsOf_eq (h : At r past rest c) (pick : UInt16 → T → α) :
    c.ring.itemsOf pick rest = r.itemsOf pick rest :=
  List.filterMap_congr fun i hi => by rw [h.ahead i hi]

/-- One call hands out the first entry before the cursor and moves behind it. -/
theorem At.next (h : At r past rest c) (pick : UInt16 → T → α) : ∃ skipped rest',
    rest = skipped ++ rest' ∧ At r (past ++ skipped) rest' (c.next pick).2 ∧
    (c.next pick).1 = (r.itemsOf pick rest).head? ∧
    r.itemsOf pick rest' = (r.itemsOf pick rest).tail ∧
    ∀ a, (c.next pick).1 = some a → ∃ i ∈ skipped, (r.get i).isSome ∧ ∃ x, a = pick i x := by
  obtain ⟨skipped, rest', e, hrange, hhead, htail, hmem⟩ :=
    scan_spec (fun i => (c.ring.get i).map (pick i)) h.range
  have hat : At r (past ++ skipped) rest' (c.next pick).2 := by
    refine ⟨by rw [h.window, e, List.append_assoc], ?_, h.newest, ?_, h.live⟩
    · unfold Cursor.next
      rw [h.range]
      exact hrange
    · intro i hi
      exact h.ahead i (e ▸ List.mem_append_right skipped hi)
  have hnext : (c.next pick).1 = (scan (fun i => (c.ring.get i).map (pick i)) rest c.i).1 := by
    unfold Cursor.next
    rw [h.range]
  refine ⟨skipped, rest', e, hat, ?_, ?_, ?_⟩
  · rw [hnext, ← h.itemsOf_eq pick]
    exact hhead
  · rw [← h.itemsOf_eq pick, ← hat.itemsOf_eq pick]
    exact htail
  · intro a ha
    obtain ⟨i, hi, hia⟩ := hmem a (hnext ▸ ha)
    obtain ⟨x, hx, rfl⟩ := Option.map_eq_some_iff.mp hia
    exact ⟨i, hi, by rw [← h.live i, hx]; rfl, x, rfl⟩

theorem At.length_rest (h : At r past rest c) : rest.length = (c.ring.newest + 1 - c.i).toNat := by
  rw [← length_wrappingRange, h.range]

theorem At.length_add (h : At r past rest c) : past.length + rest.length = N := by
  rw [← List.length_append, ← h.window, length_window]

/-- The mutable iterators' assertion holds wherever an iterator can come. -/
theorem At.assertion (h : At r past rest c) : c.assertion = true := by
  have hl := h.length_rest
  have hN := h.length_add
  refine decide_eq_true (UInt16.le_iff_toNat_le.mpr ?_)
  rw [toNat_cap]
  omega

/-- The cursor is never so far on that `size_hint` takes it for exhausted. -/
theorem At.not_past (h : At r past rest c) :
    wrappingGt (c.i - 1) c.ring.newest (UInt16.ofNat N) = false := by
  have hle : N ≤ 16384 := Capacity.le
  have hl := h.length_rest
  have hN := h.length_add
  have hcap := toNat_cap (N := N)
  have hi := toNat_lt' c.i; have hn := toNat_lt' c.ring.newest
  have hd : (c.ring.newest - (c.i - 1)).toNat = rest.length := by
    simp only [UInt16.toNat_sub, UInt16.toNat_add, UInt16.toNat_one] at *
    omega
  have hc := dist_comm c.ring.newest (c.i - 1)
  rw [Bool.eq_false_iff]
  intro hgt
  rw [wrappingGt_iff (by omega) (Or.inr (by omega))] at hgt
  omega

theorem At.len_eq (h : At r past rest c) : c.ring.len =
    past.countP (fun i => (r.get i).isSome) + rest.countP fun i => (r.get i).isSome := by
  have hw : c.ring.window = r.window := by
    unfold RingBuffer.window
    rw [h.newest]
  rw [len_window, hw, ← List.countP_append, ← h.window]
  exact List.countP_congr fun i _ => by rw [h.live i]

/-- `size_hint` bounds the number of entries before the cursor. -/
theorem At.sizeHint (h : At r past rest c) (pick : UInt16 → T → α) :
    c.sizeHint.1 ≤ (r.itemsOf pick rest).length ∧
    ∃ upper, c.sizeHint.2 = some upper ∧ (r.itemsOf pick rest).length ≤ upper := by
  have hlen := h.len_eq
  have hN := h.length_add
  have hpast := List.countP_le_length (p := fun i => (r.get i).isSome) (l := past)
  have hrest := List.countP_le_length (p := fun i => (r.get i).isSome) (l := rest)
  have hun : (c.ring.newest - c.i + 1).toNat = rest.length := by
    have hl := h.length_rest
    have hi := toNat_lt' c.i; have hn := toNat_lt' c.ring.newest
    simp only [UInt16.toNat_sub, UInt16.toNat_add, UInt16.toNat_one] at *
    omega
  rw [length_itemsOf]
  unfold Cursor.sizeHint
  simp only [h.not_past, hun, Bool.false_eq_true, or_false]
  split
  · exact ⟨Nat.zero_le _, 0, rfl, by omega⟩
  · exact ⟨by omega, _, rfl, by omega⟩

/-- A store through a reference handed out earlier leaves what is before the cursor alone. -/
theorem At.write (h : At r past rest c) {i : UInt16} (hi : i ∈ past) (hlive : (r.get i).isSome)
    (x : T) : At r past rest (c.write (slot N i) x) := by
  have hw : i ∈ r.window := h.window ▸ List.mem_append_left rest hi
  have hd : (c.ring.newest - i).toNat < N := h.newest ▸ mem_window.mp hw
  have hset : ∀ j, (c.write (slot N i) x).ring.get j = if j = i then some x else c.ring.get j :=
    fun j => get_set (some x) j hd
  refine ⟨h.window, h.range, h.newest, fun j hj => ?_, fun j => ?_⟩
  · have hne : j ≠ i := fun e => by
      have hnd := r.nodup_window
      rw [h.window] at hnd
      exact (List.nodup_append.mp hnd).2.2 i hi j hj e.symm
    rw [hset, if_neg hne]
    exact h.ahead j hj
  · rw [hset]
    split
    · rename_i e
      rw [e, hlive]
      rfl
    · exact h.live j

end At

/-! ## Whole iterations -/

/-- The cursor after `k` calls of `next`. -/
def after (next : Cursor T N → Option α × Cursor T N) (r : RingBuffer T N) (k : Nat) : Cursor T N :=
  (fun c => (next c).2)^[k] r.cursor

/-- A mutable iteration: calls of `next`, with what they have returned, and in between stores
through the references handed out so far. -/
inductive MutRun (next : Cursor T N → Outcome Empty (Option α × Cursor T N)) (ref : α → Fin N)
    (r : RingBuffer T N) : List (Option α) → Cursor T N → Prop
  | start : MutRun next ref r [] r.cursor
  | next {log : List (Option α)} {c c' : Cursor T N} {item : Option α} :
      MutRun next ref r log c → next c = .ok (item, c') → MutRun next ref r (log ++ [item]) c'
  | write {log : List (Option α)} {c : Cursor T N} {a : α} (x : T) :
      MutRun next ref r log c → some a ∈ log → MutRun next ref r log (c.write (ref a) x)

/-- What an iteration over `items` promises of its call number `k`, made at `c` and returning
`item`. -/
structure Promise (items : List α) (k : Nat) (item : Option α) (c : Cursor T N) : Prop where
  item : item = items[k]?
  lower : c.sizeHint.1 ≤ items.length - k
  upper : ∃ u, c.sizeHint.2 = some u ∧ items.length - k ≤ u

/-- What a mutable iteration that has returned `log` promises: the next call does not panic, and
no slot has been handed out twice. -/
structure MutPromise (next : Cursor T N → Outcome Empty (Option α × Cursor T N)) (ref : α → Fin N)
    (items : List α) (log : List (Option α)) (c : Cursor T N) : Prop where
  next : ∃ item c', next c = .ok (item, c') ∧ Promise items log.length item c
  once : ∀ (j k : Nat) (a b : α), j ≠ k → log[j]? = some (some a) → log[k]? = some (some b) →
    ref a ≠ ref b

/-- The cursor after `k` calls that handed out with `pick`. -/
structure After (r : RingBuffer T N) (pick : UInt16 → T → α) (k : Nat) (past rest : List UInt16)
    (c : Cursor T N) : Prop where
  pos : At r past rest c
  left : r.itemsOf pick rest = (r.itemsOf pick r.window).drop k

section After

variable {r : RingBuffer T N} {past rest : List UInt16} {c : Cursor T N} {k : Nat}
  {pick : UInt16 → T → α}

theorem After.next (h : After r pick k past rest c) : ∃ skipped rest',
    After r pick (k + 1) (past ++ skipped) rest' (c.next pick).2 ∧
    (c.next pick).1 = (r.itemsOf pick r.window)[k]? ∧
    ∀ a, (c.next pick).1 = some a → ∃ i ∈ skipped, (r.get i).isSome ∧ ∃ x, a = pick i x := by
  obtain ⟨skipped, rest', _, hat, hhead, htail, hmem⟩ := h.pos.next pick
  refine ⟨skipped, rest', ⟨hat, ?_⟩, ?_, hmem⟩
  · rw [htail, h.left, List.tail_drop]
  · rw [hhead, h.left, List.head?_drop]

theorem After.promise (h : After r pick k past rest c) :
    Promise (r.itemsOf pick r.window) k (c.next pick).1 c := by
  obtain ⟨_, _, _, hitem, _⟩ := h.next
  have hl : (r.itemsOf pick rest).length = (r.itemsOf pick r.window).length - k := by
    rw [h.left, List.length_drop]
  have hs := h.pos.sizeHint pick
  rw [hl] at hs
  exact ⟨hitem, hs.1, hs.2⟩

end After

/-- Shared iterations: `k` calls hand out the first `k` entries. -/
theorem after_spec (r : RingBuffer T N) (pick : UInt16 → T → α) (k : Nat) :
    ∃ past rest, After r pick k past rest (after (Cursor.next pick) r k) := by
  induction k with
  | zero => exact ⟨[], r.window, At.start r, rfl⟩
  | succ k ih =>
    obtain ⟨past, rest, h⟩ := ih
    obtain ⟨skipped, rest', h', _⟩ := h.next
    refine ⟨past ++ skipped, rest', ?_⟩
    unfold after
    rw [Function.iterate_succ_apply']
    exact h'

/-- Mutable iterations hand out the same, whatever the caller stores in between. -/
theorem MutRun.spec {next : Cursor T N → Outcome Empty (Option α × Cursor T N)} {ref : α → Fin N}
    {r : RingBuffer T N} {pick : UInt16 → T → α}
    (hnext : ∀ c, next c = if c.assertion then pure (c.next pick) else .panic)
    (href : ∀ i x, ref (pick i x) = slot N i) {log : List (Option α)} {c : Cursor T N}
    (h : MutRun next ref r log c) : ∃ past rest, After r pick log.length past rest c ∧
      (∀ k, k < log.length → log[k]? = some (r.itemsOf pick r.window)[k]?) ∧
      ∀ a, some a ∈ log → ∃ i ∈ past, (r.get i).isSome ∧ ∃ x, a = pick i x := by
  induction h with
  | start => exact ⟨[], r.window, ⟨At.start r, rfl⟩, by simp, by simp⟩
  | @next log c c' item _ he ih =>
    obtain ⟨past, rest, h, hlog, hmem⟩ := ih
    obtain ⟨skipped, rest', h', hitem, hnew⟩ := h.next
    rw [hnext, if_pos h.pos.assertion, Outcome.pure_def, Outcome.ok.injEq] at he
    rw [he] at h' hitem hnew
    refine ⟨past ++ skipped, rest', ?_, fun k hk => ?_, fun a ha => ?_⟩
    · rw [List.length_append, List.length_singleton]
      exact h'
    · rw [List.length_append, List.length_singleton] at hk
      rcases Nat.lt_succ_iff_lt_or_eq.mp hk with hk | rfl
      · rw [List.getElem?_append_left hk]
        exact hlog k hk
      · rw [List.getElem?_concat_length]
        exact congrArg some hitem
    · rcases List.mem_append.mp ha with ha | ha
      · obtain ⟨i, hi, hx⟩ := hmem a ha
        exact ⟨i, List.mem_append_left skipped hi, hx⟩
      · obtain ⟨i, hi, hx⟩ := hnew a (List.mem_singleton.mp ha).symm
        exact ⟨i, List.mem_append_right past hi, hx⟩
  | @write log c a x _ ha ih =>
    obtain ⟨past, rest, h, hlog, hmem⟩ := ih
    obtain ⟨i, hi, hlive, y, rfl⟩ := hmem a ha
    refine ⟨past, rest, ⟨?_, h.left⟩, hlog, hmem⟩
    rw [href]
    exact h.pos.write hi hlive x

/-- Different entries are in different slots. -/
theorem slot_ne_of_entries {r : RingBuffer T N} {j k : Nat} (hjk : j ≠ k) {e f : UInt16 × T}
    (he : r.entries[j]? = some e) (hf : r.entries[k]? = some f) : slot N e.1 ≠ slot N f.1 := by
  have hd : ∀ {e : UInt16 × T} {k : Nat}, r.entries[k]? = some e → (r.newest - e.1).toNat < N :=
    fun h => dist_of_get (mem_entries.mp (List.mem_of_getElem? h))
  intro h
  have h : e.1 = f.1 := (slot_eq_iff (hd he) (hd hf)).mp h
  have hp := List.pairwise_iff_getElem.mp r.pairwise_entries
  obtain ⟨hj, rfl⟩ := List.getElem?_eq_some_iff.mp he
  obtain ⟨hk, rfl⟩ := List.getElem?_eq_some_iff.mp hf
  rcases Nat.lt_or_gt_of_ne hjk with hlt | hlt
  · have := hp j k hj hk hlt
    rw [h] at this
    exact Nat.lt_irrefl _ this
  · have := hp k j hk hj hlt
    rw [h] at this
    exact Nat.lt_irrefl _ this

theorem MutRun.promise {next : Cursor T N → Outcome Empty (Option α × Cursor T N)}
    {ref : α → Fin N} {r : RingBuffer T N} (pick : UInt16 → T → α)
    (hnext : ∀ c, next c = if c.assertion then pure (c.next pick) else .panic)
    (href : ∀ i x, ref (pick i x) = slot N i) {log : List (Option α)} {c : Cursor T N}
    (h : MutRun next ref r log c) :
    MutPromise next ref (r.entries.map fun e => pick e.1 e.2) log c := by
  obtain ⟨past, rest, ha, hlog, _⟩ := h.spec hnext href
  rw [← itemsOf_window]
  refine ⟨⟨(c.next pick).1, (c.next pick).2, ?_, ha.promise⟩, fun j k a b hjk hj hk => ?_⟩
  · rw [hnext, if_pos ha.pos.assertion]
    rfl
  · have entry : ∀ {k : Nat} {a : α}, log[k]? = some (some a) →
        ∃ e, r.entries[k]? = some e ∧ ref a = slot N e.1 := by
      intro k a hk
      obtain ⟨hlt, -⟩ := List.getElem?_eq_some_iff.mp hk
      rw [hlog k hlt, itemsOf_window, List.getElem?_map, Option.some.injEq,
        Option.map_eq_some_iff] at hk
      obtain ⟨e, he, rfl⟩ := hk
      exact ⟨e, he, href e.1 e.2⟩
    obtain ⟨e, he, hea⟩ := entry hj
    obtain ⟨f, hf, hfb⟩ := entry hk
    rw [hea, hfb]
    exact slot_ne_of_entries hjk he hf

theorem promise_after (r : RingBuffer T N) (pick : UInt16 → T → α) (k : Nat) :
    Promise (r.entries.map fun e => pick e.1 e.2) k
      (Cursor.next pick (after (Cursor.next pick) r k)).1 (after (Cursor.next pick) r k) := by
  obtain ⟨_, _, h⟩ := after_spec r pick k
  rw [← itemsOf_window]
  exact h.promise

/-- The iterators are complete, chronological and do not alias: every call of `next` returns the
next of the live entries in the order of the window, `None` once they are used up, and
`size_hint` bounds what is still to come. A mutable iteration does not panic and hands out no
slot twice, whatever the caller stores through the references it already has. -/
theorem iterators_complete (r : RingBuffer T N) :
    (∀ i x, (i, x) ∈ r.entries ↔ r.get i = some x) ∧
    (r.entries.Pairwise fun a b => r.place a.1 < r.place b.1) ∧
    (∀ k, Promise r.entries k (Iter.next (after Iter.next r k)).1 (after Iter.next r k)) ∧
    (∀ k, Promise (r.entries.map Prod.snd) k (IterValues.next (after IterValues.next r k)).1
      (after IterValues.next r k)) ∧
    (∀ k, Promise (r.entries.map Prod.fst) k (IterKeys.next (after IterKeys.next r k)).1
      (after IterKeys.next r k)) ∧
    (∀ log c, MutRun IterMut.next (fun a => a.2.slot) r log c →
      MutPromise IterMut.next (fun a => a.2.slot)
        (r.entries.map fun e => (e.1, refMut e.1 e.2)) log c) ∧
    ∀ log c, MutRun IterValuesMut.next RefMut.slot r log c →
      MutPromise IterValuesMut.next RefMut.slot
        (r.entries.map fun e => refMut e.1 e.2) log c := by
  refine ⟨fun i x => mem_entries, r.pairwise_entries, fun k => ?_, fun k => ?_, fun k => ?_, ?_, ?_⟩
  · have h := r.promise_after (fun i x => (i, x)) k
    rwa [List.map_id'] at h
  · exact r.promise_after (fun _ x => x) k
  · exact r.promise_after (fun i _ => i) k
  · intro log c h
    exact MutRun.promise (fun i x => (i, refMut i x)) (fun _ => rfl) (fun _ _ => rfl) h
  · intro log c h
    exact MutRun.promise refMut (fun _ => rfl) (fun _ _ => rfl) h

/-- A window across the end of the number space, with holes. -/
theorem iterators_complete_across :
    let r : RingBuffer Nat 32 := ((new.insert 65533 1).insert 65535 2).insert 3 3
    r.entries = [(65533, 1), (65535, 2), (3, 3)] ∧
    (∀ k, Promise r.entries k (Iter.next (after Iter.next r k)).1 (after Iter.next r k)) ∧
    ∀ log c, MutRun IterMut.next (fun a => a.2.slot) r log c →
      MutPromise IterMut.next (fun a => a.2.slot)
        (r.entries.map fun e => (e.1, refMut e.1 e.2)) log c :=
  let h := iterators_complete (((new.insert 65533 1).insert 65535 2).insert 3 3 : RingBuffer Nat 32)
  ⟨by decide +kernel, h.2.2.1, h.2.2.2.2.2.1⟩

end RingBuffer

end MiniUdp
