import Mathlib.Data.Set.Card

/-!
# Windowed maps

A finite map whose keys lie in a window that ends at the newest key. `window n`
lists the keys of the window that ends at `n`, oldest first. Sliding to another
newest key forgets what leaves the window; nothing is ever bound outside it.
-/

namespace MiniUdp

variable {ι T σ : Type}

structure WindowedMap (window : ι → List ι) (T : Type) where
  newest : ι
  entries : ι → Option T
  mem_window : ∀ i x, entries i = some x → i ∈ window newest

namespace WindowedMap

variable {window : ι → List ι}

@[ext] theorem ext {m m' : WindowedMap window T} (hn : m.newest = m'.newest)
    (he : ∀ i, m.entries i = m'.entries i) : m = m' := by
  obtain ⟨n, e, h⟩ := m
  obtain ⟨n', e', h'⟩ := m'
  obtain rfl : n = n' := hn
  obtain rfl : e = e' := funext he
  rfl

/-- Nothing is bound. -/
def empty (window : ι → List ι) (n : ι) : WindowedMap window T := ⟨n, fun _ => none, by simp⟩

/-- How many keys are bound. -/
noncomputable def size (m : WindowedMap window T) : Nat := {i | m.entries i ≠ none}.ncard

section Keys

variable [DecidableEq ι]

/-- Keep the entries of the window that ends at `n`. -/
def slide (m : WindowedMap window T) (n : ι) : WindowedMap window T where
  newest := n
  entries i := if i ∈ window n then m.entries i else none
  mem_window i x h := by
    by_contra hc
    rw [if_neg hc] at h
    cases h

/-- Bind a key of the window, or the newest key of a window that has it. -/
def bind (m : WindowedMap window T) (i : ι) (x : T) (h : i ∈ window m.newest) :
    WindowedMap window T where
  newest := m.newest
  entries j := if j = i then some x else m.entries j
  mem_window j y hj := by
    by_cases e : j = i
    · exact e ▸ h
    · rw [if_neg e] at hj
      exact m.mem_window j y hj

/-- Bind a key, which becomes the newest one if it is not in the window. -/
def insert (m : WindowedMap window T) (hself : ∀ n, n ∈ window n) (i : ι) (x : T) :
    WindowedMap window T :=
  if h : i ∈ window m.newest then m.bind i x h else (m.slide i).bind i x (hself i)

theorem insert_of_mem (m : WindowedMap window T) (hself : ∀ n, n ∈ window n) {i : ι} (x : T)
    (h : i ∈ window m.newest) : m.insert hself i x = m.bind i x h :=
  dif_pos h

theorem insert_of_not_mem (m : WindowedMap window T) (hself : ∀ n, n ∈ window n) {i : ι} (x : T)
    (h : i ∉ window m.newest) : m.insert hself i x = (m.slide i).bind i x (hself i) :=
  dif_neg h

/-- Change the entry of a key. -/
def modify (m : WindowedMap window T) (i : ι) (f : Option T → Option T) (hf : f none = none) :
    WindowedMap window T where
  newest := m.newest
  entries j := if j = i then f (m.entries j) else m.entries j
  mem_window j y hj := by
    cases he : m.entries j with
    | some x => exact m.mem_window j x he
    | none =>
      rw [he, hf, ite_self] at hj
      cases hj

def erase (m : WindowedMap window T) (i : ι) : WindowedMap window T :=
  m.modify i (fun _ => none) rfl

end Keys

/-- Change or drop each entry. -/
def filterMap (m : WindowedMap window T) (g : ι → T → Option T) : WindowedMap window T where
  newest := m.newest
  entries i := (m.entries i).bind (g i)
  mem_window i x h := by
    obtain ⟨y, hy, -⟩ := Option.bind_eq_some_iff.mp h
    exact m.mem_window i y hy

/-- Ask a closure with a state of its own about the bound ones of some keys, one after the other:
what it leaves of each entry. -/
def answers (m : WindowedMap window T) (f : ι → T → σ → Bool × T × σ) :
    List ι → σ → List (ι × Option T) × σ
  | [], s => ([], s)
  | i :: is, s =>
    match m.entries i with
    | none => m.answers f is s
    | some x =>
      let (keep, x', s') := f i x s
      let (rest, s'') := m.answers f is s'
      ((i, if keep then some x' else none) :: rest, s'')

/-- Keep the entries for which the closure answers `true`, as it leaves them. It is asked about
each entry once, the oldest first. -/
def retain [DecidableEq ι] (m : WindowedMap window T) (f : ι → T → σ → Bool × T × σ) (s : σ) :
    WindowedMap window T × σ :=
  let (as, s') := m.answers f (window m.newest) s
  (m.filterMap fun i _ => (as.lookup i).join, s')

section Retain

variable [DecidableEq ι] (m : WindowedMap window T)

/-- A closure that does not look at a state filters the map. -/
theorem retain_filter (g : ι → T → Bool × T) (s : σ) :
    m.retain (fun i x s => ((g i x).1, (g i x).2, s)) s =
      (m.filterMap fun i x => if (g i x).1 then some (g i x).2 else none, s) := by
  have hstate : ∀ is s, (m.answers (fun i x (s : σ) => ((g i x).1, (g i x).2, s)) is s).2 = s := by
    intro is s
    induction is with
    | nil => rfl
    | cons i is ih =>
      unfold answers
      split
      · exact ih
      · exact ih
  have hlookup : ∀ is i x, i ∈ is → m.entries i = some x →
      (m.answers (fun i x (s : σ) => ((g i x).1, (g i x).2, s)) is s).1.lookup i =
        some (if (g i x).1 then some (g i x).2 else none) := by
    intro is i x hi hx
    induction is with
    | nil => cases hi
    | cons j is ih =>
      unfold answers
      by_cases e : i = j
      · subst e
        rw [hx]
        exact List.lookup_cons_self
      · have hi := (List.mem_cons.mp hi).resolve_left e
        split
        · exact ih hi
        · rw [List.lookup_cons, beq_false_of_ne e]
          exact ih hi
  refine Prod.ext (WindowedMap.ext rfl fun i => ?_) (hstate _ s)
  unfold retain filterMap
  cases hx : m.entries i with
  | none => simp only [hx, Option.bind_none]
  | some x =>
    simp only [hx, Option.bind_some, hlookup _ i x (m.mem_window i x hx) hx, Option.join_some]

end Retain

end WindowedMap

end MiniUdp
