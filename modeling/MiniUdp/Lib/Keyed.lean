import Mathlib.Logic.Function.Basic
import Mathlib.Data.List.Basic

/-!
# Families of machines

Machines kept under keys, each made when the first event for it comes in. An
event goes to the machine of its key alone, so the run of a family is, key by
key, the run of one machine on its own events (`run_apply`).
-/

namespace MiniUdp.Keyed

variable {κ ε σ : Type} [DecidableEq κ] (key : ε → κ) (react : ε → Option σ → σ)

/-- An event changes the machine of its key, which may not exist yet. -/
def step (m : κ → Option σ) (e : ε) : κ → Option σ :=
  Function.update m (key e) (some (react e (m (key e))))

def run (m : κ → Option σ) (es : List ε) : κ → Option σ := es.foldl (step key react) m

/-- A machine on its own. -/
def runAlone (o : Option σ) (es : List ε) : Option σ := es.foldl (fun o e => some (react e o)) o

variable {key react}

theorem run_apply (m : κ → Option σ) (es : List ε) (k : κ) :
    run key react m es k = runAlone react (m k) (es.filter fun e => key e = k) := by
  induction es generalizing m with
  | nil => rfl
  | cons e es ih =>
    rw [run, List.foldl_cons, ← run, ih, step]
    by_cases h : key e = k
    · subst h
      simp only [Function.update_self, List.filter_cons, decide_true, if_true]
      rfl
    · simp only [Function.update_of_ne (Ne.symm h), List.filter_cons, h, decide_false,
        Bool.false_eq_true, if_false]

theorem run_apply_of_forall_ne (m : κ → Option σ) {es : List ε} {k : κ}
    (h : ∀ e ∈ es, key e ≠ k) : run key react m es k = m k := by
  have hnil : (es.filter fun e => key e = k) = [] :=
    List.filter_eq_nil_iff.mpr fun e he => by simpa using h e he
  rw [run_apply, hnil]
  rfl

/-- The order of events under different keys does not matter. -/
theorem run_congr (m : κ → Option σ) {es es' : List ε}
    (h : ∀ k, (es.filter fun e => key e = k) = es'.filter fun e => key e = k) :
    run key react m es = run key react m es' :=
  funext fun k => by rw [run_apply, run_apply, h]

end MiniUdp.Keyed
