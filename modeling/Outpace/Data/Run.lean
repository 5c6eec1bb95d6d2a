import Mathlib.Data.List.Basic

/-!
# Runs of a step function

A run is a list of inputs folded through a step function. `Meets` says that a condition on state
and input holds at every step of a run, `emits` collects what the steps put out, and the rules
carry a step fact to whole runs.
-/

namespace Outpace

universe u v w
variable {σ : Type u} {α : Type v} {ε : Type w}

/-- The state after a list of inputs. -/
def run (step : σ → α → σ) (s : σ) (inputs : List α) : σ := inputs.foldl step s

/-- Every step of the run is taken in a state, with an input, that meets `cond`. -/
def Meets (step : σ → α → σ) (cond : σ → α → Prop) : σ → List α → Prop
  | _, [] => True
  | s, a :: inputs => cond s a ∧ Meets step cond (step s a) inputs

instance decidableMeets (step : σ → α → σ) (cond : σ → α → Prop) [∀ s a, Decidable (cond s a)] :
    ∀ s inputs, Decidable (Meets step cond s inputs)
  | _, [] => inferInstanceAs (Decidable True)
  | s, a :: inputs =>
    haveI := decidableMeets step cond (step s a) inputs
    inferInstanceAs (Decidable (cond s a ∧ Meets step cond (step s a) inputs))

/-- Everything the steps of a run put out, in order. -/
def emits (step : σ → α → σ) (out : σ → α → List ε) : σ → List α → List ε
  | _, [] => []
  | s, a :: inputs => out s a ++ emits step out (step s a) inputs

variable {step : σ → α → σ} {cond : σ → α → Prop} {out : σ → α → List ε} {s : σ}
  {inputs : List α}

@[simp] theorem run_nil : run step s [] = s := rfl

@[simp] theorem run_cons {a : α} :
    run step s (a :: inputs) = run step (step s a) inputs := rfl

theorem run_append {xs ys : List α} : run step s (xs ++ ys) = run step (run step s xs) ys :=
  List.foldl_append

@[simp] theorem meets_nil : Meets step cond s [] := trivial

@[simp] theorem meets_cons {a : α} :
    Meets step cond s (a :: inputs) ↔ cond s a ∧ Meets step cond (step s a) inputs := Iff.rfl

@[simp] theorem emits_nil : emits step out s [] = [] := rfl

@[simp] theorem emits_cons {a : α} :
    emits step out s (a :: inputs) = out s a ++ emits step out (step s a) inputs := rfl

theorem meets_append {xs ys : List α} :
    Meets step cond s (xs ++ ys) ↔ Meets step cond s xs ∧ Meets step cond (run step s xs) ys := by
  induction xs generalizing s with
  | nil => exact (and_iff_right trivial).symm
  | cons a xs ih => exact (and_congr_right fun _ => ih).trans and_assoc.symm

theorem Meets.and {cond' : σ → α → Prop} (h : Meets step cond s inputs)
    (h' : Meets step cond' s inputs) : Meets step (fun s a => cond s a ∧ cond' s a) s inputs := by
  induction inputs generalizing s with
  | nil => trivial
  | cons a inputs ih => exact ⟨⟨h.1, h'.1⟩, ih h.2 h'.2⟩

theorem Meets.mono {cond' : σ → α → Prop} (h : Meets step cond s inputs)
    (himp : ∀ s a, cond s a → cond' s a) : Meets step cond' s inputs := by
  induction inputs generalizing s with
  | nil => trivial
  | cons a inputs ih => exact ⟨himp s a h.1, ih h.2⟩

theorem Meets.of_forall (h : ∀ a ∈ inputs, ∀ s, cond s a) :
    Meets step cond s inputs := by
  induction inputs generalizing s with
  | nil => trivial
  | cons a inputs ih =>
    exact ⟨h a List.mem_cons_self s, ih fun a ha => h a (List.mem_cons_of_mem _ ha)⟩

theorem Meets.exists_of_mem (h : Meets step cond s inputs) {a : α}
    (ha : a ∈ inputs) : ∃ s', cond s' a := by
  induction inputs generalizing s with
  | nil => cases ha
  | cons b inputs ih =>
    rcases List.mem_cons.mp ha with rfl | ha
    · exact ⟨s, h.1⟩
    · exact ih h.2 ha

/-- A fact that every step meeting `cond` preserves holds after every run meeting `cond`. -/
theorem run_induction {I : σ → Prop} (hstep : ∀ s a, I s → cond s a → I (step s a))
    (h : I s) (hm : Meets step cond s inputs) : I (run step s inputs) := by
  induction inputs generalizing s with
  | nil => exact h
  | cons a inputs ih => exact ih (hstep s a h hm.1) hm.2

/-- A fact that every step preserves holds after every run. -/
theorem run_invariant {I : σ → Prop} (hstep : ∀ s a, I s → I (step s a)) (h : I s)
    (inputs : List α) : I (run step s inputs) := by
  induction inputs generalizing s with
  | nil => exact h
  | cons a inputs ih => exact ih (hstep s a h)

/-- The run rule for a fact about the state and everything put out so far. -/
theorem run_emits_invariant {I : σ → List ε → Prop}
    (hstep : ∀ s log a, I s log → I (step s a) (log ++ out s a)) {log : List ε} (h : I s log)
    (inputs : List α) : I (run step s inputs) (log ++ emits step out s inputs) := by
  induction inputs generalizing s log with
  | nil => simpa using h
  | cons a inputs ih =>
    rw [run_cons, emits_cons, ← List.append_assoc]
    exact ih (hstep s log a h)

/-- The run rule for a fact about the state and everything put out so far, where every step meets
`cond`. -/
theorem run_emits_induction {I : σ → List ε → Prop}
    (hstep : ∀ s log a, I s log → cond s a → I (step s a) (log ++ out s a)) {log : List ε}
    (h : I s log) (hm : Meets step cond s inputs) :
    I (run step s inputs) (log ++ emits step out s inputs) := by
  induction inputs generalizing s log with
  | nil => simpa using h
  | cons a inputs ih =>
    rw [run_cons, emits_cons, ← List.append_assoc]
    exact ih (hstep s log a h hm.1) hm.2

theorem emits_append {xs ys : List α} :
    emits step out s (xs ++ ys) = emits step out s xs ++ emits step out (run step s xs) ys := by
  induction xs generalizing s with
  | nil => rfl
  | cons a xs ih => rw [List.cons_append, emits_cons, ih, emits_cons, List.append_assoc, run_cons]

/-- What every step of a state satisfying the invariant puts out satisfies `P`. -/
theorem forall_emits {I : σ → Prop} {P : ε → Prop} (hstep : ∀ s a, I s → I (step s a))
    (hout : ∀ s a, I s → ∀ e ∈ out s a, P e) (h : I s) :
    ∀ e ∈ emits step out s inputs, P e := by
  induction inputs generalizing s with
  | nil => simp
  | cons a inputs ih =>
    intro e he
    rcases List.mem_append.mp he with he | he
    · exact hout s a h e he
    · exact ih (hstep s a h) e he

end Outpace
