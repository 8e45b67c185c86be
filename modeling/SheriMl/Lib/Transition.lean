import Mathlib.Data.List.Basic

/-!
# Runs of a labelled transition relation

`Run step s ls t`: the steps labelled `ls`, in order, lead from `s` to `t`. A
property that every step preserves holds along every run
(`Run.invariant`, `Run.invariant_of_labels` when only some labels are run,
`Run.history` when it is about the past labels too).
-/

namespace Transition

universe u v

variable {σ : Type u} {ι : Type v}

/-- A finite run, with the labels of its steps. -/
inductive Run (step : σ → ι → σ → Prop) : σ → List ι → σ → Prop
  | nil (s : σ) : Run step s [] s
  | cons {s t u : σ} {l : ι} {ls : List ι} :
      step s l t → Run step t ls u → Run step s (l :: ls) u

/-- The states that some run from an initial state ends in. -/
def Reachable (step : σ → ι → σ → Prop) (init : σ → Prop) (t : σ) : Prop :=
  ∃ s ls, init s ∧ Run step s ls t

namespace Run

variable {step : σ → ι → σ → Prop} {s t : σ} {l : ι} {ls : List ι}

theorem single (h : step s l t) : Run step s [l] t := .cons h (.nil t)

theorem append {ms : List ι} {u : σ} (h : Run step s ls t) (h' : Run step t ms u) :
    Run step s (ls ++ ms) u := by
  induction h with
  | nil => exact h'
  | cons hl _ ih => exact .cons hl (ih h')

/-- A run comes apart where its labels do. -/
theorem of_append {ms : List ι} {u : σ} (h : Run step s (ls ++ ms) u) :
    ∃ t, Run step s ls t ∧ Run step t ms u := by
  induction ls generalizing s with
  | nil => exact ⟨s, .nil s, h⟩
  | cons l ls ih =>
    cases h with
    | cons hl h =>
      obtain ⟨t, ht, hu⟩ := ih h
      exact ⟨t, .cons hl ht, hu⟩

theorem mono {step' : σ → ι → σ → Prop} (hstep : ∀ {s l t}, step s l t → step' s l t)
    (h : Run step s ls t) : Run step' s ls t := by
  induction h with
  | nil => exact .nil _
  | cons hl _ ih => exact .cons (hstep hl) ih

/-- What every step whose label is admissible preserves, every run of
admissible labels preserves. -/
theorem invariant_of_labels {P : ι → Prop} {I : σ → Prop}
    (hstep : ∀ {s l t}, P l → I s → step s l t → I t)
    (h : Run step s ls t) (hP : ∀ l ∈ ls, P l) (hs : I s) : I t := by
  induction h with
  | nil => exact hs
  | cons hl _ ih =>
    exact ih (fun m hm => hP m (List.mem_cons_of_mem _ hm))
      (hstep (hP _ List.mem_cons_self) hs hl)

/-- What every step preserves of the past labels and the state, every run preserves. -/
theorem history {I : List ι → σ → Prop}
    (hstep : ∀ {past s l t}, I past s → step s l t → I (past ++ [l]) t)
    (h : Run step s ls t) (past : List ι) (hs : I past s) : I (past ++ ls) t := by
  induction h generalizing past with
  | nil =>
    rw [List.append_nil]
    exact hs
  | cons hl _ ih =>
    rw [List.append_cons]
    exact ih _ (hstep hs hl)

/-- What every step preserves, every run preserves. -/
theorem invariant {I : σ → Prop} (hstep : ∀ {s l t}, I s → step s l t → I t)
    (h : Run step s ls t) (hs : I s) : I t :=
  h.invariant_of_labels (P := fun _ => True) (fun _ => hstep) (fun _ _ => trivial) hs

end Run

/-- What holds initially and is preserved by every step holds in every reachable state. -/
theorem Reachable.invariant {step : σ → ι → σ → Prop} {init I : σ → Prop}
    (hinit : ∀ {s}, init s → I s) (hstep : ∀ {s l t}, I s → step s l t → I t)
    {t : σ} (h : Reachable step init t) : I t := by
  obtain ⟨s, ls, hs, hrun⟩ := h
  exact hrun.invariant hstep (hinit hs)

end Transition
