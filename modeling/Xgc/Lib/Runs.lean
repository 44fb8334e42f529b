import Mathlib.Data.List.Induction

/-! Runs of a labelled transition system, given by the steps it can take.

    A property of the first state that every step preserves holds at the end of every run, and a
    relation between two systems that every pair of steps with the same label preserves holds
    between the ends of two runs of the same labels. -/

namespace Xgc.Lib

variable {S T A : Type*}

/-- `Run Step s as t`: taking steps labelled `as` leads from `s` to `t`. -/
inductive Run (Step : S → A → S → Prop) : S → List A → S → Prop
  | nil (s : S) : Run Step s [] s
  | snoc {s t u : S} {as : List A} {a : A} : Run Step s as t → Step t a u → Run Step s (as ++ [a]) u

namespace Run

variable {Step : S → A → S → Prop} {StepT : T → A → T → Prop}

/-- What holds at the start and is preserved by every step holds at the end of every run. -/
theorem invariant {P : S → Prop} (hstep : ∀ s a t, P s → Step s a t → P t) {s t : S} {as : List A}
    (h : Run Step s as t) (hs : P s) : P t := by
  induction h with
  | nil => exact hs
  | snoc _ hst ih => exact hstep _ _ _ ih hst

theorem snoc_inv {s u : S} {as : List A} {a : A} (h : Run Step s (as ++ [a]) u) :
    ∃ t, Run Step s as t ∧ Step t a u := by
  generalize hb : as ++ [a] = bs at h
  cases h with
  | nil => simp at hb
  | snoc hr hst =>
    obtain ⟨rfl, hab⟩ := List.append_inj' hb rfl
    obtain rfl : a = _ := by simpa using hab
    exact ⟨_, hr, hst⟩

theorem single {s t : S} {a : A} (h : Step s a t) : Run Step s [a] t := (nil s).snoc h

/-- One run after the other. -/
theorem trans {s t u : S} {as bs : List A} (h : Run Step s as t) (h' : Run Step t bs u) :
    Run Step s (as ++ bs) u := by
  induction h' with
  | nil => rwa [List.append_nil]
  | snoc _ hst ih =>
    rw [← List.append_assoc]
    exact ih.snoc hst

/-- The runs of a system are runs of one that can take more steps. -/
theorem mono {Step' : S → A → S → Prop} (hstep : ∀ s a t, Step s a t → Step' s a t) {s t : S}
    {as : List A} (h : Run Step s as t) : Run Step' s as t := by
  induction h with
  | nil => exact .nil _
  | snoc _ hst ih => exact ih.snoc (hstep _ _ _ hst)

/-- Steps that are calls of a function make a run of every list of calls that may be made. -/
theorem foldl {L : A → Prop} {f : S → A → S} (as : List A) (s : S) (h : ∀ a ∈ as, L a) :
    Run (fun s a t => L a ∧ t = f s a) s as (as.foldl f s) := by
  induction as using List.reverseRecOn with
  | nil => exact .nil s
  | append_singleton as a ih =>
    rw [List.foldl_append]
    exact (ih fun b hb => h b (List.mem_append_left _ hb)).snoc
      ⟨h a (List.mem_append_right _ (List.mem_singleton.mpr rfl)), rfl⟩

/-- Two systems that take the same labels in lockstep stay related. -/
theorem lockstep {R : S → T → Prop}
    (hstep : ∀ s t a s' t', R s t → Step s a s' → StepT t a t' → R s' t') {s s' : S} {t : T}
    {as : List A} (h : Run Step s as s') : ∀ {t'}, Run StepT t as t' → R s t → R s' t' := by
  induction h with
  | nil =>
    intro t' ht hR
    generalize hb : ([] : List A) = bs at ht
    cases ht with
    | nil => exact hR
    | snoc => simp at hb
  | snoc _ hst ih =>
    intro t' ht hR
    obtain ⟨u, hu, hut⟩ := ht.snoc_inv
    exact hstep _ _ _ _ _ (ih hu hR) hst hut

end Run

end Xgc.Lib
