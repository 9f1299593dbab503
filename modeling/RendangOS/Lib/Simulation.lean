import Mathlib.Tactic.Common

/-!
# Labelled systems and their refinement

A label is what an observer sees of a step: the request together with the
answer. A concrete system refines an abstract one when, in the states that
satisfy an invariant, an abstraction function takes each of its steps to a step
of the abstract system with the same label.
-/

structure System (Label : Type*) where
  State : Type*
  step : State → Label → State → Prop

namespace System

variable {Label : Type*}

inductive Run (M : System Label) : M.State → List Label → M.State → Prop
  | nil (s : M.State) : Run M s [] s
  | cons {s s' s'' : M.State} {l : Label} {ls : List Label} :
      M.step s l s' → Run M s' ls s'' → Run M s (l :: ls) s''

/-- The steps that satisfy an invariant lead to states that satisfy it. -/
def Keeps (M : System Label) (I : M.State → Prop) : Prop := ∀ s l s', I s → M.step s l s' → I s'

structure Refines (C A : System Label) (I : C.State → Prop) (abs : C.State → A.State) :
    Prop where
  keeps : C.Keeps I
  step : ∀ s l s', I s → C.step s l s' → A.step (abs s) l (abs s')

variable {M C A : System Label} {s s' : M.State} {ls ls' : List Label}

theorem Run.append {s'' : M.State} (h : M.Run s ls s') (h' : M.Run s' ls' s'') :
    M.Run s (ls ++ ls') s'' := by
  induction h with
  | nil => exact h'
  | cons hstep _ ih => exact .cons hstep (ih h')

theorem Run.keeps {I : M.State → Prop} (hI : M.Keeps I) (h : M.Run s ls s') (hs : I s) : I s' := by
  induction h with
  | nil => exact hs
  | cons hstep _ ih => exact ih (hI _ _ _ hs hstep)

/-- A run of the concrete system is, label for label, a run of the abstract one. -/
theorem Refines.run {I : C.State → Prop} {abs : C.State → A.State} (h : C.Refines A I abs)
    {c c' : C.State} (hrun : C.Run c ls c') (hc : I c) : A.Run (abs c) ls (abs c') := by
  induction hrun with
  | nil => exact .nil _
  | cons hstep _ ih => exact .cons (h.step _ _ _ hc hstep) (ih (h.keeps _ _ _ hc hstep))

/-- In the states that satisfy `I`, each step of `C` is, seen through `proj`, a step of the
component `A` with the label that `vis` shows, or leaves it where it is. -/
structure Projects {Label' : Type*} (C : System Label) (A : System Label') (I : C.State → Prop)
    (proj : C.State → A.State) (vis : Label → Option Label') : Prop where
  keeps : C.Keeps I
  step : ∀ s l s', I s → C.step s l s' →
    (∃ l', vis l = some l' ∧ A.step (proj s) l' (proj s')) ∨ vis l = none ∧ proj s' = proj s

/-- A run projects to a run of the component. -/
theorem Projects.run {Label' : Type*} {A : System Label'} {I : C.State → Prop}
    {proj : C.State → A.State} {vis : Label → Option Label'} (h : C.Projects A I proj vis)
    {c c' : C.State} (hrun : C.Run c ls c') (hc : I c) :
    A.Run (proj c) (ls.filterMap vis) (proj c') := by
  induction hrun with
  | nil => exact .nil _
  | @cons c c₁ c₂ l ls hstep _ ih =>
      have hrest := ih (h.keeps c l c₁ hc hstep)
      rcases h.step c l c₁ hc hstep with ⟨l', hl, hA⟩ | ⟨hl, heq⟩
      · rw [List.filterMap_cons_some hl]
        exact .cons hA hrest
      · rw [List.filterMap_cons_none hl, ← heq]
        exact hrest

end System
