import Mathlib.Logic.Relation
import Mathlib.Data.List.Flatten
import Mathlib.Data.List.Range

/-!
# Programs under interference

A program is a list of operations on a state that the environment changes at any time in
between. An operation that is not enabled waits for the environment. A contract says what
holds at every moment, what holds at the end, and that the end can always be reached.
-/

namespace Interference

/-- What an operation does where it is enabled, and what the environment may do. -/
structure Setting (σ Op : Type*) where
  op : Op → σ → Option σ
  env : σ → σ → Prop

variable {σ Op : Type*} {M : Setting σ Op} {I J P Q R : σ → Prop} {s s' s'' : σ}
  {o : Op} {ops ops' a b : List Op}

/-- The operations that are left, and the state, after some steps. -/
inductive Exec (M : Setting σ Op) : List Op → σ → List Op → σ → Prop
  | refl (ops : List Op) (s : σ) : Exec M ops s ops s
  | env {ops ops' : List Op} {s s₁ s' : σ} : M.env s s₁ → Exec M ops s₁ ops' s' →
      Exec M ops s ops' s'
  | op {o : Op} {ops ops' : List Op} {s s₁ s' : σ} : M.op o s = some s₁ → Exec M ops s₁ ops' s' →
      Exec M (o :: ops) s ops' s'

namespace Exec

theorem trans {ops'' : List Op} (h : Exec M ops s ops' s') (h' : Exec M ops' s' ops'' s'') :
    Exec M ops s ops'' s'' := by
  induction h with
  | refl => exact h'
  | env he _ ih => exact .env he (ih h')
  | op ho _ ih => exact .op ho (ih h')

theorem append (h : Exec M a s ops' s') (b : List Op) : Exec M (a ++ b) s (ops' ++ b) s' := by
  induction h with
  | refl => exact .refl ..
  | env he _ ih => exact .env he ih
  | op ho _ ih => exact .op ho ih

theorem seq (h : Exec M a s [] s') (h' : Exec M b s' [] s'') : Exec M (a ++ b) s [] s'' :=
  (h.append b).trans h'

/-- An execution of two programs in a row is in the first one, or past it. -/
theorem split {ops : List Op} (h : Exec M ops s ops' s') (hops : ops = a ++ b) :
    (∃ a', ops' = a' ++ b ∧ Exec M a s a' s') ∨
      ∃ s₁, Exec M a s [] s₁ ∧ Exec M b s₁ ops' s' := by
  induction h generalizing a with
  | refl ops s => exact Or.inl ⟨a, hops, .refl ..⟩
  | env he _ ih =>
      rcases ih hops with ⟨a', rfl, hin⟩ | ⟨s₁, hout, hrest⟩
      · exact Or.inl ⟨a', rfl, .env he hin⟩
      · exact Or.inr ⟨s₁, .env he hout, hrest⟩
  | @op o ops ops' s s₁ s' ho hrun ih =>
      cases a with
      | nil =>
          obtain rfl : o :: ops = b := hops
          exact Or.inr ⟨s, .refl .., .op ho hrun⟩
      | cons o' a =>
          obtain ⟨rfl, htail⟩ := List.cons.inj hops
          rcases ih htail with ⟨a', rfl, hin⟩ | ⟨s₂, hout, hrest⟩
          · exact Or.inl ⟨a', rfl, .op ho hin⟩
          · exact Or.inr ⟨s₂, .op ho hout, hrest⟩

end Exec

/-- The environment does not end it. -/
def Stable (M : Setting σ Op) (P : σ → Prop) : Prop := ∀ s s', P s → M.env s s' → P s'

/-- From `P`: `I` at every moment, `Q` at the end, which can always be reached. -/
structure Spec (M : Setting σ Op) (I P : σ → Prop) (ops : List Op) (Q : σ → Prop) : Prop where
  always : ∀ s ops' s', P s → Exec M ops s ops' s' → I s'
  post : ∀ s s', P s → Exec M ops s [] s' → Q s'
  ends : ∀ s ops' s', P s → Exec M ops s ops' s' → ∃ s'', Exec M ops' s' [] s''

namespace Spec

theorem skip (hP : Stable M P) (hI : ∀ s, P s → I s) : Spec M I P [] P := by
  have hkeep : ∀ {ops ops' : List Op} {s s'}, Exec M ops s ops' s' → ops = [] → P s →
      P s' ∧ ops' = [] := by
    intro ops ops' s s' h hnil hs
    induction h with
    | refl => exact ⟨hs, hnil⟩
    | env he _ ih => exact ih hnil (hP _ _ hs he)
    | op => cases hnil
  constructor
  · intro s ops' s' hs h
    exact hI s' (hkeep h rfl hs).1
  · intro s s' hs h
    exact (hkeep h rfl hs).1
  · intro s ops' s' hs h
    rw [(hkeep h rfl hs).2]
    exact ⟨s', .refl ..⟩

theorem append (h : Spec M I P a R) (h' : Spec M I R b Q) : Spec M I P (a ++ b) Q := by
  constructor
  · intro s ops' s' hs hrun
    rcases hrun.split rfl with ⟨a', -, hin⟩ | ⟨s₁, hout, hrest⟩
    · exact h.always s a' s' hs hin
    · exact h'.always s₁ ops' s' (h.post s s₁ hs hout) hrest
  · intro s s' hs hrun
    rcases hrun.split rfl with ⟨a', hnil, hin⟩ | ⟨s₁, hout, hrest⟩
    · obtain ⟨rfl, rfl⟩ := List.append_eq_nil_iff.mp hnil.symm
      exact h'.post s' s' (h.post s s' hs hin) (.refl ..)
    · exact h'.post s₁ s' (h.post s s₁ hs hout) hrest
  · intro s ops' s' hs hrun
    rcases hrun.split rfl with ⟨a', rfl, hin⟩ | ⟨s₁, hout, hrest⟩
    · obtain ⟨s₁, hend⟩ := h.ends s a' s' hs hin
      have hR : R s₁ := h.post s s₁ hs (hin.trans hend)
      obtain ⟨s₂, hend'⟩ := h'.ends s₁ b s₁ hR (.refl ..)
      exact ⟨s₂, hend.seq hend'⟩
    · exact h'.ends s₁ ops' s' (h.post s s₁ hs hout) hrest

theorem cons (h : Spec M I P [o] R) (h' : Spec M I R b Q) : Spec M I P (o :: b) Q := h.append h'

theorem mono (h : Spec M I P ops Q) (hI : ∀ s, I s → J s) : Spec M J P ops Q where
  always s ops' s' hs hrun := hI s' (h.always s ops' s' hs hrun)
  post := h.post
  ends := h.ends

/-- The rule of a counted loop. -/
theorem loop {n : ℕ} {body : ℕ → List Op} {P : ℕ → σ → Prop} (hP : Stable M (P 0))
    (hI : ∀ s, P 0 s → I s) (hbody : ∀ i < n, Spec M I (P i) (body i) (P (i + 1))) :
    Spec M I (P 0) ((List.range n).flatMap body) (P n) := by
  induction n with
  | zero => exact skip hP hI
  | succ n ih =>
      rw [List.range_succ, List.flatMap_append, List.flatMap_singleton]
      exact (ih fun i hi => hbody i (Nat.lt_succ_of_lt hi)).append (hbody n (Nat.lt_succ_self n))

end Spec

end Interference
