import Mathlib.Logic.Function.Basic
import Mathlib.Data.List.Infix

/-!
# A store and the log of its updates

The log of a computation lists its updates, the last first. A computation that
is cut short has made the updates of a suffix of its log. `Cuts I d ws` says
that `I` holds of the store at every such cut, before the first update and after
the last one included; it is proved piece by piece.
-/

namespace Journal

variable {ι β : Type*} [DecidableEq ι] {d : ι → β} {i : ι} {b : β} {ws ws' : List (ι × β)}

/-- The store after the updates of a log. -/
def replay (d : ι → β) : List (ι × β) → ι → β
  | [] => d
  | (i, b) :: ws => Function.update (replay d ws) i b

@[simp] theorem replay_nil : replay d [] = d := rfl

theorem replay_cons : replay d ((i, b) :: ws) = Function.update (replay d ws) i b := rfl

theorem replay_append : replay d (ws' ++ ws) = replay (replay d ws) ws' := by
  induction ws' with
  | nil => rfl
  | cons w ws' ih => rw [List.cons_append, replay_cons, replay_cons, ih]

/-- `I` holds wherever the updates of the log are cut off. -/
def Cuts (I : (ι → β) → Prop) (d : ι → β) (ws : List (ι × β)) : Prop :=
  ∀ vs, vs <:+ ws → I (replay d vs)

variable {I J : (ι → β) → Prop}

theorem Cuts.first (h : Cuts I d ws) : I d := h [] List.nil_suffix

theorem Cuts.last (h : Cuts I d ws) : I (replay d ws) := h ws List.suffix_rfl

theorem Cuts.mono (h : Cuts I d ws) (hIJ : ∀ d, I d → J d) : Cuts J d ws :=
  fun vs hvs => hIJ _ (h vs hvs)

theorem Cuts.nil (h : I d) : Cuts I d [] := by
  intro vs hvs
  rw [List.suffix_nil.mp hvs]
  exact h

/-- One more update. -/
theorem Cuts.cons (h : Cuts I d ws) (hI : I (replay d ((i, b) :: ws))) :
    Cuts I d ((i, b) :: ws) := by
  intro vs hvs
  rcases List.suffix_cons_iff.mp hvs with rfl | hvs
  · exact hI
  · exact h vs hvs

/-- A computation that goes on from where another has ended. -/
theorem Cuts.append (h : Cuts I d ws) (h' : Cuts I (replay d ws) ws') :
    Cuts I d (ws' ++ ws) := by
  induction ws' with
  | nil => exact h
  | cons w ws' ih =>
      have hI : I (replay d (w :: ws' ++ ws)) := by
        rw [replay_append]
        exact h'.last
      exact (ih fun vs hvs => h' vs (hvs.trans (List.suffix_cons w ws'))).cons hI

end Journal
