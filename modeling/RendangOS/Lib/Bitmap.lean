import Mathlib.Data.List.Range
import Mathlib.Data.List.Nodup
import Mathlib.Tactic.Common

/-!
# Counting clear bits

A bitmap is a predicate on indices. `clearCount p n` is the number of clear
indices below `n`; it moves by one when one index is set or cleared, and by the
length of a duplicate-free list when the list is taken or given back.
-/

namespace Bitmap

def clearCount (p : ℕ → Bool) (n : ℕ) : ℕ := (List.range n).countP fun i => !p i

theorem clearCount_succ (p : ℕ → Bool) (n : ℕ) :
    clearCount p (n + 1) = clearCount p n + if p n then 0 else 1 := by
  unfold clearCount
  rw [List.range_succ, List.countP_append]
  cases hp : p n <;> simp [hp]

theorem clearCount_le (p : ℕ → Bool) (n : ℕ) : clearCount p n ≤ n := by
  simpa [clearCount] using (List.range n).countP_le_length (p := fun i => !p i)

theorem clearCount_congr {p q : ℕ → Bool} {n : ℕ} (h : ∀ i < n, p i = q i) :
    clearCount p n = clearCount q n := by
  induction n with
  | zero => rfl
  | succ n ih =>
      rw [clearCount_succ, clearCount_succ, ih fun i hi => h i (by omega), h n (by omega)]

theorem clearCount_eq_zero {p : ℕ → Bool} {n : ℕ} :
    clearCount p n = 0 ↔ ∀ i < n, p i = true := by
  simp [clearCount, List.countP_eq_zero]

/-- The more is set, the less is clear. -/
theorem clearCount_mono {p q : ℕ → Bool} {n : ℕ} (h : ∀ i, p i = true → q i = true) :
    clearCount q n ≤ clearCount p n := by
  apply List.countP_mono_left
  intro i _ hq
  cases hp : p i with
  | false => rfl
  | true => rw [h i hp] at hq; exact hq

/-- Setting one clear index. -/
theorem clearCount_insert {p q : ℕ → Bool} {n k : ℕ} (hk : k < n)
    (hp : p k = false) (hq : q k = true) (h : ∀ i < n, i ≠ k → q i = p i) :
    clearCount q n + 1 = clearCount p n := by
  induction n with
  | zero => omega
  | succ n ih =>
      rw [clearCount_succ, clearCount_succ]
      by_cases hkn : k = n
      · subst hkn
        rw [clearCount_congr fun i hi => h i (by omega) (by omega), hp, hq]
        simp
      · have hn := h n (by omega) (Ne.symm hkn)
        have ih' := ih (by omega) fun i hi => h i (by omega)
        rw [hn]
        omega

/-- Setting a duplicate-free list of clear indices. -/
theorem clearCount_insert_list {n : ℕ} : ∀ (bs : List ℕ) {p q : ℕ → Bool}, bs.Nodup →
    (∀ b ∈ bs, b < n ∧ p b = false) → (∀ i < n, q i = (p i || decide (i ∈ bs))) →
    clearCount q n + bs.length = clearCount p n
  | [], p, q, _, _, hq => by
      have h : clearCount q n = clearCount p n := clearCount_congr fun i hi => by simp [hq i hi]
      simpa using h
  | b :: bs, p, q, hnd, hbs, hq => by
      obtain ⟨hb, hnd⟩ := List.nodup_cons.mp hnd
      have hmid : clearCount (fun i => p i || decide (i = b)) n + 1 = clearCount p n :=
        clearCount_insert (hbs b List.mem_cons_self).1 (hbs b List.mem_cons_self).2 (by simp)
          fun i _ hne => by simp [hne]
      have hrest := clearCount_insert_list bs (p := fun i => p i || decide (i = b)) (q := q) hnd
        (fun c hc => by
          have hcb : c ≠ b := fun h => hb (h ▸ hc)
          obtain ⟨hlt, hclear⟩ := hbs c (List.mem_cons_of_mem _ hc)
          exact ⟨hlt, by simp [hclear, hcb]⟩)
        (fun i hi => by rw [hq i hi]; simp [Bool.or_assoc])
      rw [List.length_cons]
      omega

/-- Every index below `n` is set or there is a least clear one. -/
theorem find_clear (p : ℕ → Bool) (n : ℕ) :
    ((List.range n).find? (fun i => !p i) = none ∧ ∀ i < n, p i = true) ∨
    ∃ k < n, (List.range n).find? (fun i => !p i) = some k ∧ p k = false ∧
      ∀ i < k, p i = true := by
  cases h : (List.range n).find? (fun i => !p i) with
  | none =>
      refine Or.inl ⟨rfl, fun i hi => ?_⟩
      simpa using List.find?_eq_none.mp h i (by simpa using hi)
  | some k =>
      obtain ⟨hk, hmem, hlt⟩ := List.find?_range_eq_some.mp h
      exact Or.inr ⟨k, by simpa using hmem, rfl, by simpa using hk, fun i hi => by
        simpa using hlt i hi⟩

end Bitmap
