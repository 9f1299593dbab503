import Mathlib.Logic.Function.Basic

/-!
# Look-aside buffers

A cache keeps copies of entries of a table, and is asked first. Entries may come into
it and leave it at any time. It is never stale as long as whoever changes an entry of
the table has it evicted.
-/

namespace LookAside

variable {K V : Type*} {table : K → V} {cache : K → Option V}

/-- What is found for `k`: the copy, or else the entry. -/
def look (table : K → V) (cache : K → Option V) (k : K) : V := (cache k).getD (table k)

/-- Every copy is one of the entry as it is. -/
def Coherent (table : K → V) (cache : K → Option V) : Prop :=
  ∀ k v, cache k = some v → v = table k

theorem Coherent.look (h : Coherent table cache) (k : K) : look table cache k = table k := by
  unfold LookAside.look
  cases hk : cache k with
  | none => rfl
  | some v => exact h k v hk

theorem coherent_flush (table : K → V) : Coherent table fun _ => none := by
  intro k v hk
  cases hk

variable [DecidableEq K]

theorem Coherent.fill (h : Coherent table cache) (k : K) :
    Coherent table (Function.update cache k (some (table k))) := by
  intro j v hj
  by_cases hjk : j = k
  · subst hjk
    rw [Function.update_self] at hj
    exact (Option.some.inj hj).symm
  · rw [Function.update_of_ne hjk] at hj
    exact h j v hj

theorem Coherent.evict (h : Coherent table cache) (k : K) :
    Coherent table (Function.update cache k none) := by
  intro j v hj
  by_cases hjk : j = k
  · subst hjk
    rw [Function.update_self] at hj
    cases hj
  · rw [Function.update_of_ne hjk] at hj
    exact h j v hj

/-- An entry is changed and evicted. -/
theorem Coherent.rewrite (h : Coherent table cache) (k : K) (v : V) :
    Coherent (Function.update table k v) (Function.update cache k none) := by
  intro j w hj
  by_cases hjk : j = k
  · subst hjk
    rw [Function.update_self] at hj
    cases hj
  · rw [Function.update_of_ne hjk] at hj ⊢
    exact h j w hj

end LookAside
