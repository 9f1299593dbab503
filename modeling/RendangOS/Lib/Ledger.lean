import Mathlib.Data.Set.Insert
import Mathlib.Logic.Function.Basic

/-!
# Ownership ledgers

An allocator hands out resources `β`; a table of places `ι` refers to them.
`Ledger own held taken` says that every place owns a resource of its own, that
the resources in `held` are allocated but in no place yet, and that the
allocated resources are exactly the held and the owned ones. With `held` empty
nothing is shared and nothing is leaked.

The rules follow the life of a resource: `take` it from the allocator, `replace`
the contents of some places by held resources (what those places owned before is
then held), `release` what is held.
-/

variable {ι β : Type*}

structure Ledger (own : ι → Option β) (held taken : Set β) : Prop where
  inj : ∀ {i j b}, own i = some b → own j = some b → i = j
  loose : ∀ {i b}, own i = some b → b ∉ held
  mem_taken : ∀ b, b ∈ taken ↔ b ∈ held ∨ ∃ i, own i = some b

namespace Ledger

variable {own own' : ι → Option β} {held taken new : Set β}

theorem own_taken (h : Ledger own held taken) {i : ι} {b : β} (hb : own i = some b) :
    b ∈ taken :=
  (h.mem_taken b).mpr (Or.inr ⟨i, hb⟩)

theorem held_taken (h : Ledger own held taken) {b : β} (hb : b ∈ held) : b ∈ taken :=
  (h.mem_taken b).mpr (Or.inl hb)

/-- With nothing held, the allocated resources are the owned ones. -/
theorem taken_iff (h : Ledger own ∅ taken) (b : β) : b ∈ taken ↔ ∃ i, own i = some b := by
  rw [h.mem_taken b]
  simp

/-- Allocate the resources `new`. -/
theorem take (h : Ledger own held taken) (hnew : ∀ b ∈ new, b ∉ taken) :
    Ledger own (held ∪ new) (taken ∪ new) where
  inj := h.inj
  loose := by
    rintro i b hb (hh | hn)
    · exact h.loose hb hh
    · exact hnew b hn (h.own_taken hb)
  mem_taken := by
    intro b
    constructor
    · rintro (ht | hn)
      · rcases (h.mem_taken b).mp ht with hh | hi
        · exact Or.inl (Or.inl hh)
        · exact Or.inr hi
      · exact Or.inl (Or.inr hn)
    · rintro ((hh | hn) | hi)
      · exact Or.inl (h.held_taken hh)
      · exact Or.inr hn
      · exact Or.inl ((h.mem_taken b).mpr (Or.inr hi))

/-- Give back held resources. -/
theorem release (h : Ledger own held taken) (hnew : new ⊆ held) :
    Ledger own (held \ new) (taken \ new) where
  inj := h.inj
  loose := fun hb hh => h.loose hb hh.1
  mem_taken := by
    intro b
    constructor
    · rintro ⟨ht, hn⟩
      rcases (h.mem_taken b).mp ht with hh | hi
      · exact Or.inl ⟨hh, hn⟩
      · exact Or.inr hi
    · rintro (⟨hh, hn⟩ | ⟨i, hi⟩)
      · exact ⟨h.held_taken hh, hn⟩
      · exact ⟨h.own_taken hi, fun hn => h.loose hi (hnew hn)⟩

/-- Put held resources into the places `D`; what `D` owned before is then held. -/
theorem replace (h : Ledger own held taken) (D : Set ι)
    (hout : ∀ i, i ∉ D → own' i = own i)
    (hinj : ∀ i ∈ D, ∀ j ∈ D, ∀ b, own' i = some b → own' j = some b → i = j)
    (hheld : ∀ i ∈ D, ∀ b, own' i = some b → b ∈ held) :
    Ledger own'
      (held \ {b | ∃ i ∈ D, own' i = some b} ∪ {b | ∃ i ∈ D, own i = some b}) taken where
  inj := by
    intro i j b hi hj
    by_cases hiD : i ∈ D <;> by_cases hjD : j ∈ D
    · exact hinj i hiD j hjD b hi hj
    · exact absurd (hheld i hiD b hi) (h.loose (hout j hjD ▸ hj))
    · exact absurd (hheld j hjD b hj) (h.loose (hout i hiD ▸ hi))
    · exact h.inj (hout i hiD ▸ hi) (hout j hjD ▸ hj)
  loose := by
    rintro i b hi (⟨hh, hn⟩ | ⟨j, hj, hb⟩)
    · by_cases hiD : i ∈ D
      · exact hn ⟨i, hiD, hi⟩
      · exact h.loose (hout i hiD ▸ hi) hh
    · by_cases hiD : i ∈ D
      · exact h.loose hb (hheld i hiD b hi)
      · exact hiD (h.inj hb (hout i hiD ▸ hi) ▸ hj)
  mem_taken := by
    intro b
    constructor
    · intro ht
      rcases (h.mem_taken b).mp ht with hh | ⟨i, hi⟩
      · by_cases hn : ∃ i ∈ D, own' i = some b
        · exact Or.inr (hn.imp fun _ h => h.2)
        · exact Or.inl (Or.inl ⟨hh, hn⟩)
      · by_cases hiD : i ∈ D
        · exact Or.inl (Or.inr ⟨i, hiD, hi⟩)
        · exact Or.inr ⟨i, (hout i hiD).trans hi⟩
    · rintro ((⟨hh, -⟩ | ⟨i, -, hi⟩) | ⟨i, hi⟩)
      · exact h.held_taken hh
      · exact h.own_taken hi
      · by_cases hiD : i ∈ D
        · exact h.held_taken (hheld i hiD b hi)
        · exact h.own_taken (hout i hiD ▸ hi)

/-- Empty the places `D`. -/
theorem clear (h : Ledger own held taken) (D : Set ι)
    (hout : ∀ i, i ∉ D → own' i = own i) (hD : ∀ i ∈ D, own' i = none) :
    Ledger own' (held ∪ {b | ∃ i ∈ D, own i = some b}) taken := by
  have hr := h.replace D hout (fun i hi _ _ b hb => by simp [hD i hi] at hb)
    (fun i hi b hb => by simp [hD i hi] at hb)
  have hset : held \ {b | ∃ i ∈ D, own' i = some b} = held := by
    ext b
    simp only [Set.mem_sdiff, Set.mem_ofPred_eq, and_iff_left_iff_imp]
    rintro - ⟨i, hi, hb⟩
    simp [hD i hi] at hb
  rwa [hset] at hr

variable [DecidableEq ι] {i : ι} {b : β}

/-- Take a resource and put it into an empty place. -/
theorem enter (h : Ledger own ∅ taken) (hi : own i = none) (hb : b ∉ taken) :
    Ledger (Function.update own i (some b)) ∅ (taken ∪ {b}) := by
  have htake : Ledger own (∅ ∪ {b}) (taken ∪ {b}) := h.take fun c hc => hc ▸ hb
  have hout : ∀ j ∉ ({i} : Set ι), Function.update own i (some b) j = own j :=
    fun j hj => Function.update_of_ne hj ..
  have hput := htake.replace {i} hout (fun j hj k hk _ _ _ => hj.trans hk.symm)
    (by
      rintro j rfl c hc
      rw [Function.update_self, Option.some.injEq] at hc
      exact Or.inr hc.symm)
  convert hput using 1
  ext c
  simp only [Set.mem_singleton_iff, exists_eq_left, Function.update_self, Option.some.injEq, hi,
    reduceCtorEq, Set.mem_union, Set.mem_sdiff, Set.mem_empty_iff_false, false_or, or_false,
    Set.mem_ofPred_eq, false_iff, not_and, not_not]
  exact Eq.symm

/-- Empty a place and give back what it owned. -/
theorem leave (h : Ledger own ∅ taken) (hi : own i = some b) :
    Ledger (Function.update own i none) ∅ (taken \ {b}) := by
  have hout : ∀ j ∉ ({i} : Set ι), Function.update own i none j = own j :=
    fun j hj => Function.update_of_ne hj ..
  have hclear := h.clear {i} hout (fun j hj => hj ▸ Function.update_self ..)
  have hheld : {b} ⊆ ∅ ∪ {c | ∃ j ∈ ({i} : Set ι), own j = some c} :=
    Set.singleton_subset_iff.mpr (Or.inr ⟨i, rfl, hi⟩)
  have hrelease := hclear.release hheld
  convert hrelease using 1
  ext c
  simp only [Set.mem_singleton_iff, exists_eq_left, hi, Option.some.injEq, Set.mem_union,
    Set.mem_sdiff, Set.mem_empty_iff_false, false_or, Set.mem_ofPred_eq, false_iff, not_and,
    not_not]
  exact Eq.symm

end Ledger
