import Mathlib.Data.List.Perm.Basic
import Mathlib.Tactic.Common

/-!
# Chains of variable-length records

A region is cut into records. A record occupies `len` units, of which it needs
`need` for itself; it carries an item or is empty. A new record is cut out of
the slack of the first record that has enough of it. A record is removed by
joining it to its predecessor, or by emptying it when it is the first. On the
multiset of items the two operations are insertion and removal of one item.
-/

structure Rec (α : Type*) where
  len : ℕ
  need : ℕ
  item : Option α

namespace RecordChain

variable {α : Type*}

/-- The items of the non-empty records, in order. -/
def items (rs : List (Rec α)) : List α := rs.filterMap Rec.item

@[simp] theorem items_nil : items ([] : List (Rec α)) = [] := rfl

theorem items_cons (r : Rec α) (rs : List (Rec α)) :
    items (r :: rs) = r.item.toList ++ items rs := by
  cases h : r.item <;> simp [items, h]

/-- The record `r` after it has been cut to what it needs, and the new record
in its slack. -/
def split (r : Rec α) (need : ℕ) (a : α) : List (Rec α) :=
  [⟨r.need, r.need, r.item⟩, ⟨r.len - r.need, need, some a⟩]

def insert (need : ℕ) (a : α) : List (Rec α) → Option (List (Rec α))
  | [] => none
  | r :: rs =>
      if r.need + need ≤ r.len then some (split r need a ++ rs)
      else (insert need a rs).map (r :: ·)

/-- Removal behind a record `prev` that stays. -/
def removeAfter (p : α → Bool) (prev : Rec α) : List (Rec α) → Option (List (Rec α))
  | [] => none
  | r :: rs =>
      if r.item.any p then some ({ prev with len := prev.len + r.len } :: rs)
      else (removeAfter p r rs).map (prev :: ·)

def remove (p : α → Bool) : List (Rec α) → Option (List (Rec α))
  | [] => none
  | r :: rs =>
      if r.item.any p then some ({ r with item := none } :: rs) else removeAfter p r rs

/-! ## Insertion -/

theorem insert_eq_none {need : ℕ} {a : α} {rs : List (Rec α)} :
    insert need a rs = none ↔ ∀ r ∈ rs, r.len < r.need + need := by
  induction rs with
  | nil => simp [insert]
  | cons r rs ih =>
      by_cases h : r.need + need ≤ r.len
      · simp only [insert, if_pos h, reduceCtorEq, List.forall_mem_cons, false_iff]
        exact fun hr => absurd hr.1 (by omega)
      · simp only [insert, if_neg h, Option.map_eq_none_iff, ih, List.forall_mem_cons]
        exact ⟨fun hr => ⟨by omega, hr⟩, fun hr => hr.2⟩

theorem items_insert {need : ℕ} {a : α} {rs : List (Rec α)} :
    ∀ {rs'}, insert need a rs = some rs' → (items rs').Perm (a :: items rs) := by
  induction rs with
  | nil => simp [insert]
  | cons r rs ih =>
      intro rs' h
      by_cases hr : r.need + need ≤ r.len
      · simp only [insert, if_pos hr, Option.some.injEq] at h
        subst h
        simp [split, items_cons]
      · simp only [insert, if_neg hr, Option.map_eq_some_iff] at h
        obtain ⟨rs'', hins, rfl⟩ := h
        rw [items_cons, items_cons]
        exact ((ih hins).append_left _).trans List.perm_middle

/-! ## Removal -/

theorem removeAfter_spec {p : α → Bool} {rs : List (Rec α)} :
    ∀ (prev : Rec α), (∀ a ∈ prev.item, ¬ p a) →
    match removeAfter p prev rs with
    | none => ∀ a ∈ items (prev :: rs), ¬ p a
    | some rs' => ∃ a, (items (prev :: rs)).find? p = some a ∧
        (items (prev :: rs)).Perm (a :: items rs') := by
  induction rs with
  | nil =>
      intro prev hprev
      simpa [removeAfter, items_cons] using hprev
  | cons r rs ih =>
      intro prev hprev
      have hskip : (prev.item.toList).find? p = none := by
        simpa [List.find?_eq_none] using hprev
      by_cases hr : r.item.any p
      · simp only [removeAfter, if_pos hr]
        cases ha : r.item with
        | none => simp [ha] at hr
        | some a =>
            have hpa : p a = true := by simpa [ha] using hr
            refine ⟨a, ?_, ?_⟩
            · simp [items_cons, List.find?_append, hskip, ha, hpa]
            · simp [items_cons, ha]
      · have hnext : ∀ a ∈ r.item, ¬ p a := by
          intro a ha hpa
          exact hr (by simp [Option.mem_def.mp ha, hpa])
        have hrest := ih r hnext
        simp only [removeAfter, if_neg hr]
        cases hra : removeAfter p r rs with
        | none =>
            rw [hra] at hrest
            intro a ha
            rw [items_cons, List.mem_append] at ha
            rcases ha with ha | ha
            · exact hprev a (by simpa using ha)
            · exact hrest a ha
        | some rs' =>
            rw [hra] at hrest
            obtain ⟨a, hfind, hperm⟩ := hrest
            refine ⟨a, ?_, ?_⟩
            · rw [items_cons, List.find?_append, hskip]
              simpa using hfind
            · rw [items_cons prev (r :: rs), items_cons prev rs']
              exact (hperm.append_left _).trans List.perm_middle

/-- Removal finds the first item that satisfies `p`, and removes just that. -/
theorem remove_spec {p : α → Bool} (rs : List (Rec α)) :
    match remove p rs with
    | none => ∀ a ∈ items rs, ¬ p a
    | some rs' => ∃ a, (items rs).find? p = some a ∧ (items rs).Perm (a :: items rs') := by
  cases rs with
  | nil => simp [remove]
  | cons r rs =>
      by_cases hr : r.item.any p
      · simp only [remove, if_pos hr]
        cases ha : r.item with
        | none => simp [ha] at hr
        | some a =>
            have hpa : p a = true := by simpa [ha] using hr
            exact ⟨a, by simp [items_cons, ha, hpa], by simp [items_cons, ha]⟩
      · simp only [remove, if_neg hr]
        refine removeAfter_spec r fun a ha hpa => hr ?_
        simp [Option.mem_def.mp ha, hpa]

/-! ## Room after a removal -/

/-- Some record has slack for another that needs `k`. -/
def Room (k : ℕ) (rs : List (Rec α)) : Prop := ∃ r ∈ rs, r.need + k ≤ r.len

/-- A record joined to its predecessor leaves slack as long as itself. -/
theorem room_removeAfter {p : α → Bool} {k : ℕ} {rs : List (Rec α)} :
    ∀ {prev rs'}, (∀ r ∈ prev :: rs, r.need ≤ r.len) → (∀ r ∈ rs, r.item.any p = true → k ≤ r.len) →
      removeAfter p prev rs = some rs' → Room k rs' := by
  induction rs with
  | nil =>
      intro prev rs' _ _ h
      cases h
  | cons r rs ih =>
      intro prev rs' hfit hlen h
      rw [removeAfter] at h
      by_cases hr : r.item.any p = true
      · rw [if_pos hr, Option.some.injEq] at h
        subst h
        have hprev := hfit prev List.mem_cons_self
        have hk := hlen r List.mem_cons_self hr
        refine ⟨_, List.mem_cons_self, ?_⟩
        change prev.need + k ≤ prev.len + r.len
        omega
      · rw [if_neg hr, Option.map_eq_some_iff] at h
        obtain ⟨rs'', hrest, rfl⟩ := h
        obtain ⟨r', hr', hroom⟩ := ih (fun r hr => hfit r (List.mem_cons_of_mem _ hr))
          (fun r hr => hlen r (List.mem_cons_of_mem _ hr)) hrest
        exact ⟨r', List.mem_cons_of_mem _ hr', hroom⟩

/-- After a removal there is room for the item again, unless its record was the
first: that one is kept as it is, and only emptied. -/
theorem room_remove {p : α → Bool} {k : ℕ} {rs rs' : List (Rec α)}
    (hfit : ∀ r ∈ rs, r.need ≤ r.len) (hlen : ∀ r ∈ rs, r.item.any p = true → k ≤ r.len)
    (h : remove p rs = some rs') :
    Room k rs' ↔ (∀ r ∈ rs.head?, r.item.any p = false) ∨ Room k rs := by
  cases rs with
  | nil => cases h
  | cons r rs =>
      rw [remove] at h
      rw [List.head?_cons]
      by_cases hr : r.item.any p = true
      · rw [if_pos hr, Option.some.injEq] at h
        subst h
        simp [Room, hr]
      · rw [if_neg hr] at h
        have hroom := room_removeAfter hfit (fun r hr => hlen r (List.mem_cons_of_mem _ hr)) h
        exact ⟨fun _ => Or.inl (by simpa using hr), fun _ => hroom⟩

end RecordChain
