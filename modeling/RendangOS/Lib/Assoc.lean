import Mathlib.Data.List.Nodup
import Mathlib.Data.List.Perm.Basic
import Mathlib.Tactic.Common

/-!
# Keyed lists as finite maps

A list of items with pairwise different keys is a finite map, whatever its
order: the first item with a key is the only one. Adding an item with a new
key, anywhere, extends the map at that key; dropping an item removes its key.
-/

namespace Assoc

variable {α κ : Type*} [DecidableEq κ] {key : α → κ} {es es' : List α} {a : α} {k : κ}

/-- The first item with key `k`. -/
def lookup (key : α → κ) (es : List α) (k : κ) : Option α := es.find? fun a => decide (key a = k)

theorem lookup_eq_none : lookup key es k = none ↔ k ∉ es.map key := by
  simp [lookup, List.find?_eq_none]

theorem mem_of_lookup (h : lookup key es k = some a) : a ∈ es ∧ key a = k :=
  ⟨List.mem_of_find?_eq_some h, by simpa using List.find?_some h⟩

theorem lookup_append : lookup key (es ++ es') k = (lookup key es k).or (lookup key es' k) :=
  List.find?_append

theorem lookup_of_mem (hnd : (es.map key).Nodup) (ha : a ∈ es) :
    lookup key es (key a) = some a := by
  cases h : lookup key es (key a) with
  | none => exact absurd (List.mem_map_of_mem ha) (lookup_eq_none.mp h)
  | some b =>
      obtain ⟨hb, hkey⟩ := mem_of_lookup h
      rw [List.inj_on_of_nodup_map hnd hb ha hkey]

theorem lookup_eq_some (hnd : (es.map key).Nodup) :
    lookup key es k = some a ↔ a ∈ es ∧ key a = k :=
  ⟨mem_of_lookup, fun ⟨ha, hk⟩ => hk ▸ lookup_of_mem hnd ha⟩

theorem lookup_perm (hp : es'.Perm es) (hnd : (es.map key).Nodup) :
    lookup key es' k = lookup key es k := by
  have hnd' : (es'.map key).Nodup := (hp.map key).nodup_iff.mpr hnd
  refine Option.ext fun b => ?_
  rw [lookup_eq_some hnd', lookup_eq_some hnd, hp.mem_iff]

/-- Adding an item with a new key. -/
theorem lookup_insert (hp : es'.Perm (a :: es)) (hnd : (es.map key).Nodup)
    (hnew : key a ∉ es.map key) :
    lookup key es' k = if k = key a then some a else lookup key es k := by
  have hnd' : ((a :: es).map key).Nodup := List.nodup_cons.mpr ⟨hnew, hnd⟩
  rw [lookup_perm hp hnd']
  by_cases hk : k = key a
  · rw [if_pos hk, hk]
    exact lookup_of_mem hnd' List.mem_cons_self
  · rw [if_neg hk, lookup, List.find?_cons_of_neg (by simpa using Ne.symm hk)]
    rfl

/-- Dropping an item. -/
theorem lookup_erase (hp : es.Perm (a :: es')) (hnd : (es.map key).Nodup) :
    lookup key es' k = if k = key a then none else lookup key es k := by
  have hnd' : ((a :: es').map key).Nodup := (hp.map key).nodup_iff.mp hnd
  obtain ⟨hnew, hnd''⟩ := List.nodup_cons.mp hnd'
  rw [lookup_insert hp hnd'' hnew]
  by_cases hk : k = key a
  · rw [if_pos hk, lookup_eq_none, hk]
    exact hnew
  · rw [if_neg hk, if_neg hk]

end Assoc
