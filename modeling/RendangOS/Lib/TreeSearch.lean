import Mathlib.Data.List.Nodup
import Mathlib.Data.Finset.Card
import Mathlib.Logic.Relation
import Mathlib.Tactic.Common

/-!
# Depth-first search with an explicit stack

A search takes a node from the stack, visits it and pushes its children, the last
one on top. It keeps no record of what it has visited. On a tree, where every
node but the root is a child once, it still visits every node exactly once.
-/

namespace TreeSearch

variable {α : Type*} {kids : α → List α} {root x y : α} {visited stack rest : List α}

/-- The nodes below `root`. -/
def Below (kids : α → List α) (root x : α) : Prop :=
  Relation.ReflTransGen (fun x y => y ∈ kids x) root x

/-- Every node below the root is a child of one node, once, and the root of none. -/
structure IsTree (kids : α → List α) (root : α) : Prop where
  root_free : ∀ x, Below kids root x → root ∉ kids x
  nodup : ∀ x, Below kids root x → (kids x).Nodup
  parent : ∀ x y z, Below kids root x → Below kids root y → z ∈ kids x → z ∈ kids y → x = y

/-- The stack after the nodes `new` have been pushed in order. -/
def push (new rest : List α) : List α := new.reverse ++ rest

theorem mem_push {new : List α} : y ∈ push new rest ↔ y ∈ new ∨ y ∈ rest := by
  rw [push, List.mem_append, List.mem_reverse]

theorem push_cons {new : List α} : push (x :: new) rest = push new (x :: rest) := by
  rw [push, push, List.reverse_cons, List.append_assoc]
  rfl

/-- A search on its way, with the nodes it has visited. -/
structure Search (kids : α → List α) (root : α) (visited stack : List α) : Prop where
  nodup : (visited ++ stack).Nodup
  below : ∀ x ∈ visited ++ stack, Below kids root x
  origin : ∀ x ∈ visited ++ stack, x = root ∨ ∃ y ∈ visited, x ∈ kids y
  closed : ∀ x ∈ visited, ∀ y ∈ kids x, y ∈ visited ++ stack
  root_mem : root ∈ visited ++ stack

namespace Search

theorem start : Search kids root [] [root] where
  nodup := List.nodup_singleton root
  below := by
    intro x hx
    rw [List.mem_singleton.mp hx]
    exact .refl
  origin := fun x hx => Or.inl (List.mem_singleton.mp hx)
  closed := fun x hx => absurd hx List.not_mem_nil
  root_mem := List.mem_singleton_self root

/-- The children of a node that is visited now have not been met before. -/
theorem fresh (ht : IsTree kids root) (h : Search kids root visited (x :: rest))
    (hy : y ∈ kids x) : y ∉ visited ++ x :: rest := by
  have hx := h.below x (List.mem_append_right _ List.mem_cons_self)
  intro hmem
  rcases h.origin y hmem with rfl | ⟨z, hz, hyz⟩
  · exact ht.root_free x hx hy
  · have hzx := ht.parent z x y (h.below z (List.mem_append_left _ hz)) hx hyz hy
    rw [hzx] at hz
    exact (List.nodup_append.mp h.nodup).2.2 x hz x List.mem_cons_self rfl

/-- A visit keeps the search on its way. -/
theorem visit (ht : IsTree kids root) (h : Search kids root visited (x :: rest)) :
    Search kids root (x :: visited) (push (kids x) rest) := by
  have hx := h.below x (List.mem_append_right _ List.mem_cons_self)
  have hmem : ∀ y, y ∈ (x :: visited) ++ push (kids x) rest ↔
      y ∈ visited ++ x :: rest ∨ y ∈ kids x := by
    intro y
    simp only [List.mem_append, List.mem_cons, mem_push]
    tauto
  refine ⟨?_, ?_, ?_, ?_, ?_⟩
  · have hperm : ((x :: visited) ++ push (kids x) rest).Perm
        (kids x ++ (visited ++ x :: rest)) := by
      have hkids : (push (kids x) rest).Perm (kids x ++ rest) :=
        (List.reverse_perm (kids x)).append_right rest
      calc ((x :: visited) ++ push (kids x) rest).Perm ((x :: visited) ++ (kids x ++ rest)) :=
            hkids.append_left _
        _ |>.Perm (kids x ++ ((x :: visited) ++ rest)) := by
            rw [← List.append_assoc, ← List.append_assoc]
            exact List.perm_append_comm.append_right rest
        _ |>.Perm (kids x ++ (visited ++ x :: rest)) :=
            List.perm_middle.symm.append_left _
    rw [hperm.nodup_iff]
    refine List.nodup_append.mpr ⟨ht.nodup x hx, h.nodup, ?_⟩
    rintro y hy z hz rfl
    exact h.fresh ht hy hz
  · intro y hy
    rcases (hmem y).mp hy with hold | hkid
    · exact h.below y hold
    · exact hx.tail hkid
  · intro y hy
    rcases (hmem y).mp hy with hold | hkid
    · rcases h.origin y hold with rfl | ⟨z, hz, hyz⟩
      · exact Or.inl rfl
      · exact Or.inr ⟨z, List.mem_cons_of_mem x hz, hyz⟩
    · exact Or.inr ⟨x, List.mem_cons_self, hkid⟩
  · intro y hy z hz
    rw [hmem]
    rcases List.mem_cons.mp hy with rfl | hold
    · exact Or.inr hz
    · exact Or.inl (h.closed y hold z hz)
  · exact (hmem root).mpr (Or.inl h.root_mem)

/-- When the stack is empty, every node has been visited, once. -/
theorem finished (h : Search kids root visited []) :
    visited.Nodup ∧ ∀ x, x ∈ visited ↔ Below kids root x := by
  have hnodup := h.nodup
  have hbelow := h.below
  have hclosed := h.closed
  have hroot := h.root_mem
  rw [List.append_nil] at hnodup hbelow hroot
  refine ⟨hnodup, fun x => ⟨hbelow x, ?_⟩⟩
  intro hx
  induction hx with
  | refl => exact hroot
  | tail _ hlast ih =>
      have hmem := hclosed _ ih _ hlast
      rwa [List.append_nil] at hmem

/-- A search of finitely many nodes makes at most as many visits. -/
theorem length_le {S : Finset α} (h : Search kids root visited stack)
    (hS : ∀ x, Below kids root x → x ∈ S) : visited.length + stack.length ≤ S.card := by
  classical
  rw [← List.length_append, ← List.toFinset_card_of_nodup h.nodup]
  apply Finset.card_le_card
  intro x hx
  exact hS x (h.below x (List.mem_toFinset.mp hx))

end Search

end TreeSearch
