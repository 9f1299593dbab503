import Mathlib.Data.List.Basic
import Mathlib.Data.List.Induction
import Mathlib.Data.Option.Basic
import Mathlib.Logic.Function.Basic
import Mathlib.Tactic.Common

/-!
# Stores of named nodes

A store maps identifiers to nodes, and a node maps names to identifiers. Some of
the names, the ones `P` picks out, make up the tree: each leads to a node that
exists, no two of them lead to the same one, and none leads to the root. The
other names may lead anywhere.

An edit adds a node, with or without a name, or takes a name away together with
the node it leads to. A path all of whose links are left alone leads to the same
node before and after any run of edits.
-/

namespace NodeStore

/-- A node: where its names lead, and what it holds. -/
structure Node (Id Name Data : Type*) where
  entries : Name → Option Id
  data : Data

variable {Id Name Data : Type*}

/-- The node that `name` means at `p`. -/
def link (A : Id → Option (Node Id Name Data)) (p : Id) (name : Name) : Option Id :=
  (A p).bind fun x => x.entries name

def resolve (A : Id → Option (Node Id Name Data)) : Id → List Name → Option Id
  | p, [] => some p
  | p, name :: path => (link A p name).bind fun t => resolve A t path

/-- The links that a path takes. -/
def trail (A : Id → Option (Node Id Name Data)) : Id → List Name → List (Id × Name)
  | _, [] => []
  | p, name :: path => (p, name) :: ((link A p name).map fun t => trail A t path).getD []

structure Linked (P : Name → Prop) (root : Id) (A : Id → Option (Node Id Name Data)) : Prop where
  closed : ∀ p name t, P name → link A p name = some t → A t ≠ none
  once : ∀ p p' name name' t, P name → P name' → link A p name = some t →
    link A p' name' = some t → p = p' ∧ name = name'
  present : A root ≠ none
  unnamed : ∀ p name, P name → link A p name ≠ some root

theorem resolve_append (A : Id → Option (Node Id Name Data)) (path path' : List Name) (p : Id) :
    resolve A p (path ++ path') = (resolve A p path).bind fun t => resolve A t path' := by
  induction path generalizing p with
  | nil => rfl
  | cons w path ih =>
      rw [List.cons_append, resolve, resolve, Option.bind_assoc]
      exact congrArg _ (funext ih)

variable [DecidableEq Id] [DecidableEq Name]

/-- One edit; `D` holds of what a node that may have names in it holds. The index
is the link that the edit takes away. -/
inductive Edit (P : Name → Prop) (D : Data → Prop) (A : Id → Option (Node Id Name Data)) :
    Option (Id × Name) → (Id → Option (Node Id Name Data)) → Prop
  | keep : Edit P D A none A
  | orphan {n : Id} {x : Node Id Name Data} : A n = none →
      (∀ name, P name → x.entries name = none) → Edit P D A none (Function.update A n (some x))
  | create {n p : Id} {name : Name} {x y z : Node Id Name Data} : A n = none →
      (∀ name, P name → x.entries name = none) → A p = some y → D y.data → P name →
      y.entries name = none → z.entries = Function.update y.entries name (some n) → D z.data →
      Edit P D A none (Function.update (Function.update A n (some x)) p (some z))
  | remove {p t : Id} {name : Name} {y z : Node Id Name Data} : A p = some y → D y.data →
      P name → y.entries name = some t → z.entries = Function.update y.entries name none →
      D z.data → Edit P D A (some (p, name)) (Function.update (Function.update A p (some z)) t none)

/-- A run of edits, with the links they take away. -/
inductive Edits (P : Name → Prop) (D : Data → Prop) :
    (Id → Option (Node Id Name Data)) → List (Option (Id × Name)) →
      (Id → Option (Node Id Name Data)) → Prop
  | nil (A : Id → Option (Node Id Name Data)) : Edits P D A [] A
  | cons {A A' A'' : Id → Option (Node Id Name Data)} {gone : Option (Id × Name)}
      {gones : List (Option (Id × Name))} :
      Edit P D A gone A' → Edits P D A' gones A'' → Edits P D A (gone :: gones) A''

variable {P : Name → Prop} {D : Data → Prop} {root n p q t a : Id} {name w : Name}
  {A A' : Id → Option (Node Id Name Data)} {gone : Option (Id × Name)}
  {x y z : Node Id Name Data}

omit [DecidableEq Id] [DecidableEq Name] in
theorem link_eq_some : link A p w = some t ↔ ∃ x, A p = some x ∧ x.entries w = some t :=
  Option.bind_eq_some_iff

omit [DecidableEq Id] [DecidableEq Name] in
theorem link_absent (h : A p = none) (w : Name) : link A p w = none := by
  simp [link, h]

omit [DecidableEq Name] in
@[simp] theorem link_update (A : Id → Option (Node Id Name Data)) (p q : Id)
    (o : Option (Node Id Name Data)) (w : Name) :
    link (Function.update A p o) q w =
      if q = p then o.bind fun x => x.entries w else link A q w := by
  by_cases h : q = p <;> simp [link, h]

/-! ## The tree after one edit -/

omit [DecidableEq Name] in
theorem link_orphan (hn : A n = none) (hx : ∀ name, P name → x.entries name = none) (hw : P w)
    (q : Id) : link (Function.update A n (some x)) q w = link A q w := by
  by_cases hq : q = n
  · subst hq
    simp [hx w hw, link_absent hn]
  · simp [hq]

theorem link_create (hn : A n = none) (hx : ∀ name, P name → x.entries name = none)
    (hp : A p = some y) (hz : z.entries = Function.update y.entries name (some n)) (hw : P w)
    (q : Id) :
    link (Function.update (Function.update A n (some x)) p (some z)) q w =
      if q = p ∧ w = name then some n else link A q w := by
  by_cases hq : q = p
  · subst hq
    by_cases hname : w = name <;> simp [hname, hz, link, hp]
  · rw [link_update, if_neg hq, link_orphan hn hx hw, if_neg (fun h => hq h.1)]

theorem link_remove (hp : A p = some y) (hz : z.entries = Function.update y.entries name none)
    (q : Id) (w : Name) :
    link (Function.update (Function.update A p (some z)) t none) q w =
      if q = t ∨ q = p ∧ w = name then none else link A q w := by
  by_cases hqt : q = t
  · simp [hqt]
  · by_cases hq : q = p
    · subst hq
      by_cases hname : w = name <;> simp [hname, hqt, hz, link, hp]
    · simp [hqt, hq]

omit [DecidableEq Name] in
theorem Linked.orphan (h : Linked P root A) (hn : A n = none)
    (hx : ∀ name, P name → x.entries name = none) :
    Linked P root (Function.update A n (some x)) where
  closed := fun q w u hw hl => by
    rw [link_orphan hn hx hw] at hl
    by_cases hu : u = n
    · simp [hu]
    · rw [Function.update_of_ne hu]
      exact h.closed q w u hw hl
  once := fun q q' w w' u hw hw' hl hl' => by
    rw [link_orphan hn hx hw] at hl
    rw [link_orphan hn hx hw'] at hl'
    exact h.once q q' w w' u hw hw' hl hl'
  present := by
    by_cases hr : root = n
    · simp [hr]
    · rw [Function.update_of_ne hr]
      exact h.present
  unnamed := fun q w hw => by
    rw [link_orphan hn hx hw]
    exact h.unnamed q w hw

theorem Linked.create (h : Linked P root A) (hn : A n = none)
    (hx : ∀ name, P name → x.entries name = none) (hp : A p = some y)
    (hz : z.entries = Function.update y.entries name (some n)) :
    Linked P root (Function.update (Function.update A n (some x)) p (some z)) where
  closed := fun q w u hw hl => by
    rw [link_create hn hx hp hz hw] at hl
    by_cases hup : u = p
    · simp [hup]
    · rw [Function.update_of_ne hup]
      by_cases hun : u = n
      · simp [hun]
      · rw [Function.update_of_ne hun]
        split at hl
        · exact absurd (Option.some.inj hl).symm hun
        · exact h.closed q w u hw hl
  once := fun q q' w w' u hw hw' hl hl' => by
    rw [link_create hn hx hp hz hw] at hl
    rw [link_create hn hx hp hz hw'] at hl'
    -- an old link does not lead to the new node
    have hold : ∀ r v, P v → link A r v ≠ some n := fun r v hv hlink =>
      h.closed r v n hv hlink hn
    split at hl
    · next hnew =>
      split at hl'
      · next hnew' => exact ⟨hnew.1.trans hnew'.1.symm, hnew.2.trans hnew'.2.symm⟩
      · exact absurd (hl'.trans hl.symm) (hold q' w' hw')
    · split at hl'
      · exact absurd (hl.trans hl'.symm) (hold q w hw)
      · exact h.once q q' w w' u hw hw' hl hl'
  present := by
    by_cases hrp : root = p
    · simp [hrp]
    · by_cases hrn : root = n
      · exact absurd (hrn ▸ hn) h.present
      · simp only [Function.update_of_ne hrp, Function.update_of_ne hrn]
        exact h.present
  unnamed := fun q w hw hl => by
    rw [link_create hn hx hp hz hw] at hl
    split at hl
    · exact h.present (Option.some.inj hl ▸ hn)
    · exact h.unnamed q w hw hl

theorem Linked.remove (h : Linked P root A) (hp : A p = some y) (hname : P name)
    (ht : y.entries name = some t)
    (hz : z.entries = Function.update y.entries name none) :
    Linked P root (Function.update (Function.update A p (some z)) t none) := by
  have hlink : link A p name = some t := link_eq_some.mpr ⟨y, hp, ht⟩
  -- what remains was there before, and is not the link taken away
  have hsub : ∀ q w u, link (Function.update (Function.update A p (some z)) t none) q w = some u →
      link A q w = some u ∧ ¬ (q = p ∧ w = name) := by
    intro q w u hl
    rw [link_remove hp hz] at hl
    split at hl
    · cases hl
    · next hno => exact ⟨hl, fun hq => hno (Or.inr hq)⟩
  refine ⟨fun q w u hw hl => ?_, fun q q' w w' u hw hw' hl hl' => ?_, ?_, fun q w hw hl => ?_⟩
  · obtain ⟨hold, hother⟩ := hsub q w u hl
    by_cases hut : u = t
    · subst hut
      exact absurd (h.once q p w name u hw hname hold hlink) hother
    · rw [Function.update_of_ne hut]
      by_cases hup : u = p
      · simp [hup]
      · rw [Function.update_of_ne hup]
        exact h.closed q w u hw hold
  · exact h.once q q' w w' u hw hw' (hsub q w u hl).1 (hsub q' w' u hl').1
  · have hrt : root ≠ t := fun hrt => h.unnamed p name hname (hrt ▸ hlink)
    rw [Function.update_of_ne hrt]
    by_cases hrp : root = p
    · simp [hrp]
    · rw [Function.update_of_ne hrp]
      exact h.present
  · exact h.unnamed q w hw (hsub q w root hl).1

theorem Edit.linked (h : Edit P D A gone A') (hA : Linked P root A) : Linked P root A' := by
  cases h with
  | keep => exact hA
  | orphan hn hx => exact hA.orphan hn hx
  | create hn hx hp _ _ _ hz _ => exact hA.create hn hx hp hz
  | remove hp _ hname ht hz _ => exact hA.remove hp hname ht hz

/-! ## What one edit leaves alone -/

/-- The node `a` is the root, or the tree leads to it by a link that stays. -/
def Stays (P : Name → Prop) (root : Id) (A : Id → Option (Node Id Name Data))
    (gone : Option (Id × Name)) (a : Id) : Prop :=
  a = root ∨ ∃ q w, P w ∧ link A q w = some a ∧ gone ≠ some (q, w)

omit [DecidableEq Id] [DecidableEq Name] in
/-- The node behind the link that goes is not one that stays. -/
theorem Stays.ne (hs : Stays P root A gone a) (hA : Linked P root A) (hgone : gone = some (p, name))
    (hname : P name) (hl : link A p name = some t) : a ≠ t := by
  rintro rfl
  rcases hs with rfl | ⟨q, w, hw, hq, hne⟩
  · exact hA.unnamed p name hname hl
  · obtain ⟨rfl, rfl⟩ := hA.once q p w name a hw hname hq hl
    exact hne hgone

theorem Edit.link_eq (h : Edit P D A gone A') (hA : Linked P root A) (hs : Stays P root A gone q)
    (hw : P w) (hl : link A q w = some t) (hne : gone ≠ some (q, w)) : link A' q w = some t := by
  cases h with
  | keep => exact hl
  | orphan hn hx => rw [link_orphan hn hx hw, hl]
  | create hn hx hp _ _ hfree hz _ =>
      rw [link_create hn hx hp hz hw, if_neg, hl]
      rintro ⟨rfl, rfl⟩
      obtain ⟨y, hy, ht⟩ := link_eq_some.mp hl
      rw [hp] at hy
      cases hy
      rw [hfree] at ht
      cases ht
  | @remove p t' name y z hp _ hname ht hz _ =>
      have hqt := hs.ne hA rfl hname (link_eq_some.mpr ⟨y, hp, ht⟩)
      rw [link_remove hp hz, if_neg, hl]
      rintro (rfl | ⟨rfl, rfl⟩)
      · exact hqt rfl
      · exact hne rfl

/-- A node without names in it keeps what it holds. -/
theorem Edit.node_eq (h : Edit P D A gone A') (hA : Linked P root A) (hs : Stays P root A gone a)
    (ha : A a = some x) (hx : ¬ D x.data) : A' a = some x := by
  cases h with
  | keep => exact ha
  | orphan hn _ =>
      rw [Function.update_of_ne (by rintro rfl; rw [hn] at ha; cases ha), ha]
  | create hn _ hp hy =>
      rw [Function.update_of_ne (by rintro rfl; rw [hp] at ha; cases ha; exact hx hy),
        Function.update_of_ne (by rintro rfl; rw [hn] at ha; cases ha), ha]
  | @remove p t name y z hp hy hname ht _ _ =>
      have hat := hs.ne hA rfl hname (link_eq_some.mpr ⟨y, hp, ht⟩)
      rw [Function.update_of_ne hat,
        Function.update_of_ne (by rintro rfl; rw [hp] at ha; cases ha; exact hx hy), ha]

/-- A node that may have names in it stays one. -/
theorem Edit.node_dir (h : Edit P D A gone A') (hA : Linked P root A) (hs : Stays P root A gone a)
    (ha : A a = some x) (hx : D x.data) : ∃ x', A' a = some x' ∧ D x'.data := by
  cases h with
  | keep => exact ⟨x, ha, hx⟩
  | orphan hn _ =>
      refine ⟨x, ?_, hx⟩
      rw [Function.update_of_ne (by rintro rfl; rw [hn] at ha; cases ha), ha]
  | @create n p name x₀ y z hn _ hp _ _ _ _ hz =>
      by_cases hap : a = p
      · exact ⟨z, by rw [hap, Function.update_self], hz⟩
      · refine ⟨x, ?_, hx⟩
        rw [Function.update_of_ne hap,
          Function.update_of_ne (by rintro rfl; rw [hn] at ha; cases ha), ha]
  | @remove p t name y z hp _ hname ht _ hz =>
      have hat := hs.ne hA rfl hname (link_eq_some.mpr ⟨y, hp, ht⟩)
      rw [Function.update_of_ne hat]
      by_cases hap : a = p
      · exact ⟨z, by rw [hap, Function.update_self], hz⟩
      · exact ⟨x, by rw [Function.update_of_ne hap, ha], hx⟩

/-- A path whose links stay leads to the same node by the same links. -/
theorem Edit.resolve_eq (h : Edit P D A gone A') (hA : Linked P root A) :
    ∀ {path : List Name} {p a : Id}, Stays P root A gone p → (∀ w ∈ path, P w) →
      resolve A p path = some a → (∀ l ∈ trail A p path, gone ≠ some l) →
      resolve A' p path = some a ∧ trail A' p path = trail A p path ∧ Stays P root A gone a
  | [], p, a, hs, _, hpath, _ => by
      cases hpath
      exact ⟨rfl, rfl, hs⟩
  | w :: path, p, a, hs, hP, hpath, hkeep => by
      obtain ⟨t, hl, hrest⟩ := Option.bind_eq_some_iff.mp hpath
      have hw := hP w List.mem_cons_self
      simp only [trail, hl, Option.map_some, Option.getD_some, List.forall_mem_cons] at hkeep
      have hl' := h.link_eq hA hs hw hl hkeep.1
      obtain ⟨hres, htrail, hstay⟩ := Edit.resolve_eq h hA (Or.inr ⟨p, w, hw, hl, hkeep.1⟩)
        (fun v hv => hP v (List.mem_cons_of_mem w hv)) hrest hkeep.2
      exact ⟨by simp [resolve, hl', hres], by simp [trail, hl, hl', htrail], hstay⟩

/-! ## The path to a node -/

omit [DecidableEq Id] [DecidableEq Name] in
theorem resolve_concat (A : Id → Option (Node Id Name Data)) (path : List Name) (p : Id)
    (w : Name) : resolve A p (path ++ [w]) = (resolve A p path).bind fun t => link A t w := by
  simp [resolve_append, resolve]

omit [DecidableEq Id] [DecidableEq Name] in
theorem mem_trail {path : List Name} {l : Id × Name} (h : l ∈ trail A p path) :
    ∃ before after, path = before ++ l.2 :: after ∧ resolve A p before = some l.1 := by
  induction path generalizing p with
  | nil => cases h
  | cons w path ih =>
      rcases List.mem_cons.mp h with rfl | hrest
      · exact ⟨[], path, rfl, rfl⟩
      · cases hl : link A p w with
        | none => simp [hl] at hrest
        | some t =>
            simp only [hl, Option.map_some, Option.getD_some] at hrest
            obtain ⟨before, after, rfl, hbefore⟩ := ih hrest
            exact ⟨w :: before, after, rfl, by simp [resolve, hl, hbefore]⟩

omit [DecidableEq Id] [DecidableEq Name] in
/-- At most one path of names of the tree leads to a node. -/
theorem Linked.path_unique (hA : Linked P root A) {path path' : List Name}
    (hP : ∀ w ∈ path, P w) (hP' : ∀ w ∈ path', P w) (h : resolve A root path = some a)
    (h' : resolve A root path' = some a) : path = path' := by
  -- the last names are the same, and so are the nodes that they are in
  induction path using List.reverseRecOn generalizing path' a with
  | nil =>
      obtain rfl : root = a := Option.some.inj h
      rcases List.eq_nil_or_concat' path' with rfl | ⟨front', w', rfl⟩
      · rfl
      · rw [resolve_concat, Option.bind_eq_some_iff] at h'
        obtain ⟨t, -, hl⟩ := h'
        exact absurd hl (hA.unnamed t w' (hP' w' (by simp)))
  | append_singleton front w ih =>
      rw [resolve_concat, Option.bind_eq_some_iff] at h
      obtain ⟨t, hfront, hl⟩ := h
      rcases List.eq_nil_or_concat' path' with rfl | ⟨front', w', rfl⟩
      · obtain rfl : root = a := Option.some.inj h'
        exact absurd hl (hA.unnamed t w (hP w (by simp)))
      · rw [resolve_concat, Option.bind_eq_some_iff] at h'
        obtain ⟨t', hfront', hl'⟩ := h'
        obtain ⟨rfl, rfl⟩ := hA.once t t' w w' a (hP w (by simp)) (hP' w' (by simp)) hl hl'
        rw [ih (fun v hv => hP v (by simp [hv])) (fun v hv => hP' v (by simp [hv])) hfront
          hfront']

omit [DecidableEq Id] [DecidableEq Name] in
/-- The path to a node does not go on below it. -/
theorem Linked.not_mem_trail (hA : Linked P root A) {path : List Name} (hP : ∀ w ∈ path, P w)
    (h : resolve A root path = some p) (w : Name) : (p, w) ∉ trail A root path := by
  intro hmem
  obtain ⟨before, after, hpath, hbefore⟩ := mem_trail hmem
  have heq := hA.path_unique (fun v hv => hP v (hpath ▸ List.mem_append_left _ hv)) hP hbefore h
  rw [heq] at hpath
  exact absurd (congrArg List.length hpath) (by simp)

omit [DecidableEq Id] [DecidableEq Name] in
/-- A link on a path leads to its end, or to a node with names in it. -/
theorem link_of_mem_trail {path : List Name} (h : resolve A p path = some a) {l : Id × Name}
    (hl : l ∈ trail A p path) :
    ∃ t, link A l.1 l.2 = some t ∧ (t = a ∨ ∃ w u, link A t w = some u) := by
  obtain ⟨before, after, rfl, hbefore⟩ := mem_trail hl
  rw [resolve_append, hbefore, Option.bind_some, resolve, Option.bind_eq_some_iff] at h
  obtain ⟨t, ht, hafter⟩ := h
  refine ⟨t, ht, ?_⟩
  cases after with
  | nil => exact Or.inl (Option.some.inj hafter)
  | cons w after =>
      rw [resolve, Option.bind_eq_some_iff] at hafter
      obtain ⟨u, hu, -⟩ := hafter
      exact Or.inr ⟨w, u, hu⟩

/-! ## Runs -/

theorem Edits.linked {gones : List (Option (Id × Name))} (h : Edits P D A gones A')
    (hA : Linked P root A) : Linked P root A' := by
  induction h with
  | nil => exact hA
  | cons hedit _ ih => exact ih (hedit.linked hA)

/-- A path from the root that no edit of a run cuts leads to the same node
afterwards; a node without names in it still holds the same, and one that may have
names stays one. -/
theorem Edits.persists {gones : List (Option (Id × Name))} (h : Edits P D A gones A')
    (hA : Linked P root A) {path : List Name} (hP : ∀ w ∈ path, P w)
    (hpath : resolve A root path = some a) (hkeep : ∀ l ∈ trail A root path, some l ∉ gones) :
    resolve A' root path = some a ∧ (∀ x, A a = some x → ¬ D x.data → A' a = some x) ∧
      ((∃ x, A a = some x ∧ D x.data) → ∃ x, A' a = some x ∧ D x.data) := by
  induction h with
  | nil => exact ⟨hpath, fun _ ha _ => ha, id⟩
  | cons hedit _ ih =>
      obtain ⟨hres, htrail, hstay⟩ := hedit.resolve_eq hA (Or.inl rfl) hP hpath
        fun l hl hgone => hkeep l hl (hgone ▸ List.mem_cons_self)
      obtain ⟨hend, hnode, hdir⟩ := ih (hedit.linked hA) hres fun l hl hmem =>
        hkeep l (htrail ▸ hl) (List.mem_cons_of_mem _ hmem)
      refine ⟨hend, fun x ha hx => hnode x (hedit.node_eq hA hstay ha hx) hx, ?_⟩
      rintro ⟨x, ha, hx⟩
      exact hdir (hedit.node_dir hA hstay ha hx)

end NodeStore
