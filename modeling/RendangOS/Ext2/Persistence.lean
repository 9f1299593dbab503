import RendangOS.Ext2.StoreRefinement

/-!
# Files persist

A path leads to the same file, with the same size and the same bytes, until a
`delete` succeeds on one of the names along it. The argument is about the store:
every step of it is an edit, and a run of edits keeps the paths it does not cut.
-/

namespace RendangOS.Ext2

open Image RecordChain Assoc NodeStore

variable {env : Env} {s s' : Fs} {A A' : Store} {r : Request} {code : ℤ} {p : ℕ}
  {as : List Action} {name : EntryName}

/-- The names of the tree. -/
abbrev TreeName : EntryName → Prop := EntryName.Proper

/-- A node that may have names in it. -/
def NodeData.IsDir (d : NodeData) : Prop := d.is_dir = true

/-- The name that an action takes away. -/
def Action.gone : Action → Option (ℕ × EntryName)
  | .delete r 0 => some (r.parent, r.name)
  | _ => none

theorem Action.gone_eq_some {a : Action} {l : ℕ × EntryName} (h : a.gone = some l) :
    ∃ r, a = .delete r 0 ∧ l = (r.parent, r.name) := by
  unfold Action.gone at h
  split at h
  · exact ⟨_, rfl, (Option.some.inj h).symm⟩
  · cases h

theorem newNode_entries (r : Request) (n free : ℕ) (hname : name.Proper) :
    (newNode r n free).entries name = none := by
  unfold newNode
  dsimp only
  split
  · split
    · rfl
    · simp [dotNames, hname.1, hname.2]
  · rfl

namespace Store

theorem Write.edit (h : A.Write r code A') (hp : A.IsDir r.parent) (hname : r.name.Proper) :
    Edit TreeName NodeData.IsDir A.node none A'.node := by
  obtain ⟨y, hy, hd⟩ := hp
  cases h with
  | taken => exact .keep
  | noInode => exact .keep
  | @orphan _ n _ _ hn _ => exact .orphan hn.unused fun w hw => newNode_entries r n A.free hw
  | @named y' n hy' hfree hn =>
      obtain rfl : y = y' := Option.some.inj (hy.symm.trans hy')
      exact .create hn.unused (fun w hw => newNode_entries r n A.free hw) hy hd hname hfree rfl hd
  | @grown y' n hy' hfree hn _ _ =>
      obtain rfl : y = y' := Option.some.inj (hy.symm.trans hy')
      have hgrown : (y.grown r.name n).data.IsDir := by
        rw [NodeData.IsDir, FsNode.grown_is_dir]
        exact hd
      exact .create hn.unused (fun w hw => newNode_entries r n A.free hw) hy hd hname hfree rfl
        hgrown

theorem Delete.edit (h : A.Delete r code A') (hp : A.IsDir r.parent) (hname : r.name.Proper) :
    Edit TreeName NodeData.IsDir A.node (Action.delete r code).gone A'.node := by
  obtain ⟨y, hy, hd⟩ := hp
  cases h with
  | nameless => exact .keep
  | absent => exact .keep
  | kind => exact .keep
  | full => exact .keep
  | @removed y' x t _ hy' ht _ _ _ =>
      obtain rfl : y = y' := Option.some.inj (hy.symm.trans hy')
      exact .remove hy hd hname ht rfl hd

end Store

theorem storeSystem_edits {A A' : storeSystem.State} (h : storeSystem.Run A as A') :
    Edits TreeName NodeData.IsDir (Store.node A) (as.map Action.gone) (Store.node A') := by
  induction h with
  | nil A => exact .nil (Store.node A)
  | @cons A A₁ A₂ a as hstep _ ih =>
      refine .cons ?_ ih
      cases a with
      | write r code => exact hstep.2.2.edit hstep.1 hstep.2.1
      | delete r code => exact hstep.2.2.edit hstep.1 hstep.2.1
      | read q answer => exact hstep.2.2 ▸ .keep
      | stat name null parent answer => exact hstep.2.2 ▸ .keep

theorem link_empty (hname : name.Proper) (p : ℕ) : link Store.empty.node p name = none := by
  unfold link Store.empty
  dsimp only
  split
  · simp [dotNames, hname.1, hname.2]
  · split <;> rfl

theorem empty_linked : Linked TreeName rootInodeNo Store.empty.node where
  closed := fun p w t hw hl => by
    rw [link_empty hw] at hl
    cases hl
  once := fun p _ w _ t hw _ hl _ => by
    rw [link_empty hw] at hl
    cases hl
  present := Option.some_ne_none _
  unnamed := fun p w hw hl => by
    rw [link_empty hw] at hl
    cases hl

def Call.action (c : Call) (code : ℤ) : Action :=
  match c with
  | .write r => .write r code
  | .delete r => .delete r code

theorem fsSystem_step_call {c : Call} (hc : ProperCall s c) (env : Env) :
    fsSystem.step s (c.action (c.run env s).1) (c.run env s).2 := by
  cases c with
  | write r => exact ⟨hc, env, rfl⟩
  | delete r => exact ⟨hc, env, rfl⟩

/-- A state that calls reach is the end of a run. -/
theorem Reachable.run (h : Reachable ProperCall s) :
    ∃ env s₀ as, fsSystem.Run (createExt2 env s₀) as s := by
  obtain ⟨env, s₀, hrun⟩ := h
  refine ⟨env, s₀, ?_⟩
  induction hrun with
  | refl => exact ⟨[], .nil (M := fsSystem) _⟩
  | tail _ hstep ih =>
      obtain ⟨as, hrun⟩ := ih
      obtain ⟨env', c, hc, rfl⟩ := hstep
      exact ⟨_, hrun.append (.cons (fsSystem_step_call hc env') (.nil (M := fsSystem) _))⟩

/-- The names of the tree lead to nodes, each to its own, and none to the root. -/
theorem reachable_root (h : Reachable ProperCall s) : AllocatedDir s rootInodeNo := by
  obtain ⟨held, ht, -⟩ := reachable_kinds h
  exact ht.settled.allocatedDir ht.root

theorem reachable_linked (h : Reachable ProperCall s) :
    Linked TreeName rootInodeNo (nodeAt s) := by
  obtain ⟨env, s₀, as, hrun⟩ := h.run
  have hstore := fsSystem_refines.run hrun ⟨env, s₀, .refl⟩
  rw [storeOf_createExt2] at hstore
  exact (storeSystem_edits hstore).linked empty_linked

/-- Following the names of `path` from the root leads to node `a`. -/
def PathTo (s : Fs) (path : List EntryName) (a : ℕ) : Prop :=
  resolve (nodeAt s) rootInodeNo path = some a

/-- No action takes away a name along the path. -/
def Uncut (s : Fs) (path : List EntryName) (as : List Action) : Prop :=
  ∀ l ∈ trail (nodeAt s) rootInodeNo path, some l ∉ as.map Action.gone

theorem path_persists (h : Reachable ProperCall s) (hrun : fsSystem.Run s as s')
    {path : List EntryName} {a : ℕ} (hproper : ∀ w ∈ path, w.Proper) (hpath : PathTo s path a)
    (hkeep : Uncut s path as) :
    PathTo s' path a ∧ (∀ x, nodeAt s a = some x → ¬ x.data.IsDir → nodeAt s' a = some x) ∧
      ((storeOf s).IsDir a → (storeOf s').IsDir a) :=
  (storeSystem_edits (fsSystem_refines.run hrun h)).persists (reachable_linked h) hproper hpath
    hkeep

theorem link_nodeAt {a : ℕ} (h : link (nodeAt s) p name = some a) :
    AllocatedDir s p ∧ nameMap s p name = some a := by
  obtain ⟨x, hx, ha⟩ := link_eq_some.mp h
  unfold nodeAt at hx
  split at hx
  · next hu =>
    rw [← Option.some.inj hx] at ha
    split at ha
    · next hd => exact ⟨⟨hu.2, hd⟩, ha⟩
    · cases ha
  · cases hx

end RendangOS.Ext2
