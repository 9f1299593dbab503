import Mathlib.Data.List.Infix
import Mathlib.Tactic.Common

/-!
# Scans of a chain of records

A scan looks at the record under its cursor, and returns, breaks off or goes on by
the length of the record. What it reads and writes depends on what the records say,
and where it gets to depends on that too, so a scan that leaves the region at one
record leaves it for good. Whether it does is decided record by record, over the
records up to the first one at which it returns.
-/

namespace RecordScan

/-- The bytes from `lo` up to `hi`. -/
structure Span where
  lo : ℕ
  hi : ℕ
deriving DecidableEq

/-- No byte of it lies behind a region of `size` bytes. -/
def Span.Inside (size : ℕ) (a : Span) : Prop := ∀ k, a.lo ≤ k → k < a.hi → k < size

theorem Span.inside_of_le {size : ℕ} {a : Span} (h : a.hi ≤ size) : a.Inside size := by
  intro k _ hk
  omega

theorem Span.inside_iff {size : ℕ} {a : Span} (h : a.lo < a.hi) :
    a.Inside size ↔ a.hi ≤ size := by
  constructor
  · intro hin
    have := hin (a.hi - 1) (by omega) (by omega)
    omega
  · exact Span.inside_of_le

inductive Fate where
  | returns
  | breaks
  | advances (len : ℕ)
deriving DecidableEq

/-- What a scan does with one record. -/
structure Turn where
  reads : List Span
  writes : List Span
  fate : Fate

def Turn.Inside (size : ℕ) (t : Turn) : Prop := ∀ a ∈ t.reads ++ t.writes, a.Inside size

inductive Exit where
  /-- The turns are used up. -/
  | running
  | returned
  | broke
  /-- The cursor is not in the region any more. -/
  | behind (offset : ℕ)
deriving DecidableEq

structure Trace where
  visits : List ℕ
  reads : List Span
  writes : List Span
  exit : Exit

def Trace.Inside (size : ℕ) (t : Trace) : Prop := ∀ a ∈ t.reads ++ t.writes, a.Inside size

/-- The trace `t` with a record in front of it. -/
def Trace.after (offset : ℕ) (u : Turn) (t : Trace) : Trace :=
  ⟨offset :: t.visits, u.reads ++ t.reads, u.writes ++ t.writes, t.exit⟩

/-- A scan of a number of turns, the record before the cursor, and the cursor. -/
def scan (size : ℕ) (turn : Option ℕ → ℕ → Turn) : ℕ → Option ℕ → ℕ → Trace
  | 0, _, _ => ⟨[], [], [], .running⟩
  | fuel + 1, prev, offset =>
      if offset < size then
        let t := turn prev offset
        match t.fate with
        | .returns => ⟨[offset], t.reads, t.writes, .returned⟩
        | .breaks => ⟨[offset], t.reads, t.writes, .broke⟩
        | .advances len => (scan size turn fuel (some offset) (offset + len)).after offset t
      else ⟨[], [], [], .behind offset⟩

/-- The records from `offset` on, up to one without a length. -/
def offsets (size : ℕ) (len : ℕ → ℕ) : ℕ → ℕ → List ℕ
  | 0, _ => []
  | fuel + 1, offset =>
      if offset < size then
        offset :: if len offset = 0 then [] else offsets size len fuel (offset + len offset)
      else []

/-- The items up to the first with `p`. -/
def upTo {α : Type*} (p : α → Bool) : List α → List α
  | [] => []
  | a :: as => a :: if p a then [] else upTo p as

/-- The scan goes by the lengths `len`, and returns where `stop` says. -/
structure Follows (turn : Option ℕ → ℕ → Turn) (len : ℕ → ℕ) (stop : ℕ → Bool) : Prop where
  fate : ∀ prev o, (turn prev o).fate =
    if stop o then .returns else if len o = 0 then .breaks else .advances (len o)
  stop_len : ∀ o, stop o = true → len o ≠ 0

variable {size fuel offset : ℕ} {turn turn' : Option ℕ → ℕ → Turn} {len : ℕ → ℕ}
  {stop : ℕ → Bool} {ok : ℕ → Prop} {prev : Option ℕ}

theorem Trace.inside_after {u : Turn} {t : Trace} :
    (t.after offset u).Inside size ↔ u.Inside size ∧ t.Inside size := by
  unfold Trace.Inside Turn.Inside Trace.after
  simp only [List.mem_append]
  constructor
  · intro h
    exact ⟨fun a ha => h a (by tauto), fun a ha => h a (by tauto)⟩
  · rintro ⟨hu, ht⟩ a ha
    rcases ha with (ha | ha) | (ha | ha)
    · exact hu a (Or.inl ha)
    · exact ht a (Or.inl ha)
    · exact hu a (Or.inr ha)
    · exact ht a (Or.inr ha)

theorem mem_of_mem_upTo {α : Type*} {p : α → Bool} {a : α} : ∀ {as : List α},
    a ∈ upTo p as → a ∈ as
  | b :: bs, h => by
      rcases List.mem_cons.mp h with rfl | hrest
      · exact List.mem_cons_self
      · split at hrest
        · cases hrest
        · exact List.mem_cons_of_mem _ (mem_of_mem_upTo hrest)

/-! ## What decides about a scan -/

theorem mem_offsets_ge : ∀ {fuel offset x : ℕ}, x ∈ offsets size len fuel offset → offset ≤ x
  | 0, _, _, h => by cases h
  | fuel + 1, offset, x, h => by
      rw [offsets] at h
      split at h
      · rcases List.mem_cons.mp h with rfl | hrest
        · exact Nat.le_refl _
        · split at hrest
          · cases hrest
          · exact Nat.le_trans (Nat.le_add_right ..) (mem_offsets_ge hrest)
      · cases h

/-- The records come in order, each once. -/
theorem offsets_sorted : ∀ {fuel offset : ℕ}, (offsets size len fuel offset).Pairwise (· < ·)
  | 0, _ => List.Pairwise.nil
  | fuel + 1, offset => by
      rw [offsets]
      split
      · split
        · exact List.pairwise_singleton _ _
        · next hlen =>
          refine List.pairwise_cons.mpr ⟨fun x hx => ?_, offsets_sorted⟩
          have := mem_offsets_ge hx
          omega
      · exact List.Pairwise.nil

theorem scan_behind (h : ¬ offset < size) :
    scan size turn (fuel + 1) prev offset = ⟨[], [], [], .behind offset⟩ := if_neg h

theorem scan_step (hf : Follows turn len stop) (h : offset < size) :
    scan size turn (fuel + 1) prev offset =
      if stop offset then
        ⟨[offset], (turn prev offset).reads, (turn prev offset).writes, .returned⟩
      else if len offset = 0 then
        ⟨[offset], (turn prev offset).reads, (turn prev offset).writes, .broke⟩
      else
        (scan size turn fuel (some offset) (offset + len offset)).after offset
          (turn prev offset) := by
  have hfate := hf.fate prev offset
  rw [scan, if_pos h]
  dsimp only
  rw [hfate]
  by_cases hstop : stop offset = true
  · rw [if_pos hstop, if_pos hstop]
  · rw [if_neg hstop, if_neg hstop]
    by_cases hlen : len offset = 0
    · rw [if_pos hlen, if_pos hlen]
    · rw [if_neg hlen, if_neg hlen]

theorem offsets_step (h : offset < size) : offsets size len (fuel + 1) offset =
    offset :: if len offset = 0 then [] else offsets size len fuel (offset + len offset) :=
  if_pos h

theorem offsets_behind (h : ¬ offset < size) : offsets size len (fuel + 1) offset = [] :=
  if_neg h

/-- A scan stays inside just when it does at every record up to its return. -/
theorem scan_inside_iff (hf : Follows turn len stop)
    (hok : ∀ prev o, (∀ p ∈ prev, ok p) → ((turn prev o).Inside size ↔ ok o)) :
    ∀ {fuel offset : ℕ} {prev : Option ℕ}, (∀ p ∈ prev, ok p) →
    ((scan size turn fuel prev offset).Inside size ↔
      ∀ o ∈ upTo stop (offsets size len fuel offset), ok o)
  | 0, _, _, _ => iff_of_true (fun _ ha => by cases ha) (fun _ ho => by cases ho)
  | fuel + 1, offset, prev, hprev => by
      by_cases hin : offset < size
      · have hhead := hok prev offset hprev
        rw [scan_step hf hin, offsets_step hin, upTo, List.forall_mem_cons, ← hhead]
        by_cases hstop : stop offset = true
        · rw [if_pos hstop, if_pos hstop]
          exact (and_iff_left fun _ ho => absurd ho List.not_mem_nil).symm
        · rw [if_neg hstop, if_neg hstop]
          by_cases hlen : len offset = 0
          · rw [if_pos hlen, if_pos hlen]
            exact (and_iff_left fun _ ho => absurd ho List.not_mem_nil).symm
          · rw [if_neg hlen, if_neg hlen, Trace.inside_after]
            refine and_congr_right fun hturn => scan_inside_iff hf hok ?_
            rintro p hp
            cases hp
            exact hhead.mp hturn
      · rw [scan_behind hin, offsets_behind hin]
        exact iff_of_true (fun _ ha => by cases ha) (fun _ ho => by cases ho)

/-- A scan stays inside where every record keeps it there. -/
theorem scan_inside_of (hf : Follows turn len stop)
    (hturn : ∀ prev o, (∀ p ∈ prev, ok p) → ok o → (turn prev o).Inside size) :
    ∀ {fuel offset : ℕ} {prev : Option ℕ}, (∀ p ∈ prev, ok p) →
    (∀ o ∈ offsets size len fuel offset, ok o) → (scan size turn fuel prev offset).Inside size
  | 0, _, _, _, _ => fun _ ha => by cases ha
  | fuel + 1, offset, prev, hprev, hok => by
      by_cases hin : offset < size
      · rw [offsets_step hin, List.forall_mem_cons] at hok
        have hhead := hturn prev offset hprev hok.1
        rw [scan_step hf hin]
        by_cases hstop : stop offset = true
        · rwa [if_pos hstop]
        · rw [if_neg hstop]
          by_cases hlen : len offset = 0
          · rwa [if_pos hlen]
          · have hrest := hok.2
            rw [if_neg hlen] at hrest
            rw [if_neg hlen, Trace.inside_after]
            refine ⟨hhead, scan_inside_of hf hturn ?_ hrest⟩
            rintro p hp
            cases hp
            exact hok.1
      · rw [scan_behind hin]
        exact fun _ ha => by cases ha

theorem scan_returned_iff (hf : Follows turn len stop) :
    ∀ {fuel offset : ℕ} {prev : Option ℕ},
    (scan size turn fuel prev offset).exit = .returned ↔
      (offsets size len fuel offset).any stop = true
  | 0, _, _ => iff_of_false nofun nofun
  | fuel + 1, offset, prev => by
      by_cases hin : offset < size
      · rw [scan_step hf hin, offsets_step hin, List.any_cons]
        by_cases hstop : stop offset = true
        · rw [if_pos hstop, hstop, Bool.true_or]
          exact iff_of_true rfl rfl
        · rw [if_neg hstop, eq_false_of_ne_true hstop, Bool.false_or]
          by_cases hlen : len offset = 0
          · rw [if_pos hlen, if_pos hlen]
            exact iff_of_false nofun nofun
          · rw [if_neg hlen, if_neg hlen]
            exact scan_returned_iff hf
      · rw [scan_behind hin, offsets_behind hin]
        exact iff_of_false nofun nofun

/-- A scan that stays inside does not depend on what is outside. -/
theorem scan_congr (h : ∀ prev o, (turn prev o).Inside size → turn' prev o = turn prev o) :
    ∀ {fuel offset : ℕ} {prev : Option ℕ}, (scan size turn fuel prev offset).Inside size →
    scan size turn' fuel prev offset = scan size turn fuel prev offset
  | 0, _, _, _ => rfl
  | fuel + 1, offset, prev, hin => by
      by_cases hlt : offset < size
      · rw [scan, if_pos hlt] at hin
        rw [scan, scan, if_pos hlt, if_pos hlt]
        dsimp only at hin ⊢
        cases hfate : (turn prev offset).fate with
        | returns =>
            rw [hfate] at hin
            rw [h prev offset hin, hfate]
        | breaks =>
            rw [hfate] at hin
            rw [h prev offset hin, hfate]
        | advances n =>
            rw [hfate] at hin
            obtain ⟨hturn, hrest⟩ := Trace.inside_after.mp hin
            rw [h prev offset hturn, hfate]
            dsimp only
            rw [scan_congr h hrest]
      · rw [scan_behind hlt, scan_behind hlt]

/-! ## The end of a scan -/

/-- With a turn for every byte, and one more, a scan comes to its end. -/
theorem scan_ends (hf : Follows turn len stop) : ∀ {fuel offset : ℕ} {prev : Option ℕ},
    size ≤ offset + fuel → (scan size turn (fuel + 1) prev offset).exit ≠ .running
  | fuel, offset, prev, h => by
      by_cases hin : offset < size
      · rw [scan_step hf hin]
        by_cases hstop : stop offset = true
        · rw [if_pos hstop]
          nofun
        · rw [if_neg hstop]
          by_cases hlen : len offset = 0
          · rw [if_pos hlen]
            nofun
          · rw [if_neg hlen]
            cases fuel with
            | zero => omega
            | succ fuel => exact scan_ends hf (by omega)
      · rw [scan_behind hin]
        nofun

/-- The records from `offset` on fill the region exactly. -/
inductive Fills (size : ℕ) (len : ℕ → ℕ) : ℕ → Prop
  | done : Fills size len size
  | record {offset : ℕ} : offset < size → len offset ≠ 0 → Fills size len (offset + len offset) →
      Fills size len offset

/-- In a region that is filled a scan returns, or it ends at the end of the region. -/
theorem scan_filled (hf : Follows turn len stop) (hfill : Fills size len offset) :
    ∀ {fuel : ℕ} {prev : Option ℕ}, size ≤ offset + fuel →
    (scan size turn (fuel + 1) prev offset).exit = .returned ∨
      (scan size turn (fuel + 1) prev offset).exit = .behind size := by
  induction hfill with
  | done =>
      intro fuel prev _
      rw [scan_behind (Nat.lt_irrefl size)]
      exact Or.inr rfl
  | @record o hlt hlen _ ih =>
      intro fuel prev h
      rw [scan_step hf hlt, if_neg hlen]
      by_cases hstop : stop o = true
      · rw [if_pos hstop]
        exact Or.inl rfl
      · rw [if_neg hstop]
        cases fuel with
        | zero => omega
        | succ fuel => exact ih (by omega)

/-- The records visited are the first ones of the chain. -/
theorem scan_visits (hf : Follows turn len stop) : ∀ {fuel offset : ℕ} {prev : Option ℕ},
    (scan size turn fuel prev offset).visits <+: offsets size len fuel offset
  | 0, _, _ => List.nil_prefix
  | fuel + 1, offset, prev => by
      by_cases hin : offset < size
      · rw [scan_step hf hin, offsets_step hin]
        by_cases hstop : stop offset = true
        · rw [if_pos hstop]
          exact List.prefix_cons_inj offset |>.mpr List.nil_prefix
        · rw [if_neg hstop]
          by_cases hlen : len offset = 0
          · rw [if_pos hlen, if_pos hlen]
          · rw [if_neg hlen, if_neg hlen]
            exact List.prefix_cons_inj offset |>.mpr (scan_visits hf)
      · rw [scan_behind hin]
        exact List.nil_prefix

/-! ## Scans one after the other -/

/-- Scans of several regions, up to one that returns, and what decides about them
all: `trace` is the scan in other surroundings. -/
theorem scans_inside_iff {α : Type*} {trace trace' : α → Trace} {halts : α → Bool}
    {fits : α → Prop} (hsame : ∀ a, (trace a).Inside size → trace' a = trace a)
    (hsame' : ∀ a, (trace' a).Inside size → trace a = trace' a)
    (hfits : ∀ a, (trace a).Inside size ↔ fits a)
    (hhalts : ∀ a, (trace a).exit = .returned ↔ halts a = true) : ∀ as : List α,
    (∀ t ∈ upTo (fun t => decide (t.exit = .returned)) (as.map trace'), t.Inside size) ↔
      ∀ a ∈ upTo halts as, fits a
  | [] => iff_of_true (fun _ ht => by cases ht) (fun _ ha => by cases ha)
  | a :: as => by
      have hhead : (trace' a).Inside size ↔ fits a := by
        rw [← hfits]
        constructor
        · intro hin
          rwa [hsame' a hin]
        · intro hin
          rwa [hsame a hin]
      rw [List.map_cons, upTo, upTo, List.forall_mem_cons, List.forall_mem_cons, hhead]
      refine and_congr_right fun hfit => ?_
      rw [hsame a ((hfits a).mpr hfit)]
      by_cases hhalt : halts a = true
      · rw [if_pos hhalt, if_pos (decide_eq_true ((hhalts a).mpr hhalt))]
        exact iff_of_true (fun _ ht => by cases ht) (fun _ ha => by cases ha)
      · have hgoes : ¬ decide ((trace a).exit = .returned) = true := fun h =>
          hhalt ((hhalts a).mp (of_decide_eq_true h))
        rw [if_neg hhalt, if_neg hgoes]
        exact scans_inside_iff hsame hsame' hfits hhalts as

end RecordScan
