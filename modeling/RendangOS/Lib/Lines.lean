import Mathlib.Data.List.Infix
import Mathlib.Data.List.TakeWhile
import Mathlib.Tactic.Common

/-!
# Reading lines through a buffer

A text is cut into lines at a separator. A reader with room for `room` items
takes a line in several pieces when it does not fit. What is searched for is
found in the same lines as long as those lines fit: a piece never has it unless
the line does.
-/

namespace Lines

variable {α : Type*} [DecidableEq α] {sep : α} {room : ℕ} {l rest : List α}

/-- A text is one line, or a line in front of a text. -/
theorem induction {motive : List α → Prop} (sep : α) (last : ∀ l, sep ∉ l → motive l)
    (line : ∀ l rest, sep ∉ l → motive rest → motive (l ++ sep :: rest)) (text : List α) :
    motive text := by
  by_cases hsep : sep ∈ text
  · obtain ⟨l, rest, rfl, hl⟩ := List.eq_append_cons_of_mem hsep
    have hlt : rest.length < (l ++ sep :: rest).length := by
      rw [List.length_append, List.length_cons]
      omega
    exact line l rest hl (induction sep last line rest)
  · exact last text hsep
termination_by text.length

/-! ## One piece -/

/-- Items up to a separator, as far as there is room, and what is left behind. -/
def takeLine (sep : α) : ℕ → List α → List α × List α
  | 0, xs => ([], xs)
  | _ + 1, [] => ([], [])
  | room + 1, x :: xs =>
      if x = sep then ([], xs)
      else (x :: (takeLine sep room xs).1, (takeLine sep room xs).2)

/-- A line with room to spare is taken with its separator. -/
theorem takeLine_of_lt (hl : sep ∉ l) (hroom : l.length < room) :
    takeLine sep room (l ++ sep :: rest) = (l, rest) := by
  induction l generalizing room with
  | nil =>
      obtain ⟨room, rfl⟩ := Nat.exists_eq_add_one_of_ne_zero (Nat.ne_of_gt hroom)
      exact if_pos rfl
  | cons x l ih =>
      have hpos : room ≠ 0 := Nat.ne_of_gt (Nat.zero_lt_of_lt hroom)
      obtain ⟨room, rfl⟩ := Nat.exists_eq_add_one_of_ne_zero hpos
      rw [List.mem_cons, not_or] at hl
      rw [List.cons_append, takeLine, if_neg (Ne.symm hl.1),
        ih hl.2 (Nat.lt_of_succ_lt_succ hroom)]

/-- A longer line is cut off in front of its separator. -/
theorem takeLine_of_ge (hl : sep ∉ l) (hroom : room ≤ l.length) :
    takeLine sep room (l ++ sep :: rest) = (l.take room, l.drop room ++ sep :: rest) := by
  induction room generalizing l with
  | zero => rfl
  | succ room ih =>
      cases l with
      | nil => cases hroom
      | cons x l =>
          rw [List.mem_cons, not_or] at hl
          rw [List.cons_append, takeLine, if_neg (Ne.symm hl.1),
            ih hl.2 (Nat.le_of_succ_le_succ hroom)]
          rfl

theorem takeLine_isPrefix (sep : α) (room : ℕ) (xs : List α) :
    (takeLine sep room xs).1 <+: xs := by
  fun_induction takeLine sep room xs with
  | case1 xs => exact List.nil_prefix
  | case2 room => exact List.nil_prefix
  | case3 room xs => exact List.nil_prefix
  | case4 room x xs hx ih => exact List.cons_prefix_cons.mpr ⟨rfl, ih⟩

/-- A piece of a text that is not empty makes the text shorter. -/
theorem takeLine_length (hroom : 0 < room) {xs : List α} (hxs : xs ≠ []) :
    (takeLine sep room xs).2.length < xs.length := by
  have hle : ∀ (room : ℕ) (xs : List α), (takeLine sep room xs).2.length ≤ xs.length := by
    intro room xs
    fun_induction takeLine sep room xs with
    | case1 xs => exact Nat.le_refl _
    | case2 room => exact Nat.le_refl _
    | case3 room xs => exact Nat.le_succ _
    | case4 room x xs hx ih => exact Nat.le_succ_of_le ih
  obtain ⟨room, rfl⟩ := Nat.exists_eq_add_one_of_ne_zero (Nat.ne_of_gt hroom)
  cases xs with
  | nil => exact absurd rfl hxs
  | cons x xs =>
      rw [takeLine]
      split
      · exact Nat.lt_succ_self _
      · exact Nat.lt_succ_of_le (hle room xs)

/-! ## All pieces -/

/-- The pieces of a text, one read behind the other. -/
def pieces (sep : α) (room : ℕ) (xs : List α) : List (List α) :=
  if _h : 0 < room ∧ xs ≠ [] then
    (takeLine sep room xs).1 :: pieces sep room (takeLine sep room xs).2
  else []
termination_by xs.length
decreasing_by exact takeLine_length _h.1 _h.2

theorem pieces_nil (sep : α) (room : ℕ) : pieces sep room [] = [] := by
  rw [pieces, dif_neg fun h => h.2 rfl]

theorem pieces_cons (hroom : 0 < room) {xs : List α} (hxs : xs ≠ []) :
    pieces sep room xs =
      (takeLine sep room xs).1 :: pieces sep room (takeLine sep room xs).2 := by
  rw [pieces, dif_pos ⟨hroom, hxs⟩]

/-- The text with a separator behind its last line. -/
def terminate (sep : α) (xs : List α) : List α :=
  if xs.getLast? = none ∨ xs.getLast? = some sep then xs else xs ++ [sep]

theorem terminate_line (sep : α) (l rest : List α) :
    terminate sep (l ++ sep :: rest) = l ++ sep :: terminate sep rest := by
  unfold terminate
  cases hrest : rest.getLast? with
  | none =>
      rw [List.getLast?_eq_none_iff] at hrest
      subst hrest
      simp
  | some x =>
      have hlast : (l ++ sep :: rest).getLast? = some x := by
        simp [List.getLast?_append, List.getLast?_cons, hrest]
      rw [hlast]
      split
      · rfl
      · rw [List.append_assoc, List.cons_append]

/-! ## Searching -/

/-- What `p` looks for is in the pieces of a line only if it is in the line, and
it is not in an empty one. -/
structure Search (p : List α → Bool) : Prop where
  nil : p [] = false
  mono : ∀ l l', l' <:+: l → p l' = true → p l = true

variable {p : List α → Bool}

omit [DecidableEq α] in
theorem Search.piece (h : Search p) (hp : p l = false) {l' : List α} (hl' : l' <:+: l) :
    p l' = false := by
  by_contra hfound
  rw [Bool.not_eq_false] at hfound
  rw [h.mono l l' hl' hfound] at hp
  cases hp

/-- The pieces of one line. -/
theorem filter_pieces_line (h : Search p) (hroom : 0 < room) (l : List α) (hl : sep ∉ l)
    (hfit : p l = true → l.length ≤ room) :
    (pieces sep room (l ++ sep :: rest)).filter p =
      [l].filter p ++ (pieces sep room rest).filter p := by
  have hne : l ++ sep :: rest ≠ [] := by simp
  rw [pieces_cons hroom hne]
  by_cases hlt : l.length < room
  · rw [takeLine_of_lt hl hlt]
    exact List.filter_append [l] _
  · rw [takeLine_of_ge hl (Nat.le_of_not_lt hlt)]
    have hdrop : (l.drop room).length < l.length := by
      rw [List.length_drop]
      omega
    have hsep : sep ∉ l.drop room := fun hmem => hl (List.mem_of_mem_drop hmem)
    by_cases hp : p l = true
    · -- the separator is a piece of its own
      have hlen : l.length = room := Nat.le_antisymm (hfit hp) (Nat.le_of_not_lt hlt)
      rw [List.take_of_length_le (Nat.le_of_eq hlen), List.drop_of_length_le (Nat.le_of_eq hlen),
        List.nil_append, pieces_cons hroom (List.cons_ne_nil sep rest)]
      have hempty : takeLine sep room ([] ++ sep :: rest) = ([], rest) :=
        takeLine_of_lt List.not_mem_nil hroom
      rw [List.nil_append] at hempty
      rw [hempty]
      simp [hp, h.nil]
    · rw [Bool.not_eq_true] at hp
      have htake : p (l.take room) = false := h.piece hp (List.take_prefix room l).isInfix
      have hrest : p (l.drop room) = false := h.piece hp (List.drop_suffix room l).isInfix
      rw [List.filter_cons_of_neg (by simp [htake]),
        filter_pieces_line h hroom (l.drop room) hsep fun hfound => by
          rw [hrest] at hfound
          cases hfound]
      simp [hp, hrest]
termination_by l.length

/-- **The pieces that have it are the lines that have it**, if these fit. -/
theorem filter_pieces (h : Search p) (hroom : 0 < room) (text : List α)
    (hfit : ∀ l ∈ text.splitOn sep, p l = true → l.length ≤ room) :
    (pieces sep room (terminate sep text)).filter p = (text.splitOn sep).filter p := by
  induction text using Lines.induction sep with
  | last l hl =>
      rw [List.splitOn_eq_singleton hl] at hfit ⊢
      cases hlast : l.getLast? with
      | none =>
          rw [List.getLast?_eq_none_iff] at hlast
          subst hlast
          rw [terminate, if_pos (Or.inl List.getLast?_nil), pieces_nil]
          simp [h.nil]
      | some x =>
          have hx : x ≠ sep := fun hx => hl (hx ▸ List.mem_of_getLast? hlast)
          have hopen : ¬ (l.getLast? = none ∨ l.getLast? = some sep) := by
            rw [hlast]
            rintro (hnone | hsep)
            · cases hnone
            · exact hx (Option.some.inj hsep)
          rw [terminate, if_neg hopen,
            filter_pieces_line h hroom l hl (hfit l (List.mem_singleton_self l)), pieces_nil]
          exact List.append_nil _
  | line l rest hl ih =>
      rw [List.splitOn_append_cons_self_of_not_mem hl] at hfit ⊢
      rw [terminate_line, filter_pieces_line h hroom l hl (hfit l List.mem_cons_self),
        ih fun l' hl' => hfit l' (List.mem_cons_of_mem _ hl')]
      exact (List.filter_append [l] _).symm

/-- Lines that are written out, each with a separator behind it. -/
def unlines (sep : α) (lines : List (List α)) : List α := lines.flatMap fun l => l ++ [sep]

theorem splitOn_unlines {lines : List (List α)} (hlines : ∀ l ∈ lines, sep ∉ l) :
    (unlines sep lines).splitOn sep = lines ++ [[]] := by
  induction lines with
  | nil => exact List.splitOn_eq_singleton List.not_mem_nil
  | cons l lines ih =>
      rw [unlines, List.flatMap_cons, List.append_assoc, List.singleton_append,
        List.splitOn_append_cons_self_of_not_mem (hlines l List.mem_cons_self)]
      exact congrArg (l :: ·) (ih fun l' hl' => hlines l' (List.mem_cons_of_mem l hl'))

theorem terminate_unlines (sep : α) (lines : List (List α)) :
    terminate sep (unlines sep lines) = unlines sep lines := by
  refine if_pos ?_
  rcases List.eq_nil_or_concat' lines with rfl | ⟨front, l, rfl⟩
  · exact Or.inl rfl
  · right
    rw [unlines, List.flatMap_append, List.flatMap_singleton, ← List.append_assoc]
    exact List.getLast?_concat

/-- The pieces of written lines that have it are the lines that have it. -/
theorem filter_pieces_unlines (h : Search p) (hroom : 0 < room) {lines : List (List α)}
    (hlines : ∀ l ∈ lines, sep ∉ l) (hfit : ∀ l ∈ lines, p l = true → l.length ≤ room) :
    (pieces sep room (unlines sep lines)).filter p = lines.filter p := by
  have hsplit := splitOn_unlines hlines
  have hpieces := filter_pieces h hroom (unlines sep lines) fun l hl hp => by
    rw [hsplit, List.mem_append, List.mem_singleton] at hl
    rcases hl with hl | rfl
    · exact hfit l hl hp
    · rw [h.nil] at hp
      cases hp
  rw [terminate_unlines, hsplit, List.filter_append, List.filter_cons_of_neg (by simp [h.nil]),
    List.filter_nil, List.append_nil] at hpieces
  exact hpieces

/-! ## Leaving out lines -/

section Filter

variable {β γ : Type*} {f : β → List γ} {q : β → Bool} {xs : List β}

theorem length_flatMap_filter_le (f : β → List γ) (q : β → Bool) (xs : List β) :
    ((xs.filter q).flatMap f).length ≤ (xs.flatMap f).length := by
  induction xs with
  | nil => exact Nat.le_refl _
  | cons x xs ih =>
      cases hq : q x with
      | true =>
          rw [List.filter_cons_of_pos hq, List.flatMap_cons, List.flatMap_cons,
            List.length_append, List.length_append]
          exact Nat.add_le_add_left ih _
      | false =>
          rw [List.filter_cons_of_neg (by simp [hq]), List.flatMap_cons, List.length_append]
          exact Nat.le_add_left_of_le ih

/-- A text that lacks no line has all lines. -/
theorem all_of_flatMap_filter (hf : ∀ x, f x ≠ []) (h : (xs.filter q).flatMap f = xs.flatMap f) :
    ∀ x ∈ xs, q x = true := by
  induction xs with
  | nil => exact fun x hx => absurd hx List.not_mem_nil
  | cons x xs ih =>
      cases hq : q x with
      | true =>
          rw [List.filter_cons_of_pos hq, List.flatMap_cons, List.flatMap_cons] at h
          intro y hy
          rcases List.mem_cons.mp hy with rfl | hy
          · exact hq
          · exact ih (List.append_cancel_left h) y hy
      | false =>
          rw [List.filter_cons_of_neg (by simp [hq]), List.flatMap_cons] at h
          have hle := length_flatMap_filter_le f q xs
          have hpos := List.length_pos_iff.mpr (hf x)
          have heq := congrArg List.length h
          rw [List.length_append] at heq
          omega

end Filter

/-! ## Words -/

/-- The maximal pieces without a separator. -/
def words (sep : α) (text : List α) : List (List α) :=
  (text.splitOn sep).filter fun w => decide (w ≠ [])

/-- A separator between two texts. -/
theorem words_append (sep : α) (text rest : List α) :
    words sep (text ++ sep :: rest) = words sep text ++ words sep rest := by
  rw [words, List.splitOn_append_cons_self, List.filter_append]
  rfl

theorem words_sep (sep : α) (text : List α) : words sep (sep :: text) = words sep text :=
  words_append sep [] text

theorem words_single {l : List α} (hl : sep ∉ l) (hne : l ≠ []) : words sep l = [l] := by
  rw [words, List.splitOn_eq_singleton hl, List.filter_cons_of_pos (by simpa using hne)]
  rfl

theorem words_nil (sep : α) : words sep [] = [] := rfl

/-- Separators in front do not matter. -/
theorem words_dropWhile (sep : α) (text : List α) :
    words sep (text.dropWhile (· = sep)) = words sep text := by
  induction text with
  | nil => rfl
  | cons c text ih =>
      by_cases hc : c = sep
      · rw [List.dropWhile_cons_of_pos (by simpa using hc), ih, hc, words_sep]
      · rw [List.dropWhile_cons_of_neg (by simpa using hc)]

/-- The first word, and the words behind it. -/
theorem words_eq {text : List α} (h : text.dropWhile (· = sep) ≠ []) :
    words sep text = (text.dropWhile (· = sep)).takeWhile (· ≠ sep) ::
      words sep ((text.dropWhile (· = sep)).dropWhile (· ≠ sep)) := by
  rw [← words_dropWhile]
  have hhead := List.head?_dropWhile_not (fun c => decide (c = sep)) text
  generalize text.dropWhile (· = sep) = rest at h hhead ⊢
  have hword : sep ∉ rest.takeWhile (· ≠ sep) := by
    intro hmem
    simpa using List.mem_takeWhile_imp hmem
  have hne : rest.takeWhile (· ≠ sep) ≠ [] := by
    cases rest with
    | nil => exact absurd rfl h
    | cons c rest =>
        have hc : c ≠ sep := by simpa using hhead
        rw [List.takeWhile_cons_of_pos (by simpa using hc)]
        exact List.cons_ne_nil _ _
  have hsplit := List.takeWhile_append_dropWhile (p := fun c => decide (c ≠ sep)) (l := rest)
  cases htail : rest.dropWhile (· ≠ sep) with
  | nil =>
      rw [htail, List.append_nil] at hsplit
      rw [words_nil, ← words_single hword hne, hsplit]
  | cons c tail =>
      have hc : c = sep := by
        have hstop := List.head?_dropWhile_not (fun c => decide (c ≠ sep)) rest
        rw [htail] at hstop
        simpa using hstop
      subst hc
      rw [htail] at hsplit
      have happend := words_append c (rest.takeWhile (· ≠ c)) tail
      rw [hsplit, words_single hword hne] at happend
      rw [words_sep, happend]
      rfl

end Lines
