import RendangOS.Lib.Ring
import Mathlib.Data.Nat.Basic

/-!
# The keyboard driver

`keyboard_isr` puts the characters that it decodes into a ring of 256 cells,
and `get_keyboard_buffer` takes them out. A system call runs with interrupts
enabled, so the interrupt can come between any two statements of
`get_keyboard_buffer`; it runs to completion itself. A run is a list of events:
one run of the interrupt, one statement of the reader, or a switch of the input.
-/

namespace RendangOS.Driver

/-! ## The driver -/

@[simp] def keyboardBufferSize : ℕ := 256
@[simp] def extendedScancodeByte : BitVec 8 := 0xE0

/-- `keyboard_scancode_1_to_ascii_map` up to its last entry that is not 0. -/
def keyboardScancode1ToAsciiMap : List (BitVec 8) :=
  [0x00, 0x1B, 0x31, 0x32, 0x33, 0x34, 0x35, 0x36, 0x37, 0x38, 0x39, 0x30, 0x2D, 0x3D, 0x08, 0x09,
   0x71, 0x77, 0x65, 0x72, 0x74, 0x79, 0x75, 0x69, 0x6F, 0x70, 0x5B, 0x5D, 0x0A, 0x00, 0x61, 0x73,
   0x64, 0x66, 0x67, 0x68, 0x6A, 0x6B, 0x6C, 0x3B, 0x27, 0x60, 0x00, 0x5C, 0x7A, 0x78, 0x63, 0x76,
   0x62, 0x6E, 0x6D, 0x2C, 0x2E, 0x2F, 0x00, 0x2A, 0x00, 0x20, 0x00, 0x00, 0x00, 0x00, 0x00, 0x00,
   0x00, 0x00, 0x00, 0x00, 0x00, 0x00, 0x00, 0x00, 0x00, 0x00, 0x2D, 0x00, 0x00, 0x00, 0x2B]

/-- The `switch` over the scancodes behind the extended byte. -/
def extendedKey (scancode : BitVec 8) : Option (BitVec 8) :=
  if scancode = 0x48 then some 0x80
  else if scancode = 0x50 then some 0x81
  else if scancode = 0x4B then some 0x82
  else if scancode = 0x4D then some 0x83
  else if scancode = 0x53 then some 0x7F
  else none

structure KeyboardDriverState where
  read_extended_mode : Bool
  keyboard_input_on : Bool
  buffer : Vector (BitVec 8) keyboardBufferSize
  head : ℕ
  tail : ℕ

/-- `keyboard_state` at boot. -/
def KeyboardDriverState.initial : KeyboardDriverState :=
  ⟨false, false, Vector.replicate keyboardBufferSize 0, 0, 0⟩

def addToBuffer (k : KeyboardDriverState) (c : BitVec 8) : KeyboardDriverState :=
  let nextHead := (k.head + 1) % keyboardBufferSize
  if nextHead = k.tail then k
  else { k with buffer := k.buffer.setIfInBounds k.head c, head := nextHead }

/-- One run of the interrupt with `scancode` at the data port. -/
def keyboardIsr (k : KeyboardDriverState) (scancode : BitVec 8) : KeyboardDriverState :=
  if k.keyboard_input_on = false then k
  else if scancode = extendedScancodeByte then { k with read_extended_mode := true }
  else if k.read_extended_mode = true then
    let k := { k with read_extended_mode := false }
    match extendedKey scancode with
    | some c => addToBuffer k c
    | none => k
  else if scancode.toNat < 0x80 then
    let c := keyboardScancode1ToAsciiMap[scancode.toNat]?.getD 0
    if c ≠ 0 then addToBuffer k c else k
  else k

/-! ## The reader -/

/-- Where a run of `get_keyboard_buffer` stands. -/
inductive Reader where
  /-- Before the comparison of `head` and `tail`. -/
  | idle
  /-- Before `*buf = 0`. -/
  | empty
  /-- Before `*buf = keyboard_state.buffer[keyboard_state.tail]`. -/
  | nonEmpty
  /-- Before the update of `tail`, with `c` in `*buf`. -/
  | fetched (c : BitVec 8)

structure Machine where
  keyboard : KeyboardDriverState
  reader : Reader

def Machine.initial : Machine := ⟨.initial, .idle⟩

inductive Event where
  | isr (scancode : BitVec 8)
  /-- `keyboard_state_activate`. -/
  | activate
  /-- `keyboard_state_deactivate`. -/
  | deactivate
  /-- The next statement of `get_keyboard_buffer`. -/
  | statement

/-- One statement of `get_keyboard_buffer`. -/
def getKeyboardBuffer (m : Machine) : Machine :=
  let k := m.keyboard
  match m.reader with
  | .idle => { m with reader := if k.head = k.tail then .empty else .nonEmpty }
  | .empty => { m with reader := .idle }
  | .nonEmpty => { m with reader := .fetched (k.buffer[k.tail]?.getD 0) }
  | .fetched _ =>
      { m with
        keyboard := { k with tail := (k.tail + 1) % keyboardBufferSize }
        reader := .idle }

def Machine.step (m : Machine) : Event → Machine
  | .isr scancode => { m with keyboard := keyboardIsr m.keyboard scancode }
  | .activate => { m with keyboard := { m.keyboard with keyboard_input_on := true } }
  | .deactivate => { m with keyboard := { m.keyboard with keyboard_input_on := false } }
  | .statement => getKeyboardBuffer m

/-! ## What happened in a run -/

/-- The characters in the ring, the oldest first. -/
def KeyboardDriverState.ring (k : KeyboardDriverState) : List (BitVec 8) :=
  Ring.contents keyboardBufferSize (fun i => k.buffer[i]?.getD 0) k.head k.tail

/-- The character of a key press. -/
def pressedKey (scancode : BitVec 8) : Option (BitVec 8) :=
  if scancode.toNat < 0x80 then
    let c := keyboardScancode1ToAsciiMap[scancode.toNat]?.getD 0
    if c ≠ 0 then some c else none
  else none

/-- The decoder on its own: the next mode and the character, if there is one. -/
def decode (extended : Bool) (scancode : BitVec 8) : Bool × Option (BitVec 8) :=
  if scancode = extendedScancodeByte then (true, none)
  else (false, if extended then extendedKey scancode else pressedKey scancode)

/-- The characters decoded from a stream while the keyboard is on. -/
def decoded (on extended : Bool) : List Event → List (BitVec 8)
  | [] => []
  | .isr scancode :: es =>
      if on then
        (decode extended scancode).2.toList ++ decoded on (decode extended scancode).1 es
      else decoded on extended es
  | .activate :: es => decoded true extended es
  | .deactivate :: es => decoded false extended es
  | .statement :: es => decoded on extended es

/-- What an observer has written down. -/
structure History where
  /-- The decoded characters, each with the number of characters then pending. -/
  arrived : List (BitVec 8 × ℕ)
  /-- The ring when the reader last compared `head` and `tail`. -/
  compared : List (BitVec 8)
  /-- The results of `get_keyboard_buffer`, each with the ring at its comparison. -/
  yielded : List (BitVec 8 × List (BitVec 8))

/-- The character that a run of the interrupt decodes, if there is one. -/
def arrival (k : KeyboardDriverState) (scancode : BitVec 8) : List (BitVec 8 × ℕ) :=
  if k.keyboard_input_on then
    (decode k.read_extended_mode scancode).2.toList.map fun c => (c, k.ring.length)
  else []

/-- What the observer adds when event `e` comes in state `m`. -/
def History.step (h : History) (m : Machine) : Event → History
  | .isr scancode => { h with arrived := h.arrived ++ arrival m.keyboard scancode }
  | .activate | .deactivate => h
  | .statement =>
      match m.reader with
      | .idle => { h with compared := m.keyboard.ring }
      | .empty => { h with yielded := h.yielded ++ [(0, h.compared)] }
      | .nonEmpty => h
      | .fetched c => { h with yielded := h.yielded ++ [(c, h.compared)] }

/-- A run from boot, with its history. -/
def run (es : List Event) : Machine × History :=
  es.foldl (fun r e => (r.1.step e, r.2.step r.1 e)) (.initial, ⟨[], [], []⟩)

/-- The non-zero characters handed out. -/
def History.handedOut (h : History) : List (BitVec 8) :=
  (h.yielded.map Prod.fst).filter (· ≠ 0)

/-- The characters that found a free cell. -/
def History.accepted (h : History) : List (BitVec 8) :=
  (h.arrived.filter fun a => a.2 ≠ keyboardBufferSize - 1).map Prod.fst

variable {k : KeyboardDriverState} {m : Machine} {h : History} {c : BitVec 8}

/-! ## The decoder -/

/-- The interrupt decodes, and keeps the mode for its next run. -/
theorem keyboardIsr_eq (k : KeyboardDriverState) (scancode : BitVec 8)
    (hon : k.keyboard_input_on = true) :
    keyboardIsr k scancode =
      match (decode k.read_extended_mode scancode).2 with
      | some c =>
          addToBuffer { k with read_extended_mode := (decode k.read_extended_mode scancode).1 } c
      | none => { k with read_extended_mode := (decode k.read_extended_mode scancode).1 } := by
  obtain ⟨extended, on, buffer, head, tail⟩ := k
  obtain rfl : on = true := hon
  unfold keyboardIsr decode
  by_cases hbyte : scancode = extendedScancodeByte
  · rw [if_pos hbyte, if_pos hbyte]
    rfl
  · rw [if_neg hbyte, if_neg hbyte]
    cases extended with
    | true => rfl
    | false =>
        unfold pressedKey
        by_cases hpress : scancode.toNat < 0x80
        · simp only [hpress, Bool.true_eq_false, Bool.false_eq_true, if_true, if_false]
          split <;> rfl
        · simp only [hpress, Bool.true_eq_false, Bool.false_eq_true, if_false]

theorem addToBuffer_mode (k : KeyboardDriverState) (c : BitVec 8) :
    (addToBuffer k c).read_extended_mode = k.read_extended_mode ∧
      (addToBuffer k c).keyboard_input_on = k.keyboard_input_on := by
  unfold addToBuffer
  dsimp only
  split <;> exact ⟨rfl, rfl⟩

theorem keyboardIsr_input_on (k : KeyboardDriverState) (scancode : BitVec 8) :
    (keyboardIsr k scancode).keyboard_input_on = k.keyboard_input_on := by
  cases hon : k.keyboard_input_on with
  | false => rw [show keyboardIsr k scancode = k from if_pos hon, hon]
  | true =>
      rw [keyboardIsr_eq k scancode hon]
      split
      · exact (addToBuffer_mode _ _).2.trans hon
      · exact hon

theorem keyboardIsr_mode (k : KeyboardDriverState) (scancode : BitVec 8) :
    (keyboardIsr k scancode).read_extended_mode =
      if k.keyboard_input_on then (decode k.read_extended_mode scancode).1
      else k.read_extended_mode := by
  cases hon : k.keyboard_input_on with
  | false => exact congrArg KeyboardDriverState.read_extended_mode (if_pos hon)
  | true =>
      rw [keyboardIsr_eq k scancode hon]
      split
      · exact (addToBuffer_mode _ _).1
      · rfl

theorem decode_ne_zero {extended : Bool} {scancode : BitVec 8}
    (hc : (decode extended scancode).2 = some c) : c ≠ 0 := by
  unfold decode at hc
  split at hc
  · cases hc
  · dsimp only at hc
    split at hc
    · unfold extendedKey at hc
      split_ifs at hc <;> cases hc <;> decide
    · unfold pressedKey at hc
      dsimp only at hc
      split_ifs at hc with hpress hchar
      cases hc
      exact hchar

/-! ## The ring -/

/-- Head and tail lie in the buffer. -/
structure InRange (k : KeyboardDriverState) : Prop where
  head : k.head < keyboardBufferSize
  tail : k.tail < keyboardBufferSize

theorem getD_setIfInBounds (buffer : Vector (BitVec 8) keyboardBufferSize) {i : ℕ}
    (hi : i < keyboardBufferSize) (c : BitVec 8) :
    (fun j => (buffer.setIfInBounds i c)[j]?.getD 0) =
      Function.update (fun j => buffer[j]?.getD 0) i c := by
  funext j
  by_cases hj : j = i
  · subst hj
    rw [Function.update_self, Vector.getElem?_setIfInBounds_self_of_lt hi]
    rfl
  · rw [Function.update_of_ne hj, Vector.getElem?_setIfInBounds_ne (Ne.symm hj)]

/-- A character is dropped by a full ring, and is the last one otherwise. -/
theorem addToBuffer_cases (hk : InRange k) (c : BitVec 8) :
    (k.ring.length = keyboardBufferSize - 1 ∧ addToBuffer k c = k) ∨
    (k.ring.length ≠ keyboardBufferSize - 1 ∧ InRange (addToBuffer k c) ∧
      (addToBuffer k c).ring = k.ring ++ [c]) := by
  have hfull := Ring.next_eq_tail hk.head hk.tail
  rw [← Ring.length_contents (fun i => k.buffer[i]?.getD 0)] at hfull
  unfold addToBuffer
  dsimp only
  by_cases hnext : (k.head + 1) % keyboardBufferSize = k.tail
  · rw [if_pos hnext]
    exact Or.inl ⟨hfull.mp hnext, rfl⟩
  · rw [if_neg hnext]
    refine Or.inr ⟨fun hlen => hnext (hfull.mpr hlen), ⟨Ring.next_lt hk.head, hk.tail⟩, ?_⟩
    unfold KeyboardDriverState.ring
    dsimp only
    rw [getD_setIfInBounds _ hk.head]
    exact Ring.contents_push _ c hk.head hk.tail hnext

theorem ring_pop (hk : InRange k) (hne : k.ring ≠ []) :
    k.ring = k.buffer[k.tail]?.getD 0 ::
      KeyboardDriverState.ring { k with tail := (k.tail + 1) % keyboardBufferSize } := by
  apply Ring.contents_pop _ hk.head hk.tail
  rw [Ne, ← Ring.contents_eq_nil (fun i => k.buffer[i]?.getD 0) hk.head hk.tail]
  exact hne

/-! ## The invariant -/

/-- What the reader knows of the ring between two statements. -/
def Reader.Agrees (k : KeyboardDriverState) (h : History) : Reader → Prop
  | .idle => True
  | .empty => h.compared = []
  | .nonEmpty => k.ring ≠ []
  | .fetched c => k.ring.head? = some c

structure Fifo (m : Machine) (h : History) : Prop where
  range : InRange m.keyboard
  nonzero : ∀ c ∈ m.keyboard.ring, c ≠ 0
  order : h.handedOut ++ m.keyboard.ring = h.accepted
  reader : m.reader.Agrees m.keyboard h
  zeros : ∀ y ∈ h.yielded, y.1 = 0 → y.2 = []

/-- What the reader knows survives a character at the end of the ring. -/
theorem Reader.Agrees.append {k' : KeyboardDriverState} {h' : History} {r : Reader}
    (hr : r.Agrees k h) (hring : k'.ring = k.ring ++ [c]) (hh : h'.compared = h.compared) :
    r.Agrees k' h' := by
  cases r with
  | idle => trivial
  | empty => exact hh.trans hr
  | nonEmpty =>
      change k'.ring ≠ []
      rw [hring]
      exact List.append_ne_nil_of_right_ne_nil _ (List.cons_ne_nil c [])
  | fetched d =>
      change k'.ring.head? = some d
      rw [hring, List.head?_append, show k.ring.head? = some d from hr]
      rfl

namespace Fifo

/-- A character comes in. -/
theorem arrive (hf : Fifo m h) (hc : c ≠ 0) :
    Fifo { m with keyboard := addToBuffer m.keyboard c }
      { h with arrived := h.arrived ++ [(c, m.keyboard.ring.length)] } := by
  have haccepted : History.accepted
      { h with arrived := h.arrived ++ [(c, m.keyboard.ring.length)] } =
      h.accepted ++ if m.keyboard.ring.length = keyboardBufferSize - 1 then [] else [c] := by
    unfold History.accepted
    rw [List.filter_append, List.map_append]
    congr 1
    split
    · next hfull => simp [hfull]
    · next hroom =>
        simp only [List.filter_cons, List.filter_nil]
        rw [if_pos (decide_eq_true hroom)]
        rfl
  rcases addToBuffer_cases hf.range c with ⟨hfull, hres⟩ | ⟨hroom, hrange, hring⟩
  · rw [hres]
    refine ⟨hf.range, hf.nonzero, ?_, ?_, hf.zeros⟩
    · rw [haccepted, if_pos hfull, List.append_nil]
      exact hf.order
    · have hreader := hf.reader
      cases hm : m.reader <;> rw [hm] at hreader <;> exact hreader
  · refine ⟨hrange, ?_, ?_, hf.reader.append hring rfl, hf.zeros⟩
    · intro d hd
      rw [hring, List.mem_append, List.mem_singleton] at hd
      rcases hd with hd | rfl
      · exact hf.nonzero d hd
      · exact hc
    · rw [haccepted, if_neg hroom, hring, ← List.append_assoc]
      exact congrArg (· ++ [c]) hf.order

theorem isr (hf : Fifo m h) (scancode : BitVec 8) :
    Fifo (m.step (.isr scancode)) (h.step m (.isr scancode)) := by
  cases hon : m.keyboard.keyboard_input_on with
  | false =>
      have hk : keyboardIsr m.keyboard scancode = m.keyboard := if_pos hon
      have hnone : arrival m.keyboard scancode = [] := if_neg (by simp [hon])
      rw [Machine.step, hk, History.step, hnone, List.append_nil]
      exact hf
  | true =>
      have hone : arrival m.keyboard scancode = _ := if_pos hon
      rw [Machine.step, keyboardIsr_eq _ _ hon, History.step, hone]
      -- the mode is no part of the ring
      have hmode : ∀ mode, Fifo
          { m with keyboard := { m.keyboard with read_extended_mode := mode } } h := by
        intro mode
        refine ⟨⟨hf.range.head, hf.range.tail⟩, hf.nonzero, hf.order, ?_, hf.zeros⟩
        have hreader := hf.reader
        cases hm : m.reader <;> rw [hm] at hreader <;> exact hreader
      cases hdecode : (decode m.keyboard.read_extended_mode scancode).2 with
      | none =>
          rw [Option.toList_none, List.map_nil, List.append_nil]
          exact hmode _
      | some c => exact (hmode _).arrive (decode_ne_zero hdecode)

theorem statement (hf : Fifo m h) : Fifo (m.step .statement) (h.step m .statement) := by
  obtain ⟨k, r⟩ := m
  obtain ⟨hrange, hnonzero, horder, hreader, hzeros⟩ := hf
  change h.handedOut ++ k.ring = h.accepted at horder
  cases r with
  | idle =>
      refine ⟨hrange, hnonzero, horder, ?_, hzeros⟩
      have hnil := Ring.contents_eq_nil (fun i => k.buffer[i]?.getD 0) hrange.head hrange.tail
      change Reader.Agrees k { h with compared := k.ring }
        (if k.head = k.tail then .empty else .nonEmpty)
      by_cases heq : k.head = k.tail
      · rw [if_pos heq]
        exact hnil.mpr heq
      · rw [if_neg heq]
        exact fun hring => heq (hnil.mp hring)
  | empty =>
      refine ⟨hrange, hnonzero, ?_, trivial, ?_⟩
      · have hsame : History.handedOut { h with yielded := h.yielded ++ [(0, h.compared)] } =
            h.handedOut := by
          unfold History.handedOut
          rw [List.map_append, List.filter_append]
          simp
        exact (congrArg (· ++ k.ring) hsame).trans horder
      · intro y hy hy0
        rcases List.mem_append.mp hy with hy | hy
        · exact hzeros y hy hy0
        · rw [List.mem_singleton.mp hy]
          exact hreader
  | nonEmpty =>
      refine ⟨hrange, hnonzero, horder, ?_, hzeros⟩
      change k.ring.head? = some (k.buffer[k.tail]?.getD 0)
      rw [ring_pop hrange hreader]
      rfl
  | fetched c =>
      have hne : k.ring ≠ [] := by
        intro hnil
        have hhead : k.ring.head? = some c := hreader
        rw [hnil] at hhead
        cases hhead
      have hpop := ring_pop hrange hne
      have hc : k.buffer[k.tail]?.getD 0 = c := by
        have hhead : k.ring.head? = some c := hreader
        rw [hpop, List.head?_cons, Option.some.injEq] at hhead
        exact hhead
      rw [hc] at hpop
      have hc0 : c ≠ 0 := hnonzero c (hpop ▸ List.mem_cons_self)
      refine ⟨⟨hrange.head, Ring.next_lt hrange.tail⟩, ?_, ?_, trivial, ?_⟩
      · intro d hd
        apply hnonzero d
        change d ∈ k.ring
        rw [hpop]
        exact List.mem_cons_of_mem c hd
      · have hmore : History.handedOut { h with yielded := h.yielded ++ [(c, h.compared)] } =
            h.handedOut ++ [c] := by
          unfold History.handedOut
          rw [List.map_append, List.filter_append]
          exact congrArg _ (List.filter_cons_of_pos (decide_eq_true hc0))
        rw [hpop] at horder
        refine (congrArg (· ++ _) hmore).trans ?_
        rw [List.append_assoc]
        exact horder
      · intro y hy hy0
        rcases List.mem_append.mp hy with hy | hy
        · exact hzeros y hy hy0
        · rw [List.mem_singleton.mp hy] at hy0
          exact absurd hy0 hc0

theorem step (hf : Fifo m h) (e : Event) : Fifo (m.step e) (h.step m e) := by
  cases e with
  | isr scancode => exact hf.isr scancode
  | statement => exact hf.statement
  | activate | deactivate =>
      refine ⟨⟨hf.range.head, hf.range.tail⟩, hf.nonzero, hf.order, ?_, hf.zeros⟩
      have hreader := hf.reader
      change m.reader.Agrees _ h
      cases hm : m.reader <;> rw [hm] at hreader <;> exact hreader

end Fifo

theorem initial_fifo : Fifo .initial ⟨[], [], []⟩ where
  range := ⟨by decide, by decide⟩
  nonzero := fun _ hc => absurd hc List.not_mem_nil
  order := rfl
  reader := trivial
  zeros := fun _ hy => absurd hy List.not_mem_nil

/-! ## Every run -/

theorem run_snoc (es : List Event) (e : Event) :
    run (es ++ [e]) = ((run es).1.step e, (run es).2.step (run es).1 e) :=
  List.foldl_concat ..

theorem run_fifo (es : List Event) : Fifo (run es).1 (run es).2 := by
  induction es using List.reverseRecOn with
  | nil => exact initial_fifo
  | append_singleton es e ih =>
      rw [run_snoc]
      exact ih.step e

/-- The characters that arrive are those the stream says. -/
theorem arrived_foldl (es : List Event) : ∀ (m : Machine) (h : History),
    (es.foldl (fun r e => (r.1.step e, r.2.step r.1 e)) (m, h)).2.arrived.map Prod.fst =
      h.arrived.map Prod.fst ++
        decoded m.keyboard.keyboard_input_on m.keyboard.read_extended_mode es := by
  induction es with
  | nil => exact fun m h => (List.append_nil _).symm
  | cons e es ih =>
      intro m h
      refine (ih (m.step e) (h.step m e)).trans ?_
      cases e with
      | activate => rfl
      | deactivate => rfl
      | statement =>
          obtain ⟨k, r⟩ := m
          cases r <;> rfl
      | isr scancode =>
          obtain ⟨k, r⟩ := m
          change (h.arrived ++ arrival k scancode).map Prod.fst ++
            decoded (keyboardIsr k scancode).keyboard_input_on
              (keyboardIsr k scancode).read_extended_mode es = _
          rw [List.map_append, List.append_assoc, keyboardIsr_mode, keyboardIsr_input_on]
          congr 1
          change _ = if k.keyboard_input_on then _ else _
          unfold arrival
          cases hon : k.keyboard_input_on with
          | false => rfl
          | true =>
              simp only [if_true, List.map_map]
              congr 1
              cases (decode k.read_extended_mode scancode).2 <;> rfl

/-- **The keyboard buffer is a lossless queue up to its capacity.** After any
interleaving of interrupts with the statements of `get_keyboard_buffer`, what
was handed out and what is in the ring are the characters of the stream but for
those that found the ring full, and a 0 is a ring that was empty when compared. -/
theorem keyboard_fifo (es : List Event) :
    (run es).2.handedOut ++ (run es).1.keyboard.ring = (run es).2.accepted ∧
    (run es).2.arrived.map Prod.fst = decoded false false es ∧
    ∀ y ∈ (run es).2.yielded, y.1 = 0 → y.2 = [] := by
  have hfifo := run_fifo es
  exact ⟨hfifo.order, arrived_foldl es _ _, hfifo.zeros⟩

end RendangOS.Driver
