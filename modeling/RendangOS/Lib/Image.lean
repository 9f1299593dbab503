import Mathlib.Data.Nat.Bitwise
import Mathlib.Tactic.Common

/-!
# Memory images

A packed little-endian region of memory is a bit vector: byte `k` is the bits
`8 k .. 8 k + 7`. A field read is `BitVec.extractLsb'`, a field write is
`splice`, and a write past the end of the region changes nothing in it. Two
images agree on a range of bits (`Agree`) exactly when every field read inside
the range gives the same value in both.
-/

namespace Image

variable {w n m : ℕ}

/-! ## Writing a field -/

/-- Overwrite the bits `off .. off + n - 1` of `x` by `v`. -/
def splice (x : BitVec w) (off : ℕ) (v : BitVec n) : BitVec w :=
  (x &&& ~~~((BitVec.allOnes n).setWidth w <<< off)) ||| (v.setWidth w <<< off)

theorem getLsbD_splice (x : BitVec w) (off : ℕ) (v : BitVec n) (i : ℕ) :
    (splice x off v).getLsbD i =
      (decide (i < w) &&
        if off ≤ i ∧ i < off + n then v.getLsbD (i - off) else x.getLsbD i) := by
  unfold splice
  by_cases hw : i < w
  · by_cases hlo : off ≤ i
    · by_cases hhi : i < off + n
      · have h1 : i - off < n := by omega
        simp [hw, hlo, hhi, h1, Nat.not_lt.mpr hlo]
      · have h1 : ¬ i - off < n := by omega
        have hv : v.getLsbD (i - off) = false := BitVec.getLsbD_of_ge _ _ (by omega)
        simp [hw, hlo, hhi, h1, hv]
    · simp [hw, hlo, Nat.lt_of_not_le hlo]
  · simp [hw]

/-- Two images agree on the bits `lo .. hi - 1`. The widths may differ. -/
def Agree (x : BitVec n) (y : BitVec m) (lo hi : ℕ) : Prop :=
  ∀ i, lo ≤ i → i < hi → x.getLsbD i = y.getLsbD i

theorem Agree.refl (x : BitVec n) (lo hi : ℕ) : Agree x x lo hi :=
  fun _ _ _ => rfl

theorem Agree.symm {x : BitVec n} {y : BitVec m} {lo hi : ℕ}
    (h : Agree x y lo hi) : Agree y x lo hi :=
  fun i hlo hhi => (h i hlo hhi).symm

theorem Agree.trans {k : ℕ} {x : BitVec n} {y : BitVec m} {z : BitVec k} {lo hi : ℕ}
    (h : Agree x y lo hi) (h' : Agree y z lo hi) : Agree x z lo hi :=
  fun i hlo hhi => (h i hlo hhi).trans (h' i hlo hhi)

theorem Agree.mono {x : BitVec n} {y : BitVec m} {lo hi lo' hi' : ℕ}
    (h : Agree x y lo hi) (hlo : lo ≤ lo') (hhi : hi' ≤ hi) : Agree x y lo' hi' :=
  fun i h1 h2 => h i (le_trans hlo h1) (lt_of_lt_of_le h2 hhi)

/-- Agreement is what field reads can see. -/
theorem Agree.extract {x : BitVec n} {y : BitVec m} {lo hi off len : ℕ}
    (h : Agree x y lo hi) (hlo : lo ≤ off) (hhi : off + len ≤ hi) :
    x.extractLsb' off len = y.extractLsb' off len := by
  apply BitVec.eq_of_getLsbD_eq
  intro i hi'
  simp only [BitVec.getLsbD_extractLsb', hi', decide_true, Bool.true_and]
  exact h _ (by omega) (by omega)

theorem agree_splice (x : BitVec w) {off lo hi : ℕ} (v : BitVec n)
    (h : hi ≤ off ∨ off + n ≤ lo) : Agree (splice x off v) x lo hi := by
  intro i hlo hhi
  rw [getLsbD_splice]
  by_cases hw : i < w
  · rw [if_neg (by omega)]
    simp [hw]
  · have hx : x.getLsbD i = false := BitVec.getLsbD_of_ge x i (Nat.not_lt.mp hw)
    simp [hw, hx]

/-- The low part of an append is the low image. -/
theorem agree_append (x : BitVec n) (y : BitVec m) {hi : ℕ} (h : hi ≤ m) :
    Agree (x ++ y) y 0 hi := by
  intro i _ hhi
  simp [BitVec.getLsbD_append, show i < m by omega]

theorem extract_append_low (x : BitVec n) (y : BitVec m) {a k : ℕ} (h : a + k ≤ m) :
    (x ++ y).extractLsb' a k = y.extractLsb' a k := by
  have hlow : Agree (x ++ y) y 0 (a + k) := agree_append x y h
  exact hlow.extract (Nat.zero_le a) le_rfl

theorem extract_append_high (x : BitVec n) (y : BitVec m) {a k : ℕ} (h : m ≤ a) :
    (x ++ y).extractLsb' a k = x.extractLsb' (a - m) k := by
  apply BitVec.eq_of_getLsbD_eq
  intro i hi
  simp only [BitVec.getLsbD_extractLsb', BitVec.getLsbD_append, hi, decide_true, Bool.true_and]
  rw [if_neg (by omega), show a + i - m = a - m + i by omega]

/-! ## Reading a field back -/

theorem extract_splice (x : BitVec w) {off : ℕ} (v : BitVec n) (h : off + n ≤ w) :
    (splice x off v).extractLsb' off n = v := by
  apply BitVec.eq_of_getLsbD_eq
  intro i hi
  have hw : off + i < w := by omega
  rw [BitVec.getLsbD_extractLsb', getLsbD_splice, if_pos (by omega),
    show off + i - off = i by omega]
  simp [hi, hw]

theorem extract_splice_ne (x : BitVec w) {off a : ℕ} (v : BitVec n)
    (h : a + m ≤ off ∨ off + n ≤ a) :
    (splice x off v).extractLsb' a m = x.extractLsb' a m := by
  have hout : Agree (splice x off v) x a (a + m) := agree_splice x v h
  exact hout.extract le_rfl le_rfl

/-- A field of a field just written. -/
theorem extract_splice_sub (x : BitVec w) {off a : ℕ} (v : BitVec n)
    (hlo : off ≤ a) (hhi : a + m ≤ off + n) (hw : off + n ≤ w) :
    (splice x off v).extractLsb' a m = v.extractLsb' (a - off) m := by
  apply BitVec.eq_of_getLsbD_eq
  intro i hi
  have h1 : a + i < w := by omega
  rw [BitVec.getLsbD_extractLsb', getLsbD_splice, if_pos (by omega),
    BitVec.getLsbD_extractLsb', show a + i - off = a - off + i by omega]
  simp [hi, h1]

/-- A field of a field. -/
theorem extract_extract (x : BitVec w) {off a : ℕ} (h : a + m ≤ n) :
    (x.extractLsb' off n).extractLsb' a m = x.extractLsb' (off + a) m := by
  apply BitVec.eq_of_getLsbD_eq
  intro i hi
  have hn : a + i < n := by omega
  simp only [BitVec.getLsbD_extractLsb', hi, hn, decide_true, Bool.true_and]
  rw [Nat.add_assoc]

/-! ## Copying cells and bytes -/

/-- Copy `n` cells of `k` bits each to the bits of `x` from `off` on. -/
def copyCells {k : ℕ} (x : BitVec w) (off : ℕ) (src : ℕ → BitVec k) : ℕ → BitVec w
  | 0 => x
  | n + 1 => splice (copyCells x off src n) (off + k * n) (src n)

theorem agree_copyCells {k : ℕ} (x : BitVec w) (off : ℕ) (src : ℕ → BitVec k) {lo hi : ℕ} :
    ∀ n, hi ≤ off ∨ off + k * n ≤ lo → Agree (copyCells x off src n) x lo hi
  | 0, _ => Agree.refl _ _ _
  | n + 1, h => by
      rw [Nat.mul_succ] at h
      have ih : Agree (copyCells x off src n) x lo hi := agree_copyCells x off src n (by omega)
      exact (agree_splice _ (src n) (by omega)).trans ih

theorem extract_copyCells {k : ℕ} (x : BitVec w) (off : ℕ) (src : ℕ → BitVec k) {i : ℕ} :
    ∀ n, i < n → off + k * n ≤ w →
      (copyCells x off src n).extractLsb' (off + k * i) k = src i
  | n + 1, hi, hw => by
      rw [Nat.mul_succ] at hw
      by_cases h : i = n
      · subst h
        exact extract_splice _ _ (by omega)
      · have hle : k * (i + 1) ≤ k * n := Nat.mul_le_mul_left k (by omega)
        rw [Nat.mul_succ] at hle
        exact (extract_splice_ne _ _ (by omega)).trans
          (extract_copyCells x off src n (by omega) (by omega))

theorem copyCells_congr {k : ℕ} (x : BitVec w) (off : ℕ) {src src' : ℕ → BitVec k} :
    ∀ n, (∀ i < n, src i = src' i) → copyCells x off src n = copyCells x off src' n
  | 0, _ => rfl
  | n + 1, h => by
      have ih := copyCells_congr x off n fun i hi => h i (by omega)
      rw [copyCells, copyCells, ih, h n (by omega)]

/-- `memcpy(x + off, src, n)`, with `off` and `n` in bytes. -/
def copyBytes (x : BitVec w) (off : ℕ) (src : ℕ → BitVec 8) (n : ℕ) : BitVec w :=
  copyCells x (8 * off) src n

/-- Byte `k` of an image. -/
def byte (x : BitVec w) (k : ℕ) : BitVec 8 := x.extractLsb' (8 * k) 8

theorem agree_copyBytes (x : BitVec w) (off : ℕ) (src : ℕ → BitVec 8) {lo hi : ℕ} (n : ℕ)
    (h : hi ≤ 8 * off ∨ 8 * (off + n) ≤ lo) : Agree (copyBytes x off src n) x lo hi :=
  agree_copyCells x (8 * off) src n (by omega)

theorem byte_copyBytes (x : BitVec w) (off : ℕ) (src : ℕ → BitVec 8) {k n : ℕ}
    (hn : 8 * (off + n) ≤ w) :
    byte (copyBytes x off src n) k =
      if off ≤ k ∧ k < off + n then src (k - off) else byte x k := by
  by_cases h : off ≤ k ∧ k < off + n
  · rw [if_pos h, byte, show 8 * k = 8 * off + 8 * (k - off) by omega]
    exact extract_copyCells x (8 * off) src n (by omega) (by omega)
  · rw [if_neg h]
    have hout : Agree (copyBytes x off src n) x (8 * k) (8 * k + 8) :=
      agree_copyBytes x off src n (by omega)
    exact hout.extract le_rfl le_rfl

/-- The little-endian number in `n` bytes of a memory from `off` on. -/
def leBytes (mem : ℕ → BitVec 8) (off : ℕ) : ℕ → ℕ
  | 0 => 0
  | n + 1 => (mem off).toNat + 256 * leBytes mem (off + 1) n

theorem leBytes_congr {mem mem' : ℕ → BitVec 8} : ∀ {n off off' : ℕ},
    (∀ k < n, mem (off + k) = mem' (off' + k)) → leBytes mem off n = leBytes mem' off' n
  | 0, _, _, _ => rfl
  | n + 1, off, off', h => by
      have hrest : leBytes mem (off + 1) n = leBytes mem' (off' + 1) n := by
        apply leBytes_congr
        intro k hk
        have hnext := h (k + 1) (by omega)
        rwa [show off + (k + 1) = off + 1 + k by omega,
          show off' + (k + 1) = off' + 1 + k by omega] at hnext
      have hfirst : mem off = mem' off' := h 0 (by omega)
      rw [leBytes, leBytes, hfirst, hrest]

/-- A field of whole bytes is the little-endian number in them. -/
theorem leBytes_byte (x : BitVec w) : ∀ (n off : ℕ),
    leBytes (byte x) off n = (x.extractLsb' (8 * off) (8 * n)).toNat
  | 0, off => by simp [leBytes, Nat.mod_one]
  | n + 1, off => by
      rw [leBytes, leBytes_byte x n, byte, BitVec.extractLsb'_toNat, BitVec.extractLsb'_toNat,
        BitVec.extractLsb'_toNat, show 8 * (off + 1) = 8 * off + 8 by omega, Nat.shiftRight_add,
        Nat.shiftRight_eq_div_pow _ 8, show 8 * (n + 1) = 8 + 8 * n by omega, pow_add, Nat.mod_mul]
      rfl

/-- Images of whole bytes are equal when their bytes are. -/
theorem ext_byte {x y : BitVec (8 * n)} (h : ∀ k < n, byte x k = byte y k) : x = y := by
  apply BitVec.eq_of_getLsbD_eq
  intro i hi
  have hb := congrArg (fun b => b.getLsbD (i % 8)) (h (i / 8) (by omega))
  have hm : i % 8 < 8 := Nat.mod_lt _ (by decide)
  have hs : 8 * (i / 8) + i % 8 = i := Nat.div_add_mod i 8
  simp only [byte, BitVec.getLsbD_extractLsb', hm, hs, decide_true, Bool.true_and] at hb
  exact hb

end Image
