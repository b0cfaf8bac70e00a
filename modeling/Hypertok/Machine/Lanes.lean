import Mathlib.Data.Nat.Digits.Defs
import Mathlib.Tactic

/-!
A word as the vector of its bytes, the first one lowest: the operations on words work on all bytes
at once, as long as no subtraction borrows.

* `lanes f l`: the word of the bytes `f b`, for the bytes `b` of `l`.
* `lanes_or`, `lanes_and`, `lanes_sub`: the operations.
* `trailingZeros_lanes`: the first byte whose highest bit is set.
-/

namespace Machine

/-- The word of the bytes `f b`. -/
def lanes (f : UInt8 → ℕ) (l : List UInt8) : ℕ := Nat.ofDigits 256 (l.map f)

variable {f g : UInt8 → ℕ} {l : List UInt8}

@[simp] lemma lanes_nil : lanes f [] = 0 := rfl

@[simp] lemma lanes_cons (b : UInt8) (l : List UInt8) : lanes f (b :: l) = f b + 256 * lanes f l := by
  rw [lanes, List.map_cons, Nat.ofDigits_cons]
  rfl

lemma lanes_lt (h : ∀ b, f b < 256) (l : List UInt8) : lanes f l < 256 ^ l.length := by
  induction l with
  | nil => simp
  | cons b l ih =>
      have := h b
      rw [lanes_cons, List.length_cons, pow_succ]
      omega

lemma lanes_congr (h : ∀ b ∈ l, f b = g b) : lanes f l = lanes g l := by
  rw [lanes, lanes, List.map_congr_left h]

/-- Words with the same low byte and the same other bytes. -/
lemma eq_of_byte {x y : ℕ} (hmod : x % 2 ^ 8 = y % 2 ^ 8) (hdiv : x / 2 ^ 8 = y / 2 ^ 8) : x = y := by
  omega

/-- An operation on bits works on all bytes at once. -/
lemma lanes_op {op : ℕ → ℕ → ℕ} (hzero : op 0 0 = 0)
    (hmod : ∀ x y, op x y % 2 ^ 8 = op (x % 2 ^ 8) (y % 2 ^ 8))
    (hdiv : ∀ x y, op x y / 2 ^ 8 = op (x / 2 ^ 8) (y / 2 ^ 8)) (hf : ∀ b, f b < 256)
    (hg : ∀ b, g b < 256) (l : List UInt8) :
    op (lanes f l) (lanes g l) = lanes (fun b => op (f b) (g b)) l := by
  induction l with
  | nil => exact hzero
  | cons b l ih =>
      have hb : f b < 2 ^ 8 := hf b
      have hb' : g b < 2 ^ 8 := hg b
      have hbyte : op (f b) (g b) % 2 ^ 8 = op (f b) (g b) := by
        rw [hmod, Nat.mod_eq_of_lt hb, Nat.mod_eq_of_lt hb']
      rw [lanes_cons, lanes_cons, lanes_cons]
      refine eq_of_byte ?_ ?_
      · have h₁ : (f b + 256 * lanes f l) % 2 ^ 8 = f b := by omega
        have h₂ : (g b + 256 * lanes g l) % 2 ^ 8 = g b := by omega
        rw [hmod, h₁, h₂]
        omega
      · have h₁ : (f b + 256 * lanes f l) / 2 ^ 8 = lanes f l := by omega
        have h₂ : (g b + 256 * lanes g l) / 2 ^ 8 = lanes g l := by omega
        rw [hdiv, h₁, h₂, ih]
        omega

lemma lanes_or (hf : ∀ b, f b < 256) (hg : ∀ b, g b < 256) (l : List UInt8) :
    lanes f l ||| lanes g l = lanes (fun b => f b ||| g b) l :=
  lanes_op (by decide) (fun _ _ => Nat.or_mod_two_pow) (fun _ _ => Nat.or_div_two_pow) hf hg l

lemma lanes_and (hf : ∀ b, f b < 256) (hg : ∀ b, g b < 256) (l : List UInt8) :
    lanes f l &&& lanes g l = lanes (fun b => f b &&& g b) l :=
  lanes_op (by decide) (fun _ _ => Nat.and_mod_two_pow) (fun _ _ => Nat.and_div_two_pow) hf hg l

/-- No byte borrows from the next one. -/
lemma lanes_add_sub (h : ∀ b ∈ l, g b ≤ f b) :
    lanes (fun b => f b - g b) l + lanes g l = lanes f l := by
  induction l with
  | nil => rfl
  | cons b l ih =>
      obtain ⟨hb, hl⟩ := List.forall_mem_cons.mp h
      have := ih hl
      rw [lanes_cons, lanes_cons, lanes_cons]
      omega

lemma lanes_sub (h : ∀ b ∈ l, g b ≤ f b) :
    lanes f l - lanes g l = lanes (fun b => f b - g b) l :=
  Nat.sub_eq_of_eq_add (lanes_add_sub h).symm

lemma lanes_eq_zero : lanes f l = 0 ↔ ∀ b ∈ l, f b = 0 := by
  induction l with
  | nil => simp
  | cons b l ih =>
      rw [lanes_cons, List.forall_mem_cons, ← ih]
      omega

/-! ### Trailing zeros -/

/-- The number of zero bits below the lowest one that is set, of the `n` lowest bits. -/
def trailingZerosUpTo : ℕ → ℕ → ℕ
  | 0, _ => 0
  | n + 1, x => if x % 2 = 1 then 0 else trailingZerosUpTo n (x / 2) + 1

/-- `u64::trailing_zeros`. -/
def trailingZeros (word : UInt64) : ℕ := trailingZerosUpTo 64 word.toNat

lemma trailingZerosUpTo_mul (n k x : ℕ) :
    trailingZerosUpTo (n + k) (2 ^ k * x) = trailingZerosUpTo n x + k := by
  induction k with
  | zero => rw [pow_zero, one_mul, Nat.add_zero, Nat.add_zero]
  | succ k ih =>
      have hhalf : 2 ^ (k + 1) * x / 2 = 2 ^ k * x := by
        rw [pow_succ, mul_right_comm, Nat.mul_div_cancel _ (by decide)]
      have heven : ¬ 2 ^ (k + 1) * x % 2 = 1 := by
        rw [pow_succ, mul_right_comm, Nat.mul_mod_left]
        decide
      rw [← Nat.add_assoc, trailingZerosUpTo, if_neg heven, hhalf, ih, Nat.add_assoc]

/-- Where each byte is zero or has its highest bit alone, the first one that is not zero. -/
lemma trailingZeros_lanes (h : ∀ b ∈ l, f b = 0 ∨ f b = 0x80) (hne : ∃ b ∈ l, f b ≠ 0) :
    trailingZerosUpTo (8 * l.length) (lanes f l) / 8 = (l.takeWhile fun b => f b = 0).length := by
  induction l with
  | nil => simp at hne
  | cons b l ih =>
      obtain ⟨hb, hl⟩ := List.forall_mem_cons.mp h
      rw [lanes_cons, List.length_cons, Nat.mul_succ, List.takeWhile_cons]
      by_cases hzero : f b = 0
      · have hne' : ∃ b ∈ l, f b ≠ 0 := by
          obtain ⟨b', hb', hne⟩ := hne
          rcases List.mem_cons.mp hb' with rfl | hb'
          · exact absurd hzero hne
          · exact ⟨b', hb', hne⟩
        have hshift := trailingZerosUpTo_mul (8 * l.length) 8 (lanes f l)
        rw [if_pos (decide_eq_true hzero), hzero, Nat.zero_add, List.length_cons, ← ih hl hne']
        change trailingZerosUpTo (8 * l.length + 8) (2 ^ 8 * lanes f l) / 8 = _
        omega
      · have hbit := hb.resolve_left hzero
        have hshift := trailingZerosUpTo_mul (8 * l.length + 1) 7 (1 + 2 * lanes f l)
        have hodd : trailingZerosUpTo (8 * l.length + 1) (1 + 2 * lanes f l) = 0 :=
          if_pos (by omega)
        have hword : 0x80 + 256 * lanes f l = 2 ^ 7 * (1 + 2 * lanes f l) := by ring
        rw [if_neg (by rw [decide_eq_true_eq]; exact hzero), hbit, hword, List.length_nil]
        change trailingZerosUpTo (8 * l.length + 1 + 7) _ / 8 = 0
        rw [hshift, hodd]

end Machine
