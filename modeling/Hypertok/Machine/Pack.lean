import Mathlib.Tactic

/-!
Words.

* Two fields packed into one word, `a <<< n ||| b` with `b` below `2 ^ n`: the fields
  read back, and the order is lexicographic.
* `nextPowerOfTwo`, the size of a table with a mask for its index.
-/

namespace Machine

variable {n a a' b b' : ℕ}

lemma pack_eq (h : b < 2 ^ n) (a : ℕ) : a <<< n ||| b = 2 ^ n * a + b := by
  rw [← Nat.shiftLeft_add_eq_or_of_lt h, Nat.shiftLeft_eq, mul_comm]

lemma pack_shiftRight (h : b < 2 ^ n) (a : ℕ) : (a <<< n ||| b) >>> n = a := by
  rw [pack_eq h, Nat.shiftRight_eq_div_pow, Nat.mul_add_div (Nat.two_pow_pos n),
    Nat.div_eq_of_lt h, Nat.add_zero]

lemma pack_and (h : b < 2 ^ n) (a : ℕ) : (a <<< n ||| b) &&& (2 ^ n - 1) = b := by
  rw [pack_eq h, Nat.and_two_pow_sub_one_eq_mod, Nat.mul_add_mod, Nat.mod_eq_of_lt h]

/-- A word is the pack of its fields. -/
lemma pack_unpack (n x : ℕ) : (x >>> n) <<< n ||| x &&& (2 ^ n - 1) = x := by
  have hlt : x &&& (2 ^ n - 1) < 2 ^ n := by
    rw [Nat.and_two_pow_sub_one_eq_mod]
    exact Nat.mod_lt _ (Nat.two_pow_pos n)
  rw [pack_eq hlt, Nat.and_two_pow_sub_one_eq_mod, Nat.shiftRight_eq_div_pow, Nat.div_add_mod]

lemma pack_inj (h : b < 2 ^ n) (h' : b' < 2 ^ n) (heq : a <<< n ||| b = a' <<< n ||| b') :
    a = a' ∧ b = b' :=
  ⟨by rw [← pack_shiftRight h a, heq, pack_shiftRight h'],
    by rw [← pack_and h a, heq, pack_and h']⟩

lemma pack_lt {m : ℕ} (h : b < 2 ^ n) (ha : a < 2 ^ m) : a <<< n ||| b < 2 ^ (m + n) := by
  rw [pack_eq h, pow_add]
  calc 2 ^ n * a + b < 2 ^ n * a + 2 ^ n := by omega
    _ = 2 ^ n * (a + 1) := by ring
    _ ≤ 2 ^ n * 2 ^ m := Nat.mul_le_mul_left _ ha
    _ = 2 ^ m * 2 ^ n := mul_comm _ _

/-- Packed words are ordered by the high field, then by the low one. -/
lemma pack_le_iff (h : b < 2 ^ n) (h' : b' < 2 ^ n) :
    a <<< n ||| b ≤ a' <<< n ||| b' ↔ a < a' ∨ a = a' ∧ b ≤ b' := by
  rw [pack_eq h, pack_eq h']
  obtain hlt | rfl | hlt := lt_trichotomy a a'
  · have := Nat.mul_le_mul_left (2 ^ n) (Nat.succ_le_of_lt hlt)
    rw [Nat.mul_succ] at this
    constructor <;> intro <;> omega
  · omega
  · have := Nat.mul_le_mul_left (2 ^ n) (Nat.succ_le_of_lt hlt)
    rw [Nat.mul_succ] at this
    constructor <;> intro <;> omega

/-! ### Powers of two -/

/-- `usize::next_power_of_two`. -/
def nextPowerOfTwo (n : ℕ) : ℕ := if n ≤ 1 then 1 else 2 ^ (Nat.log2 (n - 1) + 1)

/-- The next power of two, and a bound on its exponent. -/
lemma nextPowerOfTwo_spec (n : ℕ) :
    ∃ e, nextPowerOfTwo n = 2 ^ e ∧ n ≤ 2 ^ e ∧ ∀ k, n ≤ 2 ^ k → e ≤ k := by
  by_cases hn : n ≤ 1
  · exact ⟨0, by simp [nextPowerOfTwo, hn], by simpa using hn, by simp⟩
  · refine ⟨Nat.log2 (n - 1) + 1, by simp [nextPowerOfTwo, hn], ?_, fun k hk => ?_⟩
    · have := @Nat.lt_log2_self (n - 1)
      omega
    · have := (Nat.log2_lt (n := n - 1) (k := k) (by omega)).mpr (by omega)
      omega

end Machine
