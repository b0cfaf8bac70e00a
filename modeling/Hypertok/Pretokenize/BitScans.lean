import Hypertok.Machine.Hops
import Hypertok.Machine.Loop

/-!
The scans over the 64 lanes of a mask that double their shift in each turn.

* `Cl100kFamily.smearUp`: `smear_up` of `cl100k_family.rs`.
* `digitRunSplits3`: `digit_run_splits3` of `mask.rs`.
* `bitScans_iff`: the bits that they set.
-/

namespace Hypertok

open Machine

/-- Hops of one width. -/
lemma iterate_add_stride (t n p : ℕ) : (· + t)^[n] p = p + n * t := by
  rw [add_right_iterate_apply, smul_eq_mul]

/-! ### Runs upward -/

namespace Cl100kFamily

/-- The variables of `smear_up`. -/
structure Smear where
  a : BitVec 64
  m : BitVec 64
  sh : ℕ

/-- One turn of the loop. -/
def smearStep (s : Smear) : Option (Smear ⊕ BitVec 64) :=
  if s.sh < 64 then
    some (.inl ⟨s.a ||| ((s.a <<< s.sh) &&& s.m), s.m &&& (s.m <<< s.sh), s.sh <<< 1⟩)
  else some (.inr s.a)

/-- `smear_up`. -/
def smearUp (seed within : BitVec 64) : Option (BitVec 64) := loop smearStep 7 ⟨seed, within, 1⟩

variable {seed within : BitVec 64} {s : Smear} {n p q : ℕ}

/-- After the turns for fewer than `n` hops: the accumulated bits are those that so few hops reach,
and a bit of the narrowed mask stands for `n` hops that end there. -/
structure Smear.Holds (seed within : BitVec 64) (n : ℕ) (s : Smear) : Prop where
  sh : s.sh = n
  a : ∀ q, s.a.getLsbD q ↔
    ReachedIn (· + 1) (fun p => within.getLsbD (p + 1)) (fun p => seed.getLsbD p) n q
  m : ∀ p, s.m.getLsbD (p + n) ↔ Hops (· + 1) (fun p => within.getLsbD (p + 1)) n p

lemma Smear.holds_start : Smear.Holds seed within 1 ⟨seed, within, 1⟩ where
  sh := rfl
  a _ := by rw [reachedIn_one]
  m _ := by rw [hops_one]

/-- One turn doubles the hops. -/
lemma Smear.Holds.step (h : s.Holds seed within n) :
    Smear.Holds seed within (n + n)
      ⟨s.a ||| ((s.a <<< s.sh) &&& s.m), s.m &&& (s.m <<< s.sh), s.sh <<< 1⟩ where
  sh := (Nat.shiftLeft_eq s.sh 1).trans (by rw [h.sh, pow_one, Nat.mul_two])
  a q := by
    rw [BitVec.getLsbD_or, BitVec.getLsbD_and, BitVec.getLsbD_shiftLeft, h.sh, reachedIn_add]
    simp only [Bool.or_eq_true, Bool.and_eq_true, decide_eq_true_eq, Bool.not_eq_true',
      decide_eq_false_iff_not, not_lt]
    refine or_congr (h.a q) ⟨?_, ?_⟩
    · rintro ⟨⟨⟨-, hge⟩, ha⟩, hm⟩
      rw [← Nat.sub_add_cancel hge] at hm
      refine ⟨q - n, (h.a _).mp ha, (h.m _).mp hm, ?_⟩
      rw [iterate_add_stride, Nat.mul_one, Nat.sub_add_cancel hge]
    · rintro ⟨p, hp, hhops, rfl⟩
      have hm := (h.m p).mpr hhops
      rw [iterate_add_stride, Nat.mul_one, Nat.add_sub_cancel]
      exact ⟨⟨⟨BitVec.lt_of_getLsbD hm, Nat.le_add_left n p⟩, (h.a p).mpr hp⟩, hm⟩
  m p := by
    have hback : p + (n + n) - n = p + n := by omega
    rw [BitVec.getLsbD_and, BitVec.getLsbD_shiftLeft, h.sh, hops_add, hback, ← h.m,
      iterate_add_stride, Nat.mul_one, ← h.m, Nat.add_assoc]
    simp only [Bool.and_eq_true, decide_eq_true_eq, Bool.not_eq_true', decide_eq_false_iff_not,
      not_lt]
    constructor
    · rintro ⟨hm, -, hm'⟩
      exact ⟨hm', hm⟩
    · rintro ⟨hm', hm⟩
      exact ⟨hm, ⟨BitVec.lt_of_getLsbD hm, by omega⟩, hm'⟩

/-- The loop ends with all hops inside a word. -/
lemma exists_smearUp (seed within : BitVec 64) : ∃ w, smearUp seed within = some w ∧
    ∀ q, w.getLsbD q ↔
      ReachedIn (· + 1) (fun p => within.getLsbD (p + 1)) (fun p => seed.getLsbD p) 64 q := by
  refine loop_eq_some (I := fun m s => m ≤ 6 ∧ s.Holds seed within (2 ^ (6 - m))) ?_
    (m := 6) ⟨le_rfl, Smear.holds_start⟩ (by omega)
  rintro m s ⟨hle, h⟩
  cases m with
  | zero =>
      refine .inr ⟨s.a, ?_, h.a⟩
      rw [smearStep, h.sh]
      rfl
  | succ m =>
      have hdouble : 2 ^ (6 - (m + 1)) + 2 ^ (6 - (m + 1)) = 2 ^ (6 - m) := by
        rw [← Nat.two_mul, ← pow_succ']
        congr 1
        omega
      have hlt : 2 ^ (6 - (m + 1)) < 2 ^ 6 := Nat.pow_lt_pow_right (by omega) (by omega)
      have hstep := h.step
      rw [hdouble] at hstep
      refine .inl ⟨_, ?_, m, by omega, by omega, hstep⟩
      rw [smearStep, if_pos (h.sh ▸ hlt)]

/-- The bits that are set: those of the seed, and those that a run of `within` leads to. -/
lemma reachedIn_iff_run : ReachedIn (· + 1) (fun p => within.getLsbD (p + 1))
    (fun p => seed.getLsbD p) 64 q ↔
      ∃ p ≤ q, seed.getLsbD p ∧ ∀ k, p < k → k ≤ q → within.getLsbD k := by
  constructor
  · rintro ⟨h, -, p, hp, hhops, rfl⟩
    rw [iterate_add_stride, Nat.mul_one]
    refine ⟨p, Nat.le_add_right p h, hp, fun k hlt hle => ?_⟩
    have hk := hhops (k - p - 1) (by omega)
    rw [iterate_add_stride, Nat.mul_one] at hk
    convert hk using 2
    omega
  · rintro ⟨p, hle, hp, hrun⟩
    have hq : q < 64 := by
      obtain rfl | hlt := Nat.eq_or_lt_of_le hle
      · exact BitVec.lt_of_getLsbD hp
      · exact BitVec.lt_of_getLsbD (hrun q hlt le_rfl)
    refine ⟨q - p, by omega, p, hp, fun k hk => ?_, ?_⟩
    · rw [iterate_add_stride, Nat.mul_one]
      exact hrun _ (by omega) (by omega)
    · rw [iterate_add_stride, Nat.mul_one, Nat.add_sub_cancel' hle]

end Cl100kFamily

/-! ### Groups of three digits -/

/-- The variables of `digit_run_splits3`. -/
structure Splits where
  b : BitVec 64
  c : BitVec 64
  sh : ℕ

/-- One turn of the loop. -/
def splitsStep (s : Splits) : Option (Splits ⊕ BitVec 64) :=
  if s.sh < 64 then
    some (.inl ⟨s.b ||| ((s.b &&& s.c) <<< s.sh), s.c &&& (s.c >>> s.sh), s.sh <<< 1⟩)
  else some (.inr s.b)

/-- `digit_run_splits3`. -/
def digitRunSplits3 (d : BitVec 64) : Option (BitVec 64) :=
  loop splitsStep 6 ⟨d &&& ~~~(d <<< 1), d &&& (d >>> 1) &&& (d >>> 2) &&& (d >>> 3), 3⟩

/-- A run of set bits starts at the position. -/
def RunStart (d : BitVec 64) (p : ℕ) : Prop := d.getLsbD p ∧ ∀ k, p = k + 1 → ¬ d.getLsbD k

/-- The bits from the position to the third one above it are set. -/
def FourSet (d : BitVec 64) (p : ℕ) : Prop := ∀ k ≤ 3, d.getLsbD (p + k)

variable {d : BitVec 64} {s : Splits} {n p q : ℕ}

/-- After the turns for fewer than `n` hops of three digits. -/
structure Splits.Holds (d : BitVec 64) (n : ℕ) (s : Splits) : Prop where
  sh : s.sh = n * 3
  b : ∀ q, s.b.getLsbD q ↔ ReachedIn (· + 3) (FourSet d) (RunStart d) n q
  c : ∀ p, s.c.getLsbD p ↔ Hops (· + 3) (FourSet d) n p

lemma Splits.holds_start : Splits.Holds d 1
    ⟨d &&& ~~~(d <<< 1), d &&& (d >>> 1) &&& (d >>> 2) &&& (d >>> 3), 3⟩ where
  sh := rfl
  b q := by
    rw [reachedIn_one, RunStart]
    cases q with
    | zero => simp
    | succ q =>
        rw [BitVec.getLsbD_and, BitVec.getLsbD_not, BitVec.getLsbD_shiftLeft]
        by_cases hd : d.getLsbD (q + 1) = true
        · simp [hd, BitVec.lt_of_getLsbD hd]
        · simp [hd]
  c p := by
    simp only [hops_one, FourSet, BitVec.getLsbD_and, BitVec.getLsbD_ushiftRight, Bool.and_eq_true,
      Nat.add_comm _ p]
    constructor
    · rintro ⟨⟨⟨h₀, h₁⟩, h₂⟩, h₃⟩ k hk
      interval_cases k
      · exact h₀
      · exact h₁
      · exact h₂
      · exact h₃
    · exact fun h => ⟨⟨⟨h 0 (by omega), h 1 (by omega)⟩, h 2 (by omega)⟩, h 3 le_rfl⟩

/-- One turn doubles the hops. -/
lemma Splits.Holds.step (hn : 0 < n) (h : s.Holds d n) :
    Splits.Holds d (n + n)
      ⟨s.b ||| ((s.b &&& s.c) <<< s.sh), s.c &&& (s.c >>> s.sh), s.sh <<< 1⟩ where
  sh := (Nat.shiftLeft_eq s.sh 1).trans (by rw [h.sh, pow_one, Nat.mul_two, Nat.add_mul])
  b q := by
    rw [BitVec.getLsbD_or, BitVec.getLsbD_shiftLeft, BitVec.getLsbD_and, h.sh, reachedIn_add]
    simp only [Bool.or_eq_true, Bool.and_eq_true, decide_eq_true_eq, Bool.not_eq_true',
      decide_eq_false_iff_not, not_lt]
    refine or_congr (h.b q) ⟨?_, ?_⟩
    · rintro ⟨⟨-, hge⟩, hb, hc⟩
      refine ⟨q - n * 3, (h.b _).mp hb, (h.c _).mp hc, ?_⟩
      rw [iterate_add_stride, Nat.sub_add_cancel hge]
    · rintro ⟨p, hp, hhops, rfl⟩
      rw [iterate_add_stride, Nat.add_sub_cancel]
      refine ⟨⟨?_, Nat.le_add_left _ p⟩, (h.b p).mpr hp, (h.c p).mpr hhops⟩
      have hlast := hhops (n - 1) (by omega) 3 le_rfl
      rw [iterate_add_stride] at hlast
      have hlt := BitVec.lt_of_getLsbD hlast
      omega
  c p := by
    rw [BitVec.getLsbD_and, BitVec.getLsbD_ushiftRight, h.sh, hops_add, iterate_add_stride,
      Bool.and_eq_true, h.c, Nat.add_comm (n * 3), h.c]

/-- The loop ends with all hops inside a word. -/
lemma exists_digitRunSplits3 (d : BitVec 64) : ∃ w, digitRunSplits3 d = some w ∧
    ∀ q, w.getLsbD q ↔ ReachedIn (· + 3) (FourSet d) (RunStart d) 32 q := by
  refine loop_eq_some (I := fun m s => m ≤ 5 ∧ s.Holds d (2 ^ (5 - m))) ?_
    (m := 5) ⟨le_rfl, Splits.holds_start⟩ (by omega)
  rintro m s ⟨hle, h⟩
  cases m with
  | zero =>
      refine .inr ⟨s.b, ?_, h.b⟩
      rw [splitsStep, h.sh]
      rfl
  | succ m =>
      have hdouble : 2 ^ (5 - (m + 1)) + 2 ^ (5 - (m + 1)) = 2 ^ (5 - m) := by
        rw [← Nat.two_mul, ← pow_succ']
        congr 1
        omega
      have hle : 2 ^ (5 - (m + 1)) ≤ 2 ^ 4 := Nat.pow_le_pow_right (by omega) (by omega)
      have hstep := h.step (Nat.two_pow_pos _)
      rw [hdouble] at hstep
      refine .inl ⟨_, ?_, m, by omega, by omega, hstep⟩
      rw [splitsStep, if_pos (by rw [h.sh]; omega)]

/-- The bits that are set: those of a run of digits whose distance from its start is a multiple of
three. -/
lemma reachedIn_iff_splits : ReachedIn (· + 3) (FourSet d) (RunStart d) 32 q ↔
    ∃ p ≤ q, RunStart d p ∧ (∀ k, p ≤ k → k ≤ q → d.getLsbD k) ∧ 3 ∣ q - p := by
  constructor
  · rintro ⟨h, -, p, hp, hhops, rfl⟩
    rw [iterate_add_stride]
    refine ⟨p, Nat.le_add_right p _, hp, fun k hle hk => ?_, ?_⟩
    · obtain rfl | hlt := Nat.eq_or_lt_of_le hle
      · exact hp.1
      · -- the hop that passes over `k`
        have hfour := hhops ((k - p - 1) / 3) (by omega) (k - p - (k - p - 1) / 3 * 3) (by omega)
        rw [iterate_add_stride] at hfour
        convert hfour using 2
        omega
    · rw [Nat.add_sub_cancel_left]
      exact Nat.dvd_mul_left 3 h
  · rintro ⟨p, hle, hp, hrun, h, hh⟩
    have hq : q < 64 := BitVec.lt_of_getLsbD (hrun q hle le_rfl)
    refine ⟨h, by omega, p, hp, fun k hk j hj => ?_, ?_⟩
    · rw [iterate_add_stride]
      exact hrun _ (by omega) (by omega)
    · rw [iterate_add_stride]
      omega

/-- What the two scans set, in all words. -/
theorem bitScans_iff :
    (∀ seed within : BitVec 64, ∃ w, Cl100kFamily.smearUp seed within = some w ∧
      ∀ q, w.getLsbD q ↔ ∃ p ≤ q, seed.getLsbD p ∧ ∀ k, p < k → k ≤ q → within.getLsbD k) ∧
    ∀ d : BitVec 64, ∃ w, digitRunSplits3 d = some w ∧
      ∀ q, w.getLsbD q ↔
        ∃ p ≤ q, RunStart d p ∧ (∀ k, p ≤ k → k ≤ q → d.getLsbD k) ∧ 3 ∣ q - p := by
  refine ⟨fun seed within => ?_, fun d => ?_⟩
  · obtain ⟨w, hw, hbits⟩ := Cl100kFamily.exists_smearUp seed within
    exact ⟨w, hw, fun q => (hbits q).trans Cl100kFamily.reachedIn_iff_run⟩
  · obtain ⟨w, hw, hbits⟩ := exists_digitRunSplits3 d
    exact ⟨w, hw, fun q => (hbits q).trans reachedIn_iff_splits⟩

/-- Digits at the lanes 1 to 7, and at the last two lanes. -/
example : digitRunSplits3 0xC0000000000000FE = some 0x4000000000000092 := by decide

end Hypertok
