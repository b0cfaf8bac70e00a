import Hypertok.Machine.Utf8

/-!
`str::from_utf8` accepts the bytes of texts and no others.

* `exists_of_charAt`: bytes of one of the forms are the bytes of a character.
* `isUtf8_iff`: the bytes that are accepted.
-/

namespace Machine

lemma exists_char {v : ℕ} (hv : v < 0xD800 ∨ 0xDFFF < v ∧ v < 0x110000) :
    ∃ c : Char, c.val.toNat = v := by
  have hsmall : v < 2 ^ 32 := by omega
  have hval : (UInt32.ofNat v).toNat = v := UInt32.toNat_ofNat_of_lt' hsmall
  refine ⟨⟨UInt32.ofNat v, ?_⟩, hval⟩
  rw [UInt32.isValidChar, hval]
  exact hv

lemma toNat_of_isContinuation {b : UInt8} (h : isContinuation b = true) :
    0x80 ≤ b.toNat ∧ b.toNat < 0xC0 := by
  have hall : ∀ n < 256, isContinuation (UInt8.ofNat n) = true → 0x80 ≤ n ∧ n < 0xC0 := by
    decide +kernel
  exact hall _ b.toNat_lt (by rwa [UInt8.ofNat_toNat])

/-- Bytes of one of the forms start with the bytes of a character. -/
lemma exists_of_charAt {s : List UInt8} {k : ℕ} (h : CharAt s k) :
    ∃ c : Char, s = String.utf8EncodeChar c ++ s.drop k := by
  have hofNat : ∀ {b : UInt8} {n : ℕ}, n = b.toNat → UInt8.ofNat n = b := by
    rintro b _ rfl
    exact UInt8.ofNat_toNat
  cases h with
  | @one b₀ rest h₀ =>
      have h₀ : b₀.toNat < 0x80 := UInt8.lt_iff_toNat_lt.mp h₀
      obtain ⟨c, hc⟩ := exists_char (v := b₀.toNat) (by omega)
      refine ⟨c, ?_⟩
      rw [String.utf8EncodeChar, hc, if_pos (by omega), hofNat rfl]
      rfl
  | @two b₀ b₁ rest hlow hhigh h₁ =>
      have hlow : 0xC2 ≤ b₀.toNat := UInt8.le_iff_toNat_le.mp hlow
      have hhigh : b₀.toNat < 0xE0 := UInt8.lt_iff_toNat_lt.mp hhigh
      obtain ⟨hlow₁, hhigh₁⟩ := toNat_of_isContinuation h₁
      obtain ⟨c, hc⟩ :=
        exists_char (v := (b₀.toNat - 0xC0) * 64 + (b₁.toNat - 0x80)) (by omega)
      refine ⟨c, ?_⟩
      dsimp only [String.utf8EncodeChar]
      rw [hc, if_neg (by omega), if_pos (by omega), @hofNat b₀ _ (by omega),
        @hofNat b₁ _ (by omega)]
      rfl
  | @three b₀ b₁ b₂ rest hlow hhigh h₁ h₂ =>
      have hlow : 0xE0 ≤ b₀.toNat := UInt8.le_iff_toNat_le.mp hlow
      have hhigh : b₀.toNat < 0xF0 := UInt8.lt_iff_toNat_lt.mp hhigh
      obtain ⟨hlow₂, hhigh₂⟩ := toNat_of_isContinuation h₂
      have h₁ : 0x80 ≤ b₁.toNat ∧ b₁.toNat < 0xC0 ∧ (b₀.toNat = 0xE0 → 0xA0 ≤ b₁.toNat) ∧
          (b₀.toNat = 0xED → b₁.toNat < 0xA0) := by
        rw [isSecondOf3] at h₁
        split_ifs at h₁ with hfirst hlast
        · simp only [Bool.and_eq_true, decide_eq_true_eq, UInt8.le_iff_toNat_le,
            UInt8.reduceToNat] at h₁
          have hb₀ : b₀.toNat = 0xE0 := by rw [hfirst]; rfl
          omega
        · simp only [Bool.and_eq_true, decide_eq_true_eq, UInt8.le_iff_toNat_le,
            UInt8.reduceToNat] at h₁
          have hb₀ : b₀.toNat = 0xED := by rw [hlast]; rfl
          omega
        · obtain ⟨hlow₁, hhigh₁⟩ := toNat_of_isContinuation h₁
          exact ⟨hlow₁, hhigh₁, fun hb₀ => absurd (UInt8.toNat_inj.mp hb₀) hfirst,
            fun hb₀ => absurd (UInt8.toNat_inj.mp hb₀) hlast⟩
      obtain ⟨hlow₁, hhigh₁, hfirst, hsurrogate⟩ := h₁
      obtain ⟨c, hc⟩ := exists_char (v := (b₀.toNat - 0xE0) * 4096 + (b₁.toNat - 0x80) * 64 +
        (b₂.toNat - 0x80)) (by omega)
      refine ⟨c, ?_⟩
      dsimp only [String.utf8EncodeChar]
      rw [hc, if_neg (by omega), if_neg (by omega), if_pos (by omega), @hofNat b₀ _ (by omega),
        @hofNat b₁ _ (by omega), @hofNat b₂ _ (by omega)]
      rfl
  | @four b₀ b₁ b₂ b₃ rest hlow h₁ h₂ h₃ =>
      have hlow : 0xF0 ≤ b₀.toNat := UInt8.le_iff_toNat_le.mp hlow
      obtain ⟨hlow₂, hhigh₂⟩ := toNat_of_isContinuation h₂
      obtain ⟨hlow₃, hhigh₃⟩ := toNat_of_isContinuation h₃
      have h₁ : b₀.toNat < 0xF5 ∧ 0x80 ≤ b₁.toNat ∧ b₁.toNat < 0xC0 ∧
          (b₀.toNat = 0xF0 → 0x90 ≤ b₁.toNat) ∧ (b₀.toNat = 0xF4 → b₁.toNat < 0x90) := by
        rw [isSecondOf4] at h₁
        split_ifs at h₁ with hfirst hlast
        · simp only [Bool.and_eq_true, decide_eq_true_eq, UInt8.le_iff_toNat_le,
            UInt8.reduceToNat] at h₁
          have hb₀ : b₀.toNat = 0xF0 := by rw [hfirst]; rfl
          omega
        · simp only [Bool.and_eq_true, decide_eq_true_eq, UInt8.le_iff_toNat_le,
            UInt8.reduceToNat] at h₁
          have hb₀ : b₀.toNat = 0xF4 := by rw [hlast]; rfl
          omega
        · obtain ⟨hlt, h₁⟩ := Bool.and_eq_true_iff.mp h₁
          have hlt := UInt8.lt_iff_toNat_lt.mp (of_decide_eq_true hlt)
          obtain ⟨hlow₁, hhigh₁⟩ := toNat_of_isContinuation h₁
          simp only [UInt8.reduceToNat] at hlt
          exact ⟨by omega, hlow₁, hhigh₁, fun hb₀ => absurd (UInt8.toNat_inj.mp hb₀) hfirst,
            fun hb₀ => absurd (UInt8.toNat_inj.mp hb₀) hlast⟩
      obtain ⟨hhigh, hlow₁, hhigh₁, hfirst, hlast⟩ := h₁
      obtain ⟨c, hc⟩ := exists_char (v := (b₀.toNat - 0xF0) * 262144 + (b₁.toNat - 0x80) * 4096 +
        (b₂.toNat - 0x80) * 64 + (b₃.toNat - 0x80)) (by omega)
      refine ⟨c, ?_⟩
      dsimp only [String.utf8EncodeChar]
      rw [hc, if_neg (by omega), if_neg (by omega), if_neg (by omega), @hofNat b₀ _ (by omega),
        @hofNat b₁ _ (by omega), @hofNat b₂ _ (by omega), @hofNat b₃ _ (by omega)]
      rfl

/-- What `str::from_utf8` accepts. -/
theorem isUtf8_iff {s : List UInt8} : isUtf8 s = true ↔ ∃ x, s = textBytes x := by
  constructor
  · intro h
    refine isUtf8_induction (P := fun s => ∃ x, s = textBytes x) ⟨[], rfl⟩ ?_ h
    rintro s k hchar - ⟨x, hx⟩
    obtain ⟨c, hc⟩ := exists_of_charAt hchar
    exact ⟨c :: x, by rw [hc, textBytes_cons, hx]⟩
  · rintro ⟨x, rfl⟩
    induction x with
    | nil => rfl
    | cons c x ih =>
        rw [textBytes_cons, (charAt_utf8EncodeChar c (textBytes x)).isUtf8_eq, List.drop_left, ih]

end Machine
