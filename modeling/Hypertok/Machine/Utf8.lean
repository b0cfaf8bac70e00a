import Mathlib.Tactic

/-!
UTF-8 over lists of bytes: well-formedness and character boundaries, with the
bounds of the standard on the second byte (no overlong forms, no surrogates,
nothing above `U+10FFFF`).

* `CharAt`: the forms of a character at the front.
* `isUtf8_induction`: induction over the characters of a text.
* `isUtf8_take`: a text is cut in two at its character boundaries, and nowhere else.
-/

namespace Machine

/-- `0x80..=0xBF`. -/
def isContinuation (b : UInt8) : Bool := 0x80 ≤ b && b ≤ 0xBF

/-- The length of the character at the front, `none` if it is not well formed. -/
def utf8CharLen : List UInt8 → Option ℕ
  | [] => none
  | b₀ :: rest =>
      if b₀ < 0x80 then some 1
      else if b₀ < 0xC2 then none
      else
        match rest with
        | [] => none
        | b₁ :: rest =>
            if b₀ < 0xE0 then if isContinuation b₁ then some 2 else none
            else
              match rest with
              | [] => none
              | b₂ :: rest =>
                  if b₀ < 0xF0 then
                    if (if b₀ = 0xE0 then 0xA0 ≤ b₁ && b₁ ≤ 0xBF
                        else if b₀ = 0xED then 0x80 ≤ b₁ && b₁ ≤ 0x9F
                        else isContinuation b₁) && isContinuation b₂ then some 3 else none
                  else
                    match rest with
                    | [] => none
                    | b₃ :: _ =>
                        if (if b₀ = 0xF0 then 0x90 ≤ b₁ && b₁ ≤ 0xBF
                            else if b₀ = 0xF4 then 0x80 ≤ b₁ && b₁ ≤ 0x8F
                            else b₀ < 0xF4 && isContinuation b₁) &&
                            isContinuation b₂ && isContinuation b₃ then some 4 else none

/-- Characters are read off the front at most `n` times. -/
def isUtf8UpTo : ℕ → List UInt8 → Bool
  | _, [] => true
  | 0, _ :: _ => false
  | n + 1, bytes =>
      match utf8CharLen bytes with
      | none => false
      | some k => isUtf8UpTo n (bytes.drop k)

/-- `str::from_utf8(bytes).is_ok()`. -/
def isUtf8 (bytes : List UInt8) : Bool := isUtf8UpTo bytes.length bytes

/-- `str::is_char_boundary`: an end of the text, or a byte that starts a character. -/
def isCharBoundary (bytes : List UInt8) (i : ℕ) : Bool :=
  i = 0 || i = bytes.length || (bytes[i]?.any fun b => !isContinuation b)

/-! ### Characters -/

/-- The second byte of a character of three bytes. -/
def isSecondOf3 (b₀ b₁ : UInt8) : Bool :=
  if b₀ = 0xE0 then 0xA0 ≤ b₁ && b₁ ≤ 0xBF
  else if b₀ = 0xED then 0x80 ≤ b₁ && b₁ ≤ 0x9F
  else isContinuation b₁

/-- The second byte of a character of four bytes. -/
def isSecondOf4 (b₀ b₁ : UInt8) : Bool :=
  if b₀ = 0xF0 then 0x90 ≤ b₁ && b₁ ≤ 0xBF
  else if b₀ = 0xF4 then 0x80 ≤ b₁ && b₁ ≤ 0x8F
  else b₀ < 0xF4 && isContinuation b₁

/-- The forms of a character. -/
inductive CharAt : List UInt8 → ℕ → Prop
  | one {b₀ rest} : b₀ < 0x80 → CharAt (b₀ :: rest) 1
  | two {b₀ b₁ rest} : 0xC2 ≤ b₀ → b₀ < 0xE0 → isContinuation b₁ = true → CharAt (b₀ :: b₁ :: rest) 2
  | three {b₀ b₁ b₂ rest} : 0xE0 ≤ b₀ → b₀ < 0xF0 → isSecondOf3 b₀ b₁ = true →
      isContinuation b₂ = true → CharAt (b₀ :: b₁ :: b₂ :: rest) 3
  | four {b₀ b₁ b₂ b₃ rest} : 0xF0 ≤ b₀ → isSecondOf4 b₀ b₁ = true →
      isContinuation b₂ = true → isContinuation b₃ = true → CharAt (b₀ :: b₁ :: b₂ :: b₃ :: rest) 4

lemma utf8CharLen_cons_cons_cons_cons (b₀ b₁ b₂ b₃ : UInt8) (rest : List UInt8) :
    utf8CharLen (b₀ :: b₁ :: b₂ :: b₃ :: rest) =
      if b₀ < 0x80 then some 1
      else if b₀ < 0xC2 then none
      else if b₀ < 0xE0 then if isContinuation b₁ then some 2 else none
      else if b₀ < 0xF0 then
        if isSecondOf3 b₀ b₁ && isContinuation b₂ then some 3 else none
      else if isSecondOf4 b₀ b₁ && isContinuation b₂ && isContinuation b₃ then some 4 else none := rfl

lemma utf8CharLen_singleton (b₀ : UInt8) : utf8CharLen [b₀] = if b₀ < 0x80 then some 1 else none := by
  rw [← ite_self (c := b₀ < 0xC2) (none : Option ℕ)]
  rfl

lemma utf8CharLen_pair (b₀ b₁ : UInt8) :
    utf8CharLen [b₀, b₁] =
      if b₀ < 0x80 then some 1
      else if b₀ < 0xC2 then none
      else if b₀ < 0xE0 then if isContinuation b₁ then some 2 else none
      else none := rfl

lemma utf8CharLen_triple (b₀ b₁ b₂ : UInt8) :
    utf8CharLen [b₀, b₁, b₂] =
      if b₀ < 0x80 then some 1
      else if b₀ < 0xC2 then none
      else if b₀ < 0xE0 then if isContinuation b₁ then some 2 else none
      else if b₀ < 0xF0 then
        if isSecondOf3 b₀ b₁ && isContinuation b₂ then some 3 else none
      else none := rfl

lemma charAt_of_utf8CharLen {s : List UInt8} {k : ℕ} (h : utf8CharLen s = some k) : CharAt s k := by
  match s, h with
  | [b₀], h =>
      rw [utf8CharLen_singleton] at h
      split_ifs at h with h₁
      cases h
      exact .one h₁
  | [b₀, b₁], h =>
      rw [utf8CharLen_pair] at h
      split_ifs at h with h₁ h₂ h₃ h₄
      · cases h
        exact .one h₁
      · cases h
        exact .two (UInt8.not_lt.mp h₂) h₃ h₄
  | [b₀, b₁, b₂], h =>
      rw [utf8CharLen_triple] at h
      split_ifs at h with h₁ h₂ h₃ h₄ h₅ h₆
      · cases h
        exact .one h₁
      · cases h
        exact .two (UInt8.not_lt.mp h₂) h₃ h₄
      · cases h
        rw [Bool.and_eq_true] at h₆
        exact .three (UInt8.not_lt.mp h₃) h₅ h₆.1 h₆.2
  | b₀ :: b₁ :: b₂ :: b₃ :: rest, h =>
      rw [utf8CharLen_cons_cons_cons_cons] at h
      split_ifs at h with h₁ h₂ h₃ h₄ h₅ h₆ h₇
      · cases h
        exact .one h₁
      · cases h
        exact .two (UInt8.not_lt.mp h₂) h₃ h₄
      · cases h
        rw [Bool.and_eq_true] at h₆
        exact .three (UInt8.not_lt.mp h₃) h₅ h₆.1 h₆.2
      · cases h
        rw [Bool.and_eq_true, Bool.and_eq_true] at h₇
        exact .four (UInt8.not_lt.mp h₅) h₇.1.1 h₇.1.2 h₇.2

/-- A lead byte of a longer character is none of a shorter one. -/
lemma not_lt_of_le {a b c : UInt8} (h : a ≤ b) (hca : c ≤ a) : ¬ b < c :=
  UInt8.not_lt.mpr (UInt8.le_trans hca h)

lemma utf8CharLen_of_charAt {s : List UInt8} {k : ℕ} (h : CharAt s k) : utf8CharLen s = some k := by
  cases h with
  | one h₁ => exact if_pos h₁
  | @two b₀ b₁ rest h₁ h₂ h₃ =>
      change (if b₀ < 0x80 then some 1 else if b₀ < 0xC2 then none
        else if b₀ < 0xE0 then if isContinuation b₁ then some 2 else none else _) = some 2
      rw [if_neg (not_lt_of_le h₁ (by decide)), if_neg (not_lt_of_le h₁ (by decide)), if_pos h₂,
        if_pos h₃]
  | @three b₀ b₁ b₂ rest h₁ h₂ h₃ h₄ =>
      change (if b₀ < 0x80 then some 1 else if b₀ < 0xC2 then none
        else if b₀ < 0xE0 then if isContinuation b₁ then some 2 else none
        else if b₀ < 0xF0 then if isSecondOf3 b₀ b₁ && isContinuation b₂ then some 3 else none
        else _) = some 3
      rw [if_neg (not_lt_of_le h₁ (by decide)), if_neg (not_lt_of_le h₁ (by decide)),
        if_neg (not_lt_of_le h₁ (by decide)), if_pos h₂, if_pos (by rw [h₃, h₄]; rfl)]
  | @four b₀ b₁ b₂ b₃ rest h₁ h₂ h₃ h₄ =>
      rw [utf8CharLen_cons_cons_cons_cons, if_neg (not_lt_of_le h₁ (by decide)),
        if_neg (not_lt_of_le h₁ (by decide)), if_neg (not_lt_of_le h₁ (by decide)),
        if_neg (not_lt_of_le h₁ (by decide)), if_pos (by rw [h₂, h₃, h₄]; rfl)]

lemma isContinuation_of_isSecondOf3 {b₀ b₁ : UInt8} (h : isSecondOf3 b₀ b₁ = true) :
    isContinuation b₁ = true := by
  simp only [isSecondOf3, isContinuation, UInt8.le_iff_toNat_le] at h ⊢
  split_ifs at h <;> simp at h ⊢ <;> omega

lemma isContinuation_of_isSecondOf4 {b₀ b₁ : UInt8} (h : isSecondOf4 b₀ b₁ = true) :
    isContinuation b₁ = true := by
  simp only [isSecondOf4, isContinuation, UInt8.le_iff_toNat_le] at h ⊢
  split_ifs at h <;> simp at h ⊢ <;> omega

lemma isContinuation_of_lt {b : UInt8} (h : b < 0x80) : isContinuation b = false := by
  rw [isContinuation, decide_eq_false (UInt8.not_le.mpr h), Bool.false_and]

lemma isContinuation_of_le {b : UInt8} (h : 0xC2 ≤ b) : isContinuation b = false := by
  rw [isContinuation, decide_eq_false (UInt8.not_le.mpr (UInt8.lt_of_lt_of_le (by decide) h)),
    Bool.and_false]

namespace CharAt

variable {s : List UInt8} {k : ℕ} (h : CharAt s k)
include h

lemma pos : 0 < k := by cases h <;> decide

lemma le_length : k ≤ s.length := by cases h <;> simp

/-- What follows the character does not matter. -/
lemma take_append (rest : List UInt8) : CharAt (s.take k ++ rest) k := by
  cases h with
  | one h₁ => exact .one h₁
  | two h₁ h₂ h₃ => exact .two h₁ h₂ h₃
  | three h₁ h₂ h₃ h₄ => exact .three h₁ h₂ h₃ h₄
  | four h₁ h₂ h₃ h₄ => exact .four h₁ h₂ h₃ h₄

/-- Only the first byte starts a character. -/
lemma isContinuation_iff {i : ℕ} {b : UInt8} (hi : i < k) (hb : s[i]? = some b) :
    isContinuation b = true ↔ 0 < i := by
  cases h with
  | one h₁ =>
      obtain rfl : i = 0 := by omega
      cases hb
      simp [isContinuation_of_lt h₁]
  | two h₁ h₂ h₃ =>
      match i, hi, hb with
      | 0, _, rfl => simp [isContinuation_of_le h₁]
      | 1, _, rfl => simp [h₃]
  | three h₁ h₂ h₃ h₄ =>
      match i, hi, hb with
      | 0, _, rfl => simp [isContinuation_of_le (UInt8.le_trans (by decide) h₁)]
      | 1, _, rfl => simp [isContinuation_of_isSecondOf3 h₃]
      | 2, _, rfl => simp [h₄]
  | four h₁ h₂ h₃ h₄ =>
      match i, hi, hb with
      | 0, _, rfl => simp [isContinuation_of_le (UInt8.le_trans (by decide) h₁)]
      | 1, _, rfl => simp [isContinuation_of_isSecondOf4 h₂]
      | 2, _, rfl => simp [h₃]
      | 3, _, rfl => simp [h₄]

end CharAt

/-! ### Well-formed bytes -/

lemma isUtf8UpTo_cons (n : ℕ) (b : UInt8) (s : List UInt8) :
    isUtf8UpTo (n + 1) (b :: s) =
      match utf8CharLen (b :: s) with
      | none => false
      | some k => isUtf8UpTo n ((b :: s).drop k) := rfl

/-- The fuel of `isUtf8UpTo` bounds the number of characters. -/
lemma isUtf8UpTo_eq {n : ℕ} {s : List UInt8} (h : s.length ≤ n) : isUtf8UpTo n s = isUtf8 s := by
  have hgen : ∀ (n m : ℕ) (s : List UInt8), s.length ≤ n → s.length ≤ m →
      isUtf8UpTo n s = isUtf8UpTo m s := by
    intro n
    induction n with
    | zero =>
        intro m s hn _
        rw [List.length_eq_zero_iff.mp (Nat.le_zero.mp hn)]
        cases m <;> rfl
    | succ n ih =>
        intro m s hn hm
        cases s with
        | nil => cases m <;> rfl
        | cons b s =>
            obtain ⟨m, rfl⟩ : ∃ m', m = m' + 1 := ⟨m - 1, by simp at hm; omega⟩
            rw [isUtf8UpTo_cons, isUtf8UpTo_cons]
            cases hk : utf8CharLen (b :: s) with
            | none => rfl
            | some k =>
                have hpos := (charAt_of_utf8CharLen hk).pos
                have hdrop : ((b :: s).drop k).length ≤ s.length := by simp; omega
                rw [List.length_cons] at hn hm
                exact ih m _ (hdrop.trans (by omega)) (hdrop.trans (by omega))
  exact hgen n _ s h le_rfl

/-- A character at the front is read first. -/
lemma CharAt.isUtf8_eq {s : List UInt8} {k : ℕ} (h : CharAt s k) : isUtf8 s = isUtf8 (s.drop k) := by
  obtain ⟨b, s', rfl⟩ : ∃ b s', s = b :: s' := by cases h <;> exact ⟨_, _, rfl⟩
  have hpos := h.pos
  have hdrop : ((b :: s').drop k).length ≤ s'.length := by simp; omega
  rw [isUtf8, List.length_cons, isUtf8UpTo_cons, utf8CharLen_of_charAt h]
  exact isUtf8UpTo_eq hdrop

lemma exists_charAt {b : UInt8} {s : List UInt8} (h : isUtf8 (b :: s) = true) :
    ∃ k, CharAt (b :: s) k := by
  rw [isUtf8, List.length_cons, isUtf8UpTo_cons] at h
  cases hk : utf8CharLen (b :: s) with
  | none => simp [hk] at h
  | some k => exact ⟨k, charAt_of_utf8CharLen hk⟩

/-- Induction over the characters of a text. -/
theorem isUtf8_induction {P : List UInt8 → Prop} (nil : P [])
    (char : ∀ s k, CharAt s k → isUtf8 (s.drop k) = true → P (s.drop k) → P s) {s : List UInt8}
    (h : isUtf8 s = true) : P s := by
  induction hn : s.length using Nat.strong_induction_on generalizing s with
  | _ n ih =>
      cases s with
      | nil => exact nil
      | cons b s =>
          obtain ⟨k, hchar⟩ := exists_charAt h
          have hpos := hchar.pos
          rw [hchar.isUtf8_eq] at h
          exact char _ _ hchar h (ih _ (by rw [← hn]; simp; omega) h rfl)

lemma isUtf8_append {s t : List UInt8} (h : isUtf8 s = true) : isUtf8 (s ++ t) = isUtf8 t := by
  refine isUtf8_induction (P := fun s => isUtf8 (s ++ t) = isUtf8 t) rfl (fun s k hchar _ ih => ?_) h
  have happend : CharAt (s ++ t) k := by
    have hstable := hchar.take_append (s.drop k ++ t)
    rwa [← List.append_assoc, List.take_append_drop] at hstable
  rw [happend.isUtf8_eq, List.drop_append_of_le_length hchar.le_length, ih]

/-- A text that is not empty starts a character. -/
lemma isContinuation_head {b : UInt8} {s : List UInt8} (h : isUtf8 (b :: s) = true) :
    isContinuation b = false := by
  obtain ⟨k, hchar⟩ := exists_charAt h
  simpa using (hchar.isContinuation_iff hchar.pos rfl).not

lemma isCharBoundary_zero (s : List UInt8) : isCharBoundary s 0 = true := by simp [isCharBoundary]

/-- A text is cut in two at its character boundaries. -/
theorem isUtf8_take {s : List UInt8} (h : isUtf8 s = true) {i : ℕ} (hi : i ≤ s.length) :
    isUtf8 (s.take i) = true ↔ isCharBoundary s i = true := by
  constructor
  · intro htake
    have hdrop : isUtf8 (s.drop i) = true := by
      rwa [← isUtf8_append htake, List.take_append_drop]
    rw [isCharBoundary]
    cases hd : s.drop i with
    | nil =>
        have hlen : i = s.length := le_antisymm hi (List.drop_eq_nil_iff.mp hd)
        simp [hlen]
    | cons b rest =>
        have hget : s[i]? = some b := by rw [← List.head?_drop, hd, List.head?_cons]
        rw [hd] at hdrop
        simp [hget, isContinuation_head hdrop]
  · refine isUtf8_induction (P := fun s => ∀ i ≤ s.length, isCharBoundary s i = true →
      isUtf8 (s.take i) = true) (by simp [isUtf8, isUtf8UpTo]) (fun s k hchar hs ih i hi hb => ?_) h i hi
    rcases Nat.lt_or_ge i k with hlt | hge
    · -- inside of the first character there is no boundary but 0
      rcases Nat.eq_zero_or_pos i with rfl | hpos
      · rfl
      · have hlen := hchar.le_length
        obtain ⟨b, hget⟩ : ∃ b, s[i]? = some b := ⟨_, List.getElem?_eq_getElem (by omega)⟩
        have hcont := (hchar.isContinuation_iff hlt hget).mpr hpos
        have h0 : i ≠ 0 := by omega
        have hn : i ≠ s.length := by omega
        simp [isCharBoundary, hget, hcont, h0, hn] at hb
    · have htake : s.take i = s.take k ++ (s.drop k).take (i - k) := by
        rw [← List.take_add, Nat.add_sub_cancel' hge]
      have hchar' : CharAt (s.take i) k := htake ▸ hchar.take_append _
      rw [hchar'.isUtf8_eq, List.drop_take]
      refine ih (i - k) (by rw [List.length_drop]; omega) ?_
      rcases hge.eq_or_lt with rfl | hlt
      · rw [Nat.sub_self, isCharBoundary_zero]
      · simp only [isCharBoundary, List.length_drop, List.getElem?_drop, Bool.or_eq_true,
          decide_eq_true_eq] at hb ⊢
        rw [Nat.add_sub_cancel' hge]
        rcases hb with (h0 | hn) | hany
        · omega
        · exact .inl (.inr (by omega))
        · exact .inr hany

/-! ### Texts -/

/-- The UTF-8 bytes of a text. -/
def textBytes (t : List Char) : List UInt8 := t.flatMap String.utf8EncodeChar

/-- `str::from_utf8`. -/
def fromUtf8 (bytes : List UInt8) : Option (List Char) :=
  bytes.toByteArray.utf8Decode?.map Array.toList

@[simp] lemma textBytes_nil : textBytes [] = [] := rfl

lemma textBytes_append (t t' : List Char) : textBytes (t ++ t') = textBytes t ++ textBytes t' := by
  simp [textBytes]

lemma textBytes_cons (c : Char) (t : List Char) :
    textBytes (c :: t) = String.utf8EncodeChar c ++ textBytes t := by simp [textBytes]

/-- Bytes are read as the text that they encode. -/
lemma textBytes_flatten (parts : List (List Char)) :
    textBytes parts.flatten = (parts.map textBytes).flatten := by
  induction parts with
  | nil => rfl
  | cons part parts ih =>
      rw [List.flatten_cons, textBytes_append, ih, List.map_cons, List.flatten_cons]

lemma fromUtf8_textBytes (t : List Char) : fromUtf8 (textBytes t) = some t := by
  have h : (textBytes t).toByteArray = t.utf8Encode := rfl
  rw [fromUtf8, h, List.utf8Decode?_utf8Encode]
  rfl

lemma textBytes_of_fromUtf8 {bytes : List UInt8} {t : List Char} (h : fromUtf8 bytes = some t) :
    textBytes t = bytes := by
  obtain ⟨a, ha, rfl⟩ := Option.map_eq_some_iff.mp h
  have hsome : bytes.toByteArray.utf8Decode?.isSome := Option.isSome_of_eq_some ha
  have hget := ByteArray.utf8Encode_get_utf8Decode? (h := hsome)
  simp only [ha, Option.get_some] at hget
  exact List.toByteArray_inj.mp hget

lemma textBytes_inj {t t' : List Char} (h : textBytes t = textBytes t') : t = t' :=
  Option.some_inj.mp (by rw [← fromUtf8_textBytes t, h, fromUtf8_textBytes])

lemma length_utf8EncodeChar_pos (c : Char) : 0 < (String.utf8EncodeChar c).length := by
  rw [String.length_utf8EncodeChar]
  exact c.utf8Size_pos

lemma textBytes_eq_nil {t : List Char} : textBytes t = [] ↔ t = [] := by
  refine ⟨fun h => textBytes_inj (h.trans textBytes_nil.symm), ?_⟩
  rintro rfl
  rfl

lemma isContinuation_ofNat (n : ℕ) : isContinuation (UInt8.ofNat (n % 64 + 0x80)) = true := by
  have hsmall : ∀ k < 64, isContinuation (UInt8.ofNat (k + 0x80)) = true := by decide +kernel
  exact hsmall _ (Nat.mod_lt _ (by decide))

/-- The bytes of a character have one of the forms. -/
lemma charAt_utf8EncodeChar (c : Char) (rest : List UInt8) :
    CharAt (String.utf8EncodeChar c ++ rest) (String.utf8EncodeChar c).length := by
  have hvalid : c.val.toNat < 0xD800 ∨ 0xDFFF < c.val.toNat ∧ c.val.toNat < 0x110000 := c.valid
  have hofNat : ∀ n < 256, (UInt8.ofNat n).toNat = n := fun n hn => UInt8.toNat_ofNat_of_lt' hn
  rw [String.utf8EncodeChar]
  generalize c.val.toNat = v at hvalid
  split_ifs with h₁ h₂ h₃
  · refine .one (UInt8.lt_iff_toNat_lt.mpr ?_)
    rw [hofNat v (by omega)]
    exact Nat.lt_succ_of_le h₁
  · refine .two (UInt8.le_iff_toNat_le.mpr ?_) (UInt8.lt_iff_toNat_lt.mpr ?_)
      (isContinuation_ofNat _)
    · rw [hofNat _ (by omega)]
      change 0xC2 ≤ _
      omega
    · rw [hofNat _ (by omega)]
      change _ < 0xE0
      omega
  · refine .three (UInt8.le_iff_toNat_le.mpr ?_) (UInt8.lt_iff_toNat_lt.mpr ?_) ?_
      (isContinuation_ofNat _)
    · rw [hofNat _ (by omega)]
      change 0xE0 ≤ _
      omega
    · rw [hofNat _ (by omega)]
      change _ < 0xF0
      omega
    · simp only [isSecondOf3, ← UInt8.toNat_inj, isContinuation_ofNat, UInt8.le_iff_toNat_le]
      rw [hofNat _ (by omega), hofNat _ (by omega)]
      have he0 : (0xE0 : UInt8).toNat = 0xE0 := rfl
      have hed : (0xED : UInt8).toNat = 0xED := rfl
      have ha0 : (0xA0 : UInt8).toNat = 0xA0 := rfl
      have hbf : (0xBF : UInt8).toNat = 0xBF := rfl
      have h80 : (0x80 : UInt8).toNat = 0x80 := rfl
      have h9f : (0x9F : UInt8).toNat = 0x9F := rfl
      rw [he0, hed, ha0, hbf, h80, h9f]
      split_ifs
      · simp only [Bool.and_eq_true, decide_eq_true_eq]
        omega
      · simp only [Bool.and_eq_true, decide_eq_true_eq]
        omega
      · rfl
  · refine .four (UInt8.le_iff_toNat_le.mpr ?_) ?_ (isContinuation_ofNat _) (isContinuation_ofNat _)
    · rw [hofNat _ (by omega)]
      change 0xF0 ≤ _
      omega
    · simp only [isSecondOf4, ← UInt8.toNat_inj, isContinuation_ofNat, UInt8.le_iff_toNat_le,
        UInt8.lt_iff_toNat_lt]
      rw [hofNat _ (by omega), hofNat _ (by omega)]
      have hf0 : (0xF0 : UInt8).toNat = 0xF0 := rfl
      have hf4 : (0xF4 : UInt8).toNat = 0xF4 := rfl
      have h90 : (0x90 : UInt8).toNat = 0x90 := rfl
      have hbf : (0xBF : UInt8).toNat = 0xBF := rfl
      have h80 : (0x80 : UInt8).toNat = 0x80 := rfl
      have h8f : (0x8F : UInt8).toNat = 0x8F := rfl
      rw [hf0, hf4, h90, hbf, h80, h8f]
      split_ifs
      · simp only [Bool.and_eq_true, decide_eq_true_eq]
        omega
      · simp only [Bool.and_eq_true, decide_eq_true_eq]
        omega
      · rw [Bool.and_true, decide_eq_true_eq]
        omega

/-- The bytes of a character behind the first one continue it. -/
lemma isContinuation_of_append {c : Char} {u v : List UInt8} {b : UInt8}
    (h : u ++ b :: v = String.utf8EncodeChar c) (hu : u ≠ []) : isContinuation b = true := by
  have hchar := charAt_utf8EncodeChar c []
  rw [List.append_nil, ← h] at hchar
  have hlen : u.length < (u ++ b :: v).length := by simp
  refine (hchar.isContinuation_iff hlen ?_).mpr (List.length_pos_iff.mpr hu)
  rw [List.getElem?_append_right le_rfl, Nat.sub_self]
  rfl

/-! ### Lossy reading -/

/-- The bytes that one replacement stands for, where no character is at the front: as many as may
start a character, or one. -/
def utf8InvalidLen : List UInt8 → ℕ
  | [] => 0
  | [_] => 1
  | b₀ :: b₁ :: rest =>
      if 0xE0 ≤ b₀ && b₀ < 0xF0 && isSecondOf3 b₀ b₁ then 2
      else if 0xF0 ≤ b₀ && isSecondOf4 b₀ b₁ then if rest.head?.any isContinuation then 3 else 2
      else 1

/-- At most `n` characters and replacements are read off the front. -/
def fromUtf8LossyUpTo : ℕ → List UInt8 → List Char
  | _, [] => []
  | 0, _ :: _ => []
  | n + 1, bytes =>
      match utf8CharLen bytes with
      | some k => (fromUtf8 (bytes.take k)).getD [] ++ fromUtf8LossyUpTo n (bytes.drop k)
      | none => '\ufffd' :: fromUtf8LossyUpTo n (bytes.drop (utf8InvalidLen bytes))

/-- `String::from_utf8_lossy`. -/
def fromUtf8Lossy (bytes : List UInt8) : List Char := fromUtf8LossyUpTo bytes.length bytes

/-- Nothing is replaced in a text. -/
lemma fromUtf8Lossy_textBytes (t : List Char) : fromUtf8Lossy (textBytes t) = t := by
  suffices h : ∀ n, (textBytes t).length ≤ n → fromUtf8LossyUpTo n (textBytes t) = t from
    h _ le_rfl
  induction t with
  | nil =>
      intro n _
      cases n <;> rfl
  | cons c t ih =>
      intro n hn
      have hchar := charAt_utf8EncodeChar c (textBytes t)
      have hpos := length_utf8EncodeChar_pos c
      have hone : fromUtf8 (String.utf8EncodeChar c) = some [c] := by
        rw [← fromUtf8_textBytes [c], textBytes_cons, textBytes_nil, List.append_nil]
      rw [textBytes_cons] at hn ⊢
      rw [List.length_append] at hn
      obtain ⟨m, rfl⟩ : ∃ m, n = m + 1 := Nat.exists_eq_add_one.mpr (by omega)
      obtain ⟨b, bs, hbytes⟩ := List.exists_cons_of_length_pos hpos
      have hstep : fromUtf8LossyUpTo (m + 1) (String.utf8EncodeChar c ++ textBytes t) =
          match utf8CharLen (String.utf8EncodeChar c ++ textBytes t) with
          | some k => (fromUtf8 ((String.utf8EncodeChar c ++ textBytes t).take k)).getD [] ++
              fromUtf8LossyUpTo m ((String.utf8EncodeChar c ++ textBytes t).drop k)
          | none => '\ufffd' :: fromUtf8LossyUpTo m
              ((String.utf8EncodeChar c ++ textBytes t).drop
                (utf8InvalidLen (String.utf8EncodeChar c ++ textBytes t))) := by
        rw [hbytes]
        rfl
      rw [hstep, utf8CharLen_of_charAt hchar]
      dsimp only
      rw [List.take_left, List.drop_left, hone, Option.getD_some, ih m (by omega),
        List.singleton_append]

end Machine
