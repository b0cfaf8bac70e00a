import Hypertok.Machine.Lanes
import Hypertok.Machine.Loop
import Hypertok.Machine.Pack
import Hypertok.Machine.Utf8
import Mathlib.Data.List.TakeWhile

/-!
The scans of `pretokenize/fast/mod.rs`. They read bytes at a position; `none` is a read behind the
end, which is not checked. The classes of the characters are a parameter.

* `At`: from the position on, the bytes are those of a text.
* `decodeCp_at`: `decode_cp` reads a character that is not ASCII.
* `swarScanLetters_eq`: eight bytes at a time, the same as one after the other.
* `scanLettersFrom_at`, `scanDigitsFrom_at`, `scanOtherFrom_at`, `scanNewlines_at`: a scan ends
  behind the characters of its class.
-/

namespace Hypertok

open Machine

/-- `CharClass`. -/
inductive CharClass
  | letter
  | number
  | whitespace
  | other
  deriving DecidableEq

/-- The classes of ASCII. -/
def asciiClass (cp : ℕ) : CharClass :=
  if 65 ≤ cp ∧ cp ≤ 90 ∨ 97 ≤ cp ∧ cp ≤ 122 then .letter
  else if 48 ≤ cp ∧ cp ≤ 57 then .number
  else if cp = 32 ∨ 9 ≤ cp ∧ cp ≤ 13 then .whitespace
  else .other

/-- `class_of`: a classification of the codepoints that agrees with ASCII. -/
structure ClassTable where
  classOf : ℕ → CharClass
  ascii : ∀ cp < 0x80, classOf cp = asciiClass cp

/-- `is_letter`. -/
def isLetter (b : UInt8) : Bool := (b ||| 0x20) - 97 < 26

/-- `is_digit`. -/
def isDigit (b : UInt8) : Bool := b - 48 < 10

/-- `is_ascii_ws`. -/
def isAsciiWs (b : UInt8) : Bool := b = 32 || b - 9 < 5

/-! ### Characters -/

/-- `CP_INVALID`. -/
def cpInvalid : ℕ := 0x10FFFF

/-- `decode_cp_inbounds`. -/
def decodeCpInbounds (bytes : List UInt8) (pos : ℕ) : Option (ℕ × ℕ) := do
  let b₀ := (← bytes[pos]?).toNat
  let b₁ := (← bytes[pos + 1]?).toNat &&& 0x3F
  if b₀ < 0xE0 then return ((b₀ &&& 0x1F) <<< 6 ||| b₁, 2)
  else do
    let b₂ := (← bytes[pos + 2]?).toNat &&& 0x3F
    if b₀ < 0xF0 then return ((b₀ &&& 0x0F) <<< 12 ||| b₁ <<< 6 ||| b₂, 3)
    else do
      let b₃ := (← bytes[pos + 3]?).toNat &&& 0x3F
      return (min ((b₀ &&& 0x07) <<< 18 ||| b₁ <<< 12 ||| b₂ <<< 6 ||| b₃) cpInvalid, 4)

/-- `decode_cp_near_end`. -/
def decodeCpNearEnd (bytes : List UInt8) (pos : ℕ) : Option (ℕ × ℕ) := do
  let b₀ := (← bytes[pos]?).toNat
  let need := if b₀ < 0xE0 then 2 else if b₀ < 0xF0 then 3 else 4
  if pos + need > bytes.length then return (cpInvalid, bytes.length - pos)
  else do
    let b₁ := (← bytes[pos + 1]?).toNat &&& 0x3F
    if need = 2 then return ((b₀ &&& 0x1F) <<< 6 ||| b₁, 2)
    else do
      let b₂ := (← bytes[pos + 2]?).toNat &&& 0x3F
      if need = 3 then return ((b₀ &&& 0x0F) <<< 12 ||| b₁ <<< 6 ||| b₂, 3)
      else do
        let b₃ := (← bytes[pos + 3]?).toNat &&& 0x3F
        return (min ((b₀ &&& 0x07) <<< 18 ||| b₁ <<< 12 ||| b₂ <<< 6 ||| b₃) cpInvalid, 4)

/-- `decode_cp`: the codepoint and its length. -/
def decodeCp (bytes : List UInt8) (pos : ℕ) : Option (ℕ × ℕ) :=
  if pos + 4 > bytes.length then decodeCpNearEnd bytes pos else decodeCpInbounds bytes pos

/-! ### Runs of bytes -/

/-- One turn of `while pos < len && cond(bytes[pos]) { pos += 1 }`. -/
def skipStep (cond : UInt8 → Bool) (bytes : List UInt8) (pos : ℕ) : Option (ℕ ⊕ ℕ) :=
  match bytes[pos]? with
  | none => some (.inr pos)
  | some b => if cond b then some (.inl (pos + 1)) else some (.inr pos)

/-- `while pos < len && cond(bytes[pos]) { pos += 1 }`. -/
def skipWhile (cond : UInt8 → Bool) (bytes : List UInt8) (pos : ℕ) : Option ℕ :=
  loop (skipStep cond bytes) (bytes.length + 1) pos

/-- `scan_newlines`. -/
def scanNewlines (bytes : List UInt8) (pos : ℕ) : Option ℕ :=
  skipWhile (fun b => b = 13 || b = 10) bytes pos

/-- `HI`. -/
def hiBits : UInt64 := 0x8080808080808080

/-- `swar64_letter_nonmask`. -/
def swar64LetterNonmask (word : UInt64) : UInt64 :=
  let lowered := word ||| 0x2020202020202020
  let geA := (lowered ||| hiBits) - 0x6161616161616161
  let leZ := 0xFAFAFAFAFAFAFAFA - lowered
  ~~~(geA &&& leZ) &&& hiBits

/-- `read_unaligned` of eight bytes, the first one lowest. -/
def readWord (bytes : List UInt8) : UInt64 := UInt64.ofNat (lanes UInt8.toNat bytes)

/-- One turn of the loop over words of `swar_scan_letters`: it breaks with the position, and
whether that is returned. -/
def swarStep (bytes : List UInt8) (pos : ℕ) : Option (ℕ ⊕ (ℕ × Bool)) :=
  if pos + 8 ≤ bytes.length then
    let word := readWord ((bytes.drop pos).take 8)
    if word &&& hiBits ≠ 0 then some (.inr (pos, false))
    else
      let nonletter := swar64LetterNonmask word
      if nonletter ≠ 0 then some (.inr (pos + trailingZeros nonletter / 8, true))
      else some (.inl (pos + 8))
  else some (.inr (pos, false))

/-- `swar_scan_letters`. -/
def swarScanLetters (bytes : List UInt8) (pos : ℕ) : Option ℕ := do
  let (pos, returned) ← loop (swarStep bytes) (bytes.length + 1) pos
  if returned then return pos else skipWhile isLetter bytes pos

/-! ### Runs of characters -/

variable (table : ClassTable) (cls : CharClass)

/-- `bytes[pos] >= 0x80`, and the character there is of the class: the position behind it. -/
def nonAsciiEnd (bytes : List UInt8) (pos : ℕ) : Option (Option ℕ) :=
  match bytes[pos]? with
  | none => some none
  | some b =>
      if 0x80 ≤ b then do
        let (cp, l) ← decodeCp bytes pos
        return if table.classOf cp = cls then some (pos + l) else none
      else some none

/-- A character of the class, which ASCII bytes are tested for by `cond`. -/
def classEndAt (cond : UInt8 → Bool) (bytes : List UInt8) (pos : ℕ) : Option (Option ℕ) :=
  match bytes[pos]? with
  | none => some none
  | some b => if cond b then some (some (pos + 1)) else nonAsciiEnd table cls bytes pos

/-- `letter_end_at`. -/
def letterEndAt (bytes : List UInt8) (pos : ℕ) : Option (Option ℕ) :=
  classEndAt table .letter isLetter bytes pos

/-- One turn of a scan: a run of ASCII, and one character that is not. -/
def scanFromStep (ascii : List UInt8 → ℕ → Option ℕ) (bytes : List UInt8) (pos : ℕ) :
    Option (ℕ ⊕ ℕ) := do
  let pos ← ascii bytes pos
  return match ← nonAsciiEnd table cls bytes pos with
    | some pos => .inl pos
    | none => .inr pos

/-- A scan. -/
def scanFrom (ascii : List UInt8 → ℕ → Option ℕ) (bytes : List UInt8) (pos : ℕ) : Option ℕ :=
  loop (scanFromStep table cls ascii bytes) (bytes.length + 1) pos

/-- `scan_letters_from`. -/
def scanLettersFrom (bytes : List UInt8) (pos : ℕ) : Option ℕ :=
  scanFrom table .letter swarScanLetters bytes pos

/-- `scan_digits_from`. -/
def scanDigitsFrom (bytes : List UInt8) (pos : ℕ) : Option ℕ :=
  scanFrom table .number (skipWhile isDigit) bytes pos

/-- The ASCII bytes that the inner loop of `scan_other_from` skips: it breaks at the others that
are not ASCII, and returns at letters, digits and spaces. -/
def isAsciiOther (b : UInt8) : Bool := b < 0x80 && !(isLetter b || isDigit b || isAsciiWs b)

/-- `scan_other_from`. -/
def scanOtherFrom (bytes : List UInt8) (pos : ℕ) : Option ℕ :=
  scanFrom table .other (skipWhile isAsciiOther) bytes pos

/-- The loop of `scan_numbers_max3`, for `left` more characters at most. -/
def scanNumbers (bytes : List UInt8) : ℕ → ℕ → Option ℕ
  | 0, pos => some pos
  | left + 1, pos =>
      match classEndAt table .number isDigit bytes pos with
      | none => none
      | some none => some pos
      | some (some pos) => scanNumbers bytes left pos

/-- `scan_numbers_max3`. -/
def scanNumbersMax3 (bytes : List UInt8) (pos consumed : ℕ) : Option ℕ :=
  scanNumbers table bytes (3 - consumed) pos

/-! ### Positions in a text -/

/-- From the position on, the bytes are those of the text. -/
structure At (bytes : List UInt8) (pos : ℕ) (t : List Char) : Prop where
  le : pos ≤ bytes.length
  drop_eq : bytes.drop pos = textBytes t

variable {table cls} {bytes : List UInt8} {pos : ℕ} {c : Char} {t : List Char}

lemma at_zero (t : List Char) : At (textBytes t) 0 t := ⟨Nat.zero_le _, rfl⟩

lemma At.length_eq (h : At bytes pos t) : pos + (textBytes t).length = bytes.length := by
  have hdrop := congrArg List.length h.drop_eq
  rw [List.length_drop] at hdrop
  have := h.le
  omega

/-- The position of a rest of the text. -/
lemma At.append {piece rest : List Char} (h : At bytes pos (piece ++ rest)) :
    At bytes (pos + (textBytes piece).length) rest := by
  have hlen := h.length_eq
  rw [textBytes_append, List.length_append] at hlen
  refine ⟨by omega, ?_⟩
  rw [← List.drop_drop, h.drop_eq, textBytes_append, List.drop_left]

lemma At.length_le (h : At bytes pos t) : t.length ≤ bytes.length := by
  have hchars : ∀ t : List Char, t.length ≤ (textBytes t).length := by
    intro t
    induction t with
    | nil => exact Nat.zero_le _
    | cons c t ih =>
        have := length_utf8EncodeChar_pos c
        rw [textBytes_cons, List.length_append, List.length_cons]
        omega
  have := h.length_eq
  have := hchars t
  omega

lemma At.nil (h : At bytes pos []) : bytes[pos]? = none :=
  List.getElem?_eq_none (by have := h.length_eq; rw [textBytes_nil, List.length_nil] at this; omega)

lemma At.lt (h : At bytes pos (c :: t)) : pos < bytes.length := by
  have := h.length_eq
  have := length_utf8EncodeChar_pos c
  rw [textBytes_cons, List.length_append] at *
  omega

lemma At.not_lt (h : At bytes pos []) : ¬ pos < bytes.length :=
  Nat.not_lt.mpr (List.getElem?_eq_none_iff.mp h.nil)

/-- A rest of the text has one position. -/
lemma At.pos_eq {q : ℕ} (h : At bytes pos t) (h' : At bytes q t) : pos = q :=
  Nat.add_right_cancel (h.length_eq.trans h'.length_eq.symm)

/-- The position behind a character. -/
lemma At.tail (h : At bytes pos (c :: t)) : At bytes (pos + (String.utf8EncodeChar c).length) t := by
  have happend : At bytes pos ([c] ++ t) := h
  have hnext := happend.append
  rwa [textBytes_cons, textBytes_nil, List.append_nil] at hnext

lemma At.getElem? (h : At bytes pos t) (i : ℕ) : bytes[pos + i]? = (textBytes t)[i]? := by
  rw [← List.getElem?_drop, h.drop_eq]

/-- A character of ASCII is one byte. -/
lemma utf8EncodeChar_ascii (hc : c.toNat < 0x80) :
    String.utf8EncodeChar c = [UInt8.ofNat c.toNat] := if_pos (Nat.le_of_lt_succ hc)

lemma At.ascii (h : At bytes pos (c :: t)) (hc : c.toNat < 0x80) :
    bytes[pos]? = some (UInt8.ofNat c.toNat) ∧ At bytes (pos + 1) t := by
  have hget := h.getElem? 0
  have hnext := h.tail
  rw [utf8EncodeChar_ascii hc] at hnext
  rw [textBytes_cons, utf8EncodeChar_ascii hc] at hget
  exact ⟨hget, hnext⟩

lemma and_mask (n x : ℕ) : x &&& (2 ^ n - 1) = x % 2 ^ n := Nat.and_two_pow_sub_one_eq_mod x n

lemma shift_three {a b d : ℕ} (hb : b < 2 ^ 6) (hd : d < 2 ^ 6) :
    a <<< 12 ||| b <<< 6 ||| d = 2 ^ 6 * (2 ^ 6 * a + b) + d := by
  have hshift : a <<< 12 ||| b <<< 6 = (a <<< 6 ||| b) <<< 6 := by
    rw [Nat.shiftLeft_or_distrib, ← Nat.shiftLeft_add]
  rw [hshift, pack_eq hd, pack_eq hb]

lemma shift_four {a b d e : ℕ} (hb : b < 2 ^ 6) (hd : d < 2 ^ 6) (he : e < 2 ^ 6) :
    a <<< 18 ||| b <<< 12 ||| d <<< 6 ||| e = 2 ^ 6 * (2 ^ 6 * (2 ^ 6 * a + b) + d) + e := by
  have hshift : a <<< 18 ||| b <<< 12 ||| d <<< 6 = (a <<< 12 ||| b <<< 6 ||| d) <<< 6 := by
    rw [Nat.shiftLeft_or_distrib, Nat.shiftLeft_or_distrib, ← Nat.shiftLeft_add,
      ← Nat.shiftLeft_add]
  rw [hshift, pack_eq he, shift_three hb hd]

lemma toNat_lt (c : Char) : c.toNat < 0x110000 := by
  rcases c.valid with h | ⟨-, h⟩
  · exact h.trans (by decide)
  · exact h

/-- What the bytes of a character carry. -/
lemma utf8EncodeChar_nonAscii (hc : 0x80 ≤ c.toNat) :
    (∃ b₀ b₁, String.utf8EncodeChar c = [b₀, b₁] ∧ 0xC0 ≤ b₀.toNat ∧ b₀.toNat < 0xE0 ∧
      (b₀.toNat &&& 0x1F) <<< 6 ||| (b₁.toNat &&& 0x3F) = c.toNat) ∨
    (∃ b₀ b₁ b₂, String.utf8EncodeChar c = [b₀, b₁, b₂] ∧ 0xE0 ≤ b₀.toNat ∧ b₀.toNat < 0xF0 ∧
      (b₀.toNat &&& 0x0F) <<< 12 ||| (b₁.toNat &&& 0x3F) <<< 6 ||| (b₂.toNat &&& 0x3F) =
        c.toNat) ∨
    ∃ b₀ b₁ b₂ b₃, String.utf8EncodeChar c = [b₀, b₁, b₂, b₃] ∧ 0xF0 ≤ b₀.toNat ∧
      (b₀.toNat &&& 0x07) <<< 18 ||| (b₁.toNat &&& 0x3F) <<< 12 ||| (b₂.toNat &&& 0x3F) <<< 6 |||
        (b₃.toNat &&& 0x3F) = c.toNat := by
  have hbyte : ∀ n < 256, (UInt8.ofNat n).toNat = n := fun n hn => UInt8.toNat_ofNat_of_lt' hn
  have h63 : ∀ x : ℕ, x &&& 0x3F = x % 2 ^ 6 := and_mask 6
  have hlow : ∀ x : ℕ, x % 2 ^ 6 < 2 ^ 6 := fun x => Nat.mod_lt _ (by decide)
  have hmax := toNat_lt c
  have hval : c.val.toNat = c.toNat := rfl
  generalize c.toNat = v at hc hmax hval
  rw [String.utf8EncodeChar]
  simp only [hval, h63]
  by_cases h₁ : v ≤ 0x7ff
  · refine .inl ⟨_, _, by rw [if_neg (by omega), if_pos h₁], ?_⟩
    rw [hbyte _ (by omega), hbyte _ (by omega)]
    refine ⟨by omega, by omega, ?_⟩
    rw [pack_eq (hlow _), show (0x1F : ℕ) = 2 ^ 5 - 1 from rfl, and_mask]
    omega
  · by_cases h₂ : v ≤ 0xffff
    · refine .inr (.inl ⟨_, _, _, by rw [if_neg (by omega), if_neg h₁, if_pos h₂], ?_⟩)
      rw [hbyte _ (by omega), hbyte _ (by omega), hbyte _ (by omega)]
      refine ⟨by omega, by omega, ?_⟩
      rw [shift_three (hlow _) (hlow _), show (0x0F : ℕ) = 2 ^ 4 - 1 from rfl, and_mask]
      omega
    · refine .inr (.inr ⟨_, _, _, _, by rw [if_neg (by omega), if_neg h₁, if_neg h₂], ?_⟩)
      rw [hbyte _ (by omega), hbyte _ (by omega), hbyte _ (by omega), hbyte _ (by omega)]
      refine ⟨by omega, ?_⟩
      rw [shift_four (hlow _) (hlow _) (hlow _), show (0x07 : ℕ) = 2 ^ 3 - 1 from rfl, and_mask]
      omega

/-- `decode_cp` reads a character that is not ASCII. -/
lemma decodeCp_at (h : At bytes pos (c :: t)) (hc : 0x80 ≤ c.toNat) :
    (∃ b, bytes[pos]? = some b ∧ 0x80 ≤ b) ∧ ∃ l, decodeCp bytes pos = some (c.toNat, l) ∧
      At bytes (pos + l) t := by
  have hnext := h.tail
  have hlen := h.length_eq
  have hget := h.getElem?
  rw [textBytes_cons] at hlen hget
  have hmin : min c.toNat cpInvalid = c.toNat := min_eq_left (Nat.le_of_lt_succ (toNat_lt c))
  have hle : ∀ (b : UInt8) {n : ℕ}, n ≤ b.toNat → 0x80 ≤ n → 0x80 ≤ b := fun b n hn h =>
    UInt8.le_iff_toNat_le.mpr (h.trans hn)
  obtain ⟨b₀, b₁, hbytes, hlo, hhi, hcode⟩ | ⟨b₀, b₁, b₂, hbytes, hlo, hhi, hcode⟩ |
    ⟨b₀, b₁, b₂, b₃, hbytes, hlo, hcode⟩ := utf8EncodeChar_nonAscii hc
  · rw [hbytes] at hlen hget hnext
    rw [List.length_append] at hlen
    change pos + (2 + _) = _ at hlen
    have h₀ : bytes[pos]? = some b₀ := hget 0
    have h₁ : bytes[pos + 1]? = some b₁ := hget 1
    refine ⟨⟨b₀, h₀, hle b₀ hlo (by decide)⟩, 2, ?_, hnext⟩
    by_cases hend : pos + 4 > bytes.length
    · rw [decodeCp, if_pos hend, decodeCpNearEnd]
      simp only [h₀, h₁, Option.bind_eq_bind, Option.bind_some, if_pos hhi, hcode]
      rw [if_neg (by omega)]
      rfl
    · rw [decodeCp, if_neg hend, decodeCpInbounds]
      simp only [h₀, h₁, Option.bind_eq_bind, Option.bind_some, if_pos hhi, hcode]
      rfl
  · rw [hbytes] at hlen hget hnext
    rw [List.length_append] at hlen
    change pos + (3 + _) = _ at hlen
    have h₀ : bytes[pos]? = some b₀ := hget 0
    have h₁ : bytes[pos + 1]? = some b₁ := hget 1
    have h₂ : bytes[pos + 2]? = some b₂ := hget 2
    have hlo' : ¬ b₀.toNat < 0xE0 := by omega
    refine ⟨⟨b₀, h₀, hle b₀ hlo (by decide)⟩, 3, ?_, hnext⟩
    by_cases hend : pos + 4 > bytes.length
    · rw [decodeCp, if_pos hend, decodeCpNearEnd]
      simp only [h₀, h₁, h₂, Option.bind_eq_bind, Option.bind_some, if_pos hhi, if_neg hlo', hcode]
      rw [if_neg (by omega)]
      rfl
    · rw [decodeCp, if_neg hend, decodeCpInbounds]
      simp only [h₀, h₁, h₂, Option.bind_eq_bind, Option.bind_some, if_pos hhi, if_neg hlo', hcode]
      rfl
  · rw [hbytes] at hlen hget hnext
    rw [List.length_append] at hlen
    change pos + (4 + _) = _ at hlen
    have h₀ : bytes[pos]? = some b₀ := hget 0
    have h₁ : bytes[pos + 1]? = some b₁ := hget 1
    have h₂ : bytes[pos + 2]? = some b₂ := hget 2
    have h₃ : bytes[pos + 3]? = some b₃ := hget 3
    have hlo' : ¬ b₀.toNat < 0xE0 := by omega
    have hmid : ¬ b₀.toNat < 0xF0 := by omega
    refine ⟨⟨b₀, h₀, hle b₀ hlo (by decide)⟩, 4, ?_, hnext⟩
    have hend : ¬ pos + 4 > bytes.length := by omega
    rw [decodeCp, if_neg hend, decodeCpInbounds]
    simp only [h₀, h₁, h₂, h₃, Option.bind_eq_bind, Option.bind_some, if_neg hlo', if_neg hmid,
      hcode, hmin]
    rfl

/-- The character is of the class. -/
def ClassTable.isA (table : ClassTable) (cls : CharClass) (c : Char) : Bool :=
  table.classOf c.toNat = cls

lemma ClassTable.isA_ascii (hc : c.toNat < 0x80) :
    table.isA cls c = decide (asciiClass c.toNat = cls) := by rw [isA, table.ascii _ hc]

/-- The test of a byte holds of the ASCII characters of the class. -/
def Recognizes (cond : UInt8 → Bool) (cls : CharClass) : Prop :=
  ∀ n < 256, cond (UInt8.ofNat n) = (decide (n < 0x80) && decide (asciiClass n = cls))

lemma recognizes_isLetter : Recognizes isLetter .letter := by
  rw [Recognizes]
  decide +kernel

lemma recognizes_isDigit : Recognizes isDigit .number := by
  rw [Recognizes]
  decide +kernel

lemma recognizes_isAsciiWs : Recognizes isAsciiWs .whitespace := by
  rw [Recognizes]
  decide +kernel

lemma recognizes_isAsciiOther : Recognizes isAsciiOther .other := by
  rw [Recognizes]
  decide +kernel

section

variable {cond : UInt8 → Bool}

lemma Recognizes.isA_eq (hcond : Recognizes cond cls) (table : ClassTable)
    (hc : c.toNat < 0x80) : cond (UInt8.ofNat c.toNat) = table.isA cls c := by
  rw [hcond _ (hc.trans (by decide)), ClassTable.isA_ascii hc, decide_eq_true hc, Bool.true_and]

lemma Recognizes.lt (hcond : Recognizes cond cls) {b : UInt8} (hb : cond b = true) : b < 0x80 := by
  have hbyte := hcond b.toNat b.toNat_lt
  rw [UInt8.ofNat_toNat, hb] at hbyte
  exact UInt8.lt_iff_toNat_lt.mpr (decide_eq_true_eq.mp (Bool.and_eq_true_iff.mp hbyte.symm).1)

lemma nonAsciiEnd_at (table : ClassTable) (cls : CharClass) (h : At bytes pos t) :
    (∃ c t' q, t = c :: t' ∧ 0x80 ≤ c.toNat ∧ table.isA cls c = true ∧
      nonAsciiEnd table cls bytes pos = some (some q) ∧ At bytes q t') ∨
    nonAsciiEnd table cls bytes pos = some none ∧
      ∀ c ∈ t.head?, 0x80 ≤ c.toNat → table.isA cls c = false := by
  cases t with
  | nil => exact .inr ⟨by rw [nonAsciiEnd, h.nil], fun c hc => absurd hc (Option.not_mem_none c)⟩
  | cons c t =>
      by_cases hc : c.toNat < 0x80
      · refine .inr ⟨?_, fun c' hc' hge => ?_⟩
        · have hlt : ¬ 0x80 ≤ UInt8.ofNat c.toNat := by
            rw [UInt8.not_le, UInt8.lt_iff_toNat_lt, UInt8.toNat_ofNat_of_lt' (hc.trans (by decide))]
            exact hc
          rw [nonAsciiEnd, (h.ascii hc).1]
          exact if_neg hlt
        · cases hc'
          exact absurd hc (Nat.not_lt.mpr hge)
      · obtain ⟨⟨b, hb, hge⟩, l, hdecode, hnext⟩ := decodeCp_at h (Nat.not_lt.mp hc)
        have hend : nonAsciiEnd table cls bytes pos =
            some (if table.classOf c.toNat = cls then some (pos + l) else none) := by
          simp only [nonAsciiEnd, hb, if_pos hge, hdecode, Option.bind_eq_bind, Option.bind_some]
          rfl
        by_cases hcls : table.classOf c.toNat = cls
        · rw [if_pos hcls] at hend
          exact .inl ⟨c, t, _, rfl, Nat.not_lt.mp hc, decide_eq_true hcls, hend, hnext⟩
        · rw [if_neg hcls] at hend
          refine .inr ⟨hend, fun c' hc' _ => ?_⟩
          cases hc'
          exact decide_eq_false hcls

lemma classEndAt_at (table : ClassTable) (hcond : Recognizes cond cls) (h : At bytes pos t) :
    (∃ c t' q, t = c :: t' ∧ table.isA cls c = true ∧
      classEndAt table cls cond bytes pos = some (some q) ∧ At bytes q t') ∨
    classEndAt table cls cond bytes pos = some none ∧ ∀ c ∈ t.head?, table.isA cls c = false := by
  have hend := nonAsciiEnd_at table cls h
  cases t with
  | nil => exact .inr ⟨by rw [classEndAt, h.nil], fun c hc => absurd hc (Option.not_mem_none c)⟩
  | cons c t =>
      by_cases hc : c.toNat < 0x80
      · obtain ⟨hget, hnext⟩ := h.ascii hc
        have hbyte := hcond.isA_eq table hc
        by_cases hA : table.isA cls c = true
        · refine .inl ⟨c, t, _, rfl, hA, ?_, hnext⟩
          rw [classEndAt, hget]
          exact if_pos (hbyte.trans hA)
        · rw [Bool.not_eq_true] at hA
          have hsame : classEndAt table cls cond bytes pos = nonAsciiEnd table cls bytes pos := by
            rw [classEndAt, hget]
            exact if_neg (by rw [hbyte, hA]; exact Bool.false_ne_true)
          obtain ⟨c', t', q, ht, hge, -⟩ | ⟨hnone, -⟩ := hend
          · cases ht
            exact absurd hc (Nat.not_lt.mpr hge)
          · refine .inr ⟨hsame.trans hnone, fun c' hc' => ?_⟩
            cases hc'
            exact hA
      · obtain ⟨⟨b, hget, hge⟩, -⟩ := decodeCp_at h (Nat.not_lt.mp hc)
        have hsame : classEndAt table cls cond bytes pos = nonAsciiEnd table cls bytes pos := by
          rw [classEndAt, hget]
          exact if_neg fun hb => UInt8.not_lt.mpr hge (hcond.lt hb)
        obtain ⟨c', t', q, ht, -, hA, hsome, hnext⟩ | ⟨hnone, hhead⟩ := hend
        · exact .inl ⟨c', t', q, ht, hA, hsame.trans hsome, hnext⟩
        · refine .inr ⟨hsame.trans hnone, fun c' hc' => hhead c' hc' ?_⟩
          cases hc'
          exact Nat.not_lt.mp hc

/-! ### The loops -/

/-- The position behind the bytes that meet the condition. -/
def runEnd (cond : UInt8 → Bool) (bytes : List UInt8) (pos : ℕ) : ℕ :=
  pos + ((bytes.drop pos).takeWhile cond).length

lemma runEnd_eq (cond : UInt8 → Bool) {b : UInt8} (hb : bytes[pos]? = some b) :
    runEnd cond bytes pos = if cond b then runEnd cond bytes (pos + 1) else pos := by
  have hdrop : bytes.drop pos = b :: bytes.drop (pos + 1) := by
    obtain ⟨hlt, rfl⟩ := List.getElem?_eq_some_iff.mp hb
    exact List.drop_eq_getElem_cons hlt
  rw [runEnd, runEnd, hdrop, List.takeWhile_cons]
  split_ifs
  · rw [List.length_cons]
    omega
  · rfl

lemma runEnd_of_none (cond : UInt8 → Bool) (hb : bytes[pos]? = none) :
    runEnd cond bytes pos = pos := by
  rw [runEnd, List.drop_eq_nil_iff.mpr (List.getElem?_eq_none_iff.mp hb)]
  rfl

lemma skipWhile_eq (cond : UInt8 → Bool) (hpos : pos ≤ bytes.length) :
    skipWhile cond bytes pos = some (runEnd cond bytes pos) := by
  have hstep : ∀ m p, p + m = bytes.length ∧ runEnd cond bytes p = runEnd cond bytes pos →
      (∃ p', skipStep cond bytes p = some (.inl p') ∧
        ∃ k < m, p' + k = bytes.length ∧ runEnd cond bytes p' = runEnd cond bytes pos) ∨
      ∃ q, skipStep cond bytes p = some (.inr q) ∧ q = runEnd cond bytes pos := by
    rintro m p ⟨hm, hp⟩
    cases hb : bytes[p]? with
    | none =>
        refine .inr ⟨p, by rw [skipStep, hb], ?_⟩
        rw [← hp, runEnd_of_none cond hb]
    | some b =>
        have hlt := (List.getElem?_eq_some_iff.mp hb).1
        rw [runEnd_eq cond hb] at hp
        by_cases hcond : cond b = true
        · rw [if_pos hcond] at hp
          refine .inl ⟨p + 1, ?_, m - 1, by omega, by omega, hp⟩
          rw [skipStep, hb]
          exact if_pos hcond
        · rw [if_neg hcond] at hp
          refine .inr ⟨p, ?_, hp⟩
          rw [skipStep, hb]
          exact if_neg hcond
  obtain ⟨q, hq, rfl⟩ := loop_eq_some hstep (m := bytes.length - pos) ⟨by omega, rfl⟩
    (n := bytes.length + 1) (by omega)
  exact hq

/-- The run in the text. -/
lemma At.runEnd {p : Char → Bool}
    (hcond : ∀ c : Char, c.toNat < 0x80 → cond (UInt8.ofNat c.toNat) = p c)
    (hascii : ∀ b, cond b = true → b < 0x80) (h : At bytes pos t) :
    At bytes (runEnd cond bytes pos) (t.dropWhile fun c => decide (c.toNat < 0x80) && p c) := by
  induction t generalizing pos with
  | nil => rwa [runEnd_of_none cond h.nil]
  | cons c t ih =>
      rw [List.dropWhile_cons]
      by_cases hc : c.toNat < 0x80
      · obtain ⟨hget, hnext⟩ := h.ascii hc
        rw [runEnd_eq cond hget, hcond c hc, decide_eq_true hc, Bool.true_and]
        split_ifs
        · exact ih hnext
        · exact h
      · obtain ⟨⟨b, hget, hge⟩, -⟩ := decodeCp_at h (Nat.not_lt.mp hc)
        have hb : ¬ cond b = true := fun hb => UInt8.not_lt.mpr hge (hascii b hb)
        rw [runEnd_eq cond hget, if_neg hb, decide_eq_false hc, Bool.false_and,
          if_neg Bool.false_ne_true]
        exact h

end

/-! ### Eight bytes at a time -/

section

variable {l : List UInt8}

lemma lanes_const (hlen : l.length = 8) (k : ℕ) :
    lanes (fun _ => k) l = k * 0x0101010101010101 := by
  rw [lanes, List.map_const', hlen]
  simp only [List.replicate, Nat.ofDigits_cons, Nat.ofDigits_nil]
  omega

lemma toNat_readWord (hlen : l.length = 8) : (readWord l).toNat = lanes UInt8.toNat l := by
  have hlt := lanes_lt (fun b => b.toNat_lt) l
  rw [hlen] at hlt
  exact UInt64.toNat_ofNat_of_lt' hlt

/-- The letters of a word of ASCII are its zero bytes. -/
lemma toNat_swar64LetterNonmask (hlen : l.length = 8) (hascii : ∀ b ∈ l, b < 0x80) :
    (swar64LetterNonmask (readWord l)).toNat = lanes (fun b => if isLetter b then 0 else 0x80) l := by
  have hbyte : ∀ b : UInt8, b.toNat < 256 := fun b => b.toNat_lt
  have hor : ∀ {x y : ℕ}, x < 2 ^ 8 → y < 2 ^ 8 → x ||| y < 2 ^ 8 := Nat.or_lt_two_pow
  have hlow : ∀ b : UInt8, b.toNat ||| 0x20 < 256 := fun b => hor (hbyte b) (by decide)
  have hhigh : ∀ b : UInt8, b.toNat ||| 0x20 ||| 0x80 < 256 := fun b => hor (hlow b) (by decide)
  have hlane : ∀ n < 128, 0x61 ≤ n ||| 0x20 ||| 0x80 ∧ n ||| 0x20 ≤ 0xFA ∧
      (0xFF - ((n ||| 0x20 ||| 0x80) - 0x61 &&& 0xFA - (n ||| 0x20))) &&& 0x80 =
        if isLetter (UInt8.ofNat n) then 0 else 0x80 := by decide +kernel
  have hascii' : ∀ b ∈ l, b.toNat < 128 := fun b hb => UInt8.lt_iff_toNat_lt.mp (hascii b hb)
  -- the word, and each operation on it, byte by byte
  have hlowered : (readWord l ||| 0x2020202020202020).toNat =
      lanes (fun b => b.toNat ||| 0x20) l := by
    rw [UInt64.toNat_or, toNat_readWord hlen, ← lanes_or hbyte (fun _ => by decide),
      lanes_const hlen]
    rfl
  have hhi : (readWord l ||| 0x2020202020202020 ||| hiBits).toNat =
      lanes (fun b => b.toNat ||| 0x20 ||| 0x80) l := by
    rw [UInt64.toNat_or, hlowered, ← lanes_or hlow (fun _ => by decide), lanes_const hlen 0x80]
    rfl
  have hge : ((readWord l ||| 0x2020202020202020 ||| hiBits) - 0x6161616161616161).toNat =
      lanes (fun b => (b.toNat ||| 0x20 ||| 0x80) - 0x61) l := by
    have hborrow : ∀ b ∈ l, 0x61 ≤ b.toNat ||| 0x20 ||| 0x80 := fun b hb =>
      (hlane _ (hascii' b hb)).1
    have hconst : (0x6161616161616161 : UInt64).toNat = lanes (fun _ => 0x61) l := by
      rw [lanes_const hlen]
      rfl
    have hsub := lanes_sub hborrow
    have hadd := lanes_add_sub hborrow
    rw [UInt64.toNat_sub_of_le, hhi, hconst, hsub]
    rw [UInt64.le_iff_toNat_le, hhi, hconst]
    omega
  have hle : (0xFAFAFAFAFAFAFAFA - (readWord l ||| 0x2020202020202020)).toNat =
      lanes (fun b => 0xFA - (b.toNat ||| 0x20)) l := by
    have hborrow : ∀ b ∈ l, b.toNat ||| 0x20 ≤ 0xFA := fun b hb => (hlane _ (hascii' b hb)).2.1
    have hconst : (0xFAFAFAFAFAFAFAFA : UInt64).toNat = lanes (fun _ => 0xFA) l := by
      rw [lanes_const hlen]
      rfl
    have hsub := lanes_sub hborrow
    have hadd := lanes_add_sub hborrow
    rw [UInt64.toNat_sub_of_le, hlowered, hconst, hsub]
    rw [UInt64.le_iff_toNat_le, hlowered, hconst]
    omega
  have hand : ∀ b : UInt8, (b.toNat ||| 0x20 ||| 0x80) - 0x61 &&& 0xFA - (b.toNat ||| 0x20) < 256 :=
    fun b => Nat.and_lt_two_pow _ (by have := hlow b; omega : _ < 2 ^ 8)
  have hnot : (~~~((readWord l ||| 0x2020202020202020 ||| hiBits) - 0x6161616161616161 &&&
      0xFAFAFAFAFAFAFAFA - (readWord l ||| 0x2020202020202020))).toNat =
      lanes (fun b => 0xFF - ((b.toNat ||| 0x20 ||| 0x80) - 0x61 &&&
        0xFA - (b.toNat ||| 0x20))) l := by
    have hconst : UInt64.size - 1 = lanes (fun _ => 0xFF) l := by
      rw [lanes_const hlen]
      rfl
    rw [UInt64.toNat_not, UInt64.toNat_and, hge, hle,
      lanes_and (fun b => by have := hhigh b; omega) (fun b => by omega)]
    rw [hconst, lanes_sub fun b _ => Nat.le_of_lt_succ (hand b)]
  rw [swar64LetterNonmask, UInt64.toNat_and, hnot]
  have hconst : hiBits.toNat = lanes (fun _ => 0x80) l := by
    rw [lanes_const hlen]
    rfl
  rw [hconst, lanes_and (fun b => by omega) (fun _ => by decide)]
  refine lanes_congr fun b hb => ?_
  have hbit := (hlane _ (hascii' b hb)).2.2
  rwa [UInt8.ofNat_toNat] at hbit

/-- The words without a high bit are those of ASCII. -/
lemma readWord_and_hiBits (hlen : l.length = 8) :
    readWord l &&& hiBits = 0 ↔ ∀ b ∈ l, b < 0x80 := by
  have hbit : ∀ n < 256, n &&& 0x80 = 0 ↔ n < 0x80 := by decide +kernel
  have hconst : hiBits.toNat = lanes (fun _ => 0x80) l := by
    rw [lanes_const hlen]
    rfl
  rw [← UInt64.toNat_inj, UInt64.toNat_and, toNat_readWord hlen, hconst,
    lanes_and (fun b => b.toNat_lt) (fun _ => by decide)]
  refine lanes_eq_zero.trans (forall₂_congr fun b _ => ?_)
  rw [hbit _ b.toNat_lt, UInt8.lt_iff_toNat_lt]
  rfl

/-- A run that goes on behind some bytes. -/
lemma runEnd_add {cond : UInt8 → Bool} {k : ℕ} (hk : pos + k ≤ bytes.length)
    (hall : ∀ b ∈ (bytes.drop pos).take k, cond b = true) :
    runEnd cond bytes pos = runEnd cond bytes (pos + k) := by
  have hsplit : bytes.drop pos = (bytes.drop pos).take k ++ bytes.drop (pos + k) := by
    rw [← List.drop_drop, List.take_append_drop]
  have hlen : ((bytes.drop pos).take k).length = k := by
    rw [List.length_take, List.length_drop]
    omega
  rw [runEnd, runEnd, hsplit, List.takeWhile_append_of_pos hall, List.length_append, hlen,
    Nat.add_assoc]

/-- A run that ends in some bytes. -/
lemma runEnd_take {cond : UInt8 → Bool} {k : ℕ}
    (hex : ∃ b ∈ (bytes.drop pos).take k, cond b ≠ true) :
    runEnd cond bytes pos = pos + (((bytes.drop pos).take k).takeWhile cond).length := by
  have hsplit : bytes.drop pos = (bytes.drop pos).take k ++ bytes.drop (pos + k) := by
    rw [← List.drop_drop, List.take_append_drop]
  have hne : (((bytes.drop pos).take k).takeWhile cond).length ≠ ((bytes.drop pos).take k).length := by
    intro hlen
    obtain ⟨b, hb, hcond⟩ := hex
    have hself := (List.takeWhile_prefix cond).eq_of_length hlen
    exact hcond (List.takeWhile_eq_self_iff.mp hself b hb)
  rw [runEnd]
  conv_lhs => rw [hsplit]
  rw [List.takeWhile_append, if_neg hne]

/-- `swar_scan_letters` is the scan of one byte after the other. -/
lemma swarScanLetters_eq (hpos : pos ≤ bytes.length) :
    swarScanLetters bytes pos = some (runEnd isLetter bytes pos) := by
  have hstep : ∀ m p, p ≤ bytes.length ∧ bytes.length - p = m ∧
      runEnd isLetter bytes p = runEnd isLetter bytes pos →
      (∃ p', swarStep bytes p = some (.inl p') ∧ ∃ k < m, p' ≤ bytes.length ∧
        bytes.length - p' = k ∧ runEnd isLetter bytes p' = runEnd isLetter bytes pos) ∨
      ∃ q : ℕ × Bool, swarStep bytes p = some (.inr q) ∧
        (if q.2 then some q.1 else skipWhile isLetter bytes q.1) =
          some (runEnd isLetter bytes pos) := by
    rintro m p ⟨hp, hm, hend⟩
    have hbreak : skipWhile isLetter bytes p = some (runEnd isLetter bytes pos) := by
      rw [skipWhile_eq isLetter hp, hend]
    by_cases h8 : p + 8 ≤ bytes.length
    · have hlen : ((bytes.drop p).take 8).length = 8 := by
        rw [List.length_take, List.length_drop]
        omega
      rw [swarStep, if_pos h8]
      dsimp only
      by_cases hhi : readWord ((bytes.drop p).take 8) &&& hiBits = 0
      · have hascii := (readWord_and_hiBits hlen).mp hhi
        have hmask := toNat_swar64LetterNonmask hlen hascii
        rw [if_neg (not_not_intro hhi)]
        by_cases hletters : swar64LetterNonmask (readWord ((bytes.drop p).take 8)) = 0
        · have hall : ∀ b ∈ (bytes.drop p).take 8, isLetter b = true := by
            rw [hletters] at hmask
            intro b hb
            have hzero := lanes_eq_zero.mp hmask.symm b hb
            split_ifs at hzero with hb
            exact hb
          refine .inl ⟨p + 8, ?_, m - 8, by omega, by omega, by omega, ?_⟩
          · rw [if_neg (not_not_intro hletters)]
          · rw [← runEnd_add h8 hall, hend]
        · have hex : ∃ b ∈ (bytes.drop p).take 8, (if isLetter b then 0 else 0x80) ≠ 0 := by
            have hne : (swar64LetterNonmask (readWord ((bytes.drop p).take 8))).toNat ≠ 0 :=
              fun h => hletters (UInt64.toNat_inj.mp h)
            rw [hmask, Ne, lanes_eq_zero] at hne
            push Not at hne
            exact hne
          have hfirst := trailingZeros_lanes (fun b _ => by split_ifs <;> simp) hex
          rw [hlen, ← hmask] at hfirst
          have hzero : (fun b : UInt8 => decide ((if isLetter b then 0 else 0x80) = 0)) = isLetter := by
            funext b
            cases isLetter b <;> rfl
          rw [hzero] at hfirst
          refine .inr ⟨_, if_pos hletters, ?_⟩
          have hnot : ∃ b ∈ (bytes.drop p).take 8, isLetter b ≠ true := by
            obtain ⟨b, hb, hne⟩ := hex
            exact ⟨b, hb, fun h => hne (if_pos h)⟩
          rw [if_pos rfl, ← hend, runEnd_take hnot, ← hfirst]
          rfl
      · rw [if_pos hhi]
        exact .inr ⟨_, rfl, hbreak⟩
    · rw [swarStep, if_neg h8]
      exact .inr ⟨_, rfl, hbreak⟩
  obtain ⟨q, hq, hresult⟩ := loop_eq_some hstep (m := bytes.length - pos) ⟨hpos, rfl, rfl⟩
    (n := bytes.length + 1) (by omega)
  rw [swarScanLetters, hq]
  exact hresult

end

/-! ### The scans of a text -/

section

variable {cond : UInt8 → Bool}

lemma dropWhile_dropWhile {α : Type*} {p q : α → Bool} (h : ∀ a, p a = true → q a = true)
    (l : List α) : (l.dropWhile p).dropWhile q = l.dropWhile q := by
  induction l with
  | nil => rfl
  | cons a l ih =>
      by_cases ha : p a = true
      · rw [List.dropWhile_cons_of_pos ha, List.dropWhile_cons_of_pos (h a ha), ih]
      · rw [List.dropWhile_cons_of_neg ha]

lemma dropWhile_eq_self {α : Type*} {p : α → Bool} {l : List α} (h : ∀ a ∈ l.head?, p a = false) :
    l.dropWhile p = l := by
  cases l with
  | nil => rfl
  | cons a l => exact List.dropWhile_cons_of_neg (by rw [h a rfl]; exact Bool.false_ne_true)

lemma of_mem_head?_dropWhile {α : Type*} {p : α → Bool} {l : List α} {a : α}
    (h : a ∈ (l.dropWhile p).head?) : p a = false := by
  have hnot := List.head?_dropWhile_not p l
  rw [Option.mem_def.mp h] at hnot
  exact hnot

/-- A scan ends behind the characters of its class. -/
theorem scanFrom_at (table : ClassTable) (hcond : Recognizes cond cls)
    {ascii : List UInt8 → ℕ → Option ℕ}
    (hascii : ∀ p ≤ bytes.length, ascii bytes p = some (runEnd cond bytes p))
    (h : At bytes pos t) :
    ∃ q, scanFrom table cls ascii bytes pos = some q ∧
      At bytes q (t.dropWhile (table.isA cls)) := by
  have hstep : ∀ m p, (∃ u, At bytes p u ∧ u.length = m ∧
        u.dropWhile (table.isA cls) = t.dropWhile (table.isA cls)) →
      (∃ p', scanFromStep table cls ascii bytes p = some (.inl p') ∧ ∃ k < m, ∃ u, At bytes p' u ∧
        u.length = k ∧ u.dropWhile (table.isA cls) = t.dropWhile (table.isA cls)) ∨
      ∃ q, scanFromStep table cls ascii bytes p = some (.inr q) ∧
        At bytes q (t.dropWhile (table.isA cls)) := by
    rintro m p ⟨u, hu, rfl, hdrop⟩
    have hrun := hu.runEnd (fun c => hcond.isA_eq table) fun _ => hcond.lt
    have hlater := dropWhile_dropWhile (p := fun c => decide (c.toNat < 0x80) && table.isA cls c)
      (q := table.isA cls) (fun c hc => (Bool.and_eq_true_iff.mp hc).2) u
    have hshort := List.length_dropWhile_le
      (fun c : Char => decide (c.toNat < 0x80) && table.isA cls c) u
    have hhead : ∀ c ∈ (u.dropWhile fun c => decide (c.toNat < 0x80) && table.isA cls c).head?,
        (decide (c.toNat < 0x80) && table.isA cls c) = false := fun c => of_mem_head?_dropWhile
    generalize (u.dropWhile fun c => decide (c.toNat < 0x80) && table.isA cls c) = v
      at hrun hlater hshort hhead
    rw [scanFromStep, hascii p hu.le, Option.bind_eq_bind, Option.bind_some]
    obtain ⟨c, v', q, rfl, -, hA, hsome, hnext⟩ | ⟨hnone, hhigh⟩ := nonAsciiEnd_at table cls hrun
    · rw [hsome]
      rw [List.length_cons] at hshort
      refine .inl ⟨q, rfl, v'.length, by omega, v', hnext, rfl, ?_⟩
      rw [← hdrop, ← hlater, List.dropWhile_cons_of_pos hA]
    · rw [hnone]
      refine .inr ⟨_, rfl, ?_⟩
      have hself : v.dropWhile (table.isA cls) = v := by
        refine dropWhile_eq_self fun c hc => ?_
        by_cases hlow : c.toNat < 0x80
        · have hclass := hhead c hc
          rwa [decide_eq_true hlow, Bool.true_and] at hclass
        · exact hhigh c hc (Nat.not_lt.mp hlow)
      rw [← hdrop, ← hlater, hself]
      exact hrun
  exact loop_eq_some hstep ⟨t, h, rfl, rfl⟩ (Nat.lt_succ_of_le h.length_le)

lemma scanLettersFrom_at (table : ClassTable) (h : At bytes pos t) :
    ∃ q, scanLettersFrom table bytes pos = some q ∧
      At bytes q (t.dropWhile (table.isA .letter)) :=
  scanFrom_at table recognizes_isLetter (fun _ => swarScanLetters_eq) h

lemma scanDigitsFrom_at (table : ClassTable) (h : At bytes pos t) :
    ∃ q, scanDigitsFrom table bytes pos = some q ∧
      At bytes q (t.dropWhile (table.isA .number)) :=
  scanFrom_at table recognizes_isDigit (fun _ => skipWhile_eq isDigit) h

lemma scanOtherFrom_at (table : ClassTable) (h : At bytes pos t) :
    ∃ q, scanOtherFrom table bytes pos = some q ∧
      At bytes q (t.dropWhile (table.isA .other)) :=
  scanFrom_at table recognizes_isAsciiOther (fun _ => skipWhile_eq isAsciiOther) h

/-- `\r` or `\n`. -/
def isNewline (c : Char) : Bool := c = '\r' || c = '\n'

lemma scanNewlines_at (h : At bytes pos t) :
    ∃ q, scanNewlines bytes pos = some q ∧ At bytes q (t.dropWhile isNewline) := by
  have hbyte : ∀ n < 0x80, (decide (UInt8.ofNat n = 13) || decide (UInt8.ofNat n = 10)) =
      (decide (n = 13) || decide (n = 10)) := by decide +kernel
  have hchar : ∀ c : Char, isNewline c = (decide (c.toNat = 13) || decide (c.toNat = 10)) := by
    intro c
    have hr : c = '\r' ↔ c.toNat = 13 := Char.toNat_inj.symm
    have hn : c = '\n' ↔ c.toNat = 10 := Char.toNat_inj.symm
    simp only [isNewline, hr, hn]
  have hlow : ∀ b : UInt8, (decide (b = 13) || decide (b = 10)) = true → b < 0x80 := by
    intro b hb
    rcases Bool.or_eq_true_iff.mp hb with hb | hb
    · rw [of_decide_eq_true hb]
      decide
    · rw [of_decide_eq_true hb]
      decide
  have hpred : (fun c : Char => decide (c.toNat < 0x80) && isNewline c) = isNewline := by
    funext c
    rw [hchar, Bool.and_eq_right_iff_imp]
    intro hc
    rcases Bool.or_eq_true_iff.mp hc with hc | hc
    · rw [of_decide_eq_true hc]
      decide
    · rw [of_decide_eq_true hc]
      decide
  have hrun := h.runEnd (p := isNewline) (fun c hc => (hbyte _ hc).trans (hchar c).symm) hlow
  rw [hpred] at hrun
  exact ⟨_, skipWhile_eq _ h.le, hrun⟩

/-- A number of at most `left` more characters. -/
def dropNumbers (table : ClassTable) : ℕ → List Char → List Char
  | 0, t => t
  | _ + 1, [] => []
  | left + 1, c :: t => if table.isA .number c then dropNumbers table left t else c :: t

lemma scanNumbers_at (table : ClassTable) (left : ℕ) (h : At bytes pos t) :
    ∃ q, scanNumbers table bytes left pos = some q ∧ At bytes q (dropNumbers table left t) := by
  induction left generalizing pos t with
  | zero => exact ⟨pos, rfl, h⟩
  | succ left ih =>
      rw [scanNumbers]
      obtain ⟨c, t', q, rfl, hA, hsome, hnext⟩ | ⟨hnone, hhead⟩ :=
        classEndAt_at table recognizes_isDigit h
      · rw [hsome, dropNumbers, if_pos hA]
        exact ih hnext
      · rw [hnone]
        refine ⟨pos, rfl, ?_⟩
        cases t with
        | nil => exact h
        | cons c t =>
            rw [dropNumbers, hhead c rfl, if_neg Bool.false_ne_true]
            exact h

lemma ofNat_eq_iff {d : Char} (hc : c.toNat < 0x80) (hd : d.toNat < 0x80) :
    UInt8.ofNat c.toNat = UInt8.ofNat d.toNat ↔ c = d := by
  rw [← UInt8.toNat_inj, UInt8.toNat_ofNat_of_lt' (hc.trans (by decide)),
    UInt8.toNat_ofNat_of_lt' (hd.trans (by decide)), Char.toNat_inj]

lemma not_le_ofNat (hc : c.toNat < 0x80) : ¬ 0x80 ≤ UInt8.ofNat c.toNat := by
  rw [UInt8.not_le, UInt8.lt_iff_toNat_lt, UInt8.toNat_ofNat_of_lt' (hc.trans (by decide))]
  exact hc

/-- A byte of ASCII is read where the text has its character. -/
lemma At.byte_iff (h : At bytes pos t) {d : Char} (hd : d.toNat < 0x80) :
    bytes[pos]? = some (UInt8.ofNat d.toNat) ↔ t.head? = some d := by
  cases t with
  | nil =>
      rw [h.nil]
      exact ⟨fun h => absurd h.symm (Option.some_ne_none _),
        fun h => absurd h.symm (Option.some_ne_none _)⟩
  | cons c t =>
      by_cases hc : c.toNat < 0x80
      · rw [(h.ascii hc).1, List.head?_cons, Option.some_inj, Option.some_inj,
          ofNat_eq_iff hc hd]
      · obtain ⟨⟨b, hb, hge⟩, -⟩ := decodeCp_at h (Nat.not_lt.mp hc)
        rw [hb, List.head?_cons, Option.some_inj, Option.some_inj]
        constructor
        · rintro rfl
          have hle := UInt8.le_iff_toNat_le.mp hge
          rw [UInt8.toNat_ofNat_of_lt' (hd.trans (by decide))] at hle
          exact absurd hd (Nat.not_lt.mpr hle)
        · rintro rfl
          exact absurd hd hc

end

end Hypertok
