import Mathlib.Data.Nat.Bitwise
import Hypertok.Bpe.MergeSmall
import Hypertok.Machine.Pack

/-!
The packed words of the pretoken cache: keys of up to 15 bytes in 128 bits, and values
of up to four token ids in two words of 64 bits, with a spilled form for the others.

* `packPretokenKey_inj`: a key stands for one pretoken.
* `packVal_decode`: a packed value decodes to its ids, as long as the arena has fewer
  than `2^32` tokens.
* `decodeVal_mono`: values stay decodable when the arena grows.
-/

namespace Hypertok

open Machine

/-! ### Keys -/

/-- `u128::from_le_bytes`, of bytes past which the lanes are zero. -/
def fromLeBytes : List UInt8 → ℕ
  | [] => 0
  | b :: bytes => fromLeBytes bytes <<< 8 ||| b.toNat

/-- `pack_pretoken_key`: the bytes in the low lanes and the length in the top one. -/
def packPretokenKey (bytes : List UInt8) : Option ℕ :=
  let n := bytes.length
  if n > 15 then none
  else if n = 0 then some 0
  else some (n <<< 120 ||| fromLeBytes bytes)

lemma fromLeBytes_lt (bytes : List UInt8) : fromLeBytes bytes < 2 ^ (8 * bytes.length) := by
  induction bytes with
  | nil => simp [fromLeBytes]
  | cons b bytes ih => exact pack_lt (n := 8) b.toNat_lt ih

lemma fromLeBytes_inj {p q : List UInt8} (hlen : p.length = q.length)
    (h : fromLeBytes p = fromLeBytes q) : p = q := by
  induction p generalizing q with
  | nil => exact (List.length_eq_zero_iff.mp hlen.symm).symm
  | cons b p ih =>
      obtain ⟨c, q, rfl⟩ := List.exists_cons_of_length_eq_add_one hlen.symm
      obtain ⟨htail, hhead⟩ := pack_inj (n := 8) b.toNat_lt c.toNat_lt h
      rw [UInt8.toNat_inj.mp hhead, ih (by simpa using hlen) htail]

/-- The pretokens that the short cache holds. -/
def Short (bytes : List UInt8) : Prop := 1 ≤ bytes.length ∧ bytes.length ≤ 15

instance : DecidablePred Short := fun bytes =>
  inferInstanceAs (Decidable (1 ≤ bytes.length ∧ bytes.length ≤ 15))

lemma packPretokenKey_of_short {bytes : List UInt8} (h : Short bytes) :
    packPretokenKey bytes = some (bytes.length <<< 120 ||| fromLeBytes bytes) := by
  obtain ⟨hpos, hle⟩ := h
  simp only [packPretokenKey]
  rw [if_neg (by omega), if_neg (by omega)]

lemma fromLeBytes_lt_of_short {bytes : List UInt8} (h : Short bytes) :
    fromLeBytes bytes < 2 ^ 120 :=
  (fromLeBytes_lt bytes).trans_le
    (Nat.pow_le_pow_right (by decide) (Nat.mul_le_mul_left 8 h.2))

/-- The length of a pretoken is in the top byte of its key. -/
lemma packPretokenKey_shiftRight {bytes : List UInt8} (h : Short bytes) :
    (bytes.length <<< 120 ||| fromLeBytes bytes) >>> 120 = bytes.length :=
  pack_shiftRight (fromLeBytes_lt_of_short h) _

lemma packPretokenKey_ne_zero {bytes : List UInt8} (h : Short bytes) :
    bytes.length <<< 120 ||| fromLeBytes bytes ≠ 0 := by
  intro hzero
  have := packPretokenKey_shiftRight h
  rw [hzero, Nat.zero_shiftRight] at this
  exact (Nat.ne_of_gt h.1) this.symm

/-- A key stands for one pretoken. -/
lemma packPretokenKey_inj {p q : List UInt8} (hp : Short p) (hq : Short q)
    (h : packPretokenKey p = packPretokenKey q) : p = q := by
  rw [packPretokenKey_of_short hp, packPretokenKey_of_short hq, Option.some_inj] at h
  obtain ⟨hlen, hbytes⟩ := pack_inj (fromLeBytes_lt_of_short hp) (fromLeBytes_lt_of_short hq) h
  exact fromLeBytes_inj hlen hbytes

/-! ### Values -/

/-- `VAL_SPILL`. -/
def valSpill : ℕ := 0x80

/-- `pack_val_inline`. -/
def packValInline : List TokenId → Option (ℕ × ℕ)
  | [a] => if a < 1 <<< 24 then some (1 ||| a <<< 8, 0) else none
  | [a, b] => if a < 1 <<< 24 then some (2 ||| a <<< 8 ||| b <<< 32, 0) else none
  | [a, b, c] => if a < 1 <<< 24 then some (3 ||| a <<< 8 ||| b <<< 32, c) else none
  | [a, b, c, d] =>
      if a < 1 <<< 24 then some (4 ||| a <<< 8 ||| b <<< 32, c ||| d <<< 32) else none
  | _ => none

/-- `pack_val`: the packed value, and the arena that holds it if it is spilled. -/
def packVal (symbols arena : List TokenId) : (ℕ × ℕ) × List TokenId :=
  match packValInline symbols with
  | some v => (v, arena)
  | none =>
      let offset := arena.length
      ((valSpill ||| symbols.length ||| offset <<< 32 % 2 ^ 64, 0), arena ++ symbols)

/-- `unpack_val_lanes`. -/
def unpackValLanes (val ext : ℕ) : List TokenId :=
  [val >>> 8 % 2 ^ 32 &&& 0xFFFFFF, val >>> 32 % 2 ^ 32, ext % 2 ^ 32, ext >>> 32 % 2 ^ 32]

/-- `&arena[start..start + len]`. -/
def arenaSlice (arena : List TokenId) (start len : ℕ) : Option (List TokenId) :=
  if start + len ≤ arena.length then some ((arena.drop start).take len) else none

/-- How `probe_emit_slow` reads a value of the short cache. -/
def decodeVal (arena : List TokenId) (val ext : ℕ) : Option (List TokenId) :=
  let len := val &&& 0x7F
  if val &&& valSpill = 0 then
    if len ≤ 4 then some ((unpackValLanes val ext).take len) else none
  else arenaSlice arena (val >>> 32) len

/-- The four lanes that `probe_emit_chunk` stores: `ab` holds the first two. -/
def fastLanes (val ext : ℕ) : List TokenId :=
  let ab := (val >>> 8 &&& 0x00FFFFFF) ||| (val &&& 0xFFFFFFFF00000000)
  [ab % 2 ^ 32, ab >>> 32, ext % 2 ^ 32, ext >>> 32]

/-- Two words of 64 bits. -/
def IsWords (v : ℕ × ℕ) : Prop := v.1 < 2 ^ 64 ∧ v.2 < 2 ^ 64

/-- The high half of a word, in place. -/
lemma and_highHalf {x : ℕ} (h : x < 2 ^ 64) : x &&& 0xFFFFFFFF00000000 = x >>> 32 <<< 32 := by
  have hmask : 0xFFFFFFFF00000000 = (2 ^ 32 - 1) <<< 32 := by decide
  rw [hmask]
  refine Nat.eq_of_testBit_eq fun i => ?_
  simp only [Nat.testBit_and, Nat.testBit_shiftLeft, Nat.testBit_two_pow_sub_one,
    Nat.testBit_shiftRight]
  by_cases hi : 32 ≤ i
  · obtain hlt | hge := lt_or_ge i 64
    · simp [hi, show i - 32 < 32 by omega, show 32 + (i - 32) = i by omega]
    · have : x.testBit i = false :=
        Nat.testBit_lt_two_pow (h.trans_le (Nat.pow_le_pow_right (by decide) hge))
      simp [hi, show 32 + (i - 32) = i by omega, this]
  · simp [hi]

/-- The two ways to read the lanes of a value agree. -/
lemma fastLanes_eq {val ext : ℕ} (h : IsWords (val, ext)) :
    fastLanes val ext = unpackValLanes val ext := by
  obtain ⟨hval, hext⟩ := h
  simp only at hval hext
  have hand : ∀ x, x &&& 0xFFFFFF = x % 2 ^ 24 := fun x => Nat.and_two_pow_sub_one_eq_mod x 24
  have hlow : val >>> 8 % 2 ^ 24 < 2 ^ 32 := (Nat.mod_lt _ (by decide)).trans (by decide)
  simp only [fastLanes, unpackValLanes, and_highHalf hval, hand, Nat.or_comm (val >>> 8 % 2 ^ 24),
    pack_shiftRight hlow]
  rw [pack_eq hlow, Nat.mul_add_mod, Nat.mod_eq_of_lt hlow,
    Nat.mod_mod_of_dvd _ (show 2 ^ 24 ∣ 2 ^ 32 by decide)]
  simp only [Nat.shiftRight_eq_div_pow]
  rw [Nat.mod_eq_of_lt (a := val / 2 ^ 32) (by omega), Nat.mod_eq_of_lt (a := ext / 2 ^ 32) (by omega)]

/-- The fields of the first word of a value: the count with the spill flag, and the
first two ids. -/
lemma valWord_fields {n a b : ℕ} (hn : n < 2 ^ 8) (ha : a < 2 ^ 24) (hb : b < 2 ^ 32) :
    let val := n ||| a <<< 8 ||| b <<< 32
    val < 2 ^ 64 ∧ val &&& 0x7F = n % 2 ^ 7 ∧ (val &&& valSpill = 0 ↔ n < 2 ^ 7) ∧
      val >>> 32 = b ∧
      ∀ ext, unpackValLanes val ext = [a, b, ext % 2 ^ 32, ext >>> 32 % 2 ^ 32] := by
  intro val
  have hlow : n ||| a <<< 8 = 2 ^ 8 * a + n := by rw [Nat.or_comm, pack_eq hn]
  have hval : val = 2 ^ 32 * b + (2 ^ 8 * a + n) := by
    simp only [val]
    rw [hlow, Nat.or_comm, pack_eq (by omega)]
  have hspill : val &&& valSpill = (val / 2 ^ 7 % 2) * 2 ^ 7 := by
    rw [valSpill, show 0x80 = 2 ^ 7 from rfl, Nat.and_two_pow, Nat.testBit_eq_decide_div_mod_eq]
    obtain h | h := Nat.mod_two_eq_zero_or_one (val / 2 ^ 7) <;> rw [h] <;> rfl
  have hfst : val >>> 8 % 2 ^ 32 &&& 0xFFFFFF = a := by
    rw [show 0xFFFFFF = 2 ^ 24 - 1 from rfl, Nat.and_two_pow_sub_one_eq_mod,
      Nat.shiftRight_eq_div_pow]
    omega
  have hsnd : val >>> 32 = b := by
    rw [Nat.shiftRight_eq_div_pow]
    omega
  refine ⟨by omega, ?_, ?_, hsnd, fun ext => ?_⟩
  · rw [show 0x7F = 2 ^ 7 - 1 from rfl, Nat.and_two_pow_sub_one_eq_mod]
    omega
  · rw [hspill]
    omega
  · rw [unpackValLanes, hfst, hsnd, Nat.mod_eq_of_lt hb]

/-- An inline value has its count in the low bits and its ids in the lanes. -/
lemma packValInline_fields {symbols : List TokenId} (hid : ∀ a ∈ symbols, a < 2 ^ 32)
    {val ext : ℕ} (h : packValInline symbols = some (val, ext)) :
    IsWords (val, ext) ∧ val &&& valSpill = 0 ∧ val &&& 0x7F = symbols.length ∧
      symbols.length ≤ 4 ∧ (unpackValLanes val ext).take symbols.length = symbols := by
  match symbols, h with
  | [a], h =>
      simp only [packValInline, Option.ite_none_right_eq_some, Option.some.injEq, Prod.mk.injEq] at h
      obtain ⟨ha, rfl, rfl⟩ := h
      have hf := valWord_fields (n := 1) (a := a) (b := 0) (by decide) ha (by decide)
      simp only [Nat.zero_shiftLeft, Nat.or_zero] at hf
      obtain ⟨hlt, hlen, hspill, -, hlanes⟩ := hf
      exact ⟨⟨hlt, Nat.two_pow_pos 64⟩, hspill.mpr (by decide), hlen, by simp, by rw [hlanes]; rfl⟩
  | [a, b], h =>
      simp only [packValInline, Option.ite_none_right_eq_some, Option.some.injEq, Prod.mk.injEq] at h
      obtain ⟨ha, rfl, rfl⟩ := h
      obtain ⟨hlt, hlen, hspill, -, hlanes⟩ :=
        valWord_fields (n := 2) (by decide) ha (hid b (by simp))
      exact ⟨⟨hlt, Nat.two_pow_pos 64⟩, hspill.mpr (by decide), hlen, by simp, by rw [hlanes]; rfl⟩
  | [a, b, c], h =>
      simp only [packValInline, Option.ite_none_right_eq_some, Option.some.injEq, Prod.mk.injEq] at h
      obtain ⟨ha, rfl, rfl⟩ := h
      have hc : c < 2 ^ 32 := hid c (by simp)
      obtain ⟨hlt, hlen, hspill, -, hlanes⟩ :=
        valWord_fields (n := 3) (by decide) ha (hid b (by simp))
      exact ⟨⟨hlt, hc.trans (by decide)⟩, hspill.mpr (by decide), hlen, by simp,
        by rw [hlanes, Nat.mod_eq_of_lt hc]; rfl⟩
  | [a, b, c, d], h =>
      simp only [packValInline, Option.ite_none_right_eq_some, Option.some.injEq, Prod.mk.injEq] at h
      obtain ⟨ha, rfl, rfl⟩ := h
      have hc : c < 2 ^ 32 := hid c (by simp)
      have hd : d < 2 ^ 32 := hid d (by simp)
      obtain ⟨hlt, hlen, hspill, -, hlanes⟩ :=
        valWord_fields (n := 4) (by decide) ha (hid b (by simp))
      have hshift : (c ||| d <<< 32) >>> 32 = d := by rw [Nat.or_comm, pack_shiftRight hc]
      have hmod : (c ||| d <<< 32) % 2 ^ 32 = c := by
        rw [Nat.or_comm, pack_eq hc, Nat.mul_add_mod, Nat.mod_eq_of_lt hc]
      have hwords : c ||| d <<< 32 < 2 ^ 64 := by
        rw [Nat.or_comm]
        exact pack_lt hc hd
      exact ⟨⟨hlt, hwords⟩, hspill.mpr (by decide), hlen, by simp,
        by rw [hlanes, hshift, hmod, Nat.mod_eq_of_lt hd]; rfl⟩
  | [], h => cases h
  | _ :: _ :: _ :: _ :: _ :: _, h => cases h

/-- A slice that can be read can be read from a longer arena. -/
lemma arenaSlice_mono {arena arena' : List TokenId} (hle : arena <+: arena') {start len : ℕ}
    {ids : List TokenId} (h : arenaSlice arena start len = some ids) :
    arenaSlice arena' start len = some ids := by
  obtain ⟨more, rfl⟩ := hle
  simp only [arenaSlice, Option.ite_none_right_eq_some, Option.some.injEq] at h ⊢
  obtain ⟨hlen, rfl⟩ := h
  rw [List.length_append, List.drop_append_of_le_length (by omega),
    List.take_append_of_le_length (by simp; omega)]
  exact ⟨by omega, rfl⟩

/-- A value that decodes does so in a longer arena. -/
lemma decodeVal_mono {arena arena' : List TokenId} (hle : arena <+: arena') {val ext : ℕ}
    {ids : List TokenId} (h : decodeVal arena val ext = some ids) :
    decodeVal arena' val ext = some ids := by
  simp only [decodeVal] at h ⊢
  split_ifs at h ⊢ with hspill hlen
  · exact h
  · exact arenaSlice_mono hle h

/-- What has just been appended to the arena is read back, if its offset and its length
fit. -/
lemma arenaSlice_append (arena symbols : List TokenId) {start len : ℕ}
    (hstart : start ≤ arena.length) (hlen : len ≤ symbols.length) :
    ∃ ids, arenaSlice (arena ++ symbols) start len = some ids ∧
      (start = arena.length → len = symbols.length → ids = symbols) := by
  refine ⟨_, if_pos (by rw [List.length_append]; omega), ?_⟩
  rintro rfl rfl
  simp

/-- Packing appends at most the symbols. -/
lemma length_packVal_le (symbols arena : List TokenId) :
    (packVal symbols arena).2.length ≤ arena.length + symbols.length := by
  rw [packVal]
  cases packValInline symbols <;> simp

/-- A spilled value is read from the arena at its offset, of which it has 32 bits. -/
lemma packVal_spilled {symbols : List TokenId} (hpack : packValInline symbols = none)
    (hlen : symbols.length < 2 ^ 7) (arena : List TokenId) {val ext : ℕ} {arena' : List TokenId}
    (h : packVal symbols arena = ((val, ext), arena')) :
    arena' = arena ++ symbols ∧ IsWords (val, ext) ∧ ∀ arena₁,
      decodeVal arena₁ val ext = arenaSlice arena₁ (arena.length % 2 ^ 32) symbols.length := by
  rw [packVal, hpack] at h
  obtain ⟨hv, rfl⟩ := Prod.mk.inj h
  obtain ⟨rfl, rfl⟩ := Prod.mk.inj hv
  have hoffset : arena.length <<< 32 % 2 ^ 64 = (arena.length % 2 ^ 32) <<< 32 := by
    simp only [Nat.shiftLeft_eq]
    omega
  have hcount : valSpill ||| symbols.length = 2 ^ 7 + symbols.length := by
    have := pack_eq hlen 1
    simpa [valSpill] using this
  obtain ⟨hlt, hlen', hspill, hshift, -⟩ := valWord_fields (n := 2 ^ 7 + symbols.length) (a := 0)
    (b := arena.length % 2 ^ 32) (by omega) (by decide) (Nat.mod_lt _ (by decide))
  rw [Nat.zero_shiftLeft, Nat.or_zero] at hlt hlen' hspill hshift
  have hn : (2 ^ 7 + symbols.length) % 2 ^ 7 = symbols.length := by omega
  have hne : ¬ 2 ^ 7 + symbols.length < 2 ^ 7 := by omega
  rw [hoffset, hcount]
  refine ⟨rfl, ⟨hlt, Nat.two_pow_pos 64⟩, fun arena₁ => ?_⟩
  simp only [decodeVal, hlen', hn, hshift, hspill, hne, if_false]

/-- A packed value decodes, and to its ids if the arena stays below `2^32` tokens. -/
theorem packVal_decode {symbols : List TokenId} (hlen : symbols.length < 2 ^ 7)
    (hid : ∀ a ∈ symbols, a < 2 ^ 32) (arena : List TokenId) {val ext : ℕ}
    {arena' : List TokenId} (h : packVal symbols arena = ((val, ext), arena')) :
    arena <+: arena' ∧ IsWords (val, ext) ∧ ∃ ids, decodeVal arena' val ext = some ids ∧
      (arena'.length < 2 ^ 32 → ids = symbols) := by
  rw [packVal] at h
  cases hpack : packValInline symbols with
  | some v =>
      rw [hpack] at h
      obtain ⟨rfl, rfl⟩ := Prod.mk.inj h
      obtain ⟨hwords, hspill, hcount, hle, htake⟩ := packValInline_fields hid hpack
      refine ⟨List.prefix_rfl, hwords, symbols, ?_, fun _ => rfl⟩
      simp only [decodeVal, hspill, hcount, if_true, hle, htake]
  | none =>
      obtain ⟨rfl, hwords, hdecode⟩ := packVal_spilled hpack hlen arena h
      obtain ⟨ids, hids, heq⟩ := arenaSlice_append arena symbols
        (Nat.mod_le arena.length (2 ^ 32)) le_rfl
      refine ⟨List.prefix_append _ _, hwords, ids, (hdecode _).trans hids, fun hbound => heq ?_ rfl⟩
      rw [List.length_append] at hbound
      exact Nat.mod_eq_of_lt (by omega)

end Hypertok
