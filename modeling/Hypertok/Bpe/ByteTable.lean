import Hypertok.Bpe.MergeSmall
import Hypertok.PairMerge.Locality

/-!
Id-ranked merge tables over bytes: every token stands for a byte string, and a
merge concatenates.

* `ByteTable.encode`: the reference encoding of a byte string.
* `ByteTable.decode_encode`: the tokens of the encoding stand for the bytes encoded.
* `ByteTable.weighted`: token lengths are weights, so splicing applies.
-/

namespace Hypertok

open PairMerge

/-- An id-ranked merge table over single-byte base tokens. -/
structure ByteTable where
  /-- The rank of a pair and the token it merges to, `u32::MAX` for no merge. -/
  getRank : TokenId → TokenId → ℕ
  /-- The token of a byte. -/
  base : UInt8 → TokenId
  /-- The bytes a token stands for. -/
  bytes : TokenId → Option (List UInt8)
  bytes_base : ∀ b, bytes (base b) = some [b]
  bytes_merge : ∀ a b p q, bytes a = some p → bytes b = some q → getRank a b ≠ u32Max →
    bytes (getRank a b) = some (p ++ q)

namespace ByteTable

variable (T : ByteTable)

/-- The merge table. -/
abbrev table : Table ℕ TokenId := rankTable T.getRank

/-- The reference encoding of a byte string. -/
def encode (bs : List UInt8) : List TokenId := bpe T.table (bs.map T.base)

/-- The byte length of a token. -/
def tokenLen (id : TokenId) : Option ℕ := (T.bytes id).map List.length

/-- The bytes of a sequence of tokens. -/
def decode : List TokenId → Option (List UInt8)
  | [] => some []
  | id :: ids => do
      let p ← T.bytes id
      let q ← decode ids
      some (p ++ q)

/-- The byte length of a known token. -/
def len (id : TokenId) : ℕ := (T.tokenLen id).getD 0

/-- A token that stands for one byte or more. -/
def Known (id : TokenId) : Prop := ∃ p, T.bytes id = some p ∧ p ≠ []

variable {T}

lemma Known.base (b : UInt8) : T.Known (T.base b) := ⟨[b], T.bytes_base b, by simp⟩

lemma Known.tokenLen {id : TokenId} (h : T.Known id) : T.tokenLen id = some (T.len id) := by
  obtain ⟨p, hp, -⟩ := h
  simp [ByteTable.len, ByteTable.tokenLen, hp]

@[simp] lemma len_base (b : UInt8) : T.len (T.base b) = 1 := by
  simp [len, tokenLen, T.bytes_base]

@[simp] lemma weight_map_base (bs : List UInt8) : weight T.len (bs.map T.base) = bs.length := by
  induction bs with
  | nil => rfl
  | cons b bs ih => simp [ih]; omega

lemma table_eq_some {a b : TokenId} {r : ℕ} {c : TokenId} (h : T.table a b = some (r, c)) :
    T.getRank a b ≠ u32Max ∧ r = T.getRank a b ∧ c = T.getRank a b := by
  simp only [table, rankTable, Option.ite_none_left_eq_some, Option.some.injEq,
    Prod.mk.injEq] at h
  exact ⟨h.1, h.2.1.symm, h.2.2.symm⟩

variable (T) in
/-- Token lengths add up along merges. -/
theorem weighted : Weighted T.table T.Known T.len where
  pos := by
    rintro a ⟨p, hp, hne⟩
    simpa [len, tokenLen, hp] using List.length_pos_iff.mpr hne
  merge := by
    rintro a b r c ⟨p, hp, hpne⟩ ⟨q, hq, -⟩ h
    obtain ⟨hrank, -, rfl⟩ := table_eq_some h
    have hpq := T.bytes_merge a b p q hp hq hrank
    exact ⟨⟨p ++ q, hpq, by simp [hpne]⟩, by simp [len, tokenLen, hp, hq, hpq]⟩

/-- Every token of an encoding is known, and their lengths add up to that of the
bytes. -/
theorem encode_known (bs : List UInt8) :
    (∀ id ∈ T.encode bs, T.Known id) ∧ weight T.len (T.encode bs) = bs.length := by
  have hbase : ∀ id ∈ bs.map T.base, T.Known id := by
    simp only [List.mem_map]
    rintro _ ⟨b, -, rfl⟩
    exact Known.base b
  obtain ⟨hP, hw⟩ := T.weighted.steps (bpe_steps T.table (bs.map T.base)) hbase
  exact ⟨hP, hw.trans (weight_map_base bs)⟩

lemma decode_append_eq_some {s t : List TokenId} {bs : List UInt8} :
    T.decode (s ++ t) = some bs ↔ ∃ p q, T.decode s = some p ∧ T.decode t = some q ∧ bs = p ++ q := by
  induction s generalizing bs with
  | nil => simp [decode]
  | cons id s ih =>
      simp only [List.cons_append, decode, Option.bind_eq_bind, Option.bind_eq_some_iff, ih,
        Option.some.injEq]
      constructor
      · rintro ⟨p, hp, _, ⟨q, r, hq, hr, rfl⟩, rfl⟩
        exact ⟨p ++ q, r, ⟨p, hp, q, hq, rfl⟩, hr, by simp⟩
      · rintro ⟨_, r, ⟨p, hp, q, hq, rfl⟩, hr, rfl⟩
        exact ⟨p, hp, q ++ r, ⟨q, r, hq, hr, rfl⟩, by simp⟩

/-- A merge does not change the bytes that a word stands for. -/
lemma decode_step {s t : List TokenId} (h : Step T.table s t) {bs : List UInt8}
    (hs : T.decode s = some bs) : T.decode t = some bs := by
  rcases h with @⟨u, v, a, b, c, r, hab, -, -⟩
  obtain ⟨hrank, -, rfl⟩ := table_eq_some hab
  obtain ⟨p, q, hp, hq, rfl⟩ := decode_append_eq_some.mp hs
  simp only [decode, Option.bind_eq_bind, Option.bind_eq_some_iff, Option.some.injEq] at hq
  obtain ⟨pa, ha, _, ⟨pb, hb, pv, hv, rfl⟩, rfl⟩ := hq
  have hc := T.bytes_merge a b pa pb ha hb hrank
  exact decode_append_eq_some.mpr ⟨p, pa ++ (pb ++ pv), hp, by simp [decode, hc, hv], rfl⟩

variable (T) in
lemma decode_map_base (bs : List UInt8) : T.decode (bs.map T.base) = some bs := by
  induction bs with
  | nil => rfl
  | cons b bs ih => simp [decode, T.bytes_base, ih]

/-- A run from base symbols does not change the bytes. -/
lemma decode_steps {bs : List UInt8} {t : List TokenId} (h : Steps T.table (bs.map T.base) t) :
    T.decode t = some bs := by
  induction h with
  | refl => exact T.decode_map_base bs
  | tail _ hstep ih => exact decode_step hstep ih

variable (T) in
/-- Decoding undoes encoding. -/
theorem decode_encode (bs : List UInt8) : T.decode (T.encode bs) = some bs :=
  decode_steps (bpe_steps T.table _)

/-- The table with the tokens `ab` (256) and `abab` (257). -/
def abTable : ByteTable where
  getRank a b :=
    if a = 97 ∧ b = 98 then 256 else if a = 256 ∧ b = 256 then 257 else u32Max
  base b := b.toNat
  bytes id :=
    if id < 256 then some [UInt8.ofNat id]
    else if id = 256 then some [97, 98]
    else if id = 257 then some [97, 98, 97, 98] else none
  bytes_base b := by simp [b.toNat_lt]
  bytes_merge a b p q ha hb h := by
    by_cases h₁ : a = 97 ∧ b = 98
    · obtain ⟨rfl, rfl⟩ := h₁
      simp at ha hb
      simp [← ha, ← hb]
    · by_cases h₂ : a = 256 ∧ b = 256
      · obtain ⟨rfl, rfl⟩ := h₂
        simp at ha hb
        simp [← ha, ← hb]
      · simp [h₁, h₂] at h

end ByteTable

end Hypertok
