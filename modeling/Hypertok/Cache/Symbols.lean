import Hypertok.Bpe.MergeRanked
import Hypertok.Bpe.PairRank
import Hypertok.Cache.Value
import Hypertok.PairMerge.Compare

/-!
What the tokenizer computes for a pretoken without its caches: `seed_symbols_any` for
the short ones, on a stack buffer, and the symbol vector of the miss path for the
others.

* `shortIds`: the reference for a short pretoken, which is the whole-vocabulary hit
  under `ignore_merges` or `bpe` of the byte symbols.
* `seedSymbolsAny_eq`: the short path gives it, whatever the buffer held before.
* `longSymbols_eq`: the long path gives the same for its own pretokens.
-/

namespace Hypertok

open PairMerge Machine

/-- `ByteRemapping`. -/
structure ByteRemapping where
  mapping : UInt8 → TokenId
  mapping_lt : ∀ b, mapping b < 2 ^ 32

/-- `HashMap<TokenBytes, TokenId>`. -/
abbrev VocabInv := AList fun _ : List UInt8 => TokenId

/-- The merge tables of a tokenizer. Its ids and ranks are words of 32 bits. -/
structure MergeTables where
  merges : Merges
  pairRanks : Option PairRankTable
  rankedMerges : Option RankedMerges
  byteRemapping : Option ByteRemapping
  merges_lt : ∀ p, ∀ c ∈ merges.lookup p, c < 2 ^ 32
  pairRanks_lt : ∀ table ∈ pairRanks, ∀ a b, table.rank a b < 2 ^ 32
  ranked_lt : ∀ rm ∈ rankedMerges, ∀ k, ∀ q ∈ rm.lookup k, q.1 < 2 ^ 32 ∧ q.2 < 2 ^ 32

namespace MergeTables

variable (T : MergeTables)

/-- The pair ranks of the id-ranked loops: the table, or the merge map without one. -/
def getRank : TokenId → TokenId → ℕ :=
  match T.pairRanks with
  | some table => table.rank
  | none => mergesRank T.merges

/-- The symbols of the bytes, remapped if there is a remapping. -/
def byteSymbols (bytes : List UInt8) : List TokenId :=
  bytes.map fun b =>
    match T.byteRemapping with
    | some br => br.mapping b
    | none => b.toNat

/-- The whole-vocabulary hit of `ignore_merges`. -/
def wholeId (ignoreMerges : Bool) (vocabInv : VocabInv) (bytes : List UInt8) : Option TokenId :=
  if ignoreMerges then vocabInv.lookup bytes else none

/-- `buf`, with the first lanes overwritten. -/
def fillLanes (symbols buf : List TokenId) : List TokenId := symbols ++ buf.drop symbols.length

/-- `merge_short`: the buffer, with the ids in its first lanes, and their number. -/
def mergeShort (bytes : List UInt8) (buf : List TokenId) : Option (List TokenId × ℕ) :=
  let n := bytes.length
  let buf := fillLanes (T.byteSymbols bytes) buf
  if n < 2 then some (buf, n) else bpeMergeSymbolsShortScalar T.getRank buf n

/-- `seed_symbols`. -/
def seedSymbols (ignoreMerges : Bool) (vocabInv : VocabInv) (bytes : List UInt8)
    (buf : List TokenId) : Option (List TokenId × ℕ) :=
  match wholeId ignoreMerges vocabInv bytes with
  | some id => some (fillLanes [id] buf, 1)
  | none => T.mergeShort bytes buf

/-- `seed_symbols_ranked`. -/
def seedSymbolsRanked (rm : RankedMerges) (ignoreMerges : Bool) (vocabInv : VocabInv)
    (bytes : List UInt8) (buf : List TokenId) : Option (List TokenId × ℕ) :=
  match wholeId ignoreMerges vocabInv bytes with
  | some id => some (fillLanes [id] buf, 1)
  | none =>
      let n := bytes.length
      let buf := fillLanes (T.byteSymbols bytes) buf
      if n < 2 then some (buf, n)
      else do
        let (symbols, w) ← bpeMergeSymbolsRankedSlice (rankedOrMax rm.pair) (buf.take n)
        some (fillLanes symbols buf, w)

/-- `seed_symbols_any`. -/
def seedSymbolsAny (ignoreMerges : Bool) (vocabInv : VocabInv) (bytes : List UInt8)
    (buf : List TokenId) : Option (List TokenId × ℕ) :=
  match T.rankedMerges with
  | some rm => T.seedSymbolsRanked rm ignoreMerges vocabInv bytes buf
  | none => T.seedSymbols ignoreMerges vocabInv bytes buf

/-- The symbols that the miss paths compute for a long pretoken. -/
def longSymbols (ignoreMerges : Bool) (vocabInv : VocabInv) (bytes : List UInt8) :
    Option (List TokenId) :=
  match wholeId ignoreMerges vocabInv bytes with
  | some id => some [id]
  | none =>
      match T.rankedMerges with
      | some rm => bpeMergeSymbolsRanked rm.pair (T.byteSymbols bytes)
      | none => bpeMergeSymbolsByRank T.getRank (T.byteSymbols bytes)

/-! ### The reference -/

/-- The merge table that the short paths read. -/
def shortTable : Table ℕ TokenId :=
  match T.rankedMerges with
  | some rm => rankedSlot.table (rankedOrMax rm.pair)
  | none => rankTable T.getRank

/-- The ids of a short pretoken, up to added tokens. -/
def shortIds (ignoreMerges : Bool) (vocabInv : VocabInv) (bytes : List UInt8) : List TokenId :=
  match wholeId ignoreMerges vocabInv bytes with
  | some id => [id]
  | none => bpe T.shortTable (T.byteSymbols bytes)

variable {T} {ignoreMerges : Bool} {vocabInv : VocabInv} {bytes : List UInt8}

@[simp] lemma length_byteSymbols (bytes : List UInt8) :
    (T.byteSymbols bytes).length = bytes.length := by
  simp [byteSymbols]

@[simp] lemma take_fillLanes (symbols buf : List TokenId) :
    (fillLanes symbols buf).take symbols.length = symbols := by
  simp [fillLanes]

lemma take_fillLanes_byteSymbols (buf : List TokenId) :
    (fillLanes (T.byteSymbols bytes) buf).take bytes.length = T.byteSymbols bytes := by
  rw [← T.length_byteSymbols bytes, take_fillLanes]

lemma length_le_fillLanes (symbols buf : List TokenId) :
    symbols.length ≤ (fillLanes symbols buf).length := by
  simp [fillLanes]

lemma getRank_le (a b : TokenId) : T.getRank a b ≤ u32Max := by
  rw [getRank]
  cases h : T.pairRanks with
  | some table => exact Nat.le_sub_one_of_lt (T.pairRanks_lt table h a b)
  | none =>
      cases hc : T.merges.lookup (a, b) with
      | none => simp [mergesRank, hc]
      | some c =>
          have hle : c ≤ u32Max := Nat.le_sub_one_of_lt (T.merges_lt _ c hc)
          simpa [mergesRank, hc] using hle

lemma ranked_le {rm : RankedMerges} (h : T.rankedMerges = some rm) (a b : TokenId) (m : TokenId)
    (r : ℕ) (hr : rm.pair a b = some (m, r)) : r ≤ u32Max :=
  Nat.le_sub_one_of_lt (T.ranked_lt rm h _ (m, r) hr).2

/-- The short path of the encoder. -/
theorem seedSymbolsAny_eq (ignoreMerges : Bool) (vocabInv : VocabInv) (h : Short bytes)
    (buf : List TokenId) :
    ∃ buf' n, T.seedSymbolsAny ignoreMerges vocabInv bytes buf = some (buf', n) ∧
      buf'.take n = T.shortIds ignoreMerges vocabInv bytes := by
  simp only [seedSymbolsAny, seedSymbols, seedSymbolsRanked, shortIds, shortTable]
  cases wholeId ignoreMerges vocabInv bytes with
  | some id =>
      cases T.rankedMerges <;> exact ⟨_, _, rfl, take_fillLanes [id] buf⟩
  | none =>
      obtain hone | h2 := lt_or_ge bytes.length 2
      · have hbpe : ∀ M, bpe M (T.byteSymbols bytes) = T.byteSymbols bytes := fun M =>
          bpe_of_length_lt_two (by simpa using hone)
        simp only [mergeShort, if_pos hone, hbpe]
        cases T.rankedMerges <;> exact ⟨_, _, rfl, take_fillLanes_byteSymbols buf⟩
      · simp only [mergeShort, if_neg (not_lt.mpr h2)]
        cases hrm : T.rankedMerges with
        | none =>
            have hlen := length_le_fillLanes (T.byteSymbols bytes) buf
            rw [length_byteSymbols] at hlen
            obtain ⟨⟨buf', w⟩, hr, -, htake⟩ := scanMerge_eq (S := idSlot)
              (getRank_le (T := T)) (.inr rfl) (by decide : shortMergeMax < 255) h2
              (h.2.trans (by decide)) hlen
            rw [take_fillLanes_byteSymbols] at htake
            exact ⟨buf', w, hr, htake⟩
        | some rm =>
            have hlen := T.length_byteSymbols bytes
            have hslot := rank_rankedOrMax_le (ranked_le hrm)
            obtain ⟨⟨symbols, w⟩, hr, hw, htake⟩ := scanMerge_eq (S := rankedSlot) hslot (.inl rfl)
              (by decide : smallMergeMax < 255) (hlen ▸ h2) (hlen ▸ h.2.trans (by decide))
              (le_refl (T.byteSymbols bytes).length)
            rw [List.take_length] at hw htake
            have hwlen : w ≤ symbols.length := by
              have := congrArg List.length htake
              rw [← hw, List.length_take] at this
              simp only at this
              omega
            refine ⟨fillLanes symbols (fillLanes (T.byteSymbols bytes) buf), w, ?_, ?_⟩
            · simp only [take_fillLanes_byteSymbols, bpeMergeSymbolsRankedSlice, hr,
                Option.bind_eq_bind, Option.bind_some]
            · rw [fillLanes, List.take_append_of_le_length hwlen]
              exact htake

/-- The ids of a short pretoken are words of 32 bits, and at most as many as its
bytes. -/
lemma shortIds_spec (hinv : ∀ b, ∀ id ∈ vocabInv.lookup b, id < 2 ^ 32) (h : Short bytes) :
    (T.shortIds ignoreMerges vocabInv bytes).length < 2 ^ 7 ∧
      ∀ a ∈ T.shortIds ignoreMerges vocabInv bytes, a < 2 ^ 32 := by
  rw [shortIds]
  cases hw : wholeId ignoreMerges vocabInv bytes with
  | some id =>
      refine ⟨by simp, ?_⟩
      simp only [List.mem_singleton, forall_eq]
      exact hinv bytes id (Option.ite_none_right_eq_some.mp hw).2
  | none =>
      refine ⟨?_, (bpe_steps T.shortTable _).forall_mem ?_ ?_⟩
      · have := length_bpe_le T.shortTable (T.byteSymbols bytes)
        rw [length_byteSymbols] at this
        exact this.trans_lt (h.2.trans_lt (by decide))
      · -- the products of both tables are words
        rintro a b - - ⟨r, c⟩ hq
        rw [shortTable] at hq
        cases hrm : T.rankedMerges with
        | none =>
            rw [hrm] at hq
            obtain ⟨hne, -, rfl⟩ := rankTable_eq_some.mp hq
            exact Nat.lt_of_le_pred (by decide) (getRank_le a b)
        | some rm =>
            rw [hrm] at hq
            simp only [SlotKind.table, Option.mem_def, Option.ite_none_left_eq_some,
              Option.some.injEq, Prod.mk.injEq] at hq
            obtain ⟨hne, -, rfl⟩ := hq
            cases hget : rm.pair a b with
            | none => simp [rankedOrMax, rankedSlot, hget] at hne
            | some q =>
                simpa [rankedOrMax, rankedSlot, hget] using (T.ranked_lt rm hrm _ q hget).1
      · simp only [byteSymbols, List.mem_map]
        rintro _ ⟨b, -, rfl⟩
        cases T.byteRemapping with
        | some br => exact br.mapping_lt b
        | none => exact b.toNat_lt.trans (by decide)

/-- The long path of the encoder terminates with the reference result, where the
length of the pretoken fits the pointers and no explicit rank is that of no merge. -/
theorem longSymbols_eq (hlen : bytes.length ≤ u32Max)
    (hrank : ∀ rm ∈ T.rankedMerges, ∀ k, ∀ q ∈ rm.lookup k, q.2 ≠ u32Max) :
    T.longSymbols ignoreMerges vocabInv bytes =
      some (T.shortIds ignoreMerges vocabInv bytes) := by
  rw [longSymbols, shortIds]
  cases wholeId ignoreMerges vocabInv bytes with
  | some id => rfl
  | none =>
      rw [shortTable]
      cases hrm : T.rankedMerges with
      | none => exact bpeMergeSymbolsByRank_eq getRank_le (by simpa using hlen)
      | some rm =>
          have hlt : ∀ a b m r, rm.pair a b = some (m, r) → r < u32Max := fun a b m r h =>
            (ranked_le hrm a b m r h).lt_of_ne (hrank rm hrm _ (m, r) h)
          simp only [table_rankedSlot hlt]
          refine bpeMergeSymbolsRanked_eq hlt ?_
          rw [length_byteSymbols]
          exact hlen.trans (by decide)

end MergeTables

end Hypertok
