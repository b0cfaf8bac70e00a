import Hypertok.Index.FingerprintTable
import Mathlib.Data.Nat.Bitwise
import Mathlib.Data.Nat.Nth

/-!
`HashImage` of the `hypertok-hash` crate: a minimal perfect hash function, in levels of groups
of sixteen bits, with the number of set bits before each word.

* `HashImage.fromBytes_eq_ok`: what `from_bytes` accepts is what `to_bytes` writes.
* `HashImage.Valid`: what `from_parts` checks.
* `HashImage.Valid.indexAt`: the index of a set bit is the number of set bits before it.
* `HashImage.fromBytes_correct`: round trip, range and bijection for an accepted image.
-/

namespace Hypertok

open Machine Run

/-- `ImageError`. -/
inductive ImageError
  | truncated
  | trailingBytes
  | badMagic
  | unsupportedVersion (version : ℕ)
  | unsupportedHasher (value : UInt8)
  | unsupportedGroupBits (value : UInt8)
  | unsupportedSeedBits (value : UInt8)
  | nonZeroReserved
  | emptyLevels
  | zeroLevel
  | countOverflow
  | inconsistentBitWords
  | inconsistentSeedWords
  | nonZeroSeedPadding
  | keyCountMismatch (declared observed : ℕ)
  deriving DecidableEq

/-- `HashImage`. -/
structure HashImage where
  keyCount : UInt32
  levelSizes : List UInt32
  bitWords : List UInt64
  seedWords : List UInt64
  rankBeforeWord : List ℕ
  deriving DecidableEq

/-- `mix32`. -/
def mix32 (value : UInt32) : UInt32 :=
  let value := (value ^^^ (value >>> 16)) * 0x21f0aaad
  let value := (value ^^^ (value >>> 15)) * 0xd35a2d97
  value ^^^ (value >>> 15)

/-- `count_ones`. -/
def countOnes (word : ℕ) : ℕ := Nat.count (fun i => word.testBit i = true) 64

namespace HashImage

variable (w : ℕ) (wyhash : WyHash) {ε : Type}

/-- `MAGIC`. -/
def magic : List UInt8 := [72, 70, 71, 79]

/-- `GROUP_SIZE`. -/
def groupSize : ℕ := 1 <<< 4

/-- `SEEDS_PER_WORD`. -/
def seedsPerWord : ℕ := 64 / 4

/-- One turn of the loop of `from_parts` over the words. -/
def rankStep (st : List ℕ × ℕ) (word : UInt64) : Run ImageError (List ℕ × ℕ) := do
  let observed ← Run.orFail .countOverflow (Uint.checkedAdd 32 st.2 (countOnes word.toNat))
  return (st.1 ++ [st.2], observed)

/-- `from_parts`. -/
def fromParts (keyCount : UInt32) (levelSizes : List UInt32) (bitWords seedWords : List UInt64) :
    Run ImageError HashImage := do
  Run.require (levelSizes ≠ []) .emptyLevels
  Run.require (0 ∉ levelSizes) .zeroLevel
  let groupCount ← levelSizes.foldlM
    (fun total size => Run.orFail .countOverflow (Uint.checkedAdd w total size.toNat)) 0
  let bitCount ← Run.orFail .countOverflow (Uint.checkedMul w groupCount groupSize)
  Run.require (bitCount % 64 = 0 ∧ bitWords.length = bitCount / 64) .inconsistentBitWords
  let padded ← Run.orFail .countOverflow (Uint.checkedAdd w groupCount (seedsPerWord - 1))
  Run.require (seedWords.length = padded / seedsPerWord) .inconsistentSeedWords
  let usedSeeds := groupCount % seedsPerWord
  Run.require (usedSeeds = 0 ∨ ¬ seedWords.getLast?.any fun word =>
    word.toNat >>> (usedSeeds * 4) ≠ 0) .nonZeroSeedPadding
  let (rankBeforeWord, observed) ← bitWords.foldlM rankStep ([], 0)
  Run.require (observed = keyCount.toNat) (.keyCountMismatch keyCount.toNat observed)
  return ⟨keyCount, levelSizes, bitWords, seedWords, rankBeforeWord⟩

/-- `read_u16`, `read_u32` and `read_u64`. -/
def readLe (k : ℕ) (bytes : List UInt8) (offset : ℕ) : Run ImageError ℕ := do
  return leNat (← Run.orFail .truncated (getRange bytes offset (offset + k)))

/-- A loop of `from_bytes`: so many values from the cursor on. -/
def readItems {α : Type} (k : ℕ) (read : ℕ → Run ImageError α) :
    ℕ → ℕ → Run ImageError (List α × ℕ)
  | 0, cursor => return ([], cursor)
  | n + 1, cursor => do
      let item ← read cursor
      let (items, cursor) ← readItems k read n (cursor + k)
      return (item :: items, cursor)

/-- A level of the image. -/
def readLevel (bytes : List UInt8) (cursor : ℕ) : Run ImageError UInt32 := do
  let size ← readLe 4 bytes cursor
  Run.require (size ≠ 0) .zeroLevel
  return UInt32.ofNat size

/-- A word of the image. -/
def readWord (bytes : List UInt8) (cursor : ℕ) : Run ImageError UInt64 := do
  return UInt64.ofNat (← readLe 8 bytes cursor)

/-- `from_bytes`. -/
def fromBytes (bytes : List UInt8) : Run ImageError HashImage := do
  Run.require (32 ≤ bytes.length) .truncated
  Run.require ((← Run.expect (getRange bytes 0 4)) = magic) .badMagic
  let version ← readLe 2 bytes 4
  Run.require (version = 1) (.unsupportedVersion version)
  let hasher ← Run.expect bytes[6]?
  Run.require (hasher = 1) (.unsupportedHasher hasher)
  let groupBits ← Run.expect bytes[7]?
  Run.require (groupBits = 4) (.unsupportedGroupBits groupBits)
  let seedBits ← Run.expect bytes[8]?
  Run.require (seedBits = 4) (.unsupportedSeedBits seedBits)
  Run.require ((← Run.expect (getRange bytes 9 12)) = [0, 0, 0]) .nonZeroReserved
  Run.require ((← readLe 4 bytes 28) = 0) .nonZeroReserved
  let keyCount ← readLe 4 bytes 12
  let levelCount ← readLe 4 bytes 16
  Run.require (levelCount < 2 ^ w) .countOverflow
  let bitWordCount ← readLe 4 bytes 20
  Run.require (bitWordCount < 2 ^ w) .countOverflow
  let seedWordCount ← readLe 4 bytes 24
  Run.require (seedWordCount < 2 ^ w) .countOverflow
  Run.require (levelCount ≠ 0) .emptyLevels
  let levelsBytes ← Run.orFail .countOverflow (Uint.checkedMul w levelCount 4)
  let bitBytes ← Run.orFail .countOverflow (Uint.checkedMul w bitWordCount 8)
  let seedBytes ← Run.orFail .countOverflow (Uint.checkedMul w seedWordCount 8)
  let expectedLen ← Run.orFail .countOverflow
    (((Uint.checkedAdd w 32 levelsBytes).bind fun value => Uint.checkedAdd w value bitBytes).bind
      fun value => Uint.checkedAdd w value seedBytes)
  Run.require (expectedLen ≤ bytes.length) .truncated
  Run.require (bytes.length ≤ expectedLen) .trailingBytes
  let (levelSizes, cursor) ← readItems 4 (readLevel bytes) levelCount 32
  let (bitWords, cursor) ← readItems 8 (readWord bytes) bitWordCount cursor
  let (seedWords, _) ← readItems 8 (readWord bytes) seedWordCount cursor
  fromParts w (UInt32.ofNat keyCount) levelSizes bitWords seedWords

variable (image : HashImage)

/-- `to_bytes`. -/
def toBytes : List UInt8 :=
  [magic, leBytes 2 1, [1], [4], [4], [0, 0, 0], leBytes 4 image.keyCount.toNat,
    leBytes 4 image.levelSizes.length, leBytes 4 image.bitWords.length,
    leBytes 4 image.seedWords.length, leBytes 4 0,
    (image.levelSizes.map fun value => leBytes 4 value.toNat).flatten,
    (image.bitWords.map fun value => leBytes 8 value.toNat).flatten,
    (image.seedWords.map fun value => leBytes 8 value.toNat).flatten].flatten

/-- The index of a bit of `evaluate`, if the bit is set. -/
def indexAt (bitIndex : ℕ) : Run ε (Option ℕ) := do
  let wordIndex := bitIndex / 64
  let bitInWord := bitIndex % 64
  let word ← Run.expect image.bitWords[wordIndex]?
  let bitMask := 1 <<< bitInWord
  if word.toNat &&& bitMask ≠ 0 then do
    let lowerMask := bitMask - 1
    let index ← Run.add 32 (← Run.expect image.rankBeforeWord[wordIndex]?)
      (countOnes (word.toNat &&& lowerMask))
    return some index
  else return none

/-- The loop of `evaluate`, from a level on. -/
def evaluateFrom (key : List UInt8) : List UInt32 → ℕ → ℕ → Run ε (Option ℕ)
  | [], _, _ => return none
  | levelGroups :: levels, level, groupsBefore => do
      let hash := hashKey wyhash key level
      let groupInLevel := map64 hash levelGroups.toNat
      let group ← Run.add w groupsBefore groupInLevel
      let seedWord ← Run.expect image.seedWords[group / seedsPerWord]?
      let seedShift := group % seedsPerWord * 4
      let seed := (seedWord.toNat >>> seedShift) &&& 0x0f
      let bitInGroup := (mix32 (UInt32.ofNat hash ^^^ UInt32.ofNat seed)).toNat &&& (groupSize - 1)
      let base ← Run.expect (Uint.checkedMul w group groupSize)
      let bitIndex ← Run.add w base bitInGroup
      match ← image.indexAt bitIndex with
      | some index => return some index
      | none => do
          let groupsBefore ← Run.add w groupsBefore levelGroups.toNat
          evaluateFrom key levels (level + 1) groupsBefore

/-- `evaluate`. -/
def evaluate (key : List UInt8) : Run ε (Option ℕ) :=
  image.evaluateFrom w wyhash key image.levelSizes 0 0

/-! ### The bits -/

variable {w : ℕ} {wyhash : WyHash} {image : HashImage} {words : List UInt64}

/-- Bit `j` of the words is set. -/
def bitAt (words : List UInt64) (j : ℕ) : Bool :=
  words[j / 64]?.any fun word => word.toNat.testBit (j % 64)

/-- The number of set bits before bit `j`. -/
def rank (words : List UInt64) (j : ℕ) : ℕ := Nat.count (fun k => bitAt words k = true) j

lemma bitAt_of_word {i k : ℕ} {word : UInt64} (hword : words[i]? = some word) (hk : k < 64) :
    bitAt words (64 * i + k) = word.toNat.testBit k := by
  have hdiv : (64 * i + k) / 64 = i := by omega
  have hmod : (64 * i + k) % 64 = k := by omega
  rw [bitAt, hdiv, hmod, hword, Option.any_some]

/-- The rank within a word. -/
lemma rank_of_word {i b : ℕ} {word : UInt64} (hword : words[i]? = some word) (hb : b ≤ 64) :
    rank words (64 * i + b) =
      rank words (64 * i) + Nat.count (fun k => word.toNat.testBit k = true) b := by
  rw [rank, rank, Nat.count_add]
  congr 1
  have hbit : ∀ k < b, (bitAt words (64 * i + k) = true ↔ word.toNat.testBit k = true) := by
    intro k hk
    rw [bitAt_of_word hword (hk.trans_le hb)]
  exact le_antisymm (Nat.count_mono_left fun k hk => (hbit k hk).mp)
    (Nat.count_mono_left fun k hk => (hbit k hk).mpr)

lemma rank_succ {i : ℕ} {word : UInt64} (hword : words[i]? = some word) :
    rank words (64 * (i + 1)) = rank words (64 * i) + countOnes word.toNat := by
  rw [Nat.mul_succ, rank_of_word hword le_rfl]
  rfl

/-- `word & lower_mask` has the bits below the mask. -/
lemma countOnes_and_mask (word : ℕ) {b : ℕ} (hb : b ≤ 64) :
    countOnes (word &&& (1 <<< b - 1)) = Nat.count (fun k => word.testBit k = true) b := by
  obtain ⟨c, hc⟩ := Nat.exists_eq_add_of_le hb
  have hbit : ∀ k, (word &&& (1 <<< b - 1)).testBit k = (decide (k < b) && word.testBit k) := by
    intro k
    rw [Nat.one_shiftLeft, Nat.and_two_pow_sub_one_eq_mod, Nat.testBit_mod_two_pow]
  have hhigh : Nat.count (fun k => (word &&& (1 <<< b - 1)).testBit (b + k) = true) c = 0 := by
    refine Nat.count_iff_forall_not.mpr fun k _ => ?_
    rw [hbit, decide_eq_false (Nat.not_lt.mpr (Nat.le_add_right b k)), Bool.false_and]
    exact Bool.false_ne_true
  rw [countOnes, hc, Nat.count_add, hhigh, Nat.add_zero]
  have hlow : ∀ k < b, ((word &&& (1 <<< b - 1)).testBit k = true ↔ word.testBit k = true) := by
    intro k hk
    rw [hbit, decide_eq_true hk, Bool.true_and]
  exact le_antisymm (Nat.count_mono_left fun k hk => (hlow k hk).mp)
    (Nat.count_mono_left fun k hk => (hlow k hk).mpr)

lemma and_mask_ne_zero (word b : ℕ) : word &&& (1 <<< b) ≠ 0 ↔ word.testBit b = true := by
  rw [Nat.one_shiftLeft, Nat.and_two_pow, Nat.mul_ne_zero_iff]
  cases word.testBit b <;> simp

/-- Every number below a count is the count before some element. -/
lemma exists_of_lt_count {p : ℕ → Prop} [DecidablePred p] {n i : ℕ} (h : i < Nat.count p n) :
    ∃ j < n, p j ∧ Nat.count p j = i := by
  have hcard : ∀ hf : (Set.ofPred p).Finite, i < hf.toFinset.card := fun hf =>
    h.trans_le (Nat.count_le_card hf n)
  exact ⟨Nat.nth p i, Nat.nth_lt_of_lt_count h, Nat.nth_mem i hcard, Nat.count_nth hcard⟩

/-! ### What is checked -/

/-- The groups of all the levels. -/
def groupCount (levels : List UInt32) : ℕ := (levels.map UInt32.toNat).sum

/-- What `from_parts` checks. -/
structure Valid (w : ℕ) (image : HashImage) : Prop where
  levels : 0 ∉ image.levelSizes
  bits : groupCount image.levelSizes * 16 = 64 * image.bitWords.length
  bits_lt : groupCount image.levelSizes * 16 < 2 ^ w
  seeds : image.seedWords.length = (groupCount image.levelSizes + 15) / 16
  ranks : image.rankBeforeWord =
    (List.range image.bitWords.length).map fun i => rank image.bitWords (64 * i)
  keyCount : image.keyCount.toNat = rank image.bitWords (64 * image.bitWords.length)

/-- The loop of `from_parts` over the words counts the set bits before each word. -/
lemma rankLoop_eq_ok {st : List ℕ × ℕ} (h : words.foldlM rankStep ([], 0) = ok st) :
    st.1 = (List.range words.length).map (fun i => rank words (64 * i)) ∧
      st.2 = rank words (64 * words.length) := by
  have hloop : ∀ (rest : List UInt64) (n : ℕ) (st : List ℕ × ℕ), words.drop n = rest →
      n + rest.length = words.length →
      rest.foldlM rankStep ((List.range n).map (fun i => rank words (64 * i)), rank words (64 * n)) =
        ok st →
      st.1 = (List.range words.length).map (fun i => rank words (64 * i)) ∧
        st.2 = rank words (64 * words.length) := by
    intro rest
    induction rest with
    | nil =>
        rintro n st - hn h
        obtain rfl := ok_inj.mp h
        rw [List.length_nil, Nat.add_zero] at hn
        subst hn
        exact ⟨rfl, rfl⟩
    | cons word rest ih =>
        intro n st hdrop hn h
        rw [List.foldlM_cons] at h
        obtain ⟨st₁, hstep, h⟩ := bind_eq_ok.mp h
        obtain ⟨observed, hobserved, hstep⟩ := bind_eq_ok.mp hstep
        obtain rfl := ok_inj.mp hstep
        rw [orFail_eq_ok, Uint.checkedAdd, Option.ite_none_right_eq_some] at hobserved
        have hword : words[n]? = some word := by
          rw [← List.head?_drop, hdrop, List.head?_cons]
        have hrank := Option.some_inj.mp hobserved.2
        rw [← rank_succ hword] at hrank
        refine ih (n + 1) st ?_ (by rw [← hn, List.length_cons]; omega) ?_
        · rw [← List.drop_drop, hdrop, List.drop_one, List.tail_cons]
        · rw [List.range_succ, List.map_append, List.map_singleton, hrank]
          exact h
  exact hloop words 0 st List.drop_zero (Nat.zero_add _) h

lemma levelLoop_eq_ok {levels : List UInt32} {total : ℕ} (h : levels.foldlM
    (fun total size => Run.orFail .countOverflow (Uint.checkedAdd w total size.toNat)) 0 =
      (ok total : Run ImageError ℕ)) : total = groupCount levels := by
  have hloop : ∀ (levels : List UInt32) (start total : ℕ), levels.foldlM
      (fun total size => Run.orFail .countOverflow (Uint.checkedAdd w total size.toNat)) start =
        (ok total : Run ImageError ℕ) → total = start + groupCount levels := by
    intro levels
    induction levels with
    | nil =>
        intro start total h
        exact (ok_inj.mp h).symm
    | cons size levels ih =>
        intro start total h
        rw [List.foldlM_cons] at h
        obtain ⟨next, hnext, h⟩ := bind_eq_ok.mp h
        rw [orFail_eq_ok, Uint.checkedAdd, Option.ite_none_right_eq_some] at hnext
        rw [ih next total h, ← Option.some_inj.mp hnext.2, groupCount, groupCount, List.map_cons,
          List.sum_cons, Nat.add_assoc]
  rw [hloop levels 0 total h, Nat.zero_add]

/-- What `from_parts` accepts is valid. -/
lemma valid_of_fromParts {keyCount : UInt32} {levelSizes : List UInt32}
    {bitWords seedWords : List UInt64}
    (h : fromParts w keyCount levelSizes bitWords seedWords = ok image) :
    Valid w image ∧ image.keyCount = keyCount ∧ image.levelSizes = levelSizes ∧
      image.bitWords = bitWords ∧ image.seedWords = seedWords := by
  obtain ⟨_, -, h⟩ := bind_eq_ok.mp h
  obtain ⟨_, hlevels, h⟩ := bind_eq_ok.mp h
  obtain ⟨total, htotal, h⟩ := bind_eq_ok.mp h
  obtain ⟨bitCount, hbitCount, h⟩ := bind_eq_ok.mp h
  obtain ⟨_, hbits, h⟩ := bind_eq_ok.mp h
  obtain ⟨padded, hpadded, h⟩ := bind_eq_ok.mp h
  obtain ⟨_, hseeds, h⟩ := bind_eq_ok.mp h
  obtain ⟨_, -, h⟩ := bind_eq_ok.mp h
  obtain ⟨st, hst, h⟩ := bind_eq_ok.mp h
  obtain ⟨_, hcount, h⟩ := bind_eq_ok.mp h
  obtain rfl := ok_inj.mp h
  obtain rfl := levelLoop_eq_ok htotal
  rw [orFail_eq_ok, Uint.checkedMul, Option.ite_none_right_eq_some] at hbitCount
  rw [orFail_eq_ok, Uint.checkedAdd, Option.ite_none_right_eq_some] at hpadded
  rw [require_eq_ok] at hlevels hbits hseeds hcount
  obtain rfl := Option.some_inj.mp hbitCount.2
  obtain rfl := Option.some_inj.mp hpadded.2
  obtain ⟨hranks, hobserved⟩ := rankLoop_eq_ok hst
  refine ⟨⟨hlevels, ?_, hbitCount.1, hseeds, hranks, ?_⟩, rfl, rfl, rfl, rfl⟩
  · have hgroup : groupSize = 16 := rfl
    rw [hgroup] at hbits
    show groupCount levelSizes * 16 = 64 * bitWords.length
    omega
  · exact hcount.symm.trans hobserved

/-! ### The search -/

/-- The index of a bit is the number of set bits before it. -/
lemma Valid.indexAt (h : Valid w image) {j : ℕ} (hj : j < 64 * image.bitWords.length) :
    (image.indexAt j : Run ε (Option ℕ)) =
      ok (if bitAt image.bitWords j then some (rank image.bitWords j) else none) := by
  have hdiv : j / 64 < image.bitWords.length := Nat.div_lt_of_lt_mul hj
  have hmod : j % 64 < 64 := Nat.mod_lt j (by decide)
  obtain ⟨word, hword⟩ : ∃ word, image.bitWords[j / 64]? = some word :=
    ⟨_, List.getElem?_eq_getElem hdiv⟩
  have hrank : image.rankBeforeWord[j / 64]? = some (rank image.bitWords (64 * (j / 64))) := by
    rw [h.ranks, List.getElem?_map, List.getElem?_range hdiv, Option.map_some]
  have hbit : bitAt image.bitWords j = word.toNat.testBit (j % 64) := by
    rw [← bitAt_of_word hword hmod, Nat.div_add_mod]
  have hsum : rank image.bitWords (64 * (j / 64)) +
      countOnes (word.toNat &&& (1 <<< (j % 64) - 1)) = rank image.bitWords j := by
    rw [countOnes_and_mask _ hmod.le, ← rank_of_word hword hmod.le, Nat.div_add_mod]
  have hlt : rank image.bitWords j < 2 ^ 32 := by
    refine lt_of_le_of_lt (Nat.count_monotone _ hj.le) ?_
    exact h.keyCount.symm.trans_lt (UInt32.toNat_lt _)
  simp only [HashImage.indexAt, hword, hrank, expect_some, Run.ok_bind, and_mask_ne_zero, hbit]
  split_ifs with hset
  · rw [add_of_lt (hsum ▸ hlt), hsum]
    rfl
  · rfl

/-- The loop of `evaluate` does not panic, and gives the index of a set bit. -/
lemma Valid.evaluateFrom (h : Valid w image) (key : List UInt8) {levels : List UInt32}
    {level groupsBefore : ℕ} (hlevels : 0 ∉ levels)
    (hgroups : groupsBefore + groupCount levels = groupCount image.levelSizes) :
    ∃ o, (image.evaluateFrom w wyhash key levels level groupsBefore : Run ε (Option ℕ)) = ok o ∧
      ∀ i, o = some i → ∃ j, bitAt image.bitWords j = true ∧ rank image.bitWords j = i ∧
        j < 64 * image.bitWords.length := by
  induction levels generalizing level groupsBefore with
  | nil => exact ⟨none, rfl, fun _ => nofun⟩
  | cons size levels ih =>
      obtain ⟨hsize, hrest⟩ := not_or.mp (List.mem_cons.not.mp hlevels)
      rw [groupCount, List.map_cons, List.sum_cons, ← groupCount] at hgroups
      have hbits := h.bits
      have hbitsLt := h.bits_lt
      have hpos : 0 < size.toNat :=
        Nat.pos_of_ne_zero fun hzero => hsize (UInt32.toNat_inj.mp hzero).symm
      have hin : map64 (hashKey wyhash key level) size.toNat < size.toNat :=
        FingerprintTable.map64_lt (UInt64.toNat_lt _) hpos
      set group := groupsBefore + map64 (hashKey wyhash key level) size.toNat with hgroup
      have hgroupLt : group < groupCount image.levelSizes := by omega
      have hseed : group / seedsPerWord < image.seedWords.length := by
        rw [h.seeds]
        exact Nat.div_lt_of_lt_mul (by rw [seedsPerWord]; omega)
      set seedWord := image.seedWords[group / seedsPerWord] with hseedWord
      set mixed := (mix32 (UInt32.ofNat (hashKey wyhash key level) ^^^ UInt32.ofNat
        ((seedWord.toNat >>> (group % seedsPerWord * 4)) &&& 0x0f))).toNat &&& (groupSize - 1)
        with hmixed
      have hmixedLt : mixed < 16 := lt_of_le_of_lt Nat.and_le_right (by decide)
      have hgroupSize : groupSize = 16 := rfl
      have hbase : group * groupSize < 2 ^ w := by
        rw [hgroupSize]
        omega
      have hbit : group * groupSize + mixed < 64 * image.bitWords.length := by
        rw [hgroupSize]
        omega
      obtain ⟨o, ho, hset⟩ := @ih (level + 1) (groupsBefore + size.toNat)
        hrest (by omega)
      rw [HashImage.evaluateFrom, add_of_lt (by omega), Run.ok_bind, ← hgroup,
        List.getElem?_eq_getElem hseed, expect_some, Run.ok_bind, ← hseedWord]
      dsimp only
      rw [← hmixed, Uint.checkedMul, if_pos hbase, expect_some, Run.ok_bind,
        add_of_lt (by omega), Run.ok_bind, h.indexAt hbit, Run.ok_bind]
      by_cases hon : bitAt image.bitWords (group * groupSize + mixed) = true
      · rw [if_pos hon]
        refine ⟨_, rfl, fun i hi => ⟨_, hon, Option.some_inj.mp hi, hbit⟩⟩
      · rw [if_neg hon, add_of_lt (by omega), Run.ok_bind]
        exact ⟨o, ho, hset⟩

/-! ### The image -/

variable {bytes : List UInt8}

/-- What is read, and what is left. -/
lemma readLe_eq_ok {k offset n : ℕ} (h : readLe k bytes offset = ok n) :
    n < 256 ^ k ∧ bytes.drop offset = leBytes k n ++ bytes.drop (offset + k) := by
  obtain ⟨r, hr, h⟩ := bind_eq_ok.mp h
  obtain rfl := ok_inj.mp h
  rw [orFail_eq_ok] at hr
  have hlen : r.length = k := by rw [length_of_getRange hr, Nat.add_sub_cancel_left]
  subst hlen
  exact ⟨leNat_lt r, by rw [leBytes_leNat, drop_of_getRange hr]⟩

/-- What a loop of `from_bytes` reads, and what is left. -/
lemma readItems_eq_ok {α : Type} {k : ℕ} {read : ℕ → Run ImageError α} (write : α → List UInt8)
    (hread : ∀ cursor item, read cursor = ok item →
      bytes.drop cursor = write item ++ bytes.drop (cursor + k))
    {n cursor : ℕ} {st : List α × ℕ} (h : readItems k read n cursor = ok st) :
    st.1.length = n ∧ st.2 = cursor + n * k ∧
      bytes.drop cursor = (st.1.map write).flatten ++ bytes.drop st.2 := by
  induction n generalizing cursor st with
  | zero =>
      obtain rfl := ok_inj.mp h
      exact ⟨rfl, by rw [Nat.zero_mul, Nat.add_zero], rfl⟩
  | succ n ih =>
      obtain ⟨item, hitem, h⟩ := bind_eq_ok.mp h
      obtain ⟨⟨items, stop⟩, hitems, h⟩ := bind_eq_ok.mp h
      obtain rfl := ok_inj.mp h
      obtain ⟨hlen, hstop, hrest⟩ := ih hitems
      refine ⟨by rw [List.length_cons, hlen], ?_, ?_⟩
      · show stop = _
        rw [show stop = cursor + k + n * k from hstop, Nat.succ_mul]
        omega
      · rw [hread cursor item hitem, hrest, List.map_cons, List.flatten_cons, List.append_assoc]

lemma readLevel_eq_ok {cursor : ℕ} {size : UInt32} (h : readLevel bytes cursor = ok size) :
    bytes.drop cursor = leBytes 4 size.toNat ++ bytes.drop (cursor + 4) := by
  obtain ⟨n, hn, h⟩ := bind_eq_ok.mp h
  obtain ⟨_, -, h⟩ := bind_eq_ok.mp h
  obtain rfl := ok_inj.mp h
  obtain ⟨hlt, hdrop⟩ := readLe_eq_ok hn
  rw [UInt32.toNat_ofNat_of_lt' hlt, hdrop]

lemma readWord_eq_ok {cursor : ℕ} {word : UInt64} (h : readWord bytes cursor = ok word) :
    bytes.drop cursor = leBytes 8 word.toNat ++ bytes.drop (cursor + 8) := by
  obtain ⟨n, hn, h⟩ := bind_eq_ok.mp h
  obtain rfl := ok_inj.mp h
  obtain ⟨hlt, hdrop⟩ := readLe_eq_ok hn
  rw [UInt64.toNat_ofNat_of_lt' hlt, hdrop]

/-- An image that is accepted is valid, and is written as it was read. -/
theorem fromBytes_eq_ok (h : fromBytes w bytes = ok image) :
    Valid w image ∧ image.toBytes = bytes := by
  obtain ⟨_, -, h⟩ := bind_eq_ok.mp h
  obtain ⟨magic', hmagic, h⟩ := bind_eq_ok.mp h
  obtain ⟨_, hmagicEq, h⟩ := bind_eq_ok.mp h
  obtain ⟨version, hversion, h⟩ := bind_eq_ok.mp h
  obtain ⟨_, hversionEq, h⟩ := bind_eq_ok.mp h
  obtain ⟨hasher, hhasher, h⟩ := bind_eq_ok.mp h
  obtain ⟨_, hhasherEq, h⟩ := bind_eq_ok.mp h
  obtain ⟨groupBits, hgroupBits, h⟩ := bind_eq_ok.mp h
  obtain ⟨_, hgroupBitsEq, h⟩ := bind_eq_ok.mp h
  obtain ⟨seedBits, hseedBits, h⟩ := bind_eq_ok.mp h
  obtain ⟨_, hseedBitsEq, h⟩ := bind_eq_ok.mp h
  obtain ⟨zeros, hzeros, h⟩ := bind_eq_ok.mp h
  obtain ⟨_, hzerosEq, h⟩ := bind_eq_ok.mp h
  obtain ⟨reserved, hreserved, h⟩ := bind_eq_ok.mp h
  obtain ⟨_, hreservedEq, h⟩ := bind_eq_ok.mp h
  obtain ⟨keyCount, hkeyCount, h⟩ := bind_eq_ok.mp h
  obtain ⟨levelCount, hlevelCount, h⟩ := bind_eq_ok.mp h
  obtain ⟨_, -, h⟩ := bind_eq_ok.mp h
  obtain ⟨bitWordCount, hbitWordCount, h⟩ := bind_eq_ok.mp h
  obtain ⟨_, -, h⟩ := bind_eq_ok.mp h
  obtain ⟨seedWordCount, hseedWordCount, h⟩ := bind_eq_ok.mp h
  obtain ⟨_, -, h⟩ := bind_eq_ok.mp h
  obtain ⟨_, -, h⟩ := bind_eq_ok.mp h
  obtain ⟨levelsBytes, hlevelsBytes, h⟩ := bind_eq_ok.mp h
  obtain ⟨bitBytes, hbitBytes, h⟩ := bind_eq_ok.mp h
  obtain ⟨seedBytes, hseedBytes, h⟩ := bind_eq_ok.mp h
  obtain ⟨expectedLen, hexpectedLen, h⟩ := bind_eq_ok.mp h
  obtain ⟨_, hlong, h⟩ := bind_eq_ok.mp h
  obtain ⟨_, hshort, h⟩ := bind_eq_ok.mp h
  obtain ⟨⟨levelSizes, stop₁⟩, hlevels, h⟩ := bind_eq_ok.mp h
  obtain ⟨⟨bitWords, stop₂⟩, hbits, h⟩ := bind_eq_ok.mp h
  obtain ⟨⟨seedWords, stop₃⟩, hseeds, h⟩ := bind_eq_ok.mp h
  obtain ⟨hvalid, hkeys, hlevelsEq, hbitsEq, hseedsEq⟩ := valid_of_fromParts h
  refine ⟨hvalid, ?_⟩
  rw [require_eq_ok] at hmagicEq hversionEq hhasherEq hgroupBitsEq hseedBitsEq hzerosEq
  rw [require_eq_ok] at hreservedEq hlong hshort
  rw [expect_eq_ok] at hmagic hhasher hgroupBits hseedBits hzeros
  rw [orFail_eq_ok, Uint.checkedMul, Option.ite_none_right_eq_some] at hlevelsBytes
  rw [orFail_eq_ok, Uint.checkedMul, Option.ite_none_right_eq_some] at hbitBytes hseedBytes
  subst hmagicEq hversionEq hhasherEq hgroupBitsEq hseedBitsEq hzerosEq hreservedEq
  obtain rfl := Option.some_inj.mp hlevelsBytes.2
  obtain rfl := Option.some_inj.mp hbitBytes.2
  obtain rfl := Option.some_inj.mp hseedBytes.2
  obtain ⟨hlevelLen, hstop₁, hlevelDrop⟩ := readItems_eq_ok
    (fun value : UInt32 => leBytes 4 value.toNat) (fun _ _ => readLevel_eq_ok) hlevels
  obtain ⟨hbitLen, hstop₂, hbitDrop⟩ := readItems_eq_ok
    (fun value : UInt64 => leBytes 8 value.toNat) (fun _ _ => readWord_eq_ok) hbits
  obtain ⟨hseedLen, hstop₃, hseedDrop⟩ := readItems_eq_ok
    (fun value : UInt64 => leBytes 8 value.toNat) (fun _ _ => readWord_eq_ok) hseeds
  have hend : bytes.drop stop₃ = [] := by
    obtain ⟨value₂, hvalue₂, hvalue₃⟩ := Option.bind_eq_some_iff.mp (orFail_eq_ok.mp hexpectedLen)
    obtain ⟨value₁, hvalue₁, hvalue₂⟩ := Option.bind_eq_some_iff.mp hvalue₂
    rw [Uint.checkedAdd, Option.ite_none_right_eq_some] at hvalue₁ hvalue₂ hvalue₃
    obtain rfl := Option.some_inj.mp hvalue₁.2
    obtain rfl := Option.some_inj.mp hvalue₂.2
    obtain rfl := Option.some_inj.mp hvalue₃.2
    dsimp only at hstop₁ hstop₂ hstop₃
    rw [hstop₃, hstop₂, hstop₁]
    exact List.drop_eq_nil_of_le hshort
  have hversionDrop : bytes.drop 4 = leBytes 2 1 ++ bytes.drop 6 := (readLe_eq_ok hversion).2
  have hkeyDrop : bytes.drop 12 = leBytes 4 keyCount ++ bytes.drop 16 := (readLe_eq_ok hkeyCount).2
  have hlevelCountDrop : bytes.drop 16 = leBytes 4 levelCount ++ bytes.drop 20 :=
    (readLe_eq_ok hlevelCount).2
  have hbitCountDrop : bytes.drop 20 = leBytes 4 bitWordCount ++ bytes.drop 24 :=
    (readLe_eq_ok hbitWordCount).2
  have hseedCountDrop : bytes.drop 24 = leBytes 4 seedWordCount ++ bytes.drop 28 :=
    (readLe_eq_ok hseedWordCount).2
  have hreservedDrop : bytes.drop 28 = leBytes 4 0 ++ bytes.drop 32 := (readLe_eq_ok hreserved).2
  have hkeyNat : (UInt32.ofNat keyCount).toNat = keyCount :=
    UInt32.toNat_ofNat_of_lt' (readLe_eq_ok hkeyCount).1
  have hmagicDrop : bytes = magic ++ bytes.drop 4 := drop_of_getRange hmagic
  have hhasherDrop : bytes.drop 6 = [1] ++ bytes.drop 7 := drop_of_getElem? hhasher
  have hgroupDrop : bytes.drop 7 = [4] ++ bytes.drop 8 := drop_of_getElem? hgroupBits
  have hseedBitsDrop : bytes.drop 8 = [4] ++ bytes.drop 9 := drop_of_getElem? hseedBits
  rw [toBytes, hkeys, hlevelsEq, hbitsEq, hseedsEq, hkeyNat, show levelSizes.length = _ from hlevelLen,
    show bitWords.length = _ from hbitLen, show seedWords.length = _ from hseedLen, hmagicDrop,
    hversionDrop, hhasherDrop, hgroupDrop, hseedBitsDrop, drop_of_getRange hzeros, hkeyDrop,
    hlevelCountDrop, hbitCountDrop, hseedCountDrop, hreservedDrop, hlevelDrop, hbitDrop, hseedDrop,
    hend]
  rfl

/-- The indices of the set bits are the numbers below the key count, each once. -/
lemma Valid.existsUnique_indexAt (h : Valid w image) {i : ℕ} (hi : i < image.keyCount.toNat) :
    ∃! j, (image.indexAt j : Run ε (Option ℕ)) = ok (some i) := by
  have hindex : ∀ j, (image.indexAt j : Run ε (Option ℕ)) = ok (some i) →
      bitAt image.bitWords j = true ∧ rank image.bitWords j = i := by
    intro j hj
    by_cases hlt : j < 64 * image.bitWords.length
    · rw [h.indexAt hlt, ok_inj, Option.ite_none_right_eq_some] at hj
      exact ⟨hj.1, Option.some_inj.mp hj.2⟩
    · have hnone : image.bitWords[j / 64]? = none :=
        List.getElem?_eq_none ((Nat.le_div_iff_mul_le (by decide)).mpr (by omega))
      rw [HashImage.indexAt, hnone] at hj
      cases hj
  rw [h.keyCount] at hi
  obtain ⟨j, hlt, hset, hrank⟩ := exists_of_lt_count hi
  refine ⟨j, ?_, fun k hk => ?_⟩
  · show (image.indexAt j : Run ε (Option ℕ)) = ok (some i)
    rw [h.indexAt hlt, if_pos hset]
    exact congrArg (fun n => ok (some n)) hrank
  · obtain ⟨hsetK, hrankK⟩ := hindex k hk
    exact Nat.count_injective (p := fun k => bitAt image.bitWords k = true) hsetK hset
      (hrankK.trans hrank.symm)

lemma Valid.rank_lt (h : Valid w image) {j : ℕ} (hlt : j < 64 * image.bitWords.length)
    (hset : bitAt image.bitWords j = true) : rank image.bitWords j < image.keyCount.toNat := by
  rw [h.keyCount]
  exact Nat.count_strict_mono (p := fun k => bitAt image.bitWords k = true) hset hlt

/-- An image that is accepted: it is written as it was read; `evaluate` does not panic, and gives
nothing or an index below the key count; and the bits of the levels that are set have the indices
below the key count, each once. -/
theorem fromBytes_correct (h : fromBytes w bytes = ok image) :
    image.toBytes = bytes ∧ fromBytes w image.toBytes = ok image ∧
      (∀ (wyhash : WyHash) (key : List UInt8),
        ∃ o, (image.evaluate w wyhash key : Run ε (Option ℕ)) = ok o ∧
          ∀ i, o = some i → i < image.keyCount.toNat) ∧
      (∀ j < groupCount image.levelSizes * groupSize,
        ∃ o, (image.indexAt j : Run ε (Option ℕ)) = ok o ∧
          (o.isSome = true ↔ bitAt image.bitWords j = true) ∧
          ∀ i, o = some i → i < image.keyCount.toNat) ∧
      ∀ i < image.keyCount.toNat, ∃! j, (image.indexAt j : Run ε (Option ℕ)) = ok (some i) := by
  obtain ⟨hvalid, hbytes⟩ := fromBytes_eq_ok h
  refine ⟨hbytes, hbytes ▸ h, fun wyhash key => ?_, fun j hj => ?_,
    fun i hi => hvalid.existsUnique_indexAt hi⟩
  · obtain ⟨o, ho, hset⟩ := @Valid.evaluateFrom ε _ wyhash _ hvalid key _ 0 0
      hvalid.levels (Nat.zero_add _)
    refine ⟨o, ho, fun i hi => ?_⟩
    obtain ⟨j, hbit, hrank, hlt⟩ := hset i hi
    exact hrank ▸ hvalid.rank_lt hlt hbit
  · have hlt : j < 64 * image.bitWords.length := hvalid.bits ▸ hj
    refine ⟨_, hvalid.indexAt hlt, ?_, fun i hi => ?_⟩
    · split_ifs with hset <;> simp [hset]
    · rw [Option.ite_none_right_eq_some] at hi
      exact Option.some_inj.mp hi.2 ▸ hvalid.rank_lt hlt hi.1

/-- An image of one level and two keys. -/
def twoKeys : HashImage := ⟨2, [4], [5], [0], [0]⟩

/-- The image of two keys, and a key at the first of its bits. -/
theorem fromBytes_correct_twoKeys : fromBytes 64 twoKeys.toBytes = ok twoKeys ∧
    (∃ o, (twoKeys.evaluate 64 (fun _ _ _ => 0) [97] : Run ImageError (Option ℕ)) = ok o ∧
      ∀ i, o = some i → i < 2) ∧
    ∃! j, (twoKeys.indexAt j : Run ImageError (Option ℕ)) = ok (some 1) := by
  have hread : fromBytes 64 twoKeys.toBytes = ok twoKeys := rfl
  obtain ⟨-, hagain, hevaluate, -, hbits⟩ := fromBytes_correct (ε := ImageError) hread
  exact ⟨hagain, hevaluate _ _, hbits 1 (by decide)⟩

end HashImage

end Hypertok
