import Mathlib.Data.List.AList
import Hypertok.Bpe.MergeSmall
import Hypertok.Machine.Pack
import Hypertok.Machine.Probe

/-!
`PairRankTable`, the pair ranks of a tokenizer in a dense grid for small ids and a
flat table with linear probing for all pairs. A table built for compact ranks has
the flat level only.

* `PairRankTable.Holds`: the table holds exactly the pairs of a merge map.
* `PairRankTable.Holds.rank`: then `rank` reads the map, on ids below `2^21`.
* `PairRankTable.Holds.insert`: `insert` adds a new pair, or refuses and leaves the
  table to the fallback of its callers.
-/

namespace Hypertok

open PairMerge Machine

/-! ### Merge maps -/

/-- `HashMap<(TokenId, TokenId), TokenId>`. -/
abbrev Merges := AList fun _ : TokenId × TokenId => TokenId

/-- `merges.get(&(a, b)).map_or(u32::MAX, |m| m.0)`. -/
def mergesRank (merges : Merges) (a b : TokenId) : ℕ := (merges.lookup (a, b)).getD u32Max

/-! ### The table -/

/-- `PAIR_ID_BITS`. -/
def pairIdBits : ℕ := 21

/-- `u64::MAX`, the empty slot. -/
def u64Max : ℕ := 2 ^ 64 - 1

/-- `((a as u64) << PAIR_ID_BITS) | b as u64`. -/
def pairKey (a b : TokenId) : ℕ := a <<< pairIdBits ||| b

/-- `PairRankTable`. The grid of `2^22` cells is a function on indices; it is missing
from a compact table. -/
structure PairRankTable where
  dense : Option (ℕ → ℕ)
  denseLog2 : ℕ
  slots : List ℕ
  mask : ℕ
  shift : ℕ

namespace PairRankTable

/-- `(key.wrapping_mul(0x9E37_79B9_7F4A_7C15) >> shift) as usize`. -/
def home (t : PairRankTable) (key : ℕ) : ℕ := (key * 0x9E3779B97F4A7C15 % 2 ^ 64) >>> t.shift

/-- `(a | b) >> dense_log2 == 0`, and the cell of the pair. -/
def denseCell (t : PairRankTable) (a b : TokenId) : Option ℕ :=
  if (a ||| b) >>> t.denseLog2 = 0 then some (a <<< t.denseLog2 ||| b) else none

/-- `with_capacity`. The logarithm of the grid is clamped to 11 whatever the byte
tokens are. -/
def withCapacity (compact : Bool) (vocabLen mergeCount : ℕ) : Option PairRankTable :=
  if vocabLen > 1 <<< pairIdBits then none
  else
    let nSlots := max (nextPowerOfTwo (max mergeCount 1 * 2)) 64
    some {
      dense := if compact then none else some fun _ => u32Max
      denseLog2 := 11
      slots := List.replicate nSlots u64Max
      mask := nSlots - 1
      shift := 64 - Nat.log2 nSlots }

/-- The loop of `rank` in the flat level, for at most `n` slots. -/
def rankLoop (t : PairRankTable) (key : ℕ) : ℕ → ℕ → Option ℕ
  | 0, _ => none
  | n + 1, idx => do
      let slot ← t.slots[idx]?
      if slot >>> pairIdBits = key then some (slot &&& (1 <<< pairIdBits - 1))
      else if slot = u64Max then some u32Max
      else t.rankLoop key n ((idx + 1) &&& t.mask)

/-- `rank` in the flat level; `Holds.rankLoop` says that the loop ends. -/
def flatRank (t : PairRankTable) (a b : TokenId) : ℕ :=
  (t.rankLoop (pairKey a b) t.slots.length (t.home (pairKey a b))).getD u32Max

/-- `rank`. -/
def rank (t : PairRankTable) (a b : TokenId) : ℕ :=
  match t.dense, t.denseCell a b with
  | some grid, some cell => grid cell
  | _, _ => t.flatRank a b

/-- The loop of `insert`, for at most `n` slots: the slots with the pair added, or
`none` where the code returns `false`. -/
def insertLoop (t : PairRankTable) (key merged : ℕ) : ℕ → ℕ → ℕ → Option (List ℕ)
  | 0, _, _ => none
  | n + 1, idx, displacement => do
      let packed ← t.slots[idx]?
      if packed = u64Max then some (t.slots.set idx (key <<< pairIdBits ||| merged))
      else if packed >>> pairIdBits = key then none
      else if displacement + 1 > 64 then none
      else t.insertLoop key merged n ((idx + 1) &&& t.mask) (displacement + 1)

/-- `insert`: the table with the pair added, or `none` for `false`. The displacement
cap ends the loop after 65 slots. -/
def insert (t : PairRankTable) (left right merged : TokenId) : Option PairRankTable :=
  if left ≥ 1 <<< pairIdBits ∨ right ≥ 1 <<< pairIdBits ∨ merged ≥ 1 <<< pairIdBits then none
  else do
    let key := pairKey left right
    let slots ← t.insertLoop key merged 65 (t.home key) 0
    let dense :=
      match t.dense, t.denseCell left right with
      | some grid, some cell => some (Function.update grid cell merged)
      | dense, _ => dense
    some { t with dense, slots }

/-- The loop of `build`, for at most `n` slots. The keys of a map are distinct, and the
loop looks for an empty slot only. -/
def placeLoop (t : PairRankTable) (slot : ℕ) : ℕ → ℕ → ℕ → Option (List ℕ)
  | 0, _, _ => none
  | n + 1, idx, displacement => do
      let packed ← t.slots[idx]?
      if packed = u64Max then some (t.slots.set idx slot)
      else if displacement + 1 > 64 then none
      else t.placeLoop slot n ((idx + 1) &&& t.mask) (displacement + 1)

/-- One turn of `build`. -/
def buildStep (t : PairRankTable) (e : (_ : TokenId × TokenId) × TokenId) : Option PairRankTable := do
  let key := pairKey e.1.1 e.1.2
  let dense :=
    match t.dense, t.denseCell e.1.1 e.1.2 with
    | some grid, some cell => some (Function.update grid cell e.2)
    | dense, _ => dense
  let slots ← t.placeLoop (key <<< pairIdBits ||| e.2) 65 (t.home key) 0
  some { t with dense, slots }

/-- `build`: the table of a map, or `none` where the ids or the displacements are too
large. -/
def build (compact : Bool) (merges : Merges) (vocabLen : ℕ) : Option PairRankTable :=
  if ∃ e ∈ merges.entries, e.1.1 ≥ 1 <<< pairIdBits ∨ e.1.2 ≥ 1 <<< pairIdBits ∨
      e.2 ≥ 1 <<< pairIdBits then none
  else do
    let t ← withCapacity compact vocabLen merges.entries.length
    merges.entries.foldlM buildStep t

/-! ### The invariant -/

/-- The flat level as a table with linear probing. -/
def probing (t : PairRankTable) : Probing ℕ ℕ where
  key slot := if slot = u64Max then none else some (slot >>> pairIdBits)
  index key i := (t.home key + i) % t.slots.length

/-- The slot of a pair. -/
def packSlot (a b c : TokenId) : ℕ := pairKey a b <<< pairIdBits ||| c

/-- Ids that fit into a slot. -/
abbrev Fits (a : TokenId) : Prop := a < 2 ^ 21

/-- The table holds the pairs of the map, and has room for `room` more. -/
structure Holds (t : PairRankTable) (m : Merges) (room : ℕ) : Prop where
  pow : ∃ e ≤ 64, t.slots.length = 2 ^ e ∧ t.mask = 2 ^ e - 1 ∧ t.shift = 64 - e
  probed : t.probing.ProbedWithin t.slots 64
  fits : ∀ a b c, c ∈ m.lookup (a, b) → Fits a ∧ Fits b ∧ Fits c
  stores : ∀ k s, t.probing.Stores t.slots k s ↔
    ∃ a b c, c ∈ m.lookup (a, b) ∧ k = pairKey a b ∧ s = packSlot a b c
  load : t.probing.occupied t.slots + room < t.slots.length
  log2 : t.denseLog2 = 11
  grid : ∀ g, t.dense = some g → ∀ a b, a < 2 ^ 11 → b < 2 ^ 11 →
    g (a <<< 11 ||| b) = mergesRank m a b

variable {t : PairRankTable} {m : Merges} {room : ℕ} {a b c : ℕ}

lemma pairKey_inj {a' b' : TokenId} (hb : Fits b) (hb' : Fits b')
    (h : pairKey a b = pairKey a' b') : a = a' ∧ b = b' := pack_inj hb hb' h

/-- A packed slot is not the empty one, and its fields read back. -/
lemma packSlot_spec (ha : Fits a) (hb : Fits b) (hc : Fits c) :
    packSlot a b c ≠ u64Max ∧ packSlot a b c >>> pairIdBits = pairKey a b ∧
      packSlot a b c &&& (1 <<< pairIdBits - 1) = c := by
  have hkey : pairKey a b < 2 ^ 42 := pack_lt hb ha
  have hlt : packSlot a b c < 2 ^ 63 := pack_lt hc hkey
  refine ⟨?_, pack_shiftRight hc _, pack_and hc _⟩
  simp only [u64Max]
  omega

lemma probing_key_packSlot (t : PairRankTable) (ha : Fits a) (hb : Fits b) (hc : Fits c) :
    t.probing.key (packSlot a b c) = some (pairKey a b) := by
  obtain ⟨h₁, h₂, -⟩ := packSlot_spec ha hb hc
  simp [probing, h₁, h₂]

lemma denseCell_eq (hlog : t.denseLog2 = 11) (a b : TokenId) :
    t.denseCell a b = if a < 2 ^ 11 ∧ b < 2 ^ 11 then some (a <<< 11 ||| b) else none := by
  have hsmall : (a ||| b) >>> 11 = 0 ↔ a < 2 ^ 11 ∧ b < 2 ^ 11 := by
    rw [Nat.shiftRight_eq_div_pow, Nat.div_eq_zero_iff_lt (by decide)]
    exact ⟨fun h => ⟨Nat.left_le_or.trans_lt h, Nat.right_le_or.trans_lt h⟩,
      fun h => Nat.or_lt_two_pow h.1 h.2⟩
  simp only [denseCell, hlog, hsmall]

/-- The size of a table, with its mask and its shift. -/
def Sized (t : PairRankTable) : Prop :=
  ∃ e ≤ 64, t.slots.length = 2 ^ e ∧ t.mask = 2 ^ e - 1 ∧ t.shift = 64 - e

/-- Positions stay in the table: the next one is reached by adding under the mask. -/
lemma Sized.index_succ (h : t.Sized) (key i : ℕ) :
    (t.probing.index key i + 1) &&& t.mask = t.probing.index key (i + 1) := by
  obtain ⟨e, -, hlen, hmask, -⟩ := h
  simp only [probing, hmask, Nat.and_two_pow_sub_one_eq_mod, hlen, Nat.mod_add_mod, Nat.add_assoc]

lemma Sized.home_eq (h : t.Sized) (key : ℕ) : t.home key = t.probing.index key 0 := by
  obtain ⟨e, he, hlen, -, hshift⟩ := h
  have hlt : t.home key < t.slots.length := by
    have hmod : key * 0x9E3779B97F4A7C15 % 2 ^ 64 < 2 ^ e * 2 ^ (64 - e) := by
      rw [← pow_add, Nat.add_sub_cancel' he]
      exact Nat.mod_lt _ (by decide)
    rw [home, hshift, hlen, Nat.shiftRight_eq_div_pow]
    exact Nat.div_lt_of_lt_mul (by rwa [mul_comm (2 ^ e)] at hmod)
  simp only [probing, Nat.add_zero, Nat.mod_eq_of_lt hlt]

namespace Holds

variable (h : t.Holds m room)
include h

lemma sized : t.Sized := h.pow

/-- Every position probed is in the table. -/
lemma getElem?_index (key i : ℕ) : ∃ s, t.slots[t.probing.index key i]? = some s := by
  have hpos : 0 < t.slots.length := (Nat.zero_le _).trans_lt h.load
  exact ⟨_, List.getElem?_eq_getElem (Nat.mod_lt _ hpos)⟩

/-- Some position of a probe sequence is empty. -/
lemma exists_empty (key : ℕ) : ∃ i < t.slots.length, ∃ s,
    t.slots[t.probing.index key i]? = some s ∧ t.probing.key s = none := by
  obtain ⟨j, s, hs, hkey⟩ := Probing.exists_empty (P := t.probing)
    ((Nat.le_add_right _ _).trans_lt h.load)
  obtain ⟨i, hi, rfl⟩ := Probing.linear_surjective (t.home key)
    (List.getElem?_eq_some_iff.mp hs).1
  exact ⟨i, hi, s, hs, hkey⟩

/-- A slot on the table that is not empty is the packed slot of a pair of the map. -/
lemma slot_eq {j s : ℕ} (hs : t.slots[j]? = some s) (hne : s ≠ u64Max) :
    ∃ a b c, c ∈ m.lookup (a, b) ∧ t.probing.key s = some (pairKey a b) ∧ s = packSlot a b c := by
  have hkey : t.probing.key s = some (s >>> pairIdBits) := by simp [probing, hne]
  obtain ⟨a, b, c, hc, hk, rfl⟩ := (h.stores _ s).mp ⟨j, hs, hkey⟩
  exact ⟨a, b, c, hc, hk ▸ hkey, rfl⟩

/-- The loop of `rank` ends, with what the map holds. -/
theorem rankLoop (ha : Fits a) (hb : Fits b) {n i : ℕ}
    (hfull : t.probing.Full t.slots (pairKey a b) i)
    (hempty : ∃ k < n, ∃ s, t.slots[t.probing.index (pairKey a b) (i + k)]? = some s ∧
      t.probing.key s = none) :
    t.rankLoop (pairKey a b) n (t.probing.index (pairKey a b) i) = some (mergesRank m a b) := by
  induction n generalizing i with
  | zero =>
      obtain ⟨k, hk, -⟩ := hempty
      omega
  | succ n ih =>
      obtain ⟨s, hs⟩ := h.getElem?_index (pairKey a b) i
      have hkey : pairKey a b < 2 ^ 42 := pack_lt hb ha
      simp only [PairRankTable.rankLoop, hs, Option.bind_eq_bind, Option.bind_some]
      by_cases hmax : s = u64Max
      · -- the search ends at an empty slot, so the map has no such pair
        have hne : ¬ u64Max >>> pairIdBits = pairKey a b := by
          simp only [u64Max, pairIdBits]
          omega
        have hnone : m.lookup (a, b) = none := by
          refine Option.eq_none_iff_forall_not_mem.mpr fun c hc => ?_
          exact h.probed.wellProbed.not_stores hfull hs (by simp [probing, hmax]) _
            ((h.stores _ _).mpr ⟨a, b, c, hc, rfl, rfl⟩)
        simp [hmax, hne, mergesRank, hnone]
      · obtain ⟨a', b', c', hc', hk', rfl⟩ := h.slot_eq hs hmax
        obtain ⟨ha', hb', hcf'⟩ := h.fits a' b' c' hc'
        obtain ⟨-, hshift, hand⟩ := packSlot_spec ha' hb' hcf'
        simp only [hshift, hand]
        by_cases heq : pairKey a' b' = pairKey a b
        · obtain ⟨rfl, rfl⟩ := pairKey_inj hb' hb heq
          simp [mergesRank, Option.mem_def.mp hc']
        · rw [if_neg heq, if_neg hmax, h.sized.index_succ]
          refine ih (hfull.succ hs hk' heq) ?_
          obtain ⟨k, hk, s, hs', hnone⟩ := hempty
          cases k with
          | zero =>
              rw [Nat.add_zero, hs, Option.some_inj] at hs'
              rw [← hs', hk'] at hnone
              cases hnone
          | succ k => exact ⟨k, by omega, s, by rwa [Nat.add_right_comm, Nat.add_assoc], hnone⟩

/-- `rank` in the flat level reads the map. -/
lemma flatRank (ha : Fits a) (hb : Fits b) : t.flatRank a b = mergesRank m a b := by
  rw [PairRankTable.flatRank, h.sized.home_eq, h.rankLoop ha hb Probing.Full.zero
    (by simpa using h.exists_empty (pairKey a b)), Option.getD_some]

/-- `rank` reads the map. -/
theorem rank (ha : Fits a) (hb : Fits b) : t.rank a b = mergesRank m a b := by
  rw [PairRankTable.rank, denseCell_eq h.log2]
  cases hd : t.dense with
  | none => exact h.flatRank ha hb
  | some g =>
      by_cases hsmall : a < 2 ^ 11 ∧ b < 2 ^ 11
      · simp only [if_pos hsmall]
        exact h.grid g hd a b hsmall.1 hsmall.2
      · simp only [if_neg hsmall]
        exact h.flatRank ha hb

omit h in
lemma rankLoop_le {key n i r : ℕ} (hr : t.rankLoop key n i = some r) : r ≤ u32Max := by
  induction n generalizing i with
  | zero => cases hr
  | succ n ih =>
      simp only [PairRankTable.rankLoop, Option.bind_eq_bind, Option.bind_eq_some_iff] at hr
      obtain ⟨s, -, hr⟩ := hr
      split_ifs at hr
      · rw [← Option.some_inj.mp hr]
        exact Nat.and_le_right.trans (by decide)
      · exact (Option.some_inj.mp hr).ge
      · exact ih hr

/-- The merge loops ask the table about ids that it need not hold: the rank of a pair
is at most `u32::MAX` in any case. -/
lemma rank_le (a b : ℕ) : t.rank a b ≤ u32Max := by
  have hflat : t.flatRank a b ≤ u32Max := by
    rw [PairRankTable.flatRank]
    cases hr : t.rankLoop (pairKey a b) t.slots.length (t.home (pairKey a b)) with
    | none => simp
    | some r => simpa using rankLoop_le hr
  rw [PairRankTable.rank, denseCell_eq h.log2]
  cases hd : t.dense with
  | none => exact hflat
  | some g =>
      by_cases hsmall : a < 2 ^ 11 ∧ b < 2 ^ 11
      · simp only [if_pos hsmall, h.grid g hd a b hsmall.1 hsmall.2, mergesRank]
        cases hc : m.lookup (a, b) with
        | none => simp
        | some c => exact (h.fits a b c hc).2.2.le.trans (by decide)
      · simpa only [if_neg hsmall] using hflat

/-- Where the loop of `insert` writes. -/
lemma insertLoop {merged n i d : ℕ} {slots : List ℕ} {key : ℕ}
    (hfull : t.probing.Full t.slots key i)
    (hins : t.insertLoop key merged n (t.probing.index key i) d = some slots) :
    ∃ i', i' < i + n ∧ t.probing.Full t.slots key i' ∧
      t.slots[t.probing.index key i']? = some u64Max ∧
      slots = t.slots.set (t.probing.index key i') (key <<< pairIdBits ||| merged) := by
  induction n generalizing i d with
  | zero => simp [PairRankTable.insertLoop] at hins
  | succ n ih =>
      obtain ⟨s, hs⟩ := h.getElem?_index key i
      simp only [PairRankTable.insertLoop, hs, Option.bind_eq_bind, Option.bind_some] at hins
      split_ifs at hins with hmax hkey hcap
      · exact ⟨i, by omega, hfull, hmax ▸ hs, (Option.some_inj.mp hins).symm⟩
      · rw [h.sized.index_succ] at hins
        have hk : t.probing.key s = some (s >>> pairIdBits) := by simp [probing, hmax]
        obtain ⟨i', hlt, hrest⟩ := ih (hfull.succ hs hk hkey) hins
        exact ⟨i', by omega, hrest⟩

/-- Where the loop of `build` writes. -/
lemma placeLoop {n i d slot : ℕ} {slots : List ℕ} {key : ℕ}
    (hnew : ∀ s, ¬ t.probing.Stores t.slots key s) (hfull : t.probing.Full t.slots key i)
    (hplace : t.placeLoop slot n (t.probing.index key i) d = some slots) :
    ∃ i', i' < i + n ∧ t.probing.Full t.slots key i' ∧
      t.slots[t.probing.index key i']? = some u64Max ∧
      slots = t.slots.set (t.probing.index key i') slot := by
  induction n generalizing i d with
  | zero => simp [PairRankTable.placeLoop] at hplace
  | succ n ih =>
      obtain ⟨s, hs⟩ := h.getElem?_index key i
      simp only [PairRankTable.placeLoop, hs, Option.bind_eq_bind, Option.bind_some] at hplace
      split_ifs at hplace with hmax hcap
      · exact ⟨i, by omega, hfull, hmax ▸ hs, (Option.some_inj.mp hplace).symm⟩
      · rw [h.sized.index_succ] at hplace
        have hk : t.probing.key s = some (s >>> pairIdBits) := by simp [probing, hmax]
        have hne : s >>> pairIdBits ≠ key := by
          rintro rfl
          exact hnew s ⟨_, hs, hk⟩
        obtain ⟨i', hlt, hrest⟩ := ih (hfull.succ hs hk hne) hplace
        exact ⟨i', by omega, hrest⟩

end Holds

/-- The probe sequences depend on the size of the table only. -/
lemma probing_congr {t t' : PairRankTable} (hlen : t'.slots.length = t.slots.length)
    (hshift : t'.shift = t.shift) : t'.probing = t.probing := by
  simp only [probing, home, hlen, hshift]

/-- A pair that is not in the map goes to the first empty slot of its probe sequence. -/
lemma Holds.store (h : t.Holds m (room + 1)) {t' : PairRankTable} (ha : Fits a) (hb : Fits b)
    (hc : Fits c) (hnew : m.lookup (a, b) = none) {i : ℕ} (hi : i < 0 + 65)
    (hfull : t.probing.Full t.slots (pairKey a b) i)
    (hempty : t.slots[t.probing.index (pairKey a b) i]? = some u64Max)
    (ht' : t' = { t with
      dense := match t.dense, t.denseCell a b with
        | some grid, some cell => some (Function.update grid cell c)
        | dense, _ => dense
      slots := t.slots.set (t.probing.index (pairKey a b) i) (packSlot a b c) }) :
    t'.Holds (m.insert (a, b) c) room := by
  have hkey : t.probing.key (packSlot a b c) = some (pairKey a b) :=
    probing_key_packSlot t ha hb hc
  have hnone : t.probing.key u64Max = none := by simp [probing]
  have hprobed := h.probed.insert (by omega) hfull hempty hnone hkey
  obtain ⟨-, hstores⟩ := h.probed.wellProbed.insert hfull hempty hnone hkey
  have hlen : t'.slots.length = t.slots.length := by
    rw [ht']
    simp
  have hslots : t'.slots = t.slots.set (t.probing.index (pairKey a b) i) (packSlot a b c) := by
    rw [ht']
  have hprobing : t'.probing = t.probing :=
    probing_congr hlen (by rw [ht'])
  refine ⟨?_, ?_, ?_, ?_, ?_, ?_, ?_⟩
  · rw [hlen, ht']
    exact h.pow
  · rwa [hprobing, hslots]
  · intro a' b' c' hc'
    by_cases hab : (a', b') = (a, b)
    · obtain ⟨rfl, rfl⟩ := Prod.mk.inj hab
      rw [Option.mem_def, AList.lookup_insert, Option.some_inj] at hc'
      exact ⟨ha, hb, hc' ▸ hc⟩
    · rw [AList.lookup_insert_ne hab] at hc'
      exact h.fits a' b' c' hc'
  · intro k s
    rw [hprobing, hslots, hstores, h.stores]
    constructor
    · rintro (⟨rfl, rfl⟩ | ⟨a', b', c', hc', rfl, rfl⟩)
      · exact ⟨a, b, c, AList.lookup_insert m, rfl, rfl⟩
      · refine ⟨a', b', c', ?_, rfl, rfl⟩
        rwa [AList.lookup_insert_ne]
        rintro hab
        rw [hab, hnew] at hc'
        cases hc'
    · rintro ⟨a', b', c', hc', rfl, rfl⟩
      by_cases hab : (a', b') = (a, b)
      · obtain ⟨rfl, rfl⟩ := Prod.mk.inj hab
        rw [Option.mem_def, AList.lookup_insert, Option.some_inj] at hc'
        exact .inl ⟨rfl, by rw [hc']⟩
      · rw [AList.lookup_insert_ne hab] at hc'
        exact .inr ⟨a', b', c', hc', rfl, rfl⟩
  · rw [hprobing, hlen, hslots, Probing.occupied_set hempty hnone (by simp [hkey])]
    have := h.load
    omega
  · rw [ht']
    exact h.log2
  · intro g hg a' b' ha' hb'
    rw [ht'] at hg
    simp only [denseCell_eq h.log2] at hg
    cases hd : t.dense with
    | none => simp [hd] at hg
    | some g₀ =>
        have hgrid := h.grid g₀ hd a' b' ha' hb'
        rw [hd] at hg
        by_cases hab : (a', b') = (a, b)
        · obtain ⟨rfl, rfl⟩ := Prod.mk.inj hab
          rw [if_pos ⟨ha', hb'⟩, Option.some_inj] at hg
          simp [← hg, mergesRank]
        · have hrank : mergesRank (m.insert (a, b) c) a' b' = mergesRank m a' b' := by
            rw [mergesRank, AList.lookup_insert_ne hab, mergesRank]
          rw [hrank, ← hgrid]
          by_cases hsmall : a < 2 ^ 11 ∧ b < 2 ^ 11
          · rw [if_pos hsmall, Option.some_inj] at hg
            rw [← hg, Function.update_of_ne]
            intro hcell
            obtain ⟨rfl, rfl⟩ := pack_inj hb' hsmall.2 hcell
            exact hab rfl
          · rw [if_neg hsmall, Option.some_inj] at hg
            rw [hg]

/-- `insert` adds a pair that is not in the map. -/
theorem Holds.insert (h : t.Holds m (room + 1)) {t' : PairRankTable}
    (hnew : m.lookup (a, b) = none) (hins : t.insert a b c = some t') :
    t'.Holds (m.insert (a, b) c) room := by
  rw [PairRankTable.insert] at hins
  split_ifs at hins with hbig
  simp only [Option.bind_eq_bind, Option.bind_eq_some_iff] at hins
  obtain ⟨slots, hloop, hins⟩ := hins
  obtain ⟨ha, hb, hc⟩ : Fits a ∧ Fits b ∧ Fits c := by
    simp only [ge_iff_le, not_or, not_le] at hbig
    exact hbig
  rw [h.sized.home_eq] at hloop
  obtain ⟨i, hi, hfull, hempty, rfl⟩ := h.insertLoop Probing.Full.zero hloop
  exact h.store ha hb hc hnew hi hfull hempty (Option.some_inj.mp hins).symm

/-- A table is only made for ids that fit into its slots. -/
lemma withCapacity_eq_some {compact : Bool} {vocabLen mergeCount : ℕ}
    (h : withCapacity compact vocabLen mergeCount = some t) :
    vocabLen ≤ 2 ^ 21 ∧
      let nSlots := max (nextPowerOfTwo (max mergeCount 1 * 2)) 64
      t = ⟨if compact then none else some fun _ => u32Max, 11, List.replicate nSlots u64Max,
        nSlots - 1, 64 - Nat.log2 nSlots⟩ := by
  rw [withCapacity] at h
  by_cases hbig : vocabLen > 1 <<< pairIdBits
  · rw [if_pos hbig] at h
    cases h
  · rw [if_neg hbig] at h
    exact ⟨Nat.le_of_not_lt hbig, (Option.some_inj.mp h).symm⟩

/-- A new table holds nothing, and has room for the pairs it was made for. -/
theorem withCapacity_holds {compact : Bool} {vocabLen mergeCount : ℕ}
    (h : withCapacity compact vocabLen mergeCount = some t) (hle : mergeCount ≤ 2 ^ 62) :
    t.Holds ∅ mergeCount := by
  obtain ⟨hbig, h⟩ := withCapacity_eq_some h
  obtain ⟨e, hpow, hge, hleast⟩ := nextPowerOfTwo_spec (max mergeCount 1 * 2)
  have he : e ≤ 63 := hleast 63 (by omega)
  have hslots : max (nextPowerOfTwo (max mergeCount 1 * 2)) 64 = 2 ^ max e 6 := by
    rw [hpow, show 64 = 2 ^ 6 from rfl]
    exact (pow_right_mono₀ (by decide : 1 ≤ 2)).map_max.symm
  simp only [hslots, Nat.log2_two_pow] at h
  have hnone : t.probing.key u64Max = none := by simp [probing]
  have hrepl : t.slots = List.replicate (2 ^ max e 6) u64Max := by rw [h]
  have hroom : mergeCount < 2 ^ max e 6 := by
    have : 2 ^ e ≤ 2 ^ max e 6 := Nat.pow_le_pow_right (by decide) (le_max_left _ _)
    omega
  refine ⟨⟨max e 6, by omega, ?_⟩, ?_, ?_, ?_, ?_, ?_, ?_⟩
  · simp [h]
  · rw [hrepl]
    exact fun j s k hs hk => absurd ⟨j, hs, hk⟩ (Probing.not_stores_replicate hnone k s)
  · simp
  · intro k s
    rw [hrepl]
    simpa using Probing.not_stores_replicate hnone k s
  · rw [hrepl, Probing.occupied_replicate hnone, List.length_replicate]
    omega
  · rw [h]
  · intro g hg a b _ _
    rw [h] at hg
    cases compact with
    | true => simp at hg
    | false =>
        simp only [Bool.false_eq_true, if_false, Option.some_inj] at hg
        simp [← hg, mergesRank]

/-! ### The table of a map -/

/-- The table sees what the map looks up. -/
lemma Holds.congr {m' : Merges} (h : t.Holds m room) (hm : ∀ p, m'.lookup p = m.lookup p) :
    t.Holds m' room where
  pow := h.pow
  probed := h.probed
  fits := by simpa only [hm] using h.fits
  stores := by simpa only [hm] using h.stores
  load := h.load
  log2 := h.log2
  grid := by simpa only [mergesRank, hm] using h.grid

/-- A pair of the map goes to the table. -/
lemma Holds.buildStep (h : t.Holds m (room + 1)) {t' : PairRankTable} (ha : Fits a) (hb : Fits b)
    (hc : Fits c) (hnew : m.lookup (a, b) = none) (hstep : t.buildStep ⟨(a, b), c⟩ = some t') :
    t'.Holds (m.insert (a, b) c) room := by
  simp only [PairRankTable.buildStep, Option.bind_eq_bind, Option.bind_eq_some_iff] at hstep
  obtain ⟨slots, hloop, hstep⟩ := hstep
  rw [h.sized.home_eq] at hloop
  have hnokey : ∀ s, ¬ t.probing.Stores t.slots (pairKey a b) s := by
    intro s hs
    obtain ⟨a', b', c', hc', hkey, -⟩ := (h.stores _ s).mp hs
    obtain ⟨rfl, rfl⟩ := pairKey_inj hb (h.fits a' b' c' hc').2.1 hkey
    rw [hnew] at hc'
    cases hc'
  obtain ⟨i, hi, hfull, hempty, rfl⟩ := h.placeLoop hnokey Probing.Full.zero hloop
  exact h.store ha hb hc hnew hi hfull hempty (Option.some_inj.mp hstep).symm

/-- A table that is built holds the map. -/
theorem build_holds {compact : Bool} {vocabLen : ℕ} (hbuild : build compact m vocabLen = some t)
    (hlen : m.entries.length ≤ 2 ^ 62) : vocabLen ≤ 2 ^ 21 ∧ t.Holds m 0 := by
  rw [build] at hbuild
  split_ifs at hbuild with hbig
  obtain ⟨t₀, hcap, hfold⟩ := Option.bind_eq_some_iff.mp hbuild
  refine ⟨(withCapacity_eq_some hcap).1, ?_⟩
  have hfits : ∀ e ∈ m.entries, Fits e.1.1 ∧ Fits e.1.2 ∧ Fits e.2 := by
    intro e he
    simp only [not_exists, not_and, not_or, ge_iff_le, not_le] at hbig
    exact hbig e he
  -- the pairs so far are in the table, and there is room for the others
  have hrun : ∀ (rest : List ((_ : TokenId × TokenId) × TokenId)) (t₀ : PairRankTable)
      (m₀ : Merges), t₀.Holds m₀ rest.length → rest.NodupKeys →
      (∀ e ∈ rest, m₀.lookup e.1 = none ∧ Fits e.1.1 ∧ Fits e.1.2 ∧ Fits e.2) →
      rest.foldlM PairRankTable.buildStep t₀ = some t →
      ∃ m' : Merges, t.Holds m' 0 ∧ ∀ p, m'.lookup p = (m₀.lookup p).or (rest.dlookup p) := by
    intro rest
    induction rest with
    | nil =>
        intro t₀ m₀ h _ _ hfold
        cases hfold
        exact ⟨m₀, h, fun p => by simp⟩
    | cons e rest ih =>
        intro t₀ m₀ h hnodup hnew hfold
        obtain ⟨t₁, hstep, hfold⟩ := Option.bind_eq_some_iff.mp hfold
        obtain ⟨⟨hnone, ha, hb, hc⟩, hrest⟩ := List.forall_mem_cons.mp hnew
        rw [List.nodupKeys_cons] at hnodup
        obtain ⟨m', hm', hlookup⟩ := ih t₁ _ (h.buildStep ha hb hc hnone hstep) hnodup.2
          (fun e' he' => by
            have hne : e'.1 ≠ e.1 := fun heq => hnodup.1 (heq ▸ List.mem_keys_of_mem he')
            rw [AList.lookup_insert_ne hne]
            exact hrest e' he') hfold
        refine ⟨m', hm', fun p => ?_⟩
        rw [hlookup]
        by_cases hp : p = e.1
        · subst hp
          obtain ⟨e₁, e₂⟩ := e
          rw [AList.lookup_insert, hnone, List.dlookup_cons_eq]
          rfl
        · rw [AList.lookup_insert_ne hp, List.dlookup_cons_ne _ _ hp]
  obtain ⟨m', hm', hlookup⟩ := hrun m.entries t₀ ∅ (withCapacity_holds hcap hlen) m.nodupKeys
    (fun e he => ⟨rfl, hfits e he⟩) hfold
  exact hm'.congr fun p => (hlookup p).symm

end PairRankTable

end Hypertok
