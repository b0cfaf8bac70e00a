import Hypertok.Format.Writer
import Hypertok.Index.HashImage
import Mathlib.Data.List.Fold

/-!
`load_tokenizer/htk_index.rs`: the lookup index of a validated file. The offsets of the tokens
are kept as bases of blocks and sixteen bits within a block; the ids are found by a
`FingerprintTable`, or by the `HashImage` of the file.

* `HtkLookupIndex.buildOffsets_eq`: the offsets of blocks and within them, for every `omega`.
* `HtkLookupIndex.Indexes`: what an index holds of the tokens, whichever its backend.
* `HtkLookupIndex.index_correct`: `token` and `lookup` of an index that is built.
-/

namespace Hypertok

open Machine Run

/-- `HtkIndexError`. -/
inductive HtkIndexError
  | missingHashSection
  | hashImage (error : ImageError)
  | hashKeyCount (expected actual : ℕ)
  | hashMissingKey (id : ℕ)
  | hashIndexOutOfBounds (index keyCount : ℕ)
  | hashDuplicateIndex (index : ℕ)
  | hashPayloadIncomplete (index : ℕ)
  | payloadIdOutOfBounds (id vocabSize : ℕ)
  | offsetOverflow
  | table (error : TableBuildError)
  | tableImage (error : TableImageError)
  | tableMissingKey (id : ℕ)
  | unsupportedTableImageScheme
  deriving DecidableEq

/-- `PerfectIndex`. -/
structure PerfectIndex where
  image : HashImage
  payload : List ℕ
  fingerprints : List UInt8

/-- `LookupBackend`. -/
inductive LookupBackend
  | table (table : FingerprintTable)
  | perfect (index : PerfectIndex)

/-- `BuiltOffsets`. -/
structure BuiltOffsets where
  blockShift : ℕ
  bases : List ℕ
  intra : List ℕ

/-- `HtkLookupIndex`. -/
structure HtkLookupIndex where
  arena : List UInt8
  blockShift : ℕ
  bases : List ℕ
  intra : List ℕ
  backend : LookupBackend
  vocabSize : ℕ

namespace ValidatedFile

variable (w : ℕ) (file : ValidatedFile) {ε : Type}

/-- The loop of `LengthIter`, run to its end. -/
def lengthsLoop : ℕ → List UInt8 → Run ε (List ℕ)
  | 0, _ => return []
  | count + 1, remaining => do
      let (value, consumed) ← Run.expect (decodeU32 remaining).toOption
      let remaining ← Run.expect (getFrom remaining consumed)
      return value :: (← lengthsLoop count remaining)

/-- `lengths`, run to its end. -/
def lengths : Run ε (List ℕ) := do
  lengthsLoop file.header.vocabSize (← file.requiredBytes w .lengths)

/-- `tokens`, in a program with other errors; the iterator has none. -/
def tokenList : Run ε (List (ℕ × List UInt8)) := Run.expect (file.tokens w).result

end ValidatedFile

namespace HtkLookupIndex

variable (w : ℕ) (wyhash : WyHash) (file : ValidatedFile)

/-- The loop of `build_offsets` that chooses the size of the blocks, for at most as many turns. -/
def growShift (omega : ℕ) : ℕ → ℕ → ℕ
  | 0, blockShift => blockShift
  | turns + 1, blockShift =>
      let next := blockShift + 1
      let span := 1 <<< next - 1
      if 2 ^ 16 - 1 < min (span * omega) (2 ^ 64 - 1) then blockShift else growShift omega turns next

/-- The state of the second loop of `build_offsets`. -/
structure OffsetsState where
  bases : List ℕ
  intra : List ℕ
  offset : ℕ
  base : ℕ

/-- One turn of the second loop of `build_offsets`. -/
def offsetStep (blockSize : ℕ) (st : OffsetsState) (entry : ℕ × ℕ) :
    Run HtkIndexError OffsetsState := do
  let (length, id) := entry
  let (bases, base) :=
    if id % blockSize = 0 then (st.bases ++ [st.offset], st.offset) else (st.bases, st.base)
  let delta ← Run.expect (if base ≤ st.offset then some (st.offset - base) else none)
  Run.require (delta < 2 ^ 16) .offsetOverflow
  let offset ← Run.orFail .offsetOverflow (Uint.checkedAdd 32 st.offset length)
  return ⟨bases, st.intra ++ [delta], offset, base⟩

/-- `build_offsets`. -/
def buildOffsets : Run HtkIndexError BuiltOffsets := do
  let blockShift := growShift file.header.omega 31 0
  let lengths ← file.lengths w
  let st ← lengths.zipIdx.foldlM (offsetStep (1 <<< blockShift)) ⟨[], [], 0, 0⟩
  return ⟨blockShift, st.bases, st.intra⟩

/-- `install_payload`. -/
def installPayload (payload : List (Option ℕ)) (fingerprints : List UInt8)
    (evaluated id vocabSize : ℕ) (keyFingerprint : UInt8) :
    Run HtkIndexError (List (Option ℕ) × List UInt8) := do
  let keyCount := payload.length % 2 ^ 32
  Run.require (evaluated < keyCount) (.hashIndexOutOfBounds evaluated keyCount)
  Run.require (id < vocabSize) (.payloadIdOutOfBounds id vocabSize)
  let old ← Run.expect payload[evaluated]?
  Run.require (old = none) (.hashDuplicateIndex evaluated)
  let _ ← Run.expect fingerprints[evaluated]?
  return (payload.set evaluated (some id), fingerprints.set evaluated keyFingerprint)

/-- One turn of the loop of `build_perfect_index`. -/
def installKey (image : HashImage) (vocabSize : ℕ) (st : List (Option ℕ) × List UInt8)
    (key : TableKey) : Run HtkIndexError (List (Option ℕ) × List UInt8) := do
  let evaluated ← Run.orFail (.hashMissingKey key.id) (← image.evaluate w wyhash key.bytes)
  installPayload st.1 st.2 evaluated key.id vocabSize (fingerprint wyhash key.bytes)

/-- One turn of the loop of `build_perfect_index` that collects the payload. -/
def collectId (payload : List ℕ) (entry : Option ℕ × ℕ) : Run HtkIndexError (List ℕ) := do
  let id ← Run.orFail (.hashPayloadIncomplete (entry.2 % 2 ^ 32)) entry.1
  return payload ++ [id]

/-- `build_perfect_index`. -/
def buildPerfectIndex (keys : List TableKey) : Run HtkIndexError PerfectIndex := do
  let bytes ← Run.orFail .missingHashSection (← file.bytesOf w .hash)
  let image ← mapErr .hashImage (HashImage.fromBytes w bytes)
  Run.require (keys.length < 2 ^ 32) (.hashKeyCount (2 ^ 32 - 1) image.keyCount.toNat)
  Run.require (image.keyCount.toNat = keys.length)
    (.hashKeyCount keys.length image.keyCount.toNat)
  let (payload, fingerprints) ← keys.foldlM (installKey w wyhash image file.header.vocabSize)
    (List.replicate keys.length none, List.replicate keys.length 0)
  let payload ← payload.zipIdx.foldlM collectId []
  return ⟨image, payload, fingerprints⟩

/-- The keys of the index: the tokens that are not empty, special or of the byte fallback. -/
def keysOf (specials byteFallback : Finset ℕ) (tokens : List (ℕ × List UInt8)) : List TableKey :=
  (tokens.filter fun token =>
    !token.2.isEmpty && decide (token.1 ∉ specials) && decide (token.1 ∉ byteFallback)).map
      fun token => ⟨token.1, token.2⟩

/-- The backend of the scheme that the file declares. -/
def buildBackend (keys : List TableKey) : HashScheme → Run HtkIndexError LookupBackend
  | .none => do
      let table ← mapErr .table (FingerprintTable.build w wyhash keys defaultTableLoadPermille)
      return .table table
  | .fmphgo => do
      let index ← buildPerfectIndex w wyhash file keys
      return .perfect index

/-- `build`. -/
def build (specials byteFallback : Finset ℕ) : Run HtkIndexError HtkLookupIndex := do
  let offsets ← buildOffsets w file
  let keys := keysOf specials byteFallback (← file.tokenList w)
  let backend ← buildBackend w wyhash file keys file.header.hashScheme
  let arena ← file.requiredBytes w .arena
  return ⟨arena, offsets.blockShift, offsets.bases, offsets.intra, backend, file.header.vocabSize⟩

/-- `build_from_table_image`. -/
def buildFromTableImage (specials byteFallback : Finset ℕ) (image : List UInt8) :
    Run HtkIndexError HtkLookupIndex := do
  Run.require (file.header.hashScheme = .none) .unsupportedTableImageScheme
  let offsets ← buildOffsets w file
  let keys := keysOf specials byteFallback (← file.tokenList w)
  let table ← mapErr .tableImage (FingerprintTable.fromBytes w image file.header.vocabSize)
  Run.require (table.keyCount.toNat = keys.length % 2 ^ 32)
    (.tableImage (.keyCountMismatch (keys.length % 2 ^ 32) table.keyCount.toNat))
  let _ ← keys.foldlM (fun (_ : Unit) key => Run.require
    (table.lookup wyhash key.bytes (fun id _ => id == key.id) = some key.id)
      (.tableMissingKey key.id)) ()
  let arena ← file.requiredBytes w .arena
  return ⟨arena, offsets.blockShift, offsets.bases, offsets.intra, .table table,
    file.header.vocabSize⟩

variable (index : HtkLookupIndex)

/-- `offset`. -/
def offset (id : ℕ) : Option ℕ := do
  let base ← index.bases[id >>> index.blockShift]?
  let delta ← index.intra[id]?
  return base + delta

/-- Where `token` ends. -/
def stopOf (id : ℕ) : Option ℕ :=
  if id + 1 = index.intra.length then some index.arena.length else index.offset (id + 1)

/-- `token`. -/
def token (id : ℕ) : Option (List UInt8) := do
  let start ← index.offset id
  let stop ← index.stopOf id
  getRange index.arena start stop

/-- The id that `lookup` gets from the backend. -/
def candidate (key : List UInt8) : Run HtkIndexError (Option ℕ) :=
  match index.backend with
  | .table table => return table.lookup wyhash key fun id key => index.token id == some key
  | .perfect perfect => do
      match ← perfect.image.evaluate w wyhash key with
      | none => return none
      | some evaluated =>
          if perfect.payload.length ≤ evaluated then return none
          else do
            let f ← Run.expect perfect.fingerprints[evaluated]?
            if f ≠ fingerprint wyhash key then return none
            else do
              let id ← Run.expect perfect.payload[evaluated]?
              return some id

/-- `lookup`. -/
def lookup (key : List UInt8) : Run HtkIndexError (Option ℕ) := do
  match ← index.candidate w wyhash key with
  | none => return none
  | some id =>
      if index.vocabSize ≤ id then return none
      else if index.token id = some key then return some id
      else return none

/-! ### The offsets -/

end HtkLookupIndex

lemma ValidatedFile.lengthsLoop_eq {ε : Type} {ls : List ℕ} {remaining rest : List UInt8}
    (h : VarintsAt remaining ls rest) :
    (ValidatedFile.lengthsLoop ls.length remaining : Run ε (List ℕ)) = ok ls := by
  induction ls generalizing remaining with
  | nil => rfl
  | cons value ls ih =>
      obtain ⟨consumed, hdecode, hrest⟩ := h
      rw [List.length_cons, lengthsLoop, hdecode]
      simp only [Except.toOption, expect_some, Run.ok_bind, getFrom_of_le (decodeU32_spec hdecode).2,
        ih hrest, pure_eq]

/-- The lengths of a validated file are those of its tokens. -/
lemma ValidatedFile.Laid.lengths_eq {w : ℕ} {file : ValidatedFile} (h : file.Laid)
    (hlen : file.bytes.length < 2 ^ w - 1) {ε : Type} : ∃ arena toks,
      file.sectionOf .arena = some arena ∧ file.tokens w = ok toks ∧
        toks.map Prod.fst = List.range file.header.vocabSize ∧
          (toks.map Prod.snd).flatten = arena ∧
            (file.lengths w : Run ε (List ℕ)) = ok (toks.map fun token => token.2.length) ∧
              ∀ token ∈ toks, token.2.length ≤ file.header.omega := by
  obtain ⟨arena, harena⟩ := Option.isSome_iff_exists.mp (h.required .arena (by decide))
  obtain ⟨lengths, hlengths⟩ := Option.isSome_iff_exists.mp (h.required .lengths (by decide))
  obtain ⟨ls, hls, hcount, hsum, homega⟩ := h.lengths lengths hlengths arena harena
  have hvocab : file.header.vocabSize < 2 ^ 32 := h.vocab_le.trans_lt (by decide)
  obtain ⟨toks, htoks, hids, hlens, hflat⟩ :=
    tokensLoop_eq ((length_of_sectionOf harena).trans_lt hlen) hls
      (show 0 + ls.sum ≤ arena.length by omega) (show 0 + ls.length < 2 ^ 32 by omega)
  rw [hcount] at htoks hids
  refine ⟨arena, toks, harena, ?_, ?_, ?_, ?_, fun token htoken => ?_⟩
  · rw [tokens, requiredBytes, bytesOf_eq h.toBounded hlen, harena, requiredBytes,
      bytesOf_eq h.toBounded hlen, hlengths]
    exact htoks
  · rw [hids, List.range_eq_range']
  · rw [hflat, hsum, List.drop_zero, List.take_length]
  · rw [ValidatedFile.lengths, requiredBytes, bytesOf_eq h.toBounded hlen, hlengths, hlens, ← hcount]
    exact lengthsLoop_eq hls
  · have hmem : token.2.length ∈ ls := hlens ▸ List.mem_map_of_mem htoken
    rw [← homega, List.foldl_eq_foldr]
    exact List.le_max_of_le' 0 hmem le_rfl

namespace HtkLookupIndex

variable {w : ℕ} {wyhash : WyHash} {file : ValidatedFile} {index : HtkLookupIndex} {ls : List ℕ}

/-- Within a block of the size that is chosen, the offsets fit sixteen bits. -/
lemma growShift_spec (omega turns : ℕ) {blockShift : ℕ}
    (h : (2 ^ blockShift - 1) * omega < 2 ^ 16) :
    (2 ^ growShift omega turns blockShift - 1) * omega < 2 ^ 16 := by
  induction turns generalizing blockShift with
  | zero => exact h
  | succ turns ih =>
      rw [growShift]
      split_ifs with hspan
      · exact h
      · refine ih ?_
        rw [Nat.one_shiftLeft] at hspan
        omega

/-- Where a token starts. -/
def startOf (ls : List ℕ) (i : ℕ) : ℕ := (ls.take i).sum

lemma startOf_succ {i : ℕ} (h : i < ls.length) : startOf ls (i + 1) = startOf ls i + ls[i] := by
  rw [startOf, List.take_succ_eq_append_getElem h, List.sum_append, List.sum_singleton, startOf]

lemma startOf_mono {i j : ℕ} (h : i ≤ j) : startOf ls i ≤ startOf ls j :=
  ((List.take_prefix_take_left h).sublist).sum_le_sum fun _ _ => Nat.zero_le _

/-- The tokens of a block are at most `omega` bytes each. -/
lemma startOf_add_le {omega : ℕ} (h : ∀ length ∈ ls, length ≤ omega) (i k : ℕ) :
    startOf ls (i + k) ≤ startOf ls i + k * omega := by
  rw [startOf, List.take_add, List.sum_append, ← startOf]
  refine Nat.add_le_add_left ?_ _
  have hbound := List.sum_le_card_nsmul ((ls.drop i).take k) omega fun length hlength =>
    h length (List.mem_of_mem_drop (List.mem_of_mem_take hlength))
  refine hbound.trans ?_
  rw [smul_eq_mul]
  exact Nat.mul_le_mul_right _ (List.length_take_le _ _)

/-- What the second loop of `build_offsets` has built from the first lengths. -/
def offsetsAt (ls : List ℕ) (blockSize n : ℕ) : OffsetsState where
  bases := (List.range ((n + blockSize - 1) / blockSize)).map fun b => startOf ls (b * blockSize)
  intra := (List.range n).map fun i => startOf ls i - startOf ls (i / blockSize * blockSize)
  offset := startOf ls n
  base := startOf ls ((n - 1) / blockSize * blockSize)

lemma offsetStep_eq {blockSize n omega : ℕ} (hn : n < ls.length) (hblock : 0 < blockSize)
    (hle : ∀ length ∈ ls, length ≤ omega) (hfits : (blockSize - 1) * omega < 2 ^ 16) :
    offsetStep blockSize (offsetsAt ls blockSize n) (ls[n], n) =
      if startOf ls (n + 1) < 2 ^ 32 then ok (offsetsAt ls blockSize (n + 1))
      else .fail .offsetOverflow := by
  have hbase : (if n % blockSize = 0 then ((offsetsAt ls blockSize n).bases ++ [startOf ls n],
      startOf ls n) else ((offsetsAt ls blockSize n).bases, (offsetsAt ls blockSize n).base)) =
      ((offsetsAt ls blockSize (n + 1)).bases, startOf ls (n / blockSize * blockSize)) := by
    have hn := Nat.div_add_mod n blockSize
    have hlast : (n + 1 + blockSize - 1) / blockSize = n / blockSize + 1 := by
      rw [Nat.add_right_comm, Nat.add_sub_cancel, Nat.add_div_right _ hblock]
    have hnext : (offsetsAt ls blockSize (n + 1)).bases = (List.range (n / blockSize + 1)).map
        fun b => startOf ls (b * blockSize) := by rw [offsetsAt, hlast]
    rw [hnext]
    by_cases hmod : n % blockSize = 0
    · rw [hmod, Nat.add_zero] at hn
      have hcount : (n + blockSize - 1) / blockSize = n / blockSize := by
        conv_lhs => rw [← hn, Nat.add_sub_assoc hblock, Nat.mul_add_div hblock,
          Nat.div_eq_of_lt (Nat.sub_lt hblock Nat.one_pos), Nat.add_zero]
      rw [if_pos hmod, Nat.div_mul_cancel (Nat.dvd_of_mod_eq_zero hmod), offsetsAt, hcount,
        List.range_succ, List.map_append, List.map_singleton,
        Nat.div_mul_cancel (Nat.dvd_of_mod_eq_zero hmod)]
    · have hpos : 0 < n % blockSize := Nat.pos_of_ne_zero hmod
      have hlt := Nat.mod_lt n hblock
      have hzero : (n % blockSize - 1) / blockSize = 0 := Nat.div_eq_of_lt (by omega)
      have hcount : (n + blockSize - 1) / blockSize = n / blockSize + 1 := by
        have hsum : n + blockSize - 1 = n - 1 + blockSize := by omega
        have hpred : n - 1 = blockSize * (n / blockSize) + (n % blockSize - 1) := by omega
        rw [hsum, Nat.add_div_right _ hblock, hpred, Nat.mul_add_div hblock,
          hzero, Nat.add_zero]
      have hpred : (n - 1) / blockSize = n / blockSize := by
        have hsum : n - 1 = blockSize * (n / blockSize) + (n % blockSize - 1) := by omega
        rw [hsum, Nat.mul_add_div hblock, hzero, Nat.add_zero]
      rw [if_neg hmod, offsetsAt, hcount, hpred]
  have hstart : startOf ls (n / blockSize * blockSize) ≤ startOf ls n :=
    startOf_mono (Nat.div_mul_le_self n blockSize)
  have hdelta : startOf ls n - startOf ls (n / blockSize * blockSize) < 2 ^ 16 := by
    have hbound := startOf_add_le hle (n / blockSize * blockSize) (n % blockSize)
    rw [Nat.div_add_mod'] at hbound
    have hmod : n % blockSize * omega ≤ (blockSize - 1) * omega :=
      Nat.mul_le_mul_right _ (Nat.le_sub_one_of_lt (Nat.mod_lt n hblock))
    omega
  have hoffset : (offsetsAt ls blockSize n).offset = startOf ls n := rfl
  have hintra : (offsetsAt ls blockSize n).intra ++
      [startOf ls n - startOf ls (n / blockSize * blockSize)] =
        (offsetsAt ls blockSize (n + 1)).intra := by
    rw [offsetsAt, offsetsAt, List.range_succ, List.map_append, List.map_singleton]
  have hnewBase : startOf ls (n / blockSize * blockSize) = (offsetsAt ls blockSize (n + 1)).base := by
    rw [offsetsAt, Nat.add_sub_cancel]
  simp only [offsetStep, hoffset, hbase, if_pos hstart, expect_some, Run.ok_bind,
    require_of hdelta, Uint.checkedAdd, ← startOf_succ hn, hintra]
  split_ifs with hlt
  · rw [orFail_some, Run.ok_bind, pure_eq, hnewBase]
    rfl
  · rfl

/-- The second loop of `build_offsets`. -/
lemma offsetsLoop_eq {blockSize omega : ℕ} (hblock : 0 < blockSize)
    (hle : ∀ length ∈ ls, length ≤ omega) (hfits : (blockSize - 1) * omega < 2 ^ 16) :
    ls.zipIdx.foldlM (offsetStep blockSize) ⟨[], [], 0, 0⟩ =
      if ls.sum < 2 ^ 32 then ok (offsetsAt ls blockSize ls.length)
      else .fail .offsetOverflow := by
  have hloop : ∀ (rest : List ℕ) (n : ℕ), ls.drop n = rest → n ≤ ls.length →
      startOf ls n < 2 ^ 32 → (rest.zipIdx n).foldlM (offsetStep blockSize) (offsetsAt ls blockSize n) =
        if ls.sum < 2 ^ 32 then ok (offsetsAt ls blockSize ls.length)
        else .fail .offsetOverflow := by
    intro rest
    induction rest with
    | nil =>
        intro n hdrop hn hlt
        obtain rfl : n = ls.length := le_antisymm hn (List.drop_eq_nil_iff.mp hdrop)
        rw [startOf, List.take_length] at hlt
        rw [if_pos hlt]
        rfl
    | cons length rest ih =>
        intro n hdrop hn hlt
        have hlen := congrArg List.length hdrop
        rw [List.length_drop, List.length_cons] at hlen
        have hlt' : n < ls.length := by omega
        rw [List.drop_eq_getElem_cons hlt', List.cons.injEq] at hdrop
        obtain ⟨rfl, hrest⟩ := hdrop
        rw [List.zipIdx_cons, List.foldlM_cons, offsetStep_eq hlt' hblock hle hfits]
        split_ifs with hnext hsum hsum
        · rw [Run.ok_bind, ih (n + 1) hrest hlt' hnext, if_pos hsum]
        · rw [Run.ok_bind, ih (n + 1) hrest hlt' hnext, if_neg hsum]
        · have hmono : startOf ls (n + 1) ≤ startOf ls ls.length := startOf_mono hlt'
          rw [startOf, startOf, List.take_length] at hmono
          exact absurd (hmono.trans_lt hsum) hnext
        · rfl
  have hzero : offsetsAt ls blockSize 0 = ⟨[], [], 0, 0⟩ := by
    have hcount : (0 + blockSize - 1) / blockSize = 0 :=
      Nat.div_eq_of_lt (by omega)
    rw [offsetsAt, hcount, Nat.zero_sub, Nat.zero_div, Nat.zero_mul]
    rfl
  rw [← hzero]
  exact hloop ls 0 List.drop_zero (Nat.zero_le _) (by decide : 0 < 2 ^ 32)

/-- `build_offsets` fails only where the arena is longer than the offsets can count. -/
lemma buildOffsets_eq (hlengths : file.lengths w = (ok ls : Run HtkIndexError (List ℕ)))
    (hle : ∀ length ∈ ls, length ≤ file.header.omega) :
    buildOffsets w file = if ls.sum < 2 ^ 32 then
        ok ⟨growShift file.header.omega 31 0,
          (offsetsAt ls (2 ^ growShift file.header.omega 31 0) ls.length).bases,
          (offsetsAt ls (2 ^ growShift file.header.omega 31 0) ls.length).intra⟩
      else .fail .offsetOverflow := by
  have hfits : (2 ^ growShift file.header.omega 31 0 - 1) * file.header.omega < 2 ^ 16 :=
    growShift_spec file.header.omega 31 (by rw [Nat.pow_zero, Nat.sub_self, Nat.zero_mul]; decide)
  have hloop := offsetsLoop_eq (Nat.two_pow_pos _) hle hfits
  rw [buildOffsets, hlengths, Run.ok_bind, Nat.one_shiftLeft, hloop]
  split_ifs <;> rfl

/-- The arena and the offsets of an index are those of the tokens. -/
structure HasTokens (index : HtkLookupIndex) (toks : List (ℕ × List UInt8)) : Prop where
  arena : index.arena = (toks.map Prod.snd).flatten
  bases : index.bases = (offsetsAt (toks.map fun token => token.2.length) (2 ^ index.blockShift)
    toks.length).bases
  intra : index.intra = (offsetsAt (toks.map fun token => token.2.length) (2 ^ index.blockShift)
    toks.length).intra

variable {toks : List (ℕ × List UInt8)}

lemma HasTokens.length (h : HasTokens index toks) : index.intra.length = toks.length := by
  rw [h.intra, offsetsAt, List.length_map, List.length_range]

lemma HasTokens.offset (h : HasTokens index toks) (id : ℕ) : index.offset id =
    if id < toks.length then some (startOf (toks.map fun token => token.2.length) id) else none := by
  rw [HtkLookupIndex.offset, h.bases, h.intra, Nat.shiftRight_eq_div_pow]
  split_ifs with hid
  · have hblock : id / 2 ^ index.blockShift <
        (toks.length + 2 ^ index.blockShift - 1) / 2 ^ index.blockShift := by
      have hpos := Nat.two_pow_pos index.blockShift
      rw [Nat.lt_iff_add_one_le, Nat.le_div_iff_mul_le hpos, Nat.succ_mul]
      have hle := Nat.div_mul_le_self id (2 ^ index.blockShift)
      omega
    simp only [offsetsAt, List.getElem?_map, List.getElem?_range hblock, List.getElem?_range hid,
      Option.map_some, Option.bind_eq_bind, Option.bind_some]
    exact congrArg some (Nat.add_sub_cancel' (startOf_mono (Nat.div_mul_le_self id _)))
  · have hnone : (offsetsAt (toks.map fun token => token.2.length) (2 ^ index.blockShift)
        toks.length).intra[id]? = none := by
      refine List.getElem?_eq_none ?_
      rw [offsetsAt, List.length_map, List.length_range]
      exact Nat.not_lt.mp hid
    rw [hnone]
    cases (offsetsAt (toks.map fun token => token.2.length) (2 ^ index.blockShift)
      toks.length).bases[id / 2 ^ index.blockShift]? <;> rfl

lemma length_flatten_take (toks : List (ℕ × List UInt8)) (i : ℕ) :
    ((toks.map Prod.snd).take i).flatten.length =
      startOf (toks.map fun token => token.2.length) i := by
  rw [List.length_flatten, startOf, ← List.map_take, ← List.map_take, List.map_map]
  rfl

/-- `token` gives the tokens, and nothing beyond them. -/
lemma HasTokens.token (h : HasTokens index toks) (id : ℕ) :
    index.token id = toks[id]?.map Prod.snd := by
  by_cases hid : id < toks.length
  · have hstop : index.stopOf id =
        some (startOf (toks.map fun token => token.2.length) (id + 1)) := by
      rw [stopOf, h.length]
      split_ifs with hlast
      · rw [h.arena, hlast, ← length_flatten_take, List.take_of_length_le (by rw [List.length_map])]
      · rw [h.offset, if_pos (by omega)]
    have hpart : (toks.map Prod.snd)[id]? = some toks[id].2 := by
      rw [List.getElem?_map, List.getElem?_eq_getElem hid, Option.map_some]
    have hnext := @startOf_succ (toks.map fun token => token.2.length) id
      (by rwa [List.length_map])
    rw [List.getElem_map] at hnext
    simp only [HtkLookupIndex.token, h.offset, if_pos hid, hstop, Option.bind_eq_bind,
      Option.bind_some]
    rw [h.arena, getRange_flatten hpart (length_flatten_take toks id) hnext.symm,
      List.getElem?_eq_getElem hid, Option.map_some]
  · rw [HtkLookupIndex.token, h.offset, if_neg hid,
      List.getElem?_eq_none (Nat.not_lt.mp hid)]
    rfl

/-! ### The backends -/

/-- What a backend finds: ids of keys, and the id of each key. -/
def Finds (w : ℕ) (wyhash : WyHash) (index : HtkLookupIndex) (keys : List TableKey) : Prop :=
  ∀ bytes, ∃ o, index.candidate w wyhash bytes = ok o ∧
    (∀ id, o = some id → ∃ key ∈ keys, key.id = id) ∧
      ∀ key ∈ keys, key.bytes = bytes → o = some key.id

/-- A table that holds the keys finds them. -/
lemma finds_table {table : FingerprintTable} {keys : List TableKey}
    (hbackend : index.backend = .table table) (h : FingerprintTable.Holds wyhash table keys)
    (hnodup : (keys.map TableKey.bytes).Nodup)
    (htoken : ∀ key ∈ keys, index.token key.id = some key.bytes) : Finds w wyhash index keys := by
  have hconfirms : FingerprintTable.Confirms keys fun id key => index.token id == some key := by
    intro key hkey bytes
    show (index.token key.id == some bytes) = true ↔ _
    rw [htoken key hkey, beq_iff_eq, Option.some_inj]
    constructor
    · exact fun heq => ⟨key, hkey, rfl, heq⟩
    · rintro ⟨key', hkey', hid, rfl⟩
      exact Option.some_inj.mp ((htoken key hkey).symm.trans (hid ▸ htoken key' hkey'))
  intro bytes
  refine ⟨_, by rw [candidate, hbackend]; rfl, fun id hid => ?_, fun key hkey hbytes => ?_⟩
  · obtain ⟨key, hkey, hkeyId, -⟩ := (h.lookup_iff hnodup hconfirms).mp hid
    exact ⟨key, hkey, hkeyId⟩
  · exact (h.lookup_iff hnodup hconfirms).mpr ⟨key, hkey, rfl, hbytes⟩

/-- The payload and the fingerprints, after some keys. -/
structure Installed (w : ℕ) (wyhash : WyHash) (image : HashImage) (n : ℕ) (done : List TableKey)
    (st : List (Option ℕ) × List UInt8) : Prop where
  payload : st.1.length = n
  fingerprints : st.2.length = n
  keys : ∀ key ∈ done, ∃ i,
    (image.evaluate w wyhash key.bytes : Run HtkIndexError (Option ℕ)) = ok (some i) ∧
      st.1[i]? = some (some key.id) ∧ st.2[i]? = some (fingerprint wyhash key.bytes)
  ids : ∀ i id : ℕ, st.1[i]? = some (some id) → ∃ key ∈ done, key.id = id

lemma Installed.start (image : HashImage) (n : ℕ) :
    Installed w wyhash image n [] (List.replicate n none, List.replicate n 0) where
  payload := List.length_replicate
  fingerprints := List.length_replicate
  keys := fun _ => nofun
  ids := fun i id h => by
    have hnone := List.eq_of_mem_replicate (List.mem_of_getElem? h)
    cases hnone

/-- One more key is installed. -/
lemma Installed.step {image : HashImage} {n vocabSize : ℕ} {done : List TableKey}
    {st st' : List (Option ℕ) × List UInt8} (h : Installed w wyhash image n done st)
    {key : TableKey} (hstep : installKey w wyhash image vocabSize st key = ok st') :
    Installed w wyhash image n (done ++ [key]) st' := by
  obtain ⟨o, ho, hstep⟩ := bind_eq_ok.mp hstep
  obtain ⟨i, hi, hstep⟩ := bind_eq_ok.mp hstep
  obtain ⟨_, hrange, hstep⟩ := bind_eq_ok.mp hstep
  obtain ⟨_, -, hstep⟩ := bind_eq_ok.mp hstep
  obtain ⟨old, hold, hstep⟩ := bind_eq_ok.mp hstep
  obtain ⟨_, hfree, hstep⟩ := bind_eq_ok.mp hstep
  obtain ⟨_, -, hstep⟩ := bind_eq_ok.mp hstep
  obtain rfl := ok_inj.mp hstep
  obtain rfl := orFail_eq_ok.mp hi
  rw [require_eq_ok] at hrange hfree
  rw [expect_eq_ok] at hold
  subst hfree
  have hlt : i < st.1.length := hrange.trans_le (Nat.mod_le _ _)
  refine ⟨List.length_set.trans h.payload, List.length_set.trans h.fingerprints,
    fun key' hkey' => ?_, fun j id hj => ?_⟩
  · rcases List.mem_append.mp hkey' with hkey' | hkey'
    · obtain ⟨j, hj, hpayload, hprint⟩ := h.keys key' hkey'
      have hne : i ≠ j := by
        rintro rfl
        rw [hold] at hpayload
        cases hpayload
      exact ⟨j, hj, (List.getElem?_set_ne hne).trans hpayload,
        (List.getElem?_set_ne hne).trans hprint⟩
    · obtain rfl := List.mem_singleton.mp hkey'
      refine ⟨i, ho, List.getElem?_set_self hlt, List.getElem?_set_self ?_⟩
      rwa [h.fingerprints, ← h.payload]
  · by_cases hij : i = j
    · subst hij
      rw [List.getElem?_set_self hlt, Option.some_inj, Option.some_inj] at hj
      exact ⟨key, List.mem_append_right _ (List.mem_singleton_self _), hj⟩
    · rw [List.getElem?_set_ne hij] at hj
      obtain ⟨key', hkey', hid⟩ := h.ids j id hj
      exact ⟨key', List.mem_append_left _ hkey', hid⟩

/-- The loop of `build_perfect_index` installs all the keys. -/
lemma installAll {image : HashImage} {vocabSize : ℕ} {keys : List TableKey}
    {st : List (Option ℕ) × List UInt8}
    (h : keys.foldlM (installKey w wyhash image vocabSize)
      (List.replicate keys.length none, List.replicate keys.length 0) = ok st) :
    Installed w wyhash image keys.length keys st := by
  have hloop : ∀ (rest done : List TableKey) (st₀ : List (Option ℕ) × List UInt8),
      Installed w wyhash image keys.length done st₀ →
      rest.foldlM (installKey w wyhash image vocabSize) st₀ = ok st →
      Installed w wyhash image keys.length (done ++ rest) st := by
    intro rest
    induction rest with
    | nil =>
        intro done st₀ h₀ hfold
        obtain rfl := ok_inj.mp hfold
        rwa [List.append_nil]
    | cons key rest ih =>
        intro done st₀ h₀ hfold
        rw [List.foldlM_cons] at hfold
        obtain ⟨st₁, hstep, hfold⟩ := bind_eq_ok.mp hfold
        have hall := ih _ _ (h₀.step hstep) hfold
        rwa [List.append_assoc, List.singleton_append] at hall
  exact hloop keys [] _ (.start image keys.length) h

/-- The payload that is collected has an id at each position. -/
lemma collect_eq_ok {payload : List (Option ℕ)} {start : ℕ} {ids out : List ℕ}
    (h : (payload.zipIdx start).foldlM collectId ids = ok out) :
    out.map some = ids.map some ++ payload := by
  induction payload generalizing start ids with
  | nil =>
      obtain rfl := ok_inj.mp h
      rw [List.append_nil]
  | cons o payload ih =>
      rw [List.zipIdx_cons, List.foldlM_cons] at h
      obtain ⟨ids', hstep, h⟩ := bind_eq_ok.mp h
      obtain ⟨id, hid, hstep⟩ := bind_eq_ok.mp hstep
      obtain rfl := ok_inj.mp hstep
      obtain rfl := orFail_eq_ok.mp hid
      rw [ih h, List.map_append, List.append_assoc]
      rfl

/-- A perfect index that is built finds the keys. -/
lemma finds_perfect {perfect : PerfectIndex} {keys : List TableKey}
    (hbackend : index.backend = .perfect perfect)
    (h : buildPerfectIndex w wyhash file keys = ok perfect) : Finds w wyhash index keys := by
  obtain ⟨o, -, h⟩ := bind_eq_ok.mp h
  obtain ⟨bytes, -, h⟩ := bind_eq_ok.mp h
  obtain ⟨image, himage, h⟩ := bind_eq_ok.mp h
  obtain ⟨_, -, h⟩ := bind_eq_ok.mp h
  obtain ⟨_, -, h⟩ := bind_eq_ok.mp h
  obtain ⟨⟨payload, fingerprints⟩, hinstall, h⟩ := bind_eq_ok.mp h
  obtain ⟨ids, hcollect, h⟩ := bind_eq_ok.mp h
  obtain rfl := ok_inj.mp h
  obtain ⟨hvalid, -⟩ := HashImage.fromBytes_eq_ok (mapErr_eq_ok.mp himage)
  have hinstalled := installAll hinstall
  have hids := collect_eq_ok hcollect
  rw [List.map_nil, List.nil_append] at hids
  have hget : ∀ i : ℕ, payload[i]? = (ids[i]?).map some := fun i => by
    rw [← hids, List.getElem?_map]
  have hlen : ids.length = fingerprints.length := by
    have hmap := congrArg List.length hids
    rw [List.length_map] at hmap
    exact hmap.trans (hinstalled.payload.trans hinstalled.fingerprints.symm)
  intro bytes
  obtain ⟨o, ho, -⟩ := @HashImage.Valid.evaluateFrom HtkIndexError _ wyhash _ hvalid bytes _ 0 0
    hvalid.levels (Nat.zero_add _)
  have heval : (image.evaluate w wyhash bytes : Run HtkIndexError (Option ℕ)) = ok o := ho
  have hkey : ∀ key ∈ keys, key.bytes = bytes → ∃ i, o = some i ∧ ids[i]? = some key.id ∧
      fingerprints[i]? = some (fingerprint wyhash bytes) := by
    rintro key hkey rfl
    obtain ⟨i, hi, hpayload, hprint⟩ := hinstalled.keys key hkey
    refine ⟨i, ok_inj.mp (heval.symm.trans hi), ?_, hprint⟩
    have hpayload' : payload[i]? = some (some key.id) := hpayload
    rw [hget] at hpayload'
    obtain ⟨id, hid, hsome⟩ := Option.map_eq_some_iff.mp hpayload'
    rwa [Option.some_inj.mp hsome] at hid
  cases o with
  | none =>
      refine ⟨none, ?_, fun _ => nofun, fun key hkey' hbytes => ?_⟩
      · simp only [candidate, hbackend, heval, Run.ok_bind, pure_eq]
      · obtain ⟨i, hi, -⟩ := hkey key hkey' hbytes
        cases hi
  | some i =>
      by_cases hi : ids.length ≤ i
      · refine ⟨none, ?_, fun _ => nofun, fun key hkey' hbytes => ?_⟩
        · simp only [candidate, hbackend, heval, Run.ok_bind, if_pos hi, pure_eq]
        · obtain ⟨j, hj, hid, -⟩ := hkey key hkey' hbytes
          obtain rfl := Option.some_inj.mp hj
          rw [List.getElem?_eq_none hi] at hid
          cases hid
      · have hprint := List.getElem?_eq_getElem (show i < fingerprints.length by omega)
        by_cases hne : fingerprints[i] ≠ fingerprint wyhash bytes
        · refine ⟨none, ?_, fun _ => nofun, fun key hkey' hbytes => ?_⟩
          · simp only [candidate, hbackend, heval, Run.ok_bind, if_neg hi, hprint, expect_some,
              if_pos hne, pure_eq]
          · obtain ⟨j, hj, -, hp⟩ := hkey key hkey' hbytes
            obtain rfl := Option.some_inj.mp hj
            exact absurd (Option.some_inj.mp (hprint.symm.trans hp)) hne
        · have hid := List.getElem?_eq_getElem (show i < ids.length by omega)
          refine ⟨some ids[i], ?_, fun id hsome => ?_, fun key hkey' hbytes => ?_⟩
          · simp only [candidate, hbackend, heval, Run.ok_bind, if_neg hi, hprint, expect_some,
              if_neg hne, hid, pure_eq]
          · have hpayload : payload[i]? = some (some id) := by
              rw [hget, hid, Option.map_some, Option.some_inj.mp hsome]
            exact hinstalled.ids i id hpayload
          · obtain ⟨j, hj, hid', -⟩ := hkey key hkey' hbytes
            obtain rfl := Option.some_inj.mp hj
            exact hid.symm.trans hid'

/-! ### The index -/

variable {specials byteFallback : Finset ℕ}

lemma mem_keysOf {key : TableKey} : key ∈ keysOf specials byteFallback toks ↔
    (key.id, key.bytes) ∈ toks ∧ key.bytes ≠ [] ∧ key.id ∉ specials ∧ key.id ∉ byteFallback := by
  rw [keysOf, List.mem_map]
  constructor
  · rintro ⟨token, htoken, rfl⟩
    rw [List.mem_filter, Bool.and_eq_true, Bool.and_eq_true, Bool.not_eq_true',
      List.isEmpty_eq_false_iff, decide_eq_true_iff, decide_eq_true_iff] at htoken
    exact ⟨htoken.1, htoken.2.1.1, htoken.2.1.2, htoken.2.2⟩
  · rintro ⟨hmem, hne, hspecial, hfallback⟩
    refine ⟨(key.id, key.bytes), List.mem_filter.mpr ⟨hmem, ?_⟩, rfl⟩
    rw [Bool.and_eq_true, Bool.and_eq_true, Bool.not_eq_true', List.isEmpty_eq_false_iff,
      decide_eq_true_iff, decide_eq_true_iff]
    exact ⟨⟨hne, hspecial⟩, hfallback⟩

/-- The ids of the tokens are their positions. -/
lemma getElem?_of_mem {n : ℕ} (hids : toks.map Prod.fst = List.range n) {id : ℕ}
    {bytes : List UInt8} (h : (id, bytes) ∈ toks) : toks[id]? = some (id, bytes) := by
  obtain ⟨i, hi⟩ := List.mem_iff_getElem?.mp h
  have hpos : (List.range n)[i]? = some id := by
    rw [← hids, List.getElem?_map, hi, Option.map_some]
  obtain ⟨hlt, hid⟩ := List.getElem?_eq_some_iff.mp hpos
  rw [List.getElem_range] at hid
  exact hid ▸ hi

/-- What an index holds of the tokens, whichever its backend. -/
structure Indexes (w : ℕ) (wyhash : WyHash) (index : HtkLookupIndex)
    (toks : List (ℕ × List UInt8)) (specials byteFallback : Finset ℕ) : Prop where
  tokens : HasTokens index toks
  ids : toks.map Prod.fst = List.range index.vocabSize
  finds : Finds w wyhash index (keysOf specials byteFallback toks)

/-- `lookup` finds the tokens that are not empty, special or of the byte fallback. -/
lemma Indexes.lookup (h : Indexes w wyhash index toks specials byteFallback) (bytes : List UInt8) :
    ∃ o, index.lookup w wyhash bytes = ok o ∧ ∀ id, o = some id ↔
      (id, bytes) ∈ toks ∧ bytes ≠ [] ∧ id ∉ specials ∧ id ∉ byteFallback := by
  obtain ⟨o, ho, hids, hkeys⟩ := h.finds bytes
  have hlen : toks.length = index.vocabSize := by
    rw [← List.length_map (f := Prod.fst), h.ids, List.length_range]
  have htoken : ∀ id bytes', (id, bytes') ∈ toks → index.token id = some bytes' := by
    intro id bytes' hmem
    rw [h.tokens.token, getElem?_of_mem h.ids hmem, Option.map_some]
  -- the token of an id, if the backend gives one, decides
  have hfound : ∀ id, ((id, bytes) ∈ toks ∧ bytes ≠ [] ∧ id ∉ specials ∧ id ∉ byteFallback) ↔
      o = some id ∧ index.token id = some bytes := by
    intro id
    constructor
    · intro hid
      exact ⟨hkeys ⟨id, bytes⟩ (mem_keysOf.mpr hid) rfl, htoken id bytes hid.1⟩
    · rintro ⟨hid, hbytes⟩
      obtain ⟨key, hkey, rfl⟩ := hids id hid
      obtain ⟨hmem, hrest⟩ := mem_keysOf.mp hkey
      obtain rfl := Option.some_inj.mp ((htoken _ _ hmem).symm.trans hbytes)
      exact ⟨hmem, hrest⟩
  cases o with
  | none => exact ⟨none, by rw [HtkLookupIndex.lookup, ho]; rfl, fun id => by
      rw [hfound id, and_iff_left_of_imp nofun]⟩
  | some id =>
      obtain ⟨key, hkey, rfl⟩ := hids id rfl
      have hmem := (mem_keysOf.mp hkey).1
      have hlt : ¬ index.vocabSize ≤ key.id := by
        obtain ⟨hlt, -⟩ := List.getElem?_eq_some_iff.mp (getElem?_of_mem h.ids hmem)
        omega
      by_cases hsame : index.token key.id = some bytes
      · refine ⟨some key.id, ?_, fun id => ?_⟩
        · rw [HtkLookupIndex.lookup, ho, Run.ok_bind]
          simp only [if_neg hlt, if_pos hsame, pure_eq]
        · rw [hfound id]
          refine ⟨fun hid => ⟨hid, Option.some_inj.mp hid ▸ hsame⟩, And.left⟩
      · refine ⟨none, ?_, fun id => ?_⟩
        · rw [HtkLookupIndex.lookup, ho, Run.ok_bind]
          simp only [if_neg hlt, if_neg hsame, pure_eq]
        · rw [hfound id]
          refine ⟨nofun, fun hid => absurd ?_ hsame⟩
          exact Option.some_inj.mp hid.1 ▸ hid.2

/-- The offsets of an index that is built. -/
lemma hasTokens_of_offsets (h : file.Laid) (hlen : file.bytes.length < 2 ^ w - 1)
    (htoks : file.tokens w = ok toks) {offsets : BuiltOffsets} {arena : List UInt8}
    (hoffsets : buildOffsets w file = ok offsets)
    (harena : file.requiredBytes w .arena = (ok arena : Run HtkIndexError _))
    (backend : LookupBackend) :
    HasTokens ⟨arena, offsets.blockShift, offsets.bases, offsets.intra, backend,
      file.header.vocabSize⟩ toks ∧ toks.map Prod.fst = List.range file.header.vocabSize := by
  obtain ⟨arena', toks', harena', htoks', hids, hflat, hlengths, hle⟩ :=
    h.lengths_eq (ε := HtkIndexError) hlen
  obtain rfl := ok_inj.mp (htoks.symm.trans htoks')
  rw [ValidatedFile.requiredBytes, ValidatedFile.bytesOf_eq h.toBounded hlen, harena', Run.ok_bind,
    expect_some, ok_inj] at harena
  rw [buildOffsets_eq hlengths (List.forall_mem_map.mpr hle)] at hoffsets
  split_ifs at hoffsets with hlt
  · obtain rfl := ok_inj.mp hoffsets
    rw [List.length_map]
    exact ⟨⟨harena.symm.trans hflat.symm, rfl, rfl⟩, hids⟩
  · cases hoffsets

/-- An index that is built holds the tokens of the file. -/
lemma indexes_of_build (h : file.Laid) (hlen : file.bytes.length < 2 ^ w - 1)
    (htoks : file.tokens w = ok toks)
    (hbuild : build w wyhash file specials byteFallback = ok index) :
    Indexes w wyhash index toks specials byteFallback := by
  obtain ⟨offsets, hoffsets, hbuild⟩ := bind_eq_ok.mp hbuild
  obtain ⟨tokens, htokens, hbuild⟩ := bind_eq_ok.mp hbuild
  obtain ⟨backend, hbackend, hbuild⟩ := bind_eq_ok.mp hbuild
  obtain ⟨arena, harena, hbuild⟩ := bind_eq_ok.mp hbuild
  obtain rfl := ok_inj.mp hbuild
  obtain ⟨htokens', hids⟩ := hasTokens_of_offsets h hlen htoks hoffsets harena backend
  have heq : tokens = toks := by
    rw [ValidatedFile.tokenList, htoks] at htokens
    exact (ok_inj.mp htokens).symm
  subst heq
  refine ⟨htokens', hids, ?_⟩
  cases hscheme : file.header.hashScheme with
  | none =>
      rw [hscheme] at hbackend
      obtain ⟨table, htable, hbackend⟩ := bind_eq_ok.mp hbackend
      obtain rfl := ok_inj.mp hbackend
      obtain ⟨hnodup, hholds, -⟩ :=
        (FingerprintTable.build_returns w _ _).of_eq (mapErr_eq_ok.mp htable)
      refine finds_table rfl hholds hnodup fun key hkey => ?_
      rw [htokens'.token, getElem?_of_mem hids (mem_keysOf.mp hkey).1, Option.map_some]
  | fmphgo =>
      rw [hscheme] at hbackend
      obtain ⟨perfect, hperfect, hbackend⟩ := bind_eq_ok.mp hbackend
      obtain rfl := ok_inj.mp hbackend
      exact finds_perfect rfl hperfect

/-- So does an index that is built from the image of a table, where no two keys are the same. -/
theorem indexes_of_buildFromTableImage (h : file.Laid) (hlen : file.bytes.length < 2 ^ w - 1)
    (htoks : file.tokens w = ok toks) {image : List UInt8}
    (hbuild : buildFromTableImage w wyhash file specials byteFallback image = ok index)
    (hnodup : ((keysOf specials byteFallback toks).map TableKey.bytes).Nodup) :
    Indexes w wyhash index toks specials byteFallback := by
  obtain ⟨_, -, hbuild⟩ := bind_eq_ok.mp hbuild
  obtain ⟨offsets, hoffsets, hbuild⟩ := bind_eq_ok.mp hbuild
  obtain ⟨tokens, htokens, hbuild⟩ := bind_eq_ok.mp hbuild
  obtain ⟨table, htable, hbuild⟩ := bind_eq_ok.mp hbuild
  obtain ⟨_, hcount, hbuild⟩ := bind_eq_ok.mp hbuild
  obtain ⟨_, hlookup, hbuild⟩ := bind_eq_ok.mp hbuild
  obtain ⟨arena, harena, hbuild⟩ := bind_eq_ok.mp hbuild
  obtain rfl := ok_inj.mp hbuild
  obtain ⟨htokens', hids⟩ := hasTokens_of_offsets h hlen htoks hoffsets harena (.table table)
  have heq : tokens = toks := by
    rw [ValidatedFile.tokenList, htoks] at htokens
    exact (ok_inj.mp htokens).symm
  subst heq
  obtain ⟨hcanonical, -⟩ := (FingerprintTable.fromBytes_returns w image file.header.vocabSize).of_eq
    (mapErr_eq_ok.mp htable)
  have hsub : ((keysOf specials byteFallback tokens).map TableKey.id).Sublist
      (tokens.map Prod.fst) := by
    rw [keysOf, List.map_map]
    exact List.filter_sublist.map Prod.fst
  have hkeyIds : ((keysOf specials byteFallback tokens).map TableKey.id).Nodup :=
    hsub.nodup (hids ▸ List.nodup_range)
  have hkeyCount : (keysOf specials byteFallback tokens).length < 2 ^ 32 := by
    have hle := hsub.length_le
    rw [List.length_map, hids, List.length_range] at hle
    exact hle.trans_lt (h.vocab_le.trans_lt (by decide))
  rw [require_eq_ok, Nat.mod_eq_of_lt hkeyCount] at hcount
  have hall := (Returns.foldlM_forall (P := fun key : TableKey =>
    table.lookup wyhash key.bytes (fun id _ => id == key.id) = some key.id)
      (fun key _ _ => .require fun hfound => hfound) ()).of_eq hlookup
  have hholds := FingerprintTable.holds_of_lookup hcanonical hcount hkeyIds hall
  refine ⟨htokens', hids, finds_table rfl hholds hnodup fun key hkey => ?_⟩
  rw [htokens'.token, getElem?_of_mem hids (mem_keysOf.mp hkey).1, Option.map_some]

/-- An index that is built from a validated file: no offset within a block overflows, for any
`omega`; `token` gives the tokens of the file, and nothing beyond; `lookup` finds the tokens that
are not empty, special or of the byte fallback, and nothing else; and the answers do not depend on
the backend. -/
theorem index_correct (w : ℕ) (wyhash : WyHash) (sha256 : List UInt8 → List UInt8)
    {bytes : List UInt8} (hlen : bytes.length < 2 ^ w - 1) {file : ValidatedFile}
    (hread : ValidatedFile.read w sha256 bytes = ok file) :
    ∃ toks, file.tokens w = ok toks ∧ toks.length = file.header.vocabSize ∧
      ((toks.map Prod.snd).flatten.length < 2 ^ 32 → ∃ offsets, buildOffsets w file = ok offsets) ∧
      ∀ specials byteFallback index, build w wyhash file specials byteFallback = ok index →
        (∀ id, index.token id = toks[id]?.map Prod.snd) ∧
        (∀ key, ∃ o, index.lookup w wyhash key = ok o ∧ ∀ id, o = some id ↔
          (id, key) ∈ toks ∧ key ≠ [] ∧ id ∉ specials ∧ id ∉ byteFallback) ∧
        ∀ bytes' file' index', bytes'.length < 2 ^ w - 1 →
          ValidatedFile.read w sha256 bytes' = ok file' → file'.tokens w = ok toks →
          build w wyhash file' specials byteFallback = ok index' →
            ∀ key, index'.lookup w wyhash key = index.lookup w wyhash key := by
  obtain ⟨h, rfl⟩ := (ValidatedFile.read_returns sha256 hlen).of_eq hread
  obtain ⟨arena, toks, -, htoks, hids, -, hlengths, hle⟩ := h.lengths_eq (ε := HtkIndexError) hlen
  refine ⟨toks, htoks, ?_, fun hsmall => ?_, fun specials byteFallback index hbuild => ?_⟩
  · rw [← List.length_map (f := Prod.fst), hids, List.length_range]
  · have hsum : (toks.map fun token => token.2.length).sum < 2 ^ 32 := by
      rwa [List.length_flatten, List.map_map] at hsmall
    exact ⟨_, (buildOffsets_eq hlengths (List.forall_mem_map.mpr hle)).trans (if_pos hsum)⟩
  have hindexes := indexes_of_build h hlen htoks hbuild
  refine ⟨hindexes.tokens.token, hindexes.lookup, ?_⟩
  intro bytes' file' index' hlen' hread' htoks' hbuild' key
  obtain ⟨h', rfl⟩ := (ValidatedFile.read_returns sha256 hlen').of_eq hread'
  obtain ⟨o, ho, hfound⟩ := hindexes.lookup key
  obtain ⟨o', ho', hfound'⟩ := (indexes_of_build h' hlen' htoks' hbuild').lookup key
  rw [ho, ho', Option.ext fun id => (hfound' id).trans (hfound id).symm]

set_option maxRecDepth 100000 in
/-- The file of the byte tokens, with all of them special but one. -/
theorem index_correct_byteDocument : ∃ bytes file index,
    ValidatedFile.read 64 (fun _ => List.replicate 32 0) bytes = ok file ∧
      build 64 (fun _ _ _ => 0) file (Finset.Ico 1 256) ∅ = ok index ∧
        index.token 65 = some [65] ∧ index.token 256 = none ∧
        index.lookup 64 (fun _ _ _ => 0) [0] = ok (some 0) ∧
        index.lookup 64 (fun _ _ _ => 0) [65] = ok none := by
  obtain ⟨bytes, file, hread, hlen, -, hscheme, hvocab, htokens, harena⟩ := read_byteDocument
  obtain ⟨toks, htoks, -, hoffsets, hindex⟩ :=
    index_correct 64 (fun _ _ _ => 0) (fun _ => List.replicate 32 0) hlen hread
  obtain rfl := ok_inj.mp (htokens.symm.trans htoks)
  obtain ⟨offsets, hoffsets⟩ := hoffsets (by decide +kernel)
  have hkeys : keysOf (Finset.Ico 1 256) ∅ byteTokens = [⟨0, [0]⟩] := by decide +kernel
  have htable : FingerprintTable.build 64 (fun _ _ _ => 0) [⟨0, [0]⟩] 850 =
      ok ⟨[⟨1, 0, 0, 1⟩, ⟨0, 0, 0, 0⟩], 1, 850⟩ := rfl
  have hlist : (file.tokenList 64 : Run HtkIndexError _) = ok byteTokens := by
    rw [ValidatedFile.tokenList, htokens]
    rfl
  have hbackend : buildBackend 64 (fun _ _ _ => 0) file [⟨0, [0]⟩] file.header.hashScheme =
      ok (.table ⟨[⟨1, 0, 0, 1⟩, ⟨0, 0, 0, 0⟩], 1, 850⟩) := by
    rw [hscheme, buildBackend, defaultTableLoadPermille, htable]
    rfl
  have hbuild : ∃ index, build 64 (fun _ _ _ => 0) file (Finset.Ico 1 256) ∅ = ok index := by
    simp only [build, hoffsets, hlist, hkeys, hbackend, harena, Run.ok_bind, pure_eq]
    exact ⟨_, rfl⟩
  obtain ⟨index, hbuild⟩ := hbuild
  obtain ⟨htoken, hlookup, -⟩ := hindex _ _ index hbuild
  obtain ⟨o, ho, hfound⟩ := hlookup [0]
  obtain ⟨o', ho', hfound'⟩ := hlookup [65]
  refine ⟨bytes, file, index, hread, hbuild, (htoken 65).trans rfl, (htoken 256).trans rfl, ?_, ?_⟩
  · rw [ho, (hfound 0).mpr ⟨by decide +kernel, by decide, by decide +kernel, by decide⟩]
  · cases o' with
    | none => exact ho'
    | some id =>
        obtain ⟨hmem, -, hspecial, -⟩ := (hfound' id).mp rfl
        have hid := getElem?_of_mem (n := 256) (by decide +kernel) hmem
        obtain ⟨hlt, -⟩ := List.getElem?_eq_some_iff.mp hid
        have hlen : byteTokens.length = 256 := by decide +kernel
        rw [Finset.mem_Ico] at hspecial
        obtain rfl : id = 0 := by omega
        cases hid

end HtkLookupIndex

end Hypertok
