import Hypertok.Load.HfBpe
import Hypertok.Load.Prebuilt

/-!
The initial symbols of a byte-BPE tokenizer, against the BASE section that its merges are
replayed with.

* `fromByteVocab_isLeast`: the symbol of a byte is its token of lowest id, in the whole
  vocabulary.
* `initialSymbol_eq_base_iff`: the symbol of a byte is its BASE token, unless a special
  token is in the way.
* `buildByteModel_special`: a special token of one byte below the BASE token.
-/

namespace Hypertok

open Machine

/-! ### The code -/

/-- The merges of `build_byte_bpe` for a file that may have a prebuilt section. -/
def buildByteMerges (file : ByteFile) (compact : Bool) :
    Option PrebuiltPairData → Except HtkLoadError LoadedMerges
  | none => buildByteBpe file compact
  | some data =>
      if file.priorities.isSome then buildByteBpe file compact
      else if file.exhaustiveSplits then
        .error (.invalidModel "exhaustive split reconstruction requires PRIORITY")
      else (hydratePrebuilt file.toByteImage compact data).map fun t => .idRanked (.pairRanks t)

/-- The merges and the remapping of `build_byte_bpe`. BASE is checked first and leaves no
byte without a token, so it does not matter that the code makes the remapping before the
merges where there is no PRIORITY. -/
def buildByteModel (file : ByteFile) (compact : Bool) (prebuilt : Option PrebuiltPairData) :
    Except HtkLoadError (LoadedMerges × (UInt8 → TokenId)) := do
  validateBase file.toByteImage
  validateKeySet file.vocab file.specials ∅
  let merges ← buildByteMerges file compact prebuilt
  let remapping ← (fromByteVocab file.vocab).mapError fun _ => .invalidModel "incomplete byte BASE"
  return (merges, remapping)

/-! ### The scan -/

variable {vocab : List (List UInt8)} {mapping : List TokenId} {base : UInt8 → TokenId}

lemma getElem?_mappingStep (hlen : mapping.length = 256) (x : List UInt8 × TokenId) (b : UInt8) :
    (mappingStep mapping x)[b.toNat]? =
      if x.1 = [b] ∧ mapping[b.toNat]? = some u32Max then some x.2 else mapping[b.toNat]? := by
  obtain ⟨p, i⟩ := x
  match p with
  | [] => simp [mappingStep]
  | [b'] =>
      by_cases hset : mapping[b'.toNat]? = some u32Max
      · by_cases hb : b' = b
        · subst hb
          simp only [mappingStep, hset, if_true, and_self]
          exact List.getElem?_set_self (hlen ▸ b'.toNat_lt)
        · have hne : b'.toNat ≠ b.toNat := fun h => hb (UInt8.toNat_inj.mp h)
          simp [mappingStep, hset, hb, hne]
      · by_cases hb : b' = b
        · subst hb
          simp [mappingStep, hset]
        · simp [mappingStep, hset, hb]
  | _ :: _ :: _ => simp [mappingStep]

lemma length_mappingStep (mapping : List TokenId) (x : List UInt8 × TokenId) :
    (mappingStep mapping x).length = mapping.length := by
  rw [mappingStep]
  split
  · split_ifs
    · rw [List.length_set]
    · rfl
  · rfl

/-- The scan keeps what it has, and takes the first token of a byte otherwise. -/
lemma foldl_mappingStep {l : List (List UInt8 × TokenId)} (hl : ∀ x ∈ l, x.2 ≠ u32Max)
    (hlen : mapping.length = 256) (b : UInt8) :
    (l.foldl mappingStep mapping)[b.toNat]? = if mapping[b.toNat]? = some u32Max then
      some (((l.find? fun x => x.1 == [b]).map Prod.snd).getD u32Max) else mapping[b.toNat]? := by
  induction l generalizing mapping with
  | nil =>
      split_ifs with h
      · exact h
      · rfl
  | cons x l ih =>
      simp only [List.mem_cons, forall_eq_or_imp] at hl
      rw [List.foldl_cons, ih hl.2 (by rw [length_mappingStep, hlen]), List.find?_cons,
        getElem?_mappingStep hlen]
      by_cases hx : x.1 = [b]
      · by_cases hset : mapping[b.toNat]? = some u32Max
        · simp [hx, hset, hl.1]
        · simp [hset]
      · have hbeq : (x.1 == [b]) = false := beq_false_of_ne hx
        simp [hx, hbeq]

/-- The scan meets the token of lowest id first. -/
lemma foldl_mappingStep_isLeast (hlen : vocab.length ≤ 2 ^ 28) {b : UInt8} (hb : [b] ∈ vocab) :
    ∃ id, (vocab.zipIdx.foldl mappingStep (List.replicate 256 u32Max))[b.toNat]? = some id ∧
      IsLeast {id : ℕ | vocab[id]? = some [b]} id := by
  have hl : ∀ x ∈ vocab.zipIdx, x.2 ≠ u32Max := by
    rintro ⟨p, i⟩ hx
    have hi := (List.snd_lt_of_mem_zipIdx hx).trans_le (by simpa using hlen)
    exact (hi.trans (by decide)).ne
  obtain ⟨x, hx⟩ : ∃ x, (vocab.zipIdx.find? fun x => x.1 == [b]) = some x := by
    obtain ⟨i, hi⟩ := List.mem_iff_getElem?.mp hb
    exact Option.isSome_iff_exists.mp
      (List.find?_isSome.mpr ⟨([b], i), List.mem_zipIdx_iff_getElem?.mpr hi, by simp⟩)
  obtain ⟨hbeq, i, hi, rfl, hfirst⟩ := List.find?_eq_some_iff_getElem.mp hx
  have hunset : (List.replicate 256 u32Max)[b.toNat]? = some u32Max :=
    List.getElem?_replicate_of_lt b.toNat_lt
  rw [foldl_mappingStep hl (by rw [List.length_replicate]), if_pos hunset, hx]
  simp only [List.length_zipIdx] at hi
  simp only [List.getElem_zipIdx, Nat.zero_add, beq_iff_eq, Bool.not_eq_eq_eq_not, Bool.not_true,
    beq_eq_false_iff_ne, Option.map_some, Option.getD_some] at hbeq hfirst ⊢
  refine ⟨i, rfl, List.getElem?_eq_some_iff.mpr ⟨hi, hbeq⟩, fun j hj => ?_⟩
  by_contra hlt
  obtain ⟨hj', heq⟩ := List.getElem?_eq_some_iff.mp hj
  exact hfirst j (not_le.mp hlt) heq

/-- The symbol of a byte is its token of lowest id. -/
theorem fromByteVocab_isLeast (hlen : vocab.length ≤ 2 ^ 28) (h : fromByteVocab vocab = .ok base)
    {b : UInt8} (hb : [b] ∈ vocab) : IsLeast {id : ℕ | vocab[id]? = some [b]} (base b) := by
  obtain ⟨id, hget, hleast⟩ := foldl_mappingStep_isLeast hlen hb
  have hlt := (List.getElem?_eq_some_iff.mp hleast.1).1.trans_le hlen
  have hset : id ≠ u32Max := (hlt.trans (by decide)).ne
  have hne : (some id : Option TokenId) ≠ some u32Max := fun heq => hset (Option.some_inj.mp heq)
  rw [fromByteVocab] at h
  generalize vocab.zipIdx.foldl mappingStep (List.replicate 256 u32Max) = scan at h hget
  split at h
  · cases h
  · cases h
    dsimp only
    rwa [hget, if_neg hne, List.getD_eq_getElem?_getD, hget, Option.getD_some]

/-- The scan leaves no byte out if each has a token. -/
lemma fromByteVocab_ok (hlen : vocab.length ≤ 2 ^ 28) (h : ∀ b : UInt8, [b] ∈ vocab) :
    ∃ base, fromByteVocab vocab = .ok base := by
  have hnone : (byteValues.find? fun b =>
      (vocab.zipIdx.foldl mappingStep (List.replicate 256 u32Max))[b.toNat]? = some u32Max &&
        isValidUtf8Byte b) = none := by
    refine List.find?_eq_none.mpr fun b _ => ?_
    obtain ⟨id, hget, hleast⟩ := foldl_mappingStep_isLeast hlen (h b)
    have hlt := (List.getElem?_eq_some_iff.mp hleast.1).1.trans_le hlen
    have hset : id ≠ u32Max := (hlt.trans (by decide)).ne
    have hne : (some id : Option TokenId) ≠ some u32Max := fun heq => hset (Option.some_inj.mp heq)
    rw [hget, decide_eq_false hne]
    exact Bool.false_ne_true
  rw [fromByteVocab, hnone]
  exact ⟨_, rfl⟩

/-! ### Against BASE -/

variable {file : ByteFile} {compact : Bool} {prebuilt : Option PrebuiltPairData}
  {model : LoadedMerges × (UInt8 → TokenId)}

lemma buildByteModel_ok (h : buildByteModel file compact prebuilt = .ok model) :
    validateBase file.toByteImage = .ok () ∧ validateKeySet file.vocab file.specials ∅ = .ok () ∧
      fromByteVocab file.vocab = .ok model.2 := by
  simp only [buildByteModel, bind_eq_ok_iff] at h
  obtain ⟨⟨⟩, hbase, ⟨⟩, hkeys, merges, -, base, hmap, h⟩ := h
  cases h
  exact ⟨hbase, hkeys, mapError_eq_ok.mp hmap⟩

lemma buildByteModel_of_merges (hbase : validateBase file.toByteImage = .ok ())
    (hkeys : validateKeySet file.vocab file.specials ∅ = .ok ()) {merges : LoadedMerges}
    (hmerges : buildByteMerges file compact prebuilt = .ok merges) :
    ∃ base, buildByteModel file compact prebuilt = .ok (merges, base) := by
  obtain ⟨base, hmap⟩ := fromByteVocab_ok file.vocab_le fun b =>
    List.mem_of_getElem? (validateBase_ok hbase b)
  refine ⟨base, ?_⟩
  simp only [buildByteModel, hbase, hkeys, hmerges, mapError_eq_ok.mpr hmap, ok_bind]
  rfl

/-- The symbol of a byte is its BASE token exactly if that token wins against every other
token of the byte where one of the two is special. -/
theorem initialSymbol_eq_base_iff (file : ByteFile) (compact : Bool)
    (prebuilt : Option PrebuiltPairData) (model : LoadedMerges × (UInt8 → TokenId))
    (h : buildByteModel file compact prebuilt = .ok model) (b : UInt8) :
    model.2 b = file.base b ↔ ∀ id, file.vocab[id]? = some [b] →
      id ∈ file.specials ∨ file.base b ∈ file.specials → file.base b ≤ id := by
  obtain ⟨hbase, hkeys, hmap⟩ := buildByteModel_ok h
  have hget := validateBase_ok hbase b
  have hleast := fromByteVocab_isLeast file.vocab_le hmap (List.mem_of_getElem? hget)
  constructor
  · rintro heq id hid -
    exact heq ▸ hleast.2 hid
  · intro hspecial
    refine le_antisymm (hleast.2 hget) ?_
    by_cases hs : model.2 b ∈ file.specials ∨ file.base b ∈ file.specials
    · exact hspecial _ hleast.1 hs
    · -- two tokens of one byte that are not special are one
      rw [not_or] at hs
      exact (@IsKey.unique file.toByteImage hkeys _ _ [b] ⟨hget, by simp, hs.2⟩
        ⟨hleast.1, by simp, hs.1⟩).le

/-- `abcImage` as a file without PRIORITY. -/
def plainFile : ByteFile := { abcImage with priorities := none, exhaustiveSplits := false }

/-- The special token `A` (0), the bytes from 1 on, and `AB` (257). -/
def specialFile : ByteFile where
  vocab := [65] :: ((List.range 256).map (fun b => [UInt8.ofNat b]) ++ [[65, 66]])
  base b := b.toNat + 1
  specials := {0}
  vocab_le := by decide +kernel
  arena_le := by decide +kernel
  base_lt b := Nat.succ_lt_succ (b.toNat_lt.trans (by simp))
  priorities := none
  exhaustiveSplits := false

/-- Without special tokens, the symbols are the BASE tokens. -/
theorem initialSymbol_plainFile :
    ∃ model, buildByteModel plainFile false none = .ok model ∧ model.2 97 = 97 := by
  have hbase : validateBase plainFile.toByteImage = .ok () := if_pos (by decide +kernel)
  have hkeys : validateKeySet plainFile.vocab plainFile.specials ∅ = .ok () :=
    validateKeySet_of_nodup (nodup_bytes_append (by decide) (by decide)) _
  obtain ⟨m, hm, -⟩ := reconstruct_abcImage
  obtain ⟨idRanked, hload, -⟩ := loadIdRanked_of_replay hbase hkeys hm false
  have hmerges : buildByteMerges plainFile false none = .ok (.idRanked idRanked) := by
    have hprio : plainFile.priorities = none := rfl
    have hflag : plainFile.exhaustiveSplits = false := rfl
    simp only [buildByteMerges, buildByteBpe, hbase, hkeys, hprio, hflag, hload, ok_bind,
      Bool.false_eq_true, if_false]
    rfl
  obtain ⟨base, hmodel⟩ := buildByteModel_of_merges hbase hkeys hmerges
  refine ⟨_, hmodel, (initialSymbol_eq_base_iff plainFile false none _ hmodel 97).mpr ?_⟩
  rintro id - (hid | hid)
  · exact absurd hid (Finset.notMem_empty id)
  · exact absurd hid (Finset.notMem_empty _)

/-- `A` is encoded as the special token, while the pair of `AB` is that of the BASE tokens. -/
theorem buildByteModel_special : ∃ model, buildByteModel specialFile false none = .ok model ∧
    model.2 65 = 0 ∧ specialFile.base 65 = 66 ∧
      model.1.table 66 67 = some (257, 257) ∧ model.1.table 0 67 = none := by
  have hbase : validateBase specialFile.toByteImage = .ok () := if_pos (by decide +kernel)
  have hkeys : validateKeySet specialFile.vocab specialFile.specials ∅ = .ok () := by
    have hnodup : ((List.range 256).map (fun b => [UInt8.ofNat b]) ++ [[65, 66]]).Nodup :=
      nodup_bytes_append (by decide) (by decide)
    have hzip : specialFile.vocab.zipIdx = ([65], 0) ::
        ((List.range 256).map (fun b => [UInt8.ofNat b]) ++ [[65, 66]]).zipIdx 1 := List.zipIdx_cons
    rw [validateKeySet, hzip, validateKeySetLoop, if_pos (by decide)]
    exact validateKeySetLoop_of_nodup (by rwa [List.zipIdx_map_fst]) (by simp)
  obtain ⟨o, hload, ho⟩ := eq_ok_of_toOption
    (f := fun o => o.map fun t => (t.rank 66 67, t.rank 0 67))
    (x := reconstructIdPairRanks specialFile.toByteImage false false)
    (b := some (257, u32Max)) (by decide +kernel)
  obtain ⟨t, rfl, hrank⟩ := Option.map_eq_some_iff.mp ho
  simp only [Prod.mk.injEq] at hrank
  have hmerges : buildByteMerges specialFile false none = .ok (.idRanked (.pairRanks t)) := by
    have hprio : specialFile.priorities = none := rfl
    have hflag : specialFile.exhaustiveSplits = false := rfl
    have hranked : loadIdRanked specialFile.toByteImage false false = .ok (.pairRanks t) := by
      simp [loadIdRanked, hbase, hkeys, hload]
    simp only [buildByteMerges, buildByteBpe, hbase, hkeys, hprio, hflag, hranked, ok_bind,
      Bool.false_eq_true, if_false]
    rfl
  obtain ⟨base, hmodel⟩ := buildByteModel_of_merges hbase hkeys hmerges
  have hzero : IsLeast {id : ℕ | specialFile.vocab[id]? = some [65]} 0 :=
    ⟨rfl, fun id _ => Nat.zero_le id⟩
  have hleast := fromByteVocab_isLeast specialFile.vocab_le (buildByteModel_ok hmodel).2.2
    (List.mem_of_getElem? hzero.1)
  refine ⟨_, hmodel, hleast.unique hzero, rfl, ?_, ?_⟩
  · simp [LoadedMerges.table, IdRanked.getRank, rankTable, hrank.1, u32Max]
  · simp [LoadedMerges.table, IdRanked.getRank, rankTable, hrank.2]

end Hypertok
