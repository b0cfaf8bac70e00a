import Hypertok.Load.Ranked

/-!
The merges of a byte-BPE file.

* `buildByteBpe`: the checks, and the reconstruction that the sections ask for.
* `buildByteBpe_replay`: without the flag for all cuts, the merges are a replay of the
  products, in id order or in the order of their priorities.
* `buildByteBpe_exhaustive`: with the flag, they are all cuts of the products.
-/

namespace Hypertok

open PairMerge Machine

/-- A validated byte-BPE file, as far as its merges go. -/
structure ByteFile extends ByteImage where
  /-- PRIORITY, one number per token. -/
  priorities : Option (List ℕ)
  /-- `BYTE_BPE_EXHAUSTIVE_SPLITS_FLAG`. -/
  exhaustiveSplits : Bool

/-- The merges that a tokenizer is built from. -/
inductive LoadedMerges
  | idRanked (model : IdRanked)
  | ranked (merges : RankedMerges)

/-- The merge table of the merge loops. -/
def LoadedMerges.table : LoadedMerges → Table ℕ TokenId
  | .idRanked model => rankTable model.getRank
  | .ranked merges => rankedTable merges.pair

namespace ByteFile

variable (file : ByteFile)

/-- The special tokens and the byte tokens. -/
def nonProducts : Finset TokenId := file.specials ∪ (byteValues.map file.base).toFinset

/-- The symbols of a token before any merge. -/
def init (id : TokenId) : List TokenId := file.symbols (tokenBytes file.vocab id)

end ByteFile

/-- The merges of `build_byte_bpe`. -/
def buildByteBpe (file : ByteFile) (compact : Bool) : Except HtkLoadError LoadedMerges := do
  validateBase file.toByteImage
  validateKeySet file.vocab file.specials ∅
  match file.priorities with
  | none =>
      if file.exhaustiveSplits then
        .error (.invalidModel "exhaustive split reconstruction requires PRIORITY")
      else return .idRanked (← loadIdRanked file.toByteImage compact false)
  | some priorities =>
      if ∃ id ∈ file.nonProducts, priorityOf priorities id ≠ 0 then
        .error (.invalidModel "initial or special token has merge priority")
      else if file.exhaustiveSplits then
        return .ranked (← reconstructExhaustiveRankedMerges file.vocab priorities
          file.nonProducts file.specials)
      else
        return .ranked (← reconstructRankedMerges file.vocab priorities file.nonProducts
          file.symbols)

variable {file : ByteFile} {compact : Bool} {model : LoadedMerges}

lemma ByteFile.mem_nonProducts {id : TokenId} :
    id ∈ file.nonProducts ↔ id ∈ file.specials ∨ ∃ b, file.base b = id := by
  simp only [ByteFile.nonProducts, Finset.mem_union, List.mem_toFinset, List.mem_map]
  exact or_congr_right ⟨fun ⟨b, _, hb⟩ => ⟨b, hb⟩, fun ⟨b, hb⟩ => ⟨b, mem_byteValues b, hb⟩⟩

lemma ByteFile.symbols_lt (bytes : List UInt8) : ∀ a ∈ file.symbols bytes, a < 2 ^ 32 := by
  intro a ha
  obtain ⟨b, -, rfl⟩ := List.mem_map.mp ha
  exact ((file.base_lt b).trans_le file.vocab_le).trans (by decide)

lemma ByteFile.length_init_le (id : TokenId) : (file.init id).length ≤ usizeMax := by
  rw [ByteFile.init, tokenBytes, List.getD_eq_getElem?_getD]
  cases h : file.vocab[id]? with
  | none => simp [ByteImage.symbols]
  | some token =>
      exact (file.length_symbols_le (List.mem_of_getElem? h)).trans (by decide)

/-- The checks of a file that loads. -/
lemma buildByteBpe_checks (h : buildByteBpe file compact = .ok model) :
    validateBase file.toByteImage = .ok () ∧
      validateKeySet file.vocab file.specials ∅ = .ok () := by
  simp only [buildByteBpe, bind_eq_ok_iff] at h
  obtain ⟨⟨⟩, hbase, ⟨⟩, hkeys, -⟩ := h
  exact ⟨hbase, hkeys⟩

/-- The products of a file without PRIORITY. -/
def idProducts (img : ByteImage) : List TokenId :=
  (List.range img.vocab.length).filter fun id => !img.skipped id (tokenBytes img.vocab id)

/-- Without PRIORITY the products are replayed in the order of their ids. -/
theorem buildByteBpe_id (h : buildByteBpe file compact = .ok model)
    (hprio : file.priorities = none) :
    file.exhaustiveSplits = false ∧ ∃ rules T, Rebuilt file.init id (idProducts file.toByteImage) T
      rules ∧ ∀ bytes, bpe model.table (file.symbols bytes) = bpe T (file.symbols bytes) := by
  simp only [buildByteBpe, bind_eq_ok_iff, hprio] at h
  obtain ⟨⟨⟩, -, ⟨⟩, -, h⟩ := h
  split_ifs at h with hflag
  obtain ⟨idRanked, hload, h⟩ := bind_eq_ok_iff.mp h
  cases h
  obtain ⟨-, -, m, hm, hmodel⟩ := loadIdRanked_ok hload
  obtain ⟨rules, hrules⟩ := reconstructIdMerges_rebuilt hm
  refine ⟨by simpa using hflag, rules, mergesTable m, hrules, fun bytes => ?_⟩
  rcases hmodel with rfl | ⟨t, rfl, ht, hlen⟩
  · rfl
  · exact (ht.bpe_rank (file.symbols_fits hlen bytes)).1

/-- With PRIORITY the products are replayed in the order of their priorities, if these
tell them apart. -/
theorem buildByteBpe_ranked (h : buildByteBpe file compact = .ok model) {priorities : List ℕ}
    (hprio : file.priorities = some priorities) (hflag : file.exhaustiveSplits = false)
    {products : List TokenId}
    (hsorted : products.Pairwise fun a b => priorityOf priorities a < priorityOf priorities b)
    (hmem : ∀ id, id ∈ products ↔ id < file.vocab.length ∧ tokenBytes file.vocab id ≠ [] ∧
      id ∉ file.nonProducts ∧ priorityOf priorities id ≠ 0)
    (hle : ∀ id ∈ products, priorityOf priorities id ≤ u32Max) :
    ∃ rules, Rebuilt file.init (priorityOf priorities) products model.table rules := by
  simp only [buildByteBpe, bind_eq_ok_iff, hprio, hflag, Bool.false_eq_true, if_false] at h
  obtain ⟨⟨⟩, -, ⟨⟩, -, h⟩ := h
  split_ifs at h
  obtain ⟨merges, hmerges, h⟩ := bind_eq_ok_iff.mp h
  cases h
  exact reconstructRankedMerges_rebuilt hsorted hmem hle file.vocab_le
    (fun id _ => ⟨file.length_init_le id, file.symbols_lt _⟩) hmerges

/-- With the flag, the merges are the cuts of the products into two tokens. -/
theorem buildByteBpe_exhaustive (h : buildByteBpe file compact = .ok model)
    (hflag : file.exhaustiveSplits = true) :
    ∃ priorities, file.priorities = some priorities ∧ ∀ {a b : TokenId}, b < 2 ^ 32 →
      ∀ {q : ℕ × TokenId}, q ∈ model.table a b ↔ ∃ left right,
        Keyed file.vocab file.specials a left ∧ Keyed file.vocab file.specials b right ∧
          file.vocab[q.2]? = some (left ++ right) ∧ q.2 ∉ file.nonProducts ∧
          q.1 = priorityOf priorities q.2 ∧ q.1 ≠ 0 := by
  have hkeys := (buildByteBpe_checks h).2
  simp only [buildByteBpe, bind_eq_ok_iff, hflag, if_true] at h
  obtain ⟨⟨⟩, -, ⟨⟩, -, h⟩ := h
  split at h
  case h_1 => cases h
  case h_2 priorities hprio =>
      split_ifs at h
      obtain ⟨merges, hmerges, h⟩ := bind_eq_ok_iff.mp h
      cases h
      refine ⟨priorities, hprio, fun hb => exhaustive_table file.vocab_le ?_ hmerges hb⟩
      intro id id' token hid hid'
      exact @IsKey.unique file.toByteImage hkeys _ _ _ hid hid'

end Hypertok
