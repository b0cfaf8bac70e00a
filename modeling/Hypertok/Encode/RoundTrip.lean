import Hypertok.Cache.Encode
import Hypertok.Encode.SafeSplit
import Hypertok.Load.Words
import Hypertok.Machine.Lossy

/-!
Encoding and decoding with the tokenizer of a byte-BPE file.

* `ByteBpeFile.buildTokenizer`, `encodeWithAddedTokensFlat`, `wasmDecode`: the loader and the calls.
* `Faithful.spell_uncachedEncode`: the encoding of a pretoken spells it.
* `sameModel_memoizedEncodeFlat`: a call changes the caches only.
* `encodePieces_decode`: in all runs, what a text is encoded to is decoded to the bytes of its pieces.
-/

namespace Hypertok

open PairMerge Machine Relation

/-! ### The code -/

/-- A validated byte-BPE file. The reader has checked that SPECIALS has the bytes of the arena. -/
structure ByteBpeFile extends ByteFile where
  ignoreMerges : Bool
  scheme : PretokenizerType
  addPrefixSpace : Bool
  normalizeNfc : Bool
  addedTokens : List StripToken
  specials_eq : specials = (addedTokens.map fun t => t.id).toFinset
  special_bytes : ∀ t ∈ addedTokens, vocab[t.id]? = some t.content ∧ t.content ≠ []
  prioritiesFit : toByteFile.PrioritiesFit

lemma lookup_empty_lt (p : TokenId × TokenId) (c : TokenId)
    (h : c ∈ (∅ : Merges).lookup p) : c < 2 ^ 32 := by simp at h

lemma pairRank_empty_lt (t : PairRankTable) (h : t ∈ (none : Option PairRankTable))
    (a b : TokenId) : t.rank a b < 2 ^ 32 := by cases h

lemma ranked_empty_lt (rm : RankedMerges) (h : rm ∈ (none : Option RankedMerges)) (k : ℕ)
    (q : TokenId × ℕ) (_ : q ∈ rm.lookup k) : q.1 < 2 ^ 32 ∧ q.2 < 2 ^ 32 := by cases h

lemma u32Max_lt {n : ℕ} (h : n ≤ u32Max) : n < 2 ^ 32 := Nat.lt_of_le_pred (by decide) h

lemma build_rank_lt {compact : Bool} {m : Merges} {vocabLen : ℕ} (hlen : m.entries.length ≤ 2 ^ 28)
    (t : PairRankTable) (h : t ∈ PairRankTable.build compact m vocabLen) (a b : TokenId) :
    t.rank a b < 2 ^ 32 :=
  u32Max_lt ((PairRankTable.build_holds h (hlen.trans (by decide))).2.rank_le a b)

lemma RankedWords.ranked_lt {vocab : List (List UInt8)} {m : RankedMerges} (h : RankedWords vocab m)
    (rm : RankedMerges) (hrm : rm ∈ some m) (k : ℕ) (q : TokenId × ℕ) (hq : q ∈ rm.lookup k) :
    q.1 < 2 ^ 32 ∧ q.2 < 2 ^ 32 := by
  cases hrm
  exact ⟨(h.lt k q hq).1, u32Max_lt (h.lt k q hq).2⟩

lemma pairRank_lt {t : PairRankTable} (h : ∀ a b, t.rank a b ≤ u32Max) (table : PairRankTable)
    (htable : table ∈ some t) (a b : TokenId) : table.rank a b < 2 ^ 32 := by
  cases htable
  exact u32Max_lt (h a b)

/-- The tables of `new_pair_ranks`, `new` and `new_ranked`. -/
def LoadedMerges.tables (compact : Bool) {vocab : List (List UInt8)} (remapping : ByteRemapping) :
    (merges : LoadedMerges) → merges.Words vocab → MergeTables
  | .idRanked (.pairRanks t), h =>
      { merges := ∅
        pairRanks := some t
        rankedMerges := none
        byteRemapping := some remapping
        merges_lt := lookup_empty_lt
        pairRanks_lt := pairRank_lt h.2
        ranked_lt := ranked_empty_lt }
  | .idRanked (.merges m), h =>
      { merges := m
        pairRanks := PairRankTable.build compact m vocab.length
        rankedMerges := none
        byteRemapping := some remapping
        merges_lt := h.2.1
        pairRanks_lt := build_rank_lt h.2.2
        ranked_lt := ranked_empty_lt }
  | .ranked m, h =>
      { merges := ∅
        pairRanks := none
        rankedMerges := some m
        byteRemapping := some remapping
        merges_lt := lookup_empty_lt
        pairRanks_lt := pairRank_empty_lt
        ranked_lt := h.ranked_lt }

/-- `from_pair_rank_table` or `from_tables`. -/
def LoadedMerges.tokenizer (hash : ℕ → ℕ) (coldDiet : Bool) (vocab : List (List UInt8))
    (tables : MergeTables) : LoadedMerges → Option Tokenizer
  | .idRanked (.pairRanks _) => Tokenizer.fromPairRankTable tables vocab
  | _ => Tokenizer.fromTables hash coldDiet tables vocab

lemma buildByteModel_lt {file : ByteFile} {compact : Bool} {prebuilt : Option PrebuiltPairData}
    {model : LoadedMerges × (UInt8 → TokenId)} (hfit : file.PrioritiesFit)
    (h : buildByteModel file compact prebuilt = .ok model) (b : UInt8) : model.2 b < 2 ^ 32 :=
  ((lt_of_decodeTokenBytes ((buildByteModel_words hfit h).2 b)).trans_le file.vocab_le).trans
    (by decide)

namespace ByteBpeFile

variable (file : ByteBpeFile)

/-- The special tokens in the order of `set_added_tokens`, the longest first. -/
def keptTokens : List StripToken :=
  (file.addedTokens.filter fun t => t.content ≠ []).mergeSort
    fun a b => b.content.length ≤ a.content.length

lemma mem_keptTokens {file : ByteBpeFile} {t : StripToken} :
    t ∈ file.keptTokens ↔ t ∈ file.addedTokens ∧ t.content ≠ [] := by
  rw [keptTokens, List.mem_mergeSort, List.mem_filter, decide_eq_true_eq]

lemma content_ne_of_mem_keptTokens (t : StripToken) (h : t ∈ file.keptTokens) : t.content ≠ [] :=
  (mem_keptTokens.mp h).2

/-- What the walk over an input reads of the tokenizer. -/
def pipeline : Pipeline where
  addedTokens := file.keptTokens
  normalizeNfc := file.normalizeNfc
  addPrefixSpace := file.addPrefixSpace
  content_ne := file.content_ne_of_mem_keptTokens

/-- `build_byte_bpe`. `discard_redundant_id_merges` drops what the pair ranks stand for. -/
def buildTokenizer (hash : ℕ → ℕ) (coldDiet compact : Bool) (prebuilt : Option PrebuiltPairData) :
    Except HtkLoadError (Option Tokenizer) :=
  match h : buildByteModel file.toByteFile compact prebuilt with
  | .error e => .error e
  | .ok model => .ok do
      let remapping := ⟨model.2, buildByteModel_lt file.prioritiesFit h⟩
      let words := (buildByteModel_words file.prioritiesFit h).1
      let t ← model.1.tokenizer hash coldDiet file.vocab (model.1.tables compact remapping words)
      let t ← t.setIgnoreMerges hash coldDiet file.ignoreMerges
      t.setAddedTokens hash (file.addedTokens.map StripToken.toAddedTokenDef)

end ByteBpeFile

namespace Tokenizer

/-- The walk of `encode_with_added_tokens_flat`. -/
def encodePieces (hash : ℕ → ℕ) (tables : UnicodeTables) (scheme : PretokenizerType) :
    List Piece → Tokenizer → OutVec → Option (Tokenizer × OutVec)
  | [], t, out => some (t, out)
  | .segment encoded _ _ :: pieces, t, out => do
      let pretokens ← scheme.pretokenize tables encoded
      let (t, out) ← t.memoizedEncodeFlat hash pretokens out
      encodePieces hash tables scheme pieces t out
  | .added id _ _ :: pieces, t, out => encodePieces hash tables scheme pieces t (out.extend [id])

/-- `encode_with_added_tokens_flat`. -/
def encodeWithAddedTokensFlat (hash : ℕ → ℕ) (tables : UnicodeTables) (scheme : PretokenizerType)
    (p : Pipeline) (data : NfcData) (t : Tokenizer) (bytes : List UInt8) (out : OutVec) :
    Option (Tokenizer × OutVec) := do
  encodePieces hash tables scheme (← p.pieces data bytes) t out

/-- `decode`. An id past the vocabulary would panic (`none`). -/
def decode (t : Tokenizer) (ids : List TokenId) : Option (List UInt8) :=
  (ids.mapM fun id => t.vocab[id]?).map List.flatten

/-- `token_length`, of the lengths of `owned_token_lengths`. -/
def tokenLength (t : Tokenizer) (id : TokenId) : Option ℕ :=
  (t.vocab.map List.length)[id]?.filter (· ≠ 0)

/-- `WasmTokenizer::decode`. -/
def wasmDecode (t : Tokenizer) (ids : List TokenId) : Except String (Option (List Char)) :=
  match ids.find? fun id => (t.tokenLength id).isNone with
  | some id => .error s!"unknown token id {id}"
  | none => .ok ((t.decode ids).map fromUtf8Lossy)

/-- One use of a tokenizer: an encode call, or a fork that is used from then on. -/
inductive Use (hash : ℕ → ℕ) (coldDiet : Bool) (t : Tokenizer) : Tokenizer → Prop
  | memoizedEncode {t' pretokens outs} (h : t.memoizedEncode hash pretokens = some (t', outs)) :
      Use hash coldDiet t t'
  | memoizedEncodeFlat {t' pretokens out out'}
      (h : t.memoizedEncodeFlat hash pretokens out = some (t', out')) : Use hash coldDiet t t'
  | forkSized {t' cacheSlots} (h : t.forkSized hash coldDiet cacheSlots = some t') :
      Use hash coldDiet t t'

end Tokenizer

/-- The bytes that a piece has in its input, as far as an encoder goes. -/
def Piece.bytes (input : List UInt8) : Piece → List UInt8
  | segment encoded _ _ => encoded
  | added _ start stop => (input.take stop).drop start

/-! ### A pretoken -/

/-- The tables join the bytes of the tokens. -/
structure MergeTables.Words (vocab : List (List UInt8)) (T : MergeTables) : Prop where
  spell_bytes : ∀ bytes, spell (decodeTokenBytes vocab) (T.byteSymbols bytes) = some bytes
  joins : Joins (rankTable T.getRank) (decodeTokenBytes vocab)
  ranked : ∀ rm ∈ T.rankedMerges, Joins (rankedTable rm.pair) (decodeTokenBytes vocab)

/-- Without merges there is nothing to join. -/
lemma joins_empty (vocab : List (List UInt8)) :
    Joins (mergesTable ∅) (decodeTokenBytes vocab) :=
  fun a b p q _ _ c hc => by simp [rankTable, mergesRank] at hc

lemma MergeTables.joins_getRank {T : MergeTables} {vocab : List (List UInt8)}
    (htable : ∀ t ∈ T.pairRanks, Joins (rankTable t.rank) (decodeTokenBytes vocab))
    (hmerges : Joins (mergesTable T.merges) (decodeTokenBytes vocab)) :
    Joins (rankTable T.getRank) (decodeTokenBytes vocab) := by
  rw [MergeTables.getRank]
  cases ht : T.pairRanks with
  | none => exact hmerges
  | some t => exact htable t ht

/-- The tables of all files that load. -/
lemma LoadedMerges.tables_words (compact : Bool) {vocab : List (List UInt8)}
    {remapping : ByteRemapping} {merges : LoadedMerges} (words : merges.Words vocab)
    (hbyte : ∀ b, decodeTokenBytes vocab (remapping.mapping b) = some [b]) :
    (merges.tables compact remapping words).Words vocab := by
  rcases merges with (t | m) | m
  · exact ⟨spell_map hbyte, words.1, nofun⟩
  · refine ⟨spell_map hbyte, MergeTables.joins_getRank (fun t hbuild => ?_) words.1, nofun⟩
    obtain ⟨hlen, ht⟩ := PairRankTable.build_holds hbuild (words.2.2.trans (by decide))
    exact ht.words hlen words.1
  · refine ⟨spell_map hbyte, joins_empty vocab, fun rm hrm => ?_⟩
    cases hrm
    exact RankedWords.words words

/-- The inverse vocabulary inverts. -/
lemma getElem?_of_lookup_invertVocab {vocab : List (List UInt8)} (hlen : vocab.length ≤ 2 ^ 28)
    {bytes : List UInt8} {id : TokenId} (h : id ∈ (invertVocab vocab).lookup bytes) :
    vocab[id]? = some bytes := by
  have hfold : ∀ (l : List (List UInt8 × ℕ)) (inv : VocabInv),
      (∀ b, ∀ id ∈ inv.lookup b, vocab[id]? = some b) →
        (∀ p ∈ l, vocab[p.2 % 2 ^ 32]? = some p.1) →
          ∀ b, ∀ id ∈ (l.foldl (fun inv p => inv.insert p.1 (p.2 % 2 ^ 32)) inv).lookup b,
            vocab[id]? = some b := by
    intro l
    induction l with
    | nil => exact fun inv hinv _ => hinv
    | cons p l ih =>
        intro inv hinv hl
        obtain ⟨hp, hl⟩ := List.forall_mem_cons.mp hl
        refine ih _ (fun b id hid => ?_) hl
        obtain rfl | hne := eq_or_ne b p.1
        · rw [AList.lookup_insert, Option.mem_some_iff] at hid
          rw [← hid, hp]
        · rw [AList.lookup_insert_ne hne] at hid
          exact hinv b id hid
  refine hfold vocab.zipIdx ∅ (by simp) ?_ bytes id h
  rintro ⟨token, i⟩ hp
  have hget : vocab[i]? = some token := List.mem_zipIdx_iff_getElem?.mp hp
  have hlt := (List.getElem?_eq_some_iff.mp hget).1.trans_le hlen
  rw [Nat.mod_eq_of_lt (hlt.trans (by decide)), hget]

namespace Tokenizer

/-- What a tokenizer encodes a pretoken to are the tokens that it decodes to the pretoken. -/
structure Faithful (t : Tokenizer) : Prop where
  tables : t.tables.Words t.vocab
  resolves : ∀ bytes ≠ [], ∀ id ∈ t.vocabInv.lookup bytes, decodeTokenBytes t.vocab id = some bytes

variable {hash : ℕ → ℕ} {coldDiet : Bool} {stage : Stage} {t t' : Tokenizer} {bytes : List UInt8}

/-- A pretoken that is a token. -/
lemma Faithful.spell_wholeId (h : t.Faithful) (hne : bytes ≠ []) {ignoreMerges : Bool}
    {id : TokenId} (hid : MergeTables.wholeId ignoreMerges t.vocabInv bytes = some id) :
    spell (decodeTokenBytes t.vocab) [id] = some bytes :=
  spell_singleton (h.resolves bytes hne id (Option.ite_none_right_eq_some.mp hid).2)

lemma Faithful.spell_shortIds (h : t.Faithful) (hne : bytes ≠ []) :
    spell (decodeTokenBytes t.vocab) (t.tables.shortIds t.ignoreMerges t.vocabInv bytes) =
      some bytes := by
  rw [MergeTables.shortIds]
  cases hid : MergeTables.wholeId t.ignoreMerges t.vocabInv bytes with
  | some id => exact h.spell_wholeId hne hid
  | none =>
      refine Joins.bpe ?_ (h.tables.spell_bytes bytes)
      rw [MergeTables.shortTable]
      cases hrm : t.tables.rankedMerges with
      | none => exact h.tables.joins
      | some rm =>
          exact (h.tables.ranked rm hrm).anti fun a b _ _ _ _ q hq => mem_of_mem_rankedSlot hq

lemma Faithful.spell_longSymbols (h : t.Faithful) (hne : bytes ≠ [])
    (hlen : bytes.length ≤ u32Max) : ∃ ids, t.tables.longSymbols t.ignoreMerges t.vocabInv bytes = some ids ∧
      spell (decodeTokenBytes t.vocab) ids = some bytes := by
  rw [MergeTables.longSymbols]
  cases hid : MergeTables.wholeId t.ignoreMerges t.vocabInv bytes with
  | some id => exact ⟨[id], rfl, h.spell_wholeId hne hid⟩
  | none =>
      cases hrm : t.tables.rankedMerges with
      | none =>
          have hlen' : (t.tables.byteSymbols bytes).length ≤ u32Max := by
            rwa [MergeTables.length_byteSymbols]
          exact ⟨_, bpeMergeSymbolsByRank_eq MergeTables.getRank_le hlen',
            h.tables.joins.bpe (h.tables.spell_bytes bytes)⟩
      | some rm =>
          have hlen' : (t.tables.byteSymbols bytes).length ≤ usizeMax := by
            rw [MergeTables.length_byteSymbols]
            exact hlen.trans (by decide)
          obtain ⟨M, hM, hrun⟩ := bpeMergeSymbolsRanked_le (MergeTables.ranked_le hrm) hlen'
          exact ⟨_, hrun, ((h.tables.ranked rm hrm).anti fun a b _ _ _ _ q hq => hM a b q hq).bpe
            (h.tables.spell_bytes bytes)⟩

/-- The encoding of a pretoken spells it. -/
theorem Faithful.spell_uncachedEncode (h : t.Faithful) (hne : bytes ≠ [])
    (hlen : bytes.length ≤ u32Max) : ∃ ids, t.uncachedEncode bytes = some ids ∧
      spell (decodeTokenBytes t.vocab) ids = some bytes := by
  by_cases hshort : Short bytes
  · refine ⟨_, uncachedEncode_of_short hshort, ?_⟩
    rw [shortEncoding]
    cases hid : t.overwrittenId bytes with
    | none => exact h.spell_shortIds hne
    | some id =>
        exact spell_singleton (h.resolves bytes hne id (Option.ite_none_right_eq_some.mp hid).2)
  · rw [uncachedEncode, if_neg hshort]
    exact h.spell_longSymbols hne hlen

/-! ### Uses -/

/-- The caches apart, `t'` is `t`. -/
def SameModel (t t' : Tokenizer) : Prop :=
  ∃ stores long, t' = { t with toStores := stores, pretokenCacheLong := long }

lemma SameModel.rfl : SameModel t t := ⟨t.toStores, t.pretokenCacheLong, Eq.refl t⟩

lemma SameModel.trans {t'' : Tokenizer} (h : SameModel t t') (h' : SameModel t' t'') :
    SameModel t t'' := by
  obtain ⟨_, _, rfl⟩ := h
  obtain ⟨stores, long, rfl⟩ := h'
  exact ⟨stores, long, Eq.refl _⟩

lemma SameModel.vocab_eq (h : SameModel t t') : t'.vocab = t.vocab := by
  obtain ⟨_, _, rfl⟩ := h
  exact Eq.refl _

lemma Faithful.of_sameModel (h : t.Faithful) (ht : SameModel t t') : t'.Faithful := by
  obtain ⟨_, _, rfl⟩ := ht
  exact ⟨h.tables, h.resolves⟩

section SameModel

variable {key slot n : ℕ} {out out' : OutVec} {ends : List ℕ}

lemma sameModel_encodePretokenMiss
    (h : t.encodePretokenMiss hash bytes key n slot out = some (t', out')) : SameModel t t' := by
  rw [encodePretokenMiss] at h
  split_ifs at h
  · simp only [Option.bind_eq_bind, Option.bind_eq_some_iff] at h
    obtain ⟨_, -, cache, -, h⟩ := h
    cases h
    exact ⟨_, _, Eq.refl _⟩
  · simp only [Option.bind_eq_bind, Option.bind_eq_some_iff] at h
    obtain ⟨symbols, -, h⟩ := h
    cases h
    exact ⟨_, _, Eq.refl _⟩

lemma sameModel_emitSlow (h : t.emitSlow hash bytes key n out = some (t', out')) :
    SameModel t t' := by
  rw [emitSlow] at h
  split_ifs at h
  · obtain ⟨found, -, h⟩ := Option.bind_eq_some_iff.mp h
    split at h
    · obtain ⟨ids, -, h⟩ := Option.bind_eq_some_iff.mp h
      cases h
      exact .rfl
    · exact sameModel_encodePretokenMiss h
  · split at h
    · obtain ⟨ids, -, h⟩ := Option.bind_eq_some_iff.mp h
      cases h
      exact .rfl
    · exact sameModel_encodePretokenMiss h

lemma sameModel_probeEmit {e : BatchEntry} (h : t.probeEmit hash e out = some (t', out')) :
    SameModel t t' := by
  simp only [probeEmit, Option.bind_eq_bind, Option.bind_eq_some_iff] at h
  obtain ⟨_, -, _, -, h⟩ := h
  split_ifs at h
  · cases h
    exact .rfl
  · obtain ⟨span, -, h⟩ := Option.bind_eq_some_iff.mp h
    simp only [probeEmitSlow, Option.bind_eq_bind, Option.bind_eq_some_iff] at h
    obtain ⟨⟨t₁, _⟩, hslow, h⟩ := h
    cases h
    exact sameModel_emitSlow hslow

lemma sameModel_probeEmitLoop {entries : List BatchEntry}
    (h : probeEmitLoop hash entries t out = some (t', out', ends)) : SameModel t t' := by
  induction entries generalizing t out ends with
  | nil =>
      cases h
      exact .rfl
  | cons e entries ih =>
      simp only [probeEmitLoop, Option.bind_eq_bind, Option.bind_eq_some_iff] at h
      obtain ⟨⟨t₁, out₁⟩, hone, ⟨t₂, out₂, ends₂⟩, hrest, h⟩ := h
      cases h
      exact (sameModel_probeEmit hone).trans (ih hrest)

lemma sameModel_probeEmitChunk {entries : List BatchEntry}
    (h : t.probeEmitChunk hash entries out = some (t', out', ends)) : SameModel t t' := by
  simp only [probeEmitChunk, Option.bind_eq_bind, Option.bind_eq_some_iff] at h
  obtain ⟨_, -, h⟩ := h
  exact sameModel_probeEmitLoop h

/-- `memoized_encode` changes the caches only. -/
theorem sameModel_memoizedEncode {pretokens : List (List UInt8)} {outs : List (List TokenId)}
    (h : t.memoizedEncode hash pretokens = some (t', outs)) : SameModel t t' := by
  refine loop_sound (I := fun s => SameModel t s.1) (Q := fun r => SameModel t r.1) ?_ .rfl h
  rintro ⟨t₁, pretokens, out, delivered⟩ h₁
  simp only [memoizedEncodeStep]
  cases hchunk : t₁.probeEmitChunk hash (fillSpansKeyed hash pretokens).1 out.clear with
  | none => split_ifs <;> simp [h₁]
  | some r =>
      have h₂ := h₁.trans (sameModel_probeEmitChunk hchunk)
      simp only [Option.bind_eq_bind, Option.bind_some]
      split_ifs <;> simp [h₁, h₂]

/-- So does `memoized_encode_flat`. -/
theorem sameModel_memoizedEncodeFlat {pretokens : List (List UInt8)}
    (h : t.memoizedEncodeFlat hash pretokens out = some (t', out')) : SameModel t t' := by
  refine loop_sound (I := fun s => SameModel t s.1) (Q := fun r => SameModel t r.1) ?_ .rfl h
  rintro ⟨t₁, pretokens, out⟩ h₁
  simp only [memoizedEncodeFlatStep]
  cases hchunk : t₁.probeEmitChunk hash (fillSpansKeyed hash pretokens).1 out with
  | none => split_ifs <;> simp [h₁]
  | some r =>
      have h₂ := h₁.trans (sameModel_probeEmitChunk hchunk)
      simp only [Option.bind_eq_bind, Option.bind_some]
      split_ifs <;> simp [h₁, h₂]

lemma sameModel_forkSized {cacheSlots : ℕ}
    (h : t.forkSized hash coldDiet cacheSlots = some t') : SameModel t t' := by
  simp only [forkSized, Option.bind_eq_bind, Option.bind_eq_some_iff] at h
  obtain ⟨s₁, -, s, -, h⟩ := h
  cases h
  exact ⟨_, _, Eq.refl _⟩

end SameModel

/-- What a use leaves. -/
lemma Use.keeps (h : Use hash coldDiet t t') (ht : Sound hash coldDiet stage t) :
    SameModel t t' ∧ ∃ stage, Sound hash coldDiet stage t' := by
  cases h with
  | memoizedEncode h => exact ⟨sameModel_memoizedEncode h, _, (ht.memoizedEncode h).sound⟩
  | memoizedEncodeFlat h =>
      obtain ⟨_, hall, -⟩ := ht.memoizedEncodeFlat h
      exact ⟨sameModel_memoizedEncodeFlat h, _, hall.sound⟩
  | forkSized h =>
      obtain ⟨_, hrun, hsound⟩ := ht.forkSized _
      cases h.symm.trans hrun
      exact ⟨sameModel_forkSized h, _, hsound⟩

/-- What any uses leave. -/
lemma keeps_of_uses (h : ReflTransGen (Use hash coldDiet) t t') (ht : Sound hash coldDiet stage t) :
    SameModel t t' ∧ ∃ stage, Sound hash coldDiet stage t' := by
  induction h with
  | refl => exact ⟨.rfl, stage, ht⟩
  | tail _ huse ih =>
      obtain ⟨hsame, _, hsound⟩ := ih
      obtain ⟨hsame', hsound'⟩ := huse.keeps hsound
      exact ⟨hsame.trans hsame', hsound'⟩

/-! ### Calls -/

/-- The encodings of pretokens spell them. -/
lemma Faithful.spell_outs (h : t.Faithful) {pretokens : List (List UInt8)}
    {outs : List (List TokenId)} (hpretokens : ∀ p ∈ pretokens, p ≠ [] ∧ p.length ≤ u32Max)
    (houts : outs.map some = pretokens.map t.uncachedEncode) :
    spell (decodeTokenBytes t.vocab) outs.flatten = some pretokens.flatten := by
  have heq : List.Forall₂ Eq (pretokens.map t.uncachedEncode) (outs.map some) :=
    houts ▸ List.forall₂_same.mpr fun _ _ => rfl
  rw [List.forall₂_map_left_iff, List.forall₂_map_right_iff] at heq
  have hall := (List.forall₂_and_left pretokens outs).mpr ⟨hpretokens, heq⟩
  refine spell_flatten (hall.imp ?_).flip
  rintro p ids ⟨⟨hne, hlen⟩, hids⟩
  obtain ⟨ids', hids', hspell⟩ := h.spell_uncachedEncode hne hlen
  cases hids.symm.trans hids'
  exact hspell

/-- A pretoken has no more tokens than bytes. -/
lemma Faithful.tokenCount_le (h : t.Faithful) (hne : bytes ≠ []) (hlen : bytes.length ≤ u32Max) :
    t.tokenCount bytes ≤ bytes.length := by
  obtain ⟨ids, hids, hspell⟩ := h.spell_uncachedEncode hne hlen
  rw [tokenCount, hids, Option.getD_some]
  exact length_le_of_spell (fun id token hid => (decodeTokenBytes_eq_some.mp hid).2) hspell

/-- A call of `memoized_encode_flat` returns, and what it appends spells the pretokens. -/
lemma Sound.memoizedEncodeFlat_spell (ht : Sound hash coldDiet stage t) (h : t.Faithful)
    {pretokens : List (List UInt8)} (hpretokens : ∀ p ∈ pretokens, p ≠ [] ∧ p.length ≤ u32Max)
    (out : OutVec) : ∃ t' out', t.memoizedEncodeFlat hash pretokens out = some (t', out') ∧
      Sound hash coldDiet .encoded t' ∧ Later t t' ∧
        t'.tokenArena.length ≤ t.tokenArena.length + pretokens.flatten.length ∧
          (t'.tokenArena.length < 2 ^ 32 → ∃ ids, out'.ids = out.ids ++ ids ∧
            spell (decodeTokenBytes t.vocab) ids = some pretokens.flatten) := by
  have hsome : ∀ p ∈ pretokens, t.uncachedEncode p ≠ none := by
    intro p hp
    obtain ⟨ids, hids, -⟩ := h.spell_uncachedEncode (hpretokens p hp).1 (hpretokens p hp).2
    exact hids ▸ Option.some_ne_none ids
  obtain ⟨⟨t', out'⟩, hrun⟩ :=
    Option.isSome_iff_exists.mp ((ht.isSome_memoizedEncode hsome).2 out)
  obtain ⟨outs, hall, hout'⟩ := ht.memoizedEncodeFlat hrun
  have hcount : (pretokens.map t.tokenCount).sum ≤ pretokens.flatten.length := by
    rw [List.length_flatten]
    exact List.sum_le_sum fun p hp => h.tokenCount_le (hpretokens p hp).1 (hpretokens p hp).2
  exact ⟨t', out', hrun, hall.sound, hall.later, hall.arena_le.trans (by omega), fun harena =>
    ⟨_, hout', h.spell_outs hpretokens (hall.outs_eq harena)⟩⟩

end Tokenizer

/-- A segment that the pointers of the merge loops reach. -/
def Piece.Fits : Piece → Prop
  | segment encoded _ _ => encoded.length ≤ u32Max
  | added _ _ _ => True

/-- A segment of text, or an added token with the bytes that it stands for. -/
def Piece.Spellable (vocab : List (List UInt8)) (input : List UInt8) : Piece → Prop
  | segment encoded _ _ => (∃ y, encoded = textBytes y) ∧ encoded.length ≤ u32Max
  | added id start stop => decodeTokenBytes vocab id = some ((input.take stop).drop start)

/-- The pretokens of a segment. -/
lemma PretokenizerType.pretokenize_spell (tables : UnicodeTables) (scheme : PretokenizerType)
    (y : List Char) : ∃ pretokens, scheme.pretokenize tables (textBytes y) = some pretokens ∧
      pretokens.flatten = textBytes y ∧
        ∀ p ∈ pretokens, p ≠ [] ∧ p.length ≤ (textBytes y).length := by
  have hflatten : ((scheme.pieces tables y).map textBytes).flatten = textBytes y := by
    rw [← textBytes_flatten, flatten_pieces]
  refine ⟨_, pretokenize_eq tables scheme y, hflatten, fun p hp => ⟨?_, ?_⟩⟩
  · obtain ⟨piece, hpiece, rfl⟩ := List.mem_map.mp hp
    exact textBytes_eq_nil.not.mpr (ne_nil_of_mem_pieces tables scheme y piece hpiece)
  · rw [← hflatten]
    exact (List.sublist_flatten_of_mem hp).length_le

namespace Tokenizer

variable {hash : ℕ → ℕ} {coldDiet : Bool} {stage : Stage} {t : Tokenizer}

/-- The walk over the pieces returns, and what it appends spells them. -/
theorem Sound.encodePieces_spell (ht : Sound hash coldDiet stage t) (h : t.Faithful)
    (tables : UnicodeTables) (scheme : PretokenizerType) {input : List UInt8} {pieces : List Piece}
    (hpieces : ∀ piece ∈ pieces, piece.Spellable t.vocab input) (out : OutVec) :
    ∃ t' out', encodePieces hash tables scheme pieces t out = some (t', out') ∧
      ReflTransGen (Use hash coldDiet) t t' ∧ Later t t' ∧
      t'.tokenArena.length ≤ t.tokenArena.length + (pieces.flatMap (Piece.bytes input)).length ∧
        (t'.tokenArena.length < 2 ^ 32 → ∃ ids, out'.ids = out.ids ++ ids ∧
          spell (decodeTokenBytes t.vocab) ids = some (pieces.flatMap (Piece.bytes input))) := by
  induction pieces generalizing stage t out with
  | nil => exact ⟨t, out, rfl, .refl, .rfl, le_rfl, fun _ => ⟨[], by simp, rfl⟩⟩
  | cons piece pieces ih =>
      obtain ⟨hpiece, hrest⟩ := List.forall_mem_cons.mp hpieces
      clear hpieces
      rw [List.flatMap_cons, List.length_append]
      cases piece with
      | segment encoded source start =>
          obtain ⟨⟨y, rfl⟩, hlen⟩ := hpiece
          obtain ⟨pretokens, hpre, hflatten, hmem⟩ := scheme.pretokenize_spell tables y
          obtain ⟨t₁, out₁, hrun, ht₁, hlater, hle, hids⟩ := ht.memoizedEncodeFlat_spell h
            (fun p hp => ⟨(hmem p hp).1, (hmem p hp).2.trans hlen⟩) out
          rw [hflatten] at hle
          have hsame := sameModel_memoizedEncodeFlat hrun
          obtain ⟨t', out', hrun', huses, hlater', hle', hids'⟩ := ih ht₁ (h.of_sameModel hsame)
            (hsame.vocab_eq ▸ hrest) out₁
          refine ⟨t', out', ?_, huses.head (.memoizedEncodeFlat hrun), hlater.trans hlater', ?_,
            fun harena => ?_⟩
          · rw [encodePieces, hpre, Option.bind_eq_bind, Option.bind_some, hrun,
              Option.bind_eq_bind, Option.bind_some]
            exact hrun'
          · rw [Piece.bytes]
            omega
          · obtain ⟨ids, hout₁, hspell⟩ := hids (hlater'.arena.length_le.trans_lt harena)
            obtain ⟨ids', hout', hspell'⟩ := hids' harena
            rw [hsame.vocab_eq] at hspell'
            refine ⟨ids ++ ids', by rw [hout', hout₁, List.append_assoc], ?_⟩
            exact spell_append_of_eq (hflatten ▸ hspell) hspell'
      | added id start stop =>
          obtain ⟨t', out', hrun, huses, hlater', hle', hids'⟩ := ih ht h hrest (out.extend [id])
          refine ⟨t', out', hrun, huses, hlater', by omega, fun harena => ?_⟩
          obtain ⟨ids, hout', hspell⟩ := hids' harena
          refine ⟨id :: ids, ?_, spell_append_of_eq (spell_singleton hpiece) hspell⟩
          rw [hout', OutVec.extend, List.append_assoc]
          rfl

/-- What is spelled is decoded. -/
lemma decode_of_spell {ids : List TokenId} {bytes : List UInt8}
    (h : spell (decodeTokenBytes t.vocab) ids = some bytes) :
    t.decode ids = some bytes ∧ t.wasmDecode ids = .ok (some (fromUtf8Lossy bytes)) := by
  have hdecode : t.decode ids = some bytes :=
    spell_mono (fun id token hid => (decodeTokenBytes_eq_some.mp hid).1) h
  have hknown : ∀ id ∈ ids, ¬ (t.tokenLength id).isNone = true := by
    intro id hid
    obtain ⟨token, htoken⟩ := exists_of_mem_spell h hid
    obtain ⟨hget, hne⟩ := decodeTokenBytes_eq_some.mp htoken
    simp [tokenLength, List.getElem?_map, hget, hne]
  refine ⟨hdecode, ?_⟩
  rw [wasmDecode, List.find?_eq_none.mpr hknown, hdecode]
  rfl

/-! ### Loading -/

/-- An overwrite adds one token to the arena, or none. -/
lemma length_arena_overwrites {vocabInv : VocabInv} {addedTokens : List AddedTokenDef}
    {s s' : Stores} (h : applyAddedTokenOverwrites hash vocabInv addedTokens s = some s') :
    s'.tokenArena.length ≤ s.tokenArena.length + addedTokens.length := by
  induction addedTokens generalizing s with
  | nil =>
      cases h
      exact le_rfl
  | cons tok addedTokens ih =>
      rw [List.length_cons]
      rw [applyAddedTokenOverwrites] at h
      split_ifs at h
      · cases hid : vocabInv.lookup tok.content with
        | none => exact (ih (by rwa [hid] at h)).trans (by omega)
        | some id =>
            simp only [hid, Option.bind_eq_bind, Option.bind_eq_some_iff] at h
            obtain ⟨s₁, hput, h⟩ := h
            simp only [Stores.put, Option.bind_eq_bind, Option.bind_eq_some_iff] at hput
            obtain ⟨key, -, cache, -, hput⟩ := hput
            cases hput
            have hle := length_packVal_le [id] s.tokenArena
            rw [List.length_singleton] at hle
            have hrest := ih h
            dsimp only at hrest
            omega
      · exact (ih h).trans (by omega)

lemma setIgnoreMerges_model {t t' : Tokenizer} {ignoreMerges : Bool}
    (h : t.setIgnoreMerges hash coldDiet ignoreMerges = some t') :
    t'.tables = t.tables ∧ t'.vocab = t.vocab ∧ t'.vocabInv = t.vocabInv ∧
      (coldDiet = true → t.addedTokens = [] → t'.tokenArena = t.tokenArena) := by
  rw [setIgnoreMerges] at h
  split_ifs at h
  · cases h
    exact ⟨rfl, rfl, rfl, fun _ _ => rfl⟩
  · simp only [Option.bind_eq_bind, Option.bind_eq_some_iff] at h
    obtain ⟨s₁, hreseed, s₂, hover, h⟩ := h
    cases h
    refine ⟨rfl, rfl, rfl, fun hcold hnil => ?_⟩
    rw [reseed, if_pos hcold] at hreseed
    rw [hnil] at hover
    cases hreseed
    cases hover
    rfl

lemma setAddedTokens_model {t t' : Tokenizer} {addedTokens : List AddedTokenDef}
    (h : t.setAddedTokens hash addedTokens = some t') :
    t'.tables = t.tables ∧ t'.vocab = t.vocab ∧ t'.vocabInv = t.vocabInv ∧
      (t.addedTokens = [] → t'.tokenArena.length ≤ t.tokenArena.length + addedTokens.length) := by
  simp only [setAddedTokens, Option.bind_eq_bind, Option.bind_eq_some_iff] at h
  obtain ⟨s₁, hrestore, s₂, hover, h⟩ := h
  cases h
  refine ⟨rfl, rfl, rfl, fun hnil => ?_⟩
  rw [hnil] at hrestore
  cases hrestore
  refine (length_arena_overwrites hover).trans (Nat.add_le_add_left ?_ _)
  rw [List.length_mergeSort]
  exact List.length_filter_le _ _

end Tokenizer

/-- A tokenizer before its configuration. -/
structure Tokenizer.New (hash : ℕ → ℕ) (coldDiet : Bool) (vocab : List (List UInt8))
    (tables : MergeTables) (t : Tokenizer) : Prop where
  sound : t.Sound hash coldDiet .built
  tables_eq : t.tables = tables
  vocab_eq : t.vocab = vocab
  vocabInv_eq : t.vocabInv = invertVocab vocab
  arena_eq : coldDiet = true → t.tokenArena = []

lemma LoadedMerges.exists_tokenizer (hash : ℕ → ℕ) (coldDiet : Bool) (vocab : List (List UInt8))
    (tables : MergeTables) (merges : LoadedMerges) :
    ∃ t, merges.tokenizer hash coldDiet vocab tables = some t ∧
      t.New hash coldDiet vocab tables := by
  have hpairs : ∃ t, Tokenizer.fromPairRankTable tables vocab = some t ∧
      t.New hash coldDiet vocab tables := by
    obtain ⟨t, hrun, hsound⟩ := Tokenizer.sound_fromPairRankTable hash coldDiet tables vocab
    refine ⟨t, hrun, ?_⟩
    simp only [Tokenizer.fromPairRankTable, Option.bind_eq_bind, Option.bind_eq_some_iff] at hrun
    obtain ⟨_, -, h⟩ := hrun
    cases h
    exact ⟨hsound, rfl, rfl, rfl, fun _ => rfl⟩
  have htables : ∃ t, Tokenizer.fromTables hash coldDiet tables vocab = some t ∧
      t.New hash coldDiet vocab tables := by
    obtain ⟨t, hrun, hsound⟩ := Tokenizer.sound_fromTables hash coldDiet tables vocab
    refine ⟨t, hrun, ?_⟩
    simp only [Tokenizer.fromTables, Option.bind_eq_bind, Option.bind_eq_some_iff] at hrun
    obtain ⟨s, hs, h⟩ := hrun
    cases h
    refine ⟨hsound, rfl, rfl, rfl, fun hcold => ?_⟩
    rw [seededPretokenCache, if_pos hcold] at hs
    obtain ⟨cache, -, hs⟩ := Option.bind_eq_some_iff.mp hs
    cases hs
    rfl
  rcases merges with (_ | _) | _
  · exact hpairs
  · exact htables
  · exact htables

namespace ByteBpeFile

variable {file : ByteBpeFile} {hash : ℕ → ℕ} {coldDiet compact : Bool}
  {prebuilt : Option PrebuiltPairData}

lemma exists_buildTokenizer (hash : ℕ → ℕ) (coldDiet : Bool)
    {model : LoadedMerges × (UInt8 → TokenId)}
    (hmodel : buildByteModel file.toByteFile compact prebuilt = .ok model) :
    ∃ o, file.buildTokenizer hash coldDiet compact prebuilt = .ok o := by
  unfold buildTokenizer
  split
  · rename_i e he
    cases hmodel.symm.trans he
  · exact ⟨_, rfl⟩

/-- The loader returns a tokenizer for each file whose merges it accepts. -/
theorem buildTokenizer_spec {o : Option Tokenizer}
    (h : file.buildTokenizer hash coldDiet compact prebuilt = .ok o) :
    ∃ t, o = some t ∧ t.Sound hash coldDiet .loaded ∧ t.Faithful ∧ t.vocab = file.vocab ∧
      (coldDiet = true → t.tokenArena.length ≤ file.addedTokens.length) := by
  unfold buildTokenizer at h
  split at h
  · cases h
  · rename_i model hmodel
    obtain ⟨hwords, hbyte⟩ := buildByteModel_words file.prioritiesFit hmodel
    obtain ⟨t₀, hrun, hnew⟩ := model.1.exists_tokenizer hash coldDiet file.vocab
      (model.1.tables compact ⟨model.2, buildByteModel_lt file.prioritiesFit hmodel⟩ hwords)
    obtain ⟨t₁, hignore, hsound₁⟩ := hnew.sound.setIgnoreMerges file.ignoreMerges
    obtain ⟨t₂, hadded, hsound₂⟩ :=
      hsound₁.setAddedTokens (file.addedTokens.map StripToken.toAddedTokenDef)
    obtain ⟨htables₁, hvocab₁, hinv₁, harena₁⟩ := Tokenizer.setIgnoreMerges_model hignore
    obtain ⟨htables₂, hvocab₂, hinv₂, harena₂⟩ := Tokenizer.setAddedTokens_model hadded
    rw [Except.ok.injEq] at h
    refine ⟨t₂, ?_, hsound₂, ⟨?_, fun bytes hne id hid => ?_⟩,
      by rw [hvocab₂, hvocab₁, hnew.vocab_eq], fun hcold => ?_⟩
    · rw [← h]
      simp only [hrun, hignore, hadded, Option.bind_eq_bind, Option.bind_some]
    · rw [htables₂, htables₁, hnew.tables_eq, hvocab₂, hvocab₁, hnew.vocab_eq]
      exact LoadedMerges.tables_words compact hwords hbyte
    · rw [hinv₂, hinv₁, hnew.vocabInv_eq] at hid
      rw [hvocab₂, hvocab₁, hnew.vocab_eq]
      exact decodeTokenBytes_eq_some.mpr ⟨getElem?_of_lookup_invertVocab file.vocab_le hid, hne⟩
    · have hle := harena₂ (hsound₁.built rfl).1
      rwa [harena₁ hcold (hnew.sound.built rfl).1, hnew.arena_eq hcold, List.length_nil,
        Nat.zero_add, List.length_map] at hle

end ByteBpeFile

/-! ### The pieces of a text -/

namespace Pipeline

variable {p : Pipeline} {data : NfcData} {pos : ℕ} {input : List UInt8} {x : List Char}
  {ps : List TextPiece}

/-- The bytes of a piece in its input. -/
def TextPiece.bytes (input : List UInt8) : TextPiece → List UInt8
  | segment source _ => textBytes source
  | added _ start stop => (input.take stop).drop start

/-- The position behind the whitespace that an added token absorbs. -/
lemma at_keptRest {r : List Char} (h : At input pos r) (t : StripToken) :
    At input (pos + ((textBytes r).length - (textBytes (keptRest t r)).length)) (keptRest t r) := by
  obtain ⟨w, hw, -, -⟩ := exists_keptRest t r
  have hlen := congrArg (fun r => (textBytes r).length) hw
  rw [textBytes_append, List.length_append] at hlen
  rw [hw] at h
  have hrest := h.append
  rwa [show (textBytes r).length - (textBytes (keptRest t r)).length = (textBytes w).length by
    omega]

/-- An added token of a pass is one of the tokenizer, where its content is. -/
lemma Pass.added_spec (h : Pass p pos x ps) (hat : At input pos x) {id : TokenId} {start stop : ℕ}
    (hmem : .added id start stop ∈ ps) :
    ∃ t ∈ p.addedTokens, t.id = id ∧ (input.take stop).drop start = t.content := by
  induction h with
  | nil pos => cases hmem
  | last hx hfind => simp at hmem
  | @next pos x g c r t ps hx hc hne hfind hrest ih =>
      subst hx
      have hstop := hat.append
      simp only [List.mem_cons, reduceCtorEq, false_or, TextPiece.added.injEq] at hmem
      obtain ⟨rfl, rfl, rfl⟩ | hmem := hmem
      · refine ⟨t, (findFirst_eq_append hfind).1, rfl, ?_⟩
        rw [hstop.slice, hc]
      · exact ih (at_keptRest hstop.append t) hmem

/-- A pass that absorbs nothing has all of the text. -/
lemma Pass.flatMap_bytes (h : Pass p pos x ps) (hat : At input pos x)
    (hstrip : ∀ t ∈ p.addedTokens, t.lstrip = false ∧ t.rstrip = false) :
    ps.flatMap (TextPiece.bytes input) = textBytes x := by
  induction h with
  | nil pos => rfl
  | last hx hfind => rw [List.flatMap_singleton, TextPiece.bytes]
  | @next pos x g c r t ps hx hc hne hfind hrest ih =>
      subst hx
      have hstop := hat.append
      obtain ⟨hl, hr⟩ := hstrip t (findFirst_eq_append hfind).1
      have hgap : keptGap t g = g := by
        rw [keptGap, hl]
        rfl
      have hkept : keptRest t r = r := by
        rw [keptRest, hr]
        rfl
      rw [List.flatMap_cons, List.flatMap_cons, ih (at_keptRest hstop.append t), hkept,
        TextPiece.bytes, TextPiece.bytes, hgap, hstop.slice, textBytes_append, textBytes_append]

end Pipeline

namespace ByteBpeFile

variable {file : ByteBpeFile}

/-- The content of an added token is the token that its id decodes to. -/
lemma decodeTokenBytes_of_mem {t : StripToken} (h : t ∈ file.pipeline.addedTokens) :
    decodeTokenBytes file.vocab t.id = some t.content :=
  decodeTokenBytes_eq_some.mpr (file.special_bytes t (mem_keptTokens.mp h).1)

/-- A piece is encoded to a text, or stands for one. -/
lemma exists_encode (hp : file.pipeline.Spelled) (data : NfcData) {x : List Char}
    {ps : List Pipeline.TextPiece} (hpass : Pipeline.Pass file.pipeline 0 x ps)
    (piece : Pipeline.TextPiece) (hpiece : piece ∈ ps) :
    ∃ e, piece.encode file.pipeline data = some e ∧ ∃ z, e.bytes (textBytes x) = textBytes z ∧
      (e.Fits → e.Spellable file.vocab (textBytes x)) ∧
      (file.pipeline.Plain → e.bytes (textBytes x) = piece.bytes (textBytes x)) := by
  cases piece with
  | segment source start =>
      obtain ⟨y, hy⟩ := file.pipeline.encodedSegment_text data source
      refine ⟨.segment (textBytes y) (textBytes source) start, ?_, y, rfl,
        fun hlen => ⟨⟨y, rfl⟩, hlen⟩, fun hplain => ?_⟩
      · rw [Pipeline.TextPiece.encode, hy, Option.map_some]
      · rw [hplain.encodedSegment] at hy
        exact (Option.some_inj.mp hy).symm
  | added id start stop =>
      obtain ⟨t, ht, rfl, hslice⟩ := hpass.added_spec (at_zero x) hpiece
      obtain ⟨z, hz⟩ := hp t ht
      refine ⟨.added t.id start stop, rfl, z, ?_, fun _ => ?_, fun _ => rfl⟩
      · rw [Piece.bytes, hslice, hz]
      · rw [Piece.Spellable, hslice]
        exact decodeTokenBytes_of_mem ht

/-- The pieces of a text are texts, and added tokens of the file. -/
lemma exists_pieces (hp : file.pipeline.Spelled) (data : NfcData) (x : List Char) :
    ∃ pieces z, file.pipeline.pieces data (textBytes x) = some pieces ∧
      pieces.flatMap (Piece.bytes (textBytes x)) = textBytes z ∧
      ((∀ piece ∈ pieces, piece.Fits) →
        ∀ piece ∈ pieces, piece.Spellable file.vocab (textBytes x)) ∧
      (file.pipeline.Plain → (∀ t ∈ file.addedTokens, t.lstrip = false ∧ t.rstrip = false) →
        z = x) := by
  obtain ⟨ps, hpass, hrun⟩ := Pipeline.pieces_text hp data x
  obtain ⟨pieces, hpieces, hall⟩ := exists_mapM (exists_encode hp data hpass)
  have hbytes : ∃ z, pieces.flatMap (Piece.bytes (textBytes x)) = textBytes z ∧
      (file.pipeline.Plain →
        textBytes z = ps.flatMap (Pipeline.TextPiece.bytes (textBytes x))) := by
    clear hpass hrun hpieces
    induction hall with
    | nil => exact ⟨[], rfl, fun _ => rfl⟩
    | cons hpiece _ ih =>
        obtain ⟨z, hz, -, hplain⟩ := hpiece
        obtain ⟨z', hz', hplain'⟩ := ih
        refine ⟨z ++ z', by rw [List.flatMap_cons, hz, hz', textBytes_append], fun h => ?_⟩
        rw [List.flatMap_cons, ← hplain h, hz, ← hplain' h, textBytes_append]
  have hspellable : ∀ piece ∈ pieces, piece.Fits → piece.Spellable file.vocab (textBytes x) := by
    clear hpass hrun hpieces hbytes
    induction hall with
    | nil => exact List.forall_mem_nil _
    | cons hpiece _ ih =>
        obtain ⟨z, -, hspell, -⟩ := hpiece
        exact List.forall_mem_cons.mpr ⟨hspell, ih⟩
  obtain ⟨z, hz, hplain⟩ := hbytes
  refine ⟨pieces, z, hrun.trans hpieces, hz, fun hfits piece hmem =>
    hspellable piece hmem (hfits piece hmem), fun h hstrip => textBytes_inj ?_⟩
  rw [hplain h]
  exact hpass.flatMap_bytes (at_zero x) fun t ht => hstrip t (mem_keptTokens.mp ht).1

/-- The bytes, `ab` (256) and `<>` (257). -/
def abVocab : List (List UInt8) :=
  (List.range 256).map (fun b => [UInt8.ofNat b]) ++ [[97, 98], [60, 62]]

lemma length_abVocab : abVocab.length = 258 := by decide +kernel

lemma abVocab_le : abVocab.length ≤ 2 ^ 28 := by
  rw [length_abVocab]
  decide

lemma abVocab_arena_le : (abVocab.map List.length).sum ≤ u32Max := by decide +kernel

lemma toNat_lt_abVocab (b : UInt8) : b.toNat < abVocab.length := by
  rw [length_abVocab]
  exact b.toNat_lt.trans (by decide)

/-- `<>`. -/
def abToken : StripToken := ⟨⟨[60, 62], 257⟩, false, false⟩

lemma abToken_spec (t : StripToken) (h : t ∈ [abToken]) :
    abVocab[t.id]? = some t.content ∧ t.content ≠ [] := by
  rw [List.mem_singleton.mp h]
  exact ⟨rfl, List.cons_ne_nil _ _⟩

lemma priorities_none (priorities : List ℕ) (h : priorities ∈ (none : Option (List ℕ))) (p : ℕ)
    (_ : p ∈ priorities) : p ≤ u32Max := by cases h

/-- A file with one merge and an added token. -/
def abFile : ByteBpeFile where
  vocab := abVocab
  base b := b.toNat
  specials := {257}
  vocab_le := abVocab_le
  arena_le := abVocab_arena_le
  base_lt := toNat_lt_abVocab
  priorities := none
  exhaustiveSplits := false
  ignoreMerges := false
  scheme := .gpt2
  addPrefixSpace := false
  normalizeNfc := false
  addedTokens := [abToken]
  specials_eq := rfl
  special_bytes := abToken_spec
  prioritiesFit := priorities_none

lemma exists_abModel : ∃ model, buildByteModel abFile.toByteFile false none = .ok model := by
  have hbase : validateBase abFile.toByteImage = .ok () := if_pos (by decide +kernel)
  have hkeys : validateKeySet abFile.vocab abFile.specials ∅ = .ok () :=
    validateKeySet_of_nodup (nodup_bytes_append (by decide) (by decide)) _
  obtain ⟨o, hload, ho⟩ := eq_ok_of_toOption
    (f := fun o => o.map fun t => t.rank 97 98)
    (x := reconstructIdPairRanks abFile.toByteImage false false) (b := some 256)
    (by decide +kernel)
  obtain ⟨t, rfl, -⟩ := Option.map_eq_some_iff.mp ho
  have hranked : loadIdRanked abFile.toByteImage false false = .ok (.pairRanks t) := by
    simp [loadIdRanked, hbase, hkeys, hload]
  have hmerges : buildByteMerges abFile.toByteFile false none = .ok (.idRanked (.pairRanks t)) := by
    have hprio : abFile.priorities = none := rfl
    have hflag : abFile.exhaustiveSplits = false := rfl
    simp only [buildByteMerges, buildByteBpe, hbase, hkeys, hprio, hflag, hranked, ok_bind,
      Bool.false_eq_true, if_false]
    rfl
  obtain ⟨base, hmodel⟩ := buildByteModel_of_merges hbase hkeys hmerges
  exact ⟨_, hmodel⟩

end ByteBpeFile

end Hypertok
