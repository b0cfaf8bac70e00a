import Hypertok.Load.Remapping
import Hypertok.PairMerge.Words

/-!
The merges that a byte-BPE file loads to concatenate the bytes of its tokens.

* `reconstructIdMerges_words`, `reconstructRankedMerges_words`: a replay keeps to this.
* `hydratePrebuilt_words`: so does a prebuilt section that is accepted.
* `buildByteModel_words`: all that `build_byte_bpe` accepts.
-/

namespace Hypertok

open PairMerge Machine

/-- `decode_token_bytes`. -/
def decodeTokenBytes (vocab : List (List UInt8)) (id : TokenId) : Option (List UInt8) :=
  vocab[id]?.filter fun bytes => !bytes.isEmpty

lemma decodeTokenBytes_eq_some {vocab : List (List UInt8)} {id : TokenId} {bytes : List UInt8} :
    decodeTokenBytes vocab id = some bytes ↔ vocab[id]? = some bytes ∧ bytes ≠ [] := by
  simp [decodeTokenBytes, Option.filter_eq_some_iff, List.isEmpty_eq_false_iff]

lemma lt_of_decodeTokenBytes {vocab : List (List UInt8)} {id : TokenId} {bytes : List UInt8}
    (h : decodeTokenBytes vocab id = some bytes) : id < vocab.length :=
  (List.getElem?_eq_some_iff.mp (decodeTokenBytes_eq_some.mp h).1).1

/-! ### Any ranks -/

/-- The entries that the slice scan reads. -/
lemma mem_of_mem_rankedSlot {get : RankedGet} {a b : TokenId} {q : ℕ × TokenId}
    (h : q ∈ rankedSlot.table (rankedOrMax get) a b) : q ∈ rankedTable get a b := by
  cases hab : get a b with
  | none => simp [SlotKind.table, rankedSlot, rankedOrMax, hab] at h
  | some e =>
      simp only [SlotKind.table, rankedSlot, rankedOrMax, hab, Option.getD_some, Option.mem_def,
        Option.ite_none_left_eq_some, Option.some_inj] at h
      simp [rankedTable, hab, Prod.swap, h.2]

/-- With ranks of 32 bits, merging runs under entries of the table: the slice scan leaves out those
of rank `u32::MAX`. -/
theorem bpeMergeSymbolsRanked_le {get : RankedGet} (hget : ∀ a b m r, get a b = some (m, r) →
    r ≤ u32Max) {symbols : List TokenId} (hn : symbols.length ≤ usizeMax) :
    ∃ M : Table ℕ TokenId, (∀ a b, ∀ q ∈ M a b, q ∈ rankedTable get a b) ∧
      bpeMergeSymbolsRanked get symbols = some (bpe M symbols) := by
  obtain h2 | h2 := lt_or_ge symbols.length 2
  · refine ⟨rankedTable get, fun a b q hq => hq, ?_⟩
    rw [bpeMergeSymbolsRanked, if_pos h2, bpe_of_length_lt_two h2]
  obtain hsmall | hlarge := le_or_gt symbols.length smallMergeMax
  · refine ⟨rankedSlot.table (rankedOrMax get), fun a b q => mem_of_mem_rankedSlot, ?_⟩
    obtain ⟨r, hr, -, htake⟩ := scanMerge_eq (S := rankedSlot) (rank_rankedOrMax_le hget)
      (.inl rfl) (by decide) h2 hsmall le_rfl
    rw [List.take_length] at htake
    simp only [bpeMergeSymbolsRanked, if_neg (not_lt.mpr h2), if_pos hsmall,
      bpeMergeSymbolsRankedSlice, hr, Option.bind_eq_bind, Option.bind_some, htake]
  · obtain ⟨st, hst, cells, hcells, hne, hlen, hbpe⟩ :=
      heapLoop_eq (rankedHeap_lawful get hn) h2
    have hcollect := hcells.collect hn hne (k := symbols.length + 1) (by omega)
    refine ⟨rankedTable get, fun a b q hq => hq, ?_⟩
    simp only [bpeMergeSymbolsRanked, if_neg (not_lt.mpr h2), if_neg (not_le.mpr hlarge), hst,
      hcollect, Option.bind_eq_bind, Option.bind_some, hbpe]

/-! ### Replay -/

section Replay

variable {img : ByteImage} {m : Merges}

lemma spell_symbols (hbase : ∀ b, img.vocab[img.base b]? = some [b]) (bytes : List UInt8) :
    spell (decodeTokenBytes img.vocab) (img.symbols bytes) = some bytes :=
  spell_map (fun b => decodeTokenBytes_eq_some.mpr ⟨hbase b, List.cons_ne_nil b []⟩) bytes

/-- The replay in the order of the ids. -/
theorem reconstructIdMerges_words (hbase : ∀ b, img.vocab[img.base b]? = some [b])
    (h : reconstructIdMerges img = .ok m) :
    Joins (mergesTable m) (decodeTokenBytes img.vocab) := by
  have hinv : Replayed img img.vocab.length m ∧
      Joins (mergesTable m) (decodeTokenBytes img.vocab) := by
    refine mergesLoop_inv
      (I := fun k m => Replayed img k m ∧ Joins (mergesTable m) (decodeTokenBytes img.vocab))
      ⟨.empty, fun a b p q _ _ c hc => by simp [rankTable, mergesRank] at hc⟩
      (fun k m token h hk hskip => ⟨h.1.skip hk hskip, h.2⟩) ?_ h
    rintro k m token a b ⟨hR, hm⟩ hp hnew hrun
    rw [hR.replay_eq (List.mem_of_getElem? hp.1)] at hrun
    have htoken : decodeTokenBytes img.vocab k = some token :=
      decodeTokenBytes_eq_some.mpr ⟨hp.1, (Product.isKey hp).2.1⟩
    refine ⟨hR.insert hp hnew hrun, hm.concat (c := k) (hrun ▸ hm.bpe (spell_symbols hbase token))
      htoken fun a' b' p q _ _ e he => ?_⟩
    obtain ⟨c, hc, rfl⟩ := (hR.insert hp hnew hrun).mem_table.mp he
    by_cases hab : (a', b') = (a, b)
    · obtain ⟨rfl, rfl⟩ := Prod.mk.inj hab
      rw [AList.lookup_insert, Option.mem_some_iff] at hc
      exact .inr ⟨rfl, rfl, hc.symm⟩
    · rw [AList.lookup_insert_ne hab] at hc
      exact .inl (hR.mem_table.mpr ⟨c, hc, rfl⟩)
  exact hinv.2

/-- There is one merge for a token at most. -/
lemma length_entries_le (h : reconstructIdMerges img = .ok m) :
    m.entries.length ≤ img.vocab.length := by
  refine mergesLoop_inv (I := fun k m => m.entries.length ≤ k) (Nat.le_refl 0)
    (fun k m token h _ _ => h.trans (Nat.le_succ k)) (fun k m token a b h _ hnew _ => ?_) h
  have hmem : (a, b) ∉ m := fun hmem => by
    have hsome := AList.lookup_isSome.mpr hmem
    rw [hnew] at hsome
    cases hsome
  rw [AList.entries_insert_of_notMem hmem, List.length_cons]
  exact Nat.succ_le_succ h

end Replay

section Ranked

variable {vocab : List (List UInt8)} {priorities : List ℕ} {nonProducts : Finset TokenId}
  {initialSymbols : List UInt8 → List TokenId} {m m' : RankedMerges}

/-- The merges so far: they concatenate, and their products and ranks are words. -/
structure RankedWords (vocab : List (List UInt8)) (m : RankedMerges) : Prop where
  words : Joins (rankedTable m.pair) (decodeTokenBytes vocab)
  lt : ∀ k, ∀ q ∈ m.lookup k, q.1 < 2 ^ 32 ∧ q.2 ≤ u32Max

/-- The replay in the order of the priorities, whatever these are. -/
lemma rankedMergesLoop_words (hvocab : vocab.length ≤ 2 ^ 28) {products : List TokenId}
    (hle : ∀ id, priorityOf priorities id ≤ u32Max)
    (hproducts : ∀ id ∈ products, id < vocab.length ∧ tokenBytes vocab id ≠ [])
    (hinit : ∀ id ∈ products, (initialSymbols (tokenBytes vocab id)).length ≤ usizeMax ∧
      (∀ a ∈ initialSymbols (tokenBytes vocab id), a < 2 ^ 32) ∧
      spell (decodeTokenBytes vocab) (initialSymbols (tokenBytes vocab id)) = some (tokenBytes vocab id))
    (h : RankedWords vocab m)
    (hrun : rankedMergesLoop vocab priorities initialSymbols products m = .ok m') :
    RankedWords vocab m' := by
  induction products generalizing m with
  | nil =>
      rw [rankedMergesLoop, Except.ok.injEq] at hrun
      exact hrun ▸ h
  | cons id products ih =>
      simp only [List.mem_cons, forall_eq_or_imp] at hproducts hinit
      obtain ⟨⟨hlen, hlt, hspell⟩, hinit⟩ := hinit
      obtain ⟨M, hM, hmerged⟩ := @bpeMergeSymbolsRanked_le m.pair
        (fun a b c r hab => (h.lt _ _ hab).2) _ hlen
      rw [rankedMergesLoop, replayRanked, hmerged, Option.getD_some] at hrun
      split at hrun
      case h_1 left right hbpe =>
          split_ifs at hrun with hdup
          have hwords := (bpe_steps M (initialSymbols (tokenBytes vocab id))).forall_mem
            (P := (· < 2 ^ 32)) (fun a b _ _ q hq => by
              obtain ⟨r, c⟩ := q
              exact (h.lt _ (c, r) (rankedTable_eq_some.mp (hM a b _ hq))).1) hlt
          rw [hbpe] at hwords
          have hpair : spell (decodeTokenBytes vocab) [left, right] = some (tokenBytes vocab id) :=
            hbpe ▸ (h.words.anti fun a b _ _ _ _ q hq => hM a b q hq).bpe hspell
          have hid : decodeTokenBytes vocab id = some (tokenBytes vocab id) := by
            refine decodeTokenBytes_eq_some.mpr ⟨?_, hproducts.1.2⟩
            rw [tokenBytes, List.getD_eq_getElem?_getD, List.getElem?_eq_getElem hproducts.1.1,
              Option.getD_some]
          refine ih hproducts.2 hinit ⟨h.words.concat hpair hid ?_, fun k q hq => ?_⟩ hrun
          · intro a b p q ha hb e he
            have hb' : b < 2 ^ 32 := ((lt_of_decodeTokenBytes hb).trans_le hvocab).trans (by decide)
            rw [rankedTable_insert m (hwords right (by simp)) _ a hb'] at he
            split_ifs at he with hab
            · cases he
              exact .inr ⟨hab.1, hab.2, rfl⟩
            · exact .inl he
          · obtain rfl | hk := eq_or_ne k (rankedMergeKey left right)
            · rw [AList.lookup_insert, Option.mem_some_iff] at hq
              cases hq
              exact ⟨(hproducts.1.1.trans_le hvocab).trans (by decide), hle id⟩
            · rw [AList.lookup_insert_ne hk] at hq
              exact h.lt k q hq
      case h_2 => cases hrun

/-- `reconstruct_ranked_merges`. -/
theorem reconstructRankedMerges_words (hvocab : vocab.length ≤ 2 ^ 28)
    (hle : ∀ id, priorityOf priorities id ≤ u32Max)
    (hinit : ∀ token ∈ vocab, (initialSymbols token).length ≤ usizeMax ∧
      (∀ a ∈ initialSymbols token, a < 2 ^ 32) ∧
      spell (decodeTokenBytes vocab) (initialSymbols token) = some token)
    (hrun : reconstructRankedMerges vocab priorities nonProducts initialSymbols = .ok m) :
    RankedWords vocab m := by
  have hmem : ∀ id ∈ rankedProducts vocab priorities nonProducts,
      id < vocab.length ∧ tokenBytes vocab id ≠ [] := by
    intro id hid
    rw [rankedProducts, List.mem_mergeSort, List.mem_filter, List.mem_range] at hid
    refine ⟨hid.1, fun hnil => ?_⟩
    simp [hnil] at hid
  have hempty : RankedWords vocab ∅ :=
    ⟨fun a b p q _ _ c hc => by simp [rankedTable, RankedMerges.pair] at hc, by simp⟩
  refine rankedMergesLoop_words hvocab hle hmem (fun id hid => ?_) hempty hrun
  refine hinit _ ?_
  rw [tokenBytes, List.getD_eq_getElem?_getD, List.getElem?_eq_getElem (hmem id hid).1,
    Option.getD_some]
  exact List.getElem_mem _

/-- `reconstruct_exhaustive_ranked_merges`. -/
theorem reconstructExhaustive_words {excluded : Finset TokenId} (hvocab : vocab.length ≤ 2 ^ 28)
    (hle : ∀ id, priorityOf priorities id ≤ u32Max)
    (huniq : ∀ id id' token, Keyed vocab excluded id token →
      Keyed vocab excluded id' token → id = id')
    (hrun : reconstructExhaustiveRankedMerges vocab priorities nonProducts excluded = .ok m) :
    RankedWords vocab m where
  words a b p q ha hb c hc := by
    have hb' : b < 2 ^ 32 := ((lt_of_decodeTokenBytes hb).trans_le hvocab).trans (by decide)
    obtain ⟨left, right, hleft, hright, hget, -, -, -⟩ :=
      (exhaustive_table hvocab huniq hrun hb').mp hc
    rw [decodeTokenBytes_eq_some, hleft.1, Option.some_inj] at ha
    rw [decodeTokenBytes_eq_some, hright.1, Option.some_inj] at hb
    rw [← ha.1, ← hb.1]
    exact decodeTokenBytes_eq_some.mpr ⟨hget, by simp [hleft.2.1]⟩
  lt k q hq := by
    rw [reconstructExhaustiveRankedMerges] at hrun
    obtain hq | ⟨⟨token, id⟩, hx, -, -, rfl⟩ := (exhaustiveLoop_ok hrun k q).mp hq
    · simp at hq
    · have hlt := (List.getElem?_eq_some_iff.mp (List.mem_zipIdx_iff_getElem?.mp hx)).1
      exact ⟨(hlt.trans_le hvocab).trans (by decide), hle id⟩

end Ranked

/-! ### Prebuilt pairs -/

section Prebuilt

variable {img : ByteImage} {t : PairRankTable} {m : Merges}

/-- All that holds the same pairs. -/
lemma PairRankTable.Holds.words {vocab : List (List UInt8)} (ht : t.Holds m 0)
    (hlen : vocab.length ≤ 2 ^ 21) (hm : Joins (mergesTable m) (decodeTokenBytes vocab)) :
    Joins (rankTable t.rank) (decodeTokenBytes vocab) := by
  refine hm.anti fun a b p q ha hb c hc => ?_
  have hrank : t.rank a b = mergesRank m a b := ht.rank
    ((lt_of_decodeTokenBytes ha).trans_le hlen) ((lt_of_decodeTokenBytes hb).trans_le hlen)
  rwa [mergesTable, rankTable, ← hrank]

/-- A section is accepted for its check of the bytes. -/
lemma hydratePrebuilt_valid {compact : Bool} {data : PrebuiltPairData}
    (h : hydratePrebuilt img compact data = .ok t) : ∀ e ∈ t.entries, ValidEntry img t e := by
  have hvalid : ∀ t₀, validatePrebuiltPairRanks img t₀ = .ok t →
      ∀ e ∈ t.entries, ValidEntry img t e := by
    intro t₀ h
    obtain ⟨rfl, -, hvalid, -⟩ := validatePrebuiltPairRanks_ok h
    exact hvalid
  cases data with
  | entries prebuilt =>
      obtain ⟨t₀, -, h⟩ := bind_eq_ok_iff.mp h
      exact hvalid t₀ h
  | slots prebuilt =>
      obtain ⟨t₀, -, h⟩ := bind_eq_ok_iff.mp h
      exact hvalid t₀ h
  | replay prebuilt =>
      rw [hydratePrebuilt, hydratePrebuiltReplayPairs] at h
      split_ifs at h
      split at h
      case h_1 => cases h
      case h_2 t₁ _ =>
          obtain ⟨t₀, -, h⟩ := bind_eq_ok_iff.mp h
          exact hvalid t₀ h

/-- The pairs of a prebuilt section. -/
theorem hydratePrebuilt_words {compact : Bool} {data : PrebuiltPairData}
    (h : hydratePrebuilt img compact data = .ok t) :
    Joins (rankTable t.rank) (decodeTokenBytes img.vocab) ∧ ∀ a b, t.rank a b ≤ u32Max := by
  obtain ⟨hlen, m, hm, hpre, -⟩ := hydratePrebuilt_ok h
  refine ⟨hm.words hlen fun a b p q ha hb c hc => ?_, hm.rank_le⟩
  obtain ⟨id, hid, rfl⟩ := hpre.mem_table.mp hc
  have he := hydratePrebuilt_valid h _ (hm.mem_entries.mpr hid)
  obtain ⟨ha, hane⟩ := decodeTokenBytes_eq_some.mp ha
  have hb := (decodeTokenBytes_eq_some.mp hb).1
  have hbytes := he.bytes
  simp only [List.getD_eq_getElem?_getD, ha, hb, Option.getD_some,
    List.getElem?_eq_getElem he.merged_lt] at hbytes
  refine decodeTokenBytes_eq_some.mpr ⟨?_, by simp [hane]⟩
  rw [List.getElem?_eq_getElem he.merged_lt, hbytes]

end Prebuilt

/-! ### All files -/

/-- The merges join the bytes of the tokens, and are words of 32 bits. -/
def LoadedMerges.Words (vocab : List (List UInt8)) : LoadedMerges → Prop
  | .idRanked (.pairRanks t) =>
      Joins (rankTable t.rank) (decodeTokenBytes vocab) ∧ ∀ a b, t.rank a b ≤ u32Max
  | .idRanked (.merges m) =>
      Joins (mergesTable m) (decodeTokenBytes vocab) ∧ (∀ p, ∀ c ∈ m.lookup p, c < 2 ^ 32) ∧
        m.entries.length ≤ 2 ^ 28
  | .ranked m => RankedWords vocab m

/-- PRIORITY holds words of 32 bits. -/
def ByteFile.PrioritiesFit (file : ByteFile) : Prop :=
  ∀ priorities ∈ file.priorities, ∀ p ∈ priorities, p ≤ u32Max

variable {file : ByteFile} {compact : Bool}

lemma ByteFile.PrioritiesFit.priorityOf_le (h : file.PrioritiesFit) {priorities : List ℕ}
    (hprio : file.priorities = some priorities) (id : TokenId) :
    priorityOf priorities id ≤ u32Max := by
  rw [priorityOf, List.getD_eq_getElem?_getD]
  cases hget : priorities[id]? with
  | none => exact Nat.zero_le _
  | some p => exact h priorities hprio p (List.mem_of_getElem? hget)

/-- The merges without a prebuilt section. -/
theorem buildByteBpe_words (hfit : file.PrioritiesFit) {merges : LoadedMerges}
    (h : buildByteBpe file compact = .ok merges) : merges.Words file.vocab := by
  obtain ⟨hbase, hkeys⟩ := buildByteBpe_checks h
  have hbytes := validateBase_ok hbase
  simp only [buildByteBpe, bind_eq_ok_iff] at h
  obtain ⟨⟨⟩, -, ⟨⟩, -, h⟩ := h
  cases hprio : file.priorities with
  | none =>
      simp only [hprio] at h
      split_ifs at h
      obtain ⟨model, hload, h⟩ := bind_eq_ok_iff.mp h
      cases h
      obtain ⟨-, -, m, hm, hmodel⟩ := loadIdRanked_ok hload
      have hwords := reconstructIdMerges_words hbytes hm
      obtain rfl | ⟨t, rfl, ht, hlen⟩ := hmodel
      · refine ⟨hwords, ?_, (length_entries_le hm).trans file.vocab_le⟩
        rintro ⟨a, b⟩ c hc
        exact ((reconstructIdMerges_replayed hm).lt_u32Max hc).trans (by decide)
      · exact ⟨ht.words hlen hwords, ht.rank_le⟩
  | some priorities =>
      simp only [hprio] at h
      have hle := hfit.priorityOf_le hprio
      split_ifs at h
      · obtain ⟨m, hm, h⟩ := bind_eq_ok_iff.mp h
        cases h
        refine reconstructExhaustive_words file.vocab_le hle (fun id id' token hid hid' => ?_) hm
        exact @IsKey.unique file.toByteImage hkeys _ _ _ hid hid'
      · obtain ⟨m, hm, h⟩ := bind_eq_ok_iff.mp h
        cases h
        refine reconstructRankedMerges_words file.vocab_le hle (fun token htoken => ?_) hm
        exact ⟨(file.length_symbols_le htoken).trans (by decide), file.symbols_lt token,
          spell_symbols hbytes token⟩

/-- All that `build_byte_bpe` accepts: the merges join the bytes of the tokens, and the symbol of a
byte stands for it. -/
theorem buildByteModel_words (hfit : file.PrioritiesFit) {prebuilt : Option PrebuiltPairData}
    {model : LoadedMerges × (UInt8 → TokenId)}
    (h : buildByteModel file compact prebuilt = .ok model) :
    model.1.Words file.vocab ∧ ∀ b, decodeTokenBytes file.vocab (model.2 b) = some [b] := by
  obtain ⟨hbase, -, hmap⟩ := buildByteModel_ok h
  refine ⟨?_, fun b => decodeTokenBytes_eq_some.mpr ⟨?_, List.cons_ne_nil b []⟩⟩
  · simp only [buildByteModel, bind_eq_ok_iff] at h
    obtain ⟨⟨⟩, -, ⟨⟩, -, merges, hmerges, base, -, h⟩ := h
    cases h
    cases prebuilt with
    | none => exact buildByteBpe_words hfit hmerges
    | some data =>
        rw [buildByteMerges] at hmerges
        split_ifs at hmerges
        · exact buildByteBpe_words hfit hmerges
        · obtain ⟨t, ht, rfl⟩ := map_eq_ok_iff.mp hmerges
          exact hydratePrebuilt_words ht
  · have hmem := List.mem_of_getElem? (validateBase_ok hbase b)
    exact (fromByteVocab_isLeast file.vocab_le hmap hmem).1

end Hypertok
