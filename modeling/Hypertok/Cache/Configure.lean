import Hypertok.Cache.Encode

/-!
The mutators of a tokenizer in any order, against a fork.

The loaders set the flag of `ignore_merges` before any added token. Here the mutators come in
any order, before an input is encoded.

* `Configured.sound`: the caches are sound in every configuration.
* `forkSized_agrees`: the short cache of the parent and that of a fork hold the same ids for a
  pretoken, and both encode every input to the same ids, as long as their arenas hold fewer
  than `2^32` tokens.
* `forkSized_differs`: mutators that have filled the arena, so that a restored entry is not
  what the fork has.
-/

namespace Hypertok

open Machine

namespace Tokenizer

/-! ### Configurations -/

section Code

variable (hash : ℕ → ℕ)

/-- The ids that the short cache holds for a pretoken. -/
def cachedIds (t : Tokenizer) (bytes : List UInt8) : Option (List TokenId) := do
  let key ← packPretokenKey bytes
  match ← t.pretokenCache.getOrSlot key (hash key) with
  | .ok (val, ext) => decodeVal t.tokenArena val ext
  | .error _ => none

/-- The tokenizers that are constructed or forked and then changed by any sequence of
mutators, without `opt-cold-diet`. -/
inductive Configured : Tokenizer → Prop
  | fromTables {tables vocab t} (h : fromTables hash false tables vocab = some t) : Configured t
  | fromPairRankTable {tables vocab t} (h : fromPairRankTable tables vocab = some t) : Configured t
  | forkSized {t t' cacheSlots} (ht : Configured t)
      (h : t.forkSized hash false cacheSlots = some t') : Configured t'
  | setIgnoreMerges {t t' flag} (ht : Configured t)
      (h : t.setIgnoreMerges hash false flag = some t') : Configured t'
  | setAddedTokens {t t' addedTokens} (ht : Configured t)
      (h : t.setAddedTokens hash addedTokens = some t') : Configured t'
  | addSpecialTokens {t t' tokens} (ht : Configured t) (hid : ∀ p ∈ tokens, p.2 < 2 ^ 32)
      (h : t.addSpecialTokens hash tokens = some t') : Configured t'

/-- The tokenizers that encode calls leave. -/
inductive Encoded (t : Tokenizer) : Tokenizer → Prop
  | refl : Encoded t t
  | memoizedEncode {t' t'' pretokens outs} (ht : Encoded t t')
      (h : t'.memoizedEncode hash pretokens = some (t'', outs)) : Encoded t t''
  | memoizedEncodeFlat {t' t'' pretokens out out'} (ht : Encoded t t')
      (h : t'.memoizedEncodeFlat hash pretokens out = some (t'', out')) : Encoded t t''

end Code

/-- The inverse vocabulary finds entries of the vocabulary, as far as the short cache goes. -/
def Inverts (t : Tokenizer) : Prop := ∀ b, Short b → (t.vocabInv.lookup b).isSome → b ∈ t.vocab

variable {hash : ℕ → ℕ} {coldDiet : Bool} {stage : Stage} {t t' f : Tokenizer} {bytes : List UInt8}

/-! ### The mutators -/

lemma Sound.loaded (h : Sound hash coldDiet .built t) : Sound hash coldDiet .loaded t :=
  { h with
    built := by simp
    fresh := fun _ => h.fresh (by decide) }

/-- A pretoken outside the vocabulary has the same ids under either flag. -/
lemma shortIds_of_lookup_eq_none {vocabInv : VocabInv} (tables : MergeTables) {b : List UInt8}
    (h : vocabInv.lookup b = none) (flag flag' : Bool) :
    tables.shortIds flag vocabInv b = tables.shortIds flag' vocabInv b := by
  have hwhole : ∀ flag, MergeTables.wholeId flag vocabInv b = none := fun flag => by
    simp [MergeTables.wholeId, h]
  rw [MergeTables.shortIds, MergeTables.shortIds, hwhole, hwhole]

/-- `set_ignore_merges` keeps the caches sound, whatever tokens are added. -/
theorem Sound.setIgnoreMerges_loaded (h : Sound hash false .loaded t) (hvocab : t.Inverts)
    (ignoreMerges : Bool) :
    ∃ s, t.setIgnoreMerges hash false ignoreMerges = some { t with toStores := s, ignoreMerges } ∧
      Sound hash false .loaded { t with toStores := s, ignoreMerges } := by
  rw [Tokenizer.setIgnoreMerges]
  by_cases heq : t.ignoreMerges = ignoreMerges
  · refine ⟨t.toStores, ?_, heq ▸ h⟩
    rw [if_pos heq, ← heq]
  · rw [if_neg heq]
    obtain ⟨s₁, hreseed, hserves₁⟩ := h.serves.reseedVocab h.vocabInv_lt t.tables ignoreMerges
      t.vocab zeroBuf
    obtain ⟨s, hover, hserves, -, hhas⟩ :=
      hserves₁.applyAddedTokenOverwrites h.vocabInv_lt t.addedTokens
    refine ⟨s, ?_, h.vocabInv_lt, hserves.congr fun b hb => ?_, fun b hb hid => ?_,
      servesLong_of_empty (h.fresh (by decide)), by simp, fun _ => h.fresh (by decide)⟩
    · simp only [reseed, Bool.false_eq_true, if_false, hreseed, hover, Option.bind_eq_bind,
        Option.bind_some]
    · rw [shortEncoding_eq_ite { t with toStores := s, ignoreMerges }]
      split_ifs with hadded hmem
      · rfl
      · rfl
      · -- the entry was made by a call that encoded the pretoken or restored it
        have hnone : t.vocabInv.lookup b = none := by
          by_contra hne
          exact hmem (hvocab b hb (Option.isSome_iff_ne_none.mpr hne))
        rw [shortEncoding_eq_ite, if_neg hadded]
        exact shortIds_of_lookup_eq_none t.tables hnone _ _
    · obtain ⟨hmem, hid⟩ := (overwrittenId_isSome b).mp hid
      exact hhas b hb hmem hid

/-- A special token fills an empty slot, so that the other entries of the vocabulary stay. -/
lemma addSpecialToken_inverts (content : List UInt8) (id : TokenId) {vocab : List (List UInt8)}
    {vocabInv : VocabInv} (h : ∀ b, Short b → (vocabInv.lookup b).isSome → b ∈ vocab) :
    ∀ b, Short b → ((addSpecialToken vocab vocabInv content id).2.lookup b).isSome →
      b ∈ (addSpecialToken vocab vocabInv content id).1 := by
  intro b hb hid
  have hold : (vocabInv.lookup b).isSome →
      b ∈ vocab ++ List.replicate (id + 1 - vocab.length) [] :=
    fun hid => List.mem_append_left _ (h b hb hid)
  rw [addSpecialToken] at hid ⊢
  by_cases hempty : (vocab ++ List.replicate (id + 1 - vocab.length) [])[id]? = some []
  · rw [if_pos hempty] at hid ⊢
    obtain ⟨hlt, hnil⟩ := List.getElem?_eq_some_iff.mp hempty
    obtain rfl | hne := eq_or_ne b content
    · exact List.mem_set hlt b
    · rw [AList.lookup_insert_ne hne] at hid
      obtain ⟨i, hi, rfl⟩ := List.mem_iff_getElem.mp (hold hid)
      refine List.mem_iff_getElem.mpr ⟨i, by simpa using hi, List.getElem_set_ne ?_ _⟩
      rintro rfl
      rw [hnil] at hb
      exact absurd hb.1 (by decide)
  · rw [if_neg hempty] at hid ⊢
    exact hold hid

lemma addSpecialLoop_inverts (tokens : List (List UInt8 × TokenId)) {vocab : List (List UInt8)}
    {vocabInv : VocabInv} (h : ∀ b, Short b → (vocabInv.lookup b).isSome → b ∈ vocab) :
    ∀ b, Short b → ((addSpecialLoop tokens vocab vocabInv).2.lookup b).isSome →
      b ∈ (addSpecialLoop tokens vocab vocabInv).1 := by
  induction tokens generalizing vocab vocabInv with
  | nil => exact h
  | cons p tokens ih => exact ih (addSpecialToken_inverts p.1 p.2 h)

/-- `set_added_tokens` changes the stores and the added tokens. -/
lemma setAddedTokens_eq {addedTokens : List AddedTokenDef}
    (hrun : t.setAddedTokens hash addedTokens = some t') :
    t'.vocab = t.vocab ∧ t'.vocabInv = t.vocabInv := by
  simp only [setAddedTokens, Option.bind_eq_bind, Option.bind_eq_some_iff] at hrun
  obtain ⟨s₁, -, s, -, hrun⟩ := hrun
  cases hrun
  exact ⟨rfl, rfl⟩

lemma Inverts.congr (h : t.Inverts) (hvocab : t'.vocab = t.vocab) (hinv : t'.vocabInv = t.vocabInv) :
    t'.Inverts := by
  rw [Inverts, hvocab, hinv]
  exact h

/-- The caches are sound in every configuration. -/
theorem Configured.sound (h : Configured hash t) : Sound hash false .loaded t ∧ t.Inverts := by
  induction h with
  | fromTables h =>
      obtain ⟨_, hrun, hsound⟩ := sound_fromTables hash false _ _
      cases h.symm.trans hrun
      exact ⟨hsound.loaded, fun b _ => (hsound.built rfl).2.1 b⟩
  | fromPairRankTable h =>
      obtain ⟨_, hrun, hsound⟩ := sound_fromPairRankTable hash false _ _
      cases h.symm.trans hrun
      exact ⟨hsound.loaded, fun b _ => (hsound.built rfl).2.1 b⟩
  | forkSized _ h ih =>
      obtain ⟨_, hrun, hsound⟩ := ih.1.forkSized _
      cases h.symm.trans hrun
      simp only [Tokenizer.forkSized, Option.bind_eq_bind, Option.bind_eq_some_iff] at hrun
      obtain ⟨s₁, -, s, -, heq⟩ := hrun
      cases heq
      exact ⟨hsound, ih.2.congr rfl rfl⟩
  | setIgnoreMerges _ h ih =>
      obtain ⟨s, hrun, hsound⟩ := ih.1.setIgnoreMerges_loaded ih.2 _
      cases h.symm.trans hrun
      exact ⟨hsound, ih.2.congr rfl rfl⟩
  | setAddedTokens _ h ih =>
      obtain ⟨_, hrun, hsound⟩ := ih.1.setAddedTokens _
      cases h.symm.trans hrun
      obtain ⟨hvocab, hinv⟩ := setAddedTokens_eq hrun
      exact ⟨hsound, ih.2.congr hvocab hinv⟩
  | @addSpecialTokens t _ tokens _ hid h ih =>
      obtain ⟨_, hrun, hsound⟩ := ih.1.addSpecialTokens (by decide) hid
      cases h.symm.trans hrun
      refine ⟨hsound, ?_⟩
      obtain ⟨hvocab, hinv⟩ := setAddedTokens_eq hrun
      rw [Inverts, hvocab, hinv]
      exact addSpecialLoop_inverts tokens ih.2

/-! ### Parent and fork -/

/-- A short cache holds the encodings of its pretokens. -/
lemma Sound.cachedIds (h : Sound hash coldDiet stage t) (hb : Short bytes) {ids : List TokenId}
    (hids : t.cachedIds hash bytes = some ids) (harena : t.tokenArena.length < 2 ^ 32) :
    ids = t.shortEncoding bytes := by
  obtain ⟨key, hkey, hne⟩ := exists_key hb
  simp only [Tokenizer.cachedIds, hkey, Option.bind_eq_bind, Option.bind_some] at hids
  obtain ⟨e, he, hek, hget⟩ | ⟨i, e₀, -, -, -, hget⟩ := h.serves.valid.getOrSlot key
  · rw [hget, Option.bind_some] at hids
    obtain ⟨-, ids', hdecode, heq⟩ := h.serves.entry_of_key hb he (hek ▸ hkey)
    rw [← heq harena]
    exact Option.some_inj.mp (hids.symm.trans hdecode)
  · rw [hget, Option.bind_some] at hids
    cases hids

/-- The tokenizers that encode calls leave encode alike. -/
lemma Encoded.sound (h : Encoded hash t t') (ht : Sound hash coldDiet stage t) :
    Sound hash coldDiet .encoded t' ∧ Later t t' := by
  induction h with
  | refl => exact ⟨ht.encoded, .rfl⟩
  | memoizedEncode _ h ih =>
      have hall := ih.1.memoizedEncode h
      exact ⟨hall.sound, ih.2.trans hall.later⟩
  | memoizedEncodeFlat _ h ih =>
      obtain ⟨_, hall, -⟩ := ih.1.memoizedEncodeFlat h
      exact ⟨hall.sound, ih.2.trans hall.later⟩

/-- Parent and fork agree, after any mutators of the parent. The short cache of the parent
holds for a pretoken what that of the fork does, or what the fork computes, and this is the
id of an added token or the encoding without added tokens; and whatever the two have encoded
since, they encode every input alike. -/
theorem forkSized_agrees (hash : ℕ → ℕ) (t : Tokenizer) (h : Configured hash t) (cacheSlots : ℕ) :
    ∃ f, t.forkSized hash false cacheSlots = some f ∧
      (t.tokenArena.length < 2 ^ 32 → f.tokenArena.length < 2 ^ 32 → ∀ bytes, Short bytes →
        ∀ ids, t.cachedIds hash bytes = some ids →
          ids = (match t.overwrittenId bytes with
            | some id => [id]
            | none => t.tables.shortIds t.ignoreMerges t.vocabInv bytes) ∧
          f.uncachedEncode bytes = some ids ∧
          ∀ ids', f.cachedIds hash bytes = some ids' → ids' = ids) ∧
      ∀ t' f', Encoded hash t t' → Encoded hash f f' → ∀ pretokens,
        (∀ t'' f'' outs outs', t'.memoizedEncode hash pretokens = some (t'', outs) →
          f'.memoizedEncode hash pretokens = some (f'', outs') → t''.tokenArena.length < 2 ^ 32 →
          f''.tokenArena.length < 2 ^ 32 → outs = outs') ∧
        (∀ t'' f'' out out₁ out₂, t'.memoizedEncodeFlat hash pretokens out = some (t'', out₁) →
          f'.memoizedEncodeFlat hash pretokens out = some (f'', out₂) →
          t''.tokenArena.length < 2 ^ 32 → f''.tokenArena.length < 2 ^ 32 → out₁.ids = out₂.ids) ∧
        ((∀ p ∈ pretokens, t.uncachedEncode p ≠ none) →
          (t'.memoizedEncode hash pretokens).isSome ∧ (f'.memoizedEncode hash pretokens).isSome ∧
            ∀ out, (t'.memoizedEncodeFlat hash pretokens out).isSome ∧
              (f'.memoizedEncodeFlat hash pretokens out).isSome) := by
  obtain ⟨ht, -⟩ := h.sound
  obtain ⟨f, hfork, hf⟩ := ht.forkSized cacheSlots
  have heq : f.uncachedEncode = t.uncachedEncode ∧ f.shortEncoding = t.shortEncoding := by
    simp only [forkSized, Option.bind_eq_bind, Option.bind_eq_some_iff] at hfork
    obtain ⟨s₁, -, s, -, heq⟩ := hfork
    cases heq
    exact ⟨rfl, rfl⟩
  -- the two encode each pretoken alike, now and later
  have hlater : ∀ t' f', Encoded hash t t' → Encoded hash f f' →
      ∀ p, t'.uncachedEncode p = t.uncachedEncode p ∧ f'.uncachedEncode p = t.uncachedEncode p :=
    fun t' f' ht' hf' p => ⟨(ht'.sound ht).2.encode p, by rw [(hf'.sound hf).2.encode, heq.1]⟩
  have hinj : ∀ {l l' : List (List TokenId)}, l.map some = l'.map some → l = l' :=
    fun h => List.map_injective_iff.mpr (Option.some_injective _) h
  refine ⟨f, hfork, fun harena harena' bytes hb ids hids => ?_,
    fun t' f' ht' hf' pretokens => ⟨?_, ?_, fun hsome => ?_⟩⟩
  · have hshort := ht.cachedIds hb hids harena
    refine ⟨hshort, ?_, fun ids' hids' => ?_⟩
    · rw [heq.1, uncachedEncode_of_short hb, hshort]
    · rw [hf.cachedIds hb hids' harena', heq.2, hshort]
  · intro t'' f'' outs outs' hrun hrun' hlt hlt'
    have houts := ((ht'.sound ht).1.memoizedEncode hrun).outs_eq hlt
    have houts' := ((hf'.sound hf).1.memoizedEncode hrun').outs_eq hlt'
    refine hinj ?_
    rw [houts, houts']
    exact List.map_congr_left fun p _ =>
      (hlater t' f' ht' hf' p).1.trans (hlater t' f' ht' hf' p).2.symm
  · intro t'' f'' out out₁ out₂ hrun hrun' hlt hlt'
    obtain ⟨outs, hall, hout₁⟩ := (ht'.sound ht).1.memoizedEncodeFlat hrun
    obtain ⟨outs', hall', hout₂⟩ := (hf'.sound hf).1.memoizedEncodeFlat hrun'
    have houts : outs = outs' := by
      refine hinj ?_
      rw [hall.outs_eq hlt, hall'.outs_eq hlt']
      exact List.map_congr_left fun p _ =>
        (hlater t' f' ht' hf' p).1.trans (hlater t' f' ht' hf' p).2.symm
    rw [hout₁, hout₂, houts]
  · have ht'' : ∀ p ∈ pretokens, t'.uncachedEncode p ≠ none := fun p hp => by
      rw [(hlater t' f' ht' hf' p).1]
      exact hsome p hp
    have hf'' : ∀ p ∈ pretokens, f'.uncachedEncode p ≠ none := fun p hp => by
      rw [(hlater t' f' ht' hf' p).2]
      exact hsome p hp
    obtain ⟨hmemo, hflat⟩ := (ht'.sound ht).1.isSome_memoizedEncode ht''
    obtain ⟨hmemo', hflat'⟩ := (hf'.sound hf).1.isSome_memoizedEncode hf''
    exact ⟨hmemo, hmemo', fun out => ⟨hflat out, hflat' out⟩⟩

/-- `forkSized_agrees` for the parent with the merge of `a b` and an added token `a b`. -/
theorem forkSized_agrees_abTables : ∃ t f, Configured pretokenKeyHashFold t ∧
    t.addedTokens = [⟨[97, 98], 2⟩] ∧ t.forkSized pretokenKeyHashFold false 0 = some f ∧
      ∀ t' f' outs outs', t.memoizedEncode pretokenKeyHashFold [[97, 98]] = some (t', outs) →
        f.memoizedEncode pretokenKeyHashFold [[97, 98]] = some (f', outs') →
          t'.tokenArena.length < 2 ^ 32 → f'.tokenArena.length < 2 ^ 32 → outs = outs' := by
  obtain ⟨t₀, hnew, hsound⟩ :=
    sound_fromTables pretokenKeyHashFold false abTables [[97], [98], [97, 98]]
  obtain ⟨t, hadd, -⟩ := hsound.setAddedTokens [⟨[97, 98], 2⟩]
  have ht : Configured pretokenKeyHashFold t := (Configured.fromTables hnew).setAddedTokens hadd
  obtain ⟨f, hfork, -, hencode⟩ := forkSized_agrees pretokenKeyHashFold t ht 0
  refine ⟨t, f, ht, ?_, hfork, (hencode t f .refl .refl [[97, 98]]).1⟩
  simp only [Tokenizer.setAddedTokens, Option.bind_eq_bind, Option.bind_eq_some_iff] at hadd
  obtain ⟨s₁, -, s, -, heq⟩ := hadd
  cases heq
  simp

/-! ### A full arena -/

/-- The entry that `put` writes, and the arena. -/
lemma put_entry {enc : List UInt8 → List TokenId} {s s' : Stores} {ids : List TokenId}
    (h : Serves hash enc s) (hb : Short bytes) (hput : s.put hash bytes ids = some s') :
    s'.tokenArena = (packVal ids s.tokenArena).2 ∧ ∃ e ∈ s'.pretokenCache.slots,
      packPretokenKey bytes = some e.key ∧ (e.val, e.ext) = (packVal ids s.tokenArena).1 := by
  obtain ⟨key, hkey, hne⟩ := exists_key hb
  rcases hpack : packVal ids s.tokenArena with ⟨⟨val, ext⟩, arena⟩
  obtain ⟨cache, hreplace, -, hmem⟩ := h.valid.replace (e := ⟨key, val, ext⟩) hne
  simp only [Stores.put, hkey, hpack, hreplace, Option.bind_eq_bind, Option.bind_some,
    Option.some.injEq] at hput
  subst hput
  exact ⟨rfl, _, (hmem _ hne).mpr (.inl rfl), hkey, rfl⟩

/-- An entry of the short cache is found. -/
lemma Sound.cachedIds_of_mem (h : Sound hash coldDiet stage t) (hb : Short bytes) {e : Entry}
    (he : e ∈ t.pretokenCache.slots) (hkey : packPretokenKey bytes = some e.key) :
    t.cachedIds hash bytes = decodeVal t.tokenArena e.val e.ext := by
  have hne := key_ne_empty hb hkey
  simp only [Tokenizer.cachedIds, hkey, Option.bind_eq_bind, Option.bind_some]
  obtain ⟨e', he', hek, hget⟩ | ⟨i, e₀, hfull, he₀, hempty, -⟩ := h.serves.valid.getOrSlot e.key
  · have heq : e' = e := by
      obtain ⟨i, hi, rfl⟩ := List.mem_iff_getElem.mp he
      obtain ⟨j, hj, rfl⟩ := List.mem_iff_getElem.mp he'
      have hpair := List.pairwise_iff_getElem.mp h.serves.valid.placed.pairwise
      rcases lt_trichotomy i j with hij | rfl | hij
      · exact absurd hek.symm (hpair i j hi hj hij hne)
      · rfl
      · exact absurd hek (hpair j i hj hi hij (hek ▸ hne))
    rw [hget, heq, Option.bind_some]
  · exact absurd (ShortPretokenCache.probing_stores.mpr ⟨he, rfl, hne⟩)
      (h.serves.valid.placed.probed.not_stores hfull he₀
        (ShortPretokenCache.probing_key_eq_none.mpr hempty) e)

/-- The tables of a vocabulary with ranks, but without merges. -/
def noMerges : MergeTables where
  merges := ∅
  pairRanks := none
  rankedMerges := some ∅
  byteRemapping := none
  merges_lt _ _ h := absurd h (Option.not_mem_none _)
  pairRanks_lt _ h := absurd h (Option.not_mem_none _)
  ranked_lt rm h _ _ hq := by
    rw [Option.mem_some_iff] at h
    exact absurd (h ▸ hq) (Option.not_mem_none _)

/-- `abcde`, which is in the vocabulary and takes five tokens without it. -/
def spilledWord : List UInt8 := [97, 98, 99, 100, 101]

/-- A configuration without merges, whose vocabulary has the word. -/
structure Unmerged (hash : ℕ → ℕ) (t : Tokenizer) : Prop where
  configured : Configured hash t
  tables : t.tables = noMerges
  lookup : t.vocabInv.lookup spilledWord = some 5
  ignoreMerges : t.ignoreMerges = false
  addedTokens : t.addedTokens = []

/-- The word is added and removed: its encoding is appended to the arena once more. -/
lemma Unmerged.round (h : Unmerged hash t) : ∃ t', Unmerged hash t' ∧
    t'.tokenArena = t.tokenArena ++ [97, 98, 99, 100, 101] ∧ t'.vocab = t.vocab ∧
      ∃ e ∈ t'.pretokenCache.slots, packPretokenKey spilledWord = some e.key ∧
        ∀ arena, decodeVal arena e.val e.ext = arenaSlice arena (t.tokenArena.length % 2 ^ 32) 5 := by
  have hb : Short spilledWord := by decide
  have hsound := h.configured.sound.1
  have hids : noMerges.shortIds false t.vocabInv spilledWord = [97, 98, 99, 100, 101] := rfl
  -- the word is overwritten by its id, which is held inline
  have hpack₁ : Packable [5] := ⟨by decide, by decide⟩
  obtain ⟨s₁, hput₁, hs₁, -⟩ := hsound.serves.put hb hpack₁
  have harena₁ : s₁.tokenArena = t.tokenArena := (put_entry hsound.serves hb hput₁).1
  have hadd : t.setAddedTokens hash [⟨spilledWord, 5⟩] =
      some { t with toStores := s₁, addedTokens := [⟨spilledWord, 5⟩] } := by
    have hne : spilledWord ≠ [] := by decide
    simp [setAddedTokens, h.addedTokens, restoreOutgoing, applyAddedTokenOverwrites, hb, h.lookup,
      hput₁, hne]
  -- then it gets its encoding back, which is spilled
  have hpack₂ : Packable [97, 98, 99, 100, 101] := ⟨by decide, by decide⟩
  obtain ⟨s₂, hput₂, -⟩ := hs₁.put hb hpack₂
  have hremove : setAddedTokens hash { t with toStores := s₁, addedTokens := [⟨spilledWord, 5⟩] } [] =
      some { t with toStores := s₂, addedTokens := [] } := by
    obtain ⟨buf, n, hseed, htake⟩ :=
      noMerges.seedSymbolsAny_eq false t.vocabInv hb zeroBuf
    rw [hids] at htake
    simp [setAddedTokens, restoreOutgoing, applyAddedTokenOverwrites, hb, h.lookup, h.tables,
      h.ignoreMerges, hseed, htake, hput₂]
  obtain ⟨harena₂, e, he, hkey, hval⟩ := put_entry hs₁ hb hput₂
  have hpacked : packVal [97, 98, 99, 100, 101] s₁.tokenArena = ((e.val, e.ext), s₂.tokenArena) := by
    rw [hval, harena₂]
  obtain ⟨harena, -, hdecode⟩ := packVal_spilled rfl (by decide) s₁.tokenArena hpacked
  rw [harena₁] at harena hdecode
  exact ⟨{ t with toStores := s₂, addedTokens := [] },
    ⟨(h.configured.setAddedTokens hadd).setAddedTokens hremove, h.tables, h.lookup, h.ignoreMerges, rfl⟩,
    harena, rfl, e, he, hkey, hdecode⟩

lemma Unmerged.rounds (h : Unmerged hash t) (n : ℕ) : ∃ t', Unmerged hash t' ∧
    t'.tokenArena = t.tokenArena ++ (List.replicate n [97, 98, 99, 100, 101]).flatten ∧
      t'.vocab = t.vocab := by
  induction n with
  | zero => exact ⟨t, h, by simp, rfl⟩
  | succ n ih =>
      obtain ⟨t₁, h₁, harena₁, hvocab₁⟩ := ih
      obtain ⟨t₂, h₂, harena₂, hvocab₂, -⟩ := h₁.round
      refine ⟨t₂, h₂, ?_, hvocab₂.trans hvocab₁⟩
      rw [harena₂, harena₁, List.replicate_succ', List.flatten_append, List.append_assoc]
      rfl

/-- Past `2^32` tokens, an offset is cut to 32 bits, here to the fourth token of a copy. -/
lemma arenaSlice_rotated (arena : List TokenId) (n : ℕ) {start : ℕ} (h : start = arena.length + 4) :
    arenaSlice (arena ++ (List.replicate (n + 2) [97, 98, 99, 100, 101]).flatten) start 5 =
      some [101, 97, 98, 99, 100] := by
  subst h
  have hflatten : (List.replicate (n + 2) [97, 98, 99, 100, 101]).flatten =
      [97, 98, 99, 100] ++ ([101, 97, 98, 99, 100] ++
        (101 :: (List.replicate n [97, 98, 99, 100, 101]).flatten)) := by
    simp [List.replicate_succ]
  rw [hflatten, ← List.append_assoc, arenaSlice, if_pos (by simp; omega)]
  have hlen : arena.length + 4 = (arena ++ [97, 98, 99, 100]).length := by simp
  rw [hlen, List.drop_left]
  rfl

/-- An entry of a sound short cache holds the encoding of its pretoken. -/
lemma Sound.cachedIds_of_has (h : Sound hash coldDiet stage t) (hb : Short bytes)
    (hhas : t.toStores.Has bytes) (harena : t.tokenArena.length < 2 ^ 32) :
    t.cachedIds hash bytes = some (t.shortEncoding bytes) := by
  obtain ⟨e, he, hkey⟩ := hhas
  obtain ⟨-, ids, hdecode, heq⟩ := h.serves.entry_of_key hb he hkey
  rw [h.cachedIds_of_mem hb he hkey, hdecode, heq harena]

/-- The word is added and removed until the arena is full. The parent then holds a rotated
encoding for it, and the fork the right one. -/
theorem forkSized_differs : ∃ t f, Configured pretokenKeyHashFold t ∧
    t.forkSized pretokenKeyHashFold false 0 = some f ∧
      t.cachedIds pretokenKeyHashFold spilledWord = some [101, 97, 98, 99, 100] ∧
        f.cachedIds pretokenKeyHashFold spilledWord = some [97, 98, 99, 100, 101] := by
  have hb : Short spilledWord := by decide
  set vocab : List (List UInt8) := [[97], [98], [99], [100], [101], spilledWord] with hvocab
  have hinv : ∀ b, ∀ id ∈ (invertVocab vocab).lookup b, id < 2 ^ 32 :=
    fun _ _ h => (lookup_invertVocab vocab h).1
  obtain ⟨s, hs, -, -, -, hlen⟩ :=
    seededPretokenCache_serves pretokenKeyHashFold false noMerges false hinv vocab [] 0
  have hnew : fromTables pretokenKeyHashFold false noMerges vocab =
      some ⟨s, noMerges, vocab, invertVocab vocab, ∅, [], false⟩ := by
    simp only [fromTables, hs, Option.bind_eq_bind, Option.bind_some]
  have h₀ : Unmerged pretokenKeyHashFold ⟨s, noMerges, vocab, invertVocab vocab, ∅, [], false⟩ :=
    ⟨.fromTables hnew, rfl, rfl, rfl, rfl⟩
  obtain ⟨n, hn⟩ : ∃ n : ℕ, 5 * (n + 1) = 2 ^ 32 + 4 := ⟨858993459, by norm_num⟩
  obtain ⟨t₁, h₁, harena₁, hvocab₁⟩ := h₀.rounds (n + 1)
  obtain ⟨t, ht, harena, hvocab₂, e, he, hkey, hdecode⟩ := h₁.round
  have hsound := ht.configured.sound.1
  obtain ⟨s₁, hseed, -, -, hhas, hlen'⟩ := seededPretokenCache_serves pretokenKeyHashFold false
    t.tables t.ignoreMerges hsound.vocabInv_lt t.vocab [] 0
  have hfork : t.forkSized pretokenKeyHashFold false 0 =
      some { t with toStores := s₁, pretokenCacheLong := ∅ } := by
    simp only [forkSized, hseed, ht.addedTokens, applyAddedTokenOverwrites, Option.bind_eq_bind,
      Option.bind_some]
  have htvocab : t.vocab = vocab := hvocab₂.trans hvocab₁
  refine ⟨t, _, ht.configured, hfork, ?_, ?_⟩
  · have hcopies : ((List.replicate (n + 1) [97, 98, 99, 100, 101]).flatten : List TokenId).length =
        5 * (n + 1) := by simp [Nat.mul_comm]
    rw [hsound.cachedIds_of_mem hb he hkey, hdecode, harena, harena₁, List.append_assoc]
    have hall : (List.replicate (n + 1) [97, 98, 99, 100, 101]).flatten ++ [97, 98, 99, 100, 101] =
        (List.replicate (n + 2) [97, 98, 99, 100, 101]).flatten := by
      rw [List.replicate_succ' (n := n + 1), List.flatten_append]
      rfl
    rw [hall, List.length_append, hcopies]
    refine arenaSlice_rotated s.tokenArena n ?_
    have hseeded : s.tokenArena.length ≤ 2 ^ 7 * 6 := by simpa [hvocab] using hlen
    change (s.tokenArena.length + 5 * (n + 1)) % 2 ^ 32 = s.tokenArena.length + 4
    omega
  · have hf := (ht.configured.forkSized hfork).sound.1
    rw [hf.cachedIds_of_has hb (hhas rfl _ (by simp [htvocab, hvocab]) hb), shortEncoding_of_nil]
    · rw [ht.tables, ht.ignoreMerges]
      rfl
    · exact ht.addedTokens
    · rw [htvocab, hvocab] at hlen'
      exact hlen'.trans_lt (by decide)

end Tokenizer

end Hypertok
