import Hypertok.Cache.Stores

/-!
`Tokenizer`, as far as the pretoken caches go: its construction, the mutators of the
loaders, and `fork`.

* `Tokenizer.uncachedEncode`: what the tokenizer computes for a pretoken without its
  caches.
* `Sound`: the invariant. It ties the short cache, the long cache and the arena to
  `uncachedEncode`.
* `sound_fromTables`, `Sound.setIgnoreMerges`, `Sound.setAddedTokens`,
  `Sound.addSpecialTokens`, `Sound.forkSized`: the loaders keep it.
-/

namespace Hypertok

open Machine

/-- `Tokenizer`. -/
structure Tokenizer extends Stores where
  tables : MergeTables
  vocab : List (List UInt8)
  vocabInv : VocabInv
  /-- The offset and the length of a slice of the arena. -/
  pretokenCacheLong : AList fun _ : List UInt8 => ℕ × ℕ
  addedTokens : List AddedTokenDef
  ignoreMerges : Bool

/-- The inverse vocabulary; the last of two equal entries wins. -/
def invertVocab (vocab : List (List UInt8)) : VocabInv :=
  vocab.zipIdx.foldl (fun inv p => inv.insert p.1 (p.2 % 2 ^ 32)) ∅

namespace Tokenizer

/-- The id that an added token gives to a pretoken, where it resolves in the vocabulary. -/
def overwrittenId (t : Tokenizer) (bytes : List UInt8) : Option TokenId :=
  if bytes ∈ t.addedTokens.map AddedTokenDef.content then t.vocabInv.lookup bytes else none

/-- The encoding of a pretoken without the caches. -/
def uncachedEncode (t : Tokenizer) (bytes : List UInt8) : Option (List TokenId) :=
  if Short bytes then
    match t.overwrittenId bytes with
    | some id => some [id]
    | none => do
        let (buf, n) ← t.tables.seedSymbolsAny t.ignoreMerges t.vocabInv bytes zeroBuf
        some (buf.take n)
  else t.tables.longSymbols t.ignoreMerges t.vocabInv bytes

/-! ### Construction and loading -/

section Code

variable (hash : ℕ → ℕ) (coldDiet : Bool)

/-- `from_tables`, with the pair ranks that it has built or found too large. -/
def fromTables (tables : MergeTables) (vocab : List (List UInt8)) : Option Tokenizer := do
  let vocabInv := invertVocab vocab
  let stores ← seededPretokenCache hash coldDiet tables false vocabInv vocab [] 0
  some {
    toStores := stores
    tables, vocab, vocabInv
    pretokenCacheLong := ∅
    addedTokens := []
    ignoreMerges := false }

/-- `from_pair_rank_table`, which never seeds the cache. -/
def fromPairRankTable (tables : MergeTables) (vocab : List (List UInt8)) : Option Tokenizer := do
  some {
    tokenArena := []
    pretokenCache := ← ShortPretokenCache.withAtLeast 0 0
    tables, vocab
    vocabInv := invertVocab vocab
    pretokenCacheLong := ∅
    addedTokens := []
    ignoreMerges := false }

/-- The rewrite of `set_ignore_merges`, which `opt-cold-diet` leaves out. -/
def reseed (t : Tokenizer) (ignoreMerges : Bool) : Option Stores :=
  if coldDiet then some t.toStores
  else reseedVocab hash t.tables ignoreMerges t.vocabInv t.vocab zeroBuf t.toStores

/-- `set_ignore_merges`. -/
def setIgnoreMerges (t : Tokenizer) (ignoreMerges : Bool) : Option Tokenizer :=
  if t.ignoreMerges = ignoreMerges then some t
  else do
    let stores ← t.reseed hash coldDiet ignoreMerges
    let stores ← applyAddedTokenOverwrites hash t.vocabInv t.addedTokens stores
    some { t with toStores := stores, ignoreMerges }

/-- `set_added_tokens`. -/
def setAddedTokens (t : Tokenizer) (addedTokens : List AddedTokenDef) : Option Tokenizer := do
  let addedTokens := (addedTokens.filter fun tok => tok.content ≠ []).mergeSort
    fun a b => b.content.length ≤ a.content.length
  let stores ← restoreOutgoing hash t.tables t.ignoreMerges t.vocabInv t.addedTokens t.toStores
  let stores ← applyAddedTokenOverwrites hash t.vocabInv addedTokens stores
  some { t with toStores := stores, addedTokens }

/-- The vocabulary with a special token in it, where its slot is empty. -/
def addSpecialToken (vocab : List (List UInt8)) (vocabInv : VocabInv) (content : List UInt8)
    (id : TokenId) : List (List UInt8) × VocabInv :=
  let vocab := vocab ++ List.replicate (id + 1 - vocab.length) []
  if vocab[id]? = some [] then (vocab.set id content, vocabInv.insert content id)
  else (vocab, vocabInv)

/-- The loop of `add_special_tokens`, over the vocabulary. -/
def addSpecialLoop : List (List UInt8 × TokenId) → List (List UInt8) → VocabInv →
    List (List UInt8) × VocabInv
  | [], vocab, vocabInv => (vocab, vocabInv)
  | (content, id) :: tokens, vocab, vocabInv =>
      let (vocab, vocabInv) := addSpecialToken vocab vocabInv content id
      addSpecialLoop tokens vocab vocabInv

/-- `add_special_tokens`. -/
def addSpecialTokens (t : Tokenizer) (tokens : List (List UInt8 × TokenId)) : Option Tokenizer :=
  let (vocab, vocabInv) := addSpecialLoop tokens t.vocab t.vocabInv
  let added := t.addedTokens ++ tokens.map fun (content, id) => ⟨content, id⟩
  setAddedTokens hash { t with vocab, vocabInv } added

/-- `fork_sized`, with the number of slots that it derives from the expected bytes. -/
def forkSized (t : Tokenizer) (cacheSlots : ℕ) : Option Tokenizer := do
  let stores ← seededPretokenCache hash coldDiet t.tables t.ignoreMerges t.vocabInv t.vocab []
    cacheSlots
  let stores ← applyAddedTokenOverwrites hash t.vocabInv t.addedTokens stores
  some { t with toStores := stores, pretokenCacheLong := ∅ }

end Code

/-! ### The invariant -/

/-- How far a tokenizer has come: `set_ignore_merges` runs before any added token is
set, and the other mutators of the vocabulary before any input is encoded. -/
inductive Stage
  | built
  | loaded
  | encoded
  deriving DecidableEq

/-- The stage after a mutator of the added tokens. -/
def Stage.load : Stage → Stage
  | .encoded => .encoded
  | _ => .loaded

/-- The ids of a short pretoken. -/
def shortEncoding (t : Tokenizer) (bytes : List UInt8) : List TokenId :=
  match t.overwrittenId bytes with
  | some id => [id]
  | none => t.tables.shortIds t.ignoreMerges t.vocabInv bytes

/-- The long cache holds the uncached encodings of its pretokens. -/
def ServesLong (t : Tokenizer) : Prop :=
  ∀ bytes, ∀ q ∈ t.pretokenCacheLong.lookup bytes, ¬ Short bytes ∧
    ∃ ids, arenaSlice t.tokenArena q.1 q.2 = some ids ∧
      (t.tokenArena.length < 2 ^ 32 → t.uncachedEncode bytes = some ids)

/-- The caches hold uncached encodings. -/
structure Sound (hash : ℕ → ℕ) (coldDiet : Bool) (stage : Stage) (t : Tokenizer) : Prop where
  vocabInv_lt : ∀ b, ∀ id ∈ t.vocabInv.lookup b, id < 2 ^ 32
  serves : Serves hash t.shortEncoding t.toStores
  has : ∀ b, Short b → (t.overwrittenId b).isSome → t.toStores.Has b
  servesLong : t.ServesLong
  built : stage = .built → t.addedTokens = [] ∧
    (∀ b, (t.vocabInv.lookup b).isSome → b ∈ t.vocab) ∧
    (coldDiet → ∀ e ∈ t.pretokenCache.slots, e.key = emptyKey)
  fresh : stage ≠ .encoded → t.pretokenCacheLong = ∅

variable {hash : ℕ → ℕ} {coldDiet : Bool} {stage : Stage} {t t' : Tokenizer} {bytes : List UInt8}

/-- A short pretoken is always encoded. -/
lemma uncachedEncode_of_short (h : Short bytes) :
    t.uncachedEncode bytes = some (t.shortEncoding bytes) := by
  rw [uncachedEncode, if_pos h, shortEncoding]
  cases t.overwrittenId bytes with
  | some id => rfl
  | none =>
      obtain ⟨buf', n, hseed, htake⟩ := t.tables.seedSymbolsAny_eq t.ignoreMerges t.vocabInv h zeroBuf
      simp only [hseed, htake, Option.bind_eq_bind, Option.bind_some]

/-- The reference for all pretokens whose length fits the pointers of the merge loops,
where no explicit rank is that of no merge. -/
theorem uncachedEncode_eq (hlen : bytes.length ≤ u32Max)
    (hrank : ∀ rm ∈ t.tables.rankedMerges, ∀ k, ∀ q ∈ rm.lookup k, q.2 ≠ u32Max) :
    t.uncachedEncode bytes = some (if Short bytes then t.shortEncoding bytes
      else t.tables.shortIds t.ignoreMerges t.vocabInv bytes) := by
  by_cases h : Short bytes
  · rw [if_pos h, uncachedEncode_of_short h]
  · rw [if_neg h, uncachedEncode, if_neg h, MergeTables.longSymbols_eq hlen hrank]

/-- Ids of short pretokens can be packed. -/
lemma shortEncoding_packable (hinv : ∀ b, ∀ id ∈ t.vocabInv.lookup b, id < 2 ^ 32)
    (h : Short bytes) : Packable (t.shortEncoding bytes) := by
  rw [shortEncoding]
  cases hid : t.overwrittenId bytes with
  | some id =>
      refine ⟨by simp, ?_⟩
      simp only [List.mem_singleton, forall_eq]
      exact hinv bytes id (Option.ite_none_right_eq_some.mp hid).2
  | none => exact MergeTables.shortIds_spec hinv h

lemma shortEncoding_of_nil (h : t.addedTokens = []) :
    t.shortEncoding = t.tables.shortIds t.ignoreMerges t.vocabInv := by
  funext b
  simp [shortEncoding, overwrittenId, h]

/-- An overwrite is visible in the encoding. -/
lemma shortEncoding_eq_ite (t : Tokenizer) (b : List UInt8) :
    t.shortEncoding b = if b ∈ t.addedTokens.map AddedTokenDef.content ∧
        (t.vocabInv.lookup b).isSome then [(t.vocabInv.lookup b).getD 0]
      else t.tables.shortIds t.ignoreMerges t.vocabInv b := by
  by_cases hmem : b ∈ t.addedTokens.map AddedTokenDef.content
  · cases hid : t.vocabInv.lookup b <;> simp [shortEncoding, overwrittenId, hmem, hid]
  · simp [shortEncoding, overwrittenId, hmem]

lemma overwrittenId_isSome (b : List UInt8) : (t.overwrittenId b).isSome ↔
    b ∈ t.addedTokens.map AddedTokenDef.content ∧ (t.vocabInv.lookup b).isSome := by
  by_cases hmem : b ∈ t.addedTokens.map AddedTokenDef.content <;> simp [overwrittenId, hmem]

lemma servesLong_of_empty (h : t.pretokenCacheLong = ∅) : t.ServesLong := by
  intro b q hq
  simp [h] at hq

/-! ### Construction -/

/-- The inverse vocabulary holds ids of entries. -/
lemma lookup_invertVocab (vocab : List (List UInt8)) {b : List UInt8} {id : TokenId}
    (h : id ∈ (invertVocab vocab).lookup b) : id < 2 ^ 32 ∧ b ∈ vocab := by
  have hfold : ∀ (l : List (List UInt8 × ℕ)) (inv : VocabInv),
      (∀ b, ∀ id ∈ inv.lookup b, id < 2 ^ 32 ∧ b ∈ vocab) → (∀ p ∈ l, p.1 ∈ vocab) →
        ∀ b, ∀ id ∈ (l.foldl (fun inv p => inv.insert p.1 (p.2 % 2 ^ 32)) inv).lookup b,
          id < 2 ^ 32 ∧ b ∈ vocab := by
    intro l
    induction l with
    | nil => exact fun inv hinv _ => hinv
    | cons p l ih =>
        intro inv hinv hl
        simp only [List.mem_cons, forall_eq_or_imp] at hl
        refine ih _ (fun b id hid => ?_) hl.2
        obtain rfl | hne := eq_or_ne b p.1
        · rw [AList.lookup_insert, Option.mem_some_iff] at hid
          exact ⟨hid ▸ Nat.mod_lt _ (by decide), hl.1⟩
        · rw [AList.lookup_insert_ne hne] at hid
          exact hinv b id hid
  refine hfold vocab.zipIdx ∅ (by simp) (fun p hp => ?_) b id h
  exact List.fst_mem_of_mem_zipIdx hp

/-- A tokenizer without added tokens, and with empty long cache, over a store of seed
values. -/
lemma sound_of_serves {vocab : List (List UInt8)} {tables : MergeTables} {s : Stores}
    (hs : Serves hash (tables.shortIds false (invertVocab vocab)) s)
    (hempty : coldDiet → ∀ e ∈ s.pretokenCache.slots, e.key = emptyKey) :
    Sound hash coldDiet .built ⟨s, tables, vocab, invertVocab vocab, ∅, [], false⟩ where
  vocabInv_lt _ _ h := (lookup_invertVocab vocab h).1
  serves := by rwa [shortEncoding_of_nil rfl]
  has := by simp [overwrittenId]
  servesLong := servesLong_of_empty rfl
  built _ := ⟨rfl, fun _ hb => (lookup_invertVocab vocab (Option.get_mem hb)).2, hempty⟩
  fresh _ := rfl

/-- `from_tables` returns a sound tokenizer. -/
theorem sound_fromTables (hash : ℕ → ℕ) (coldDiet : Bool) (tables : MergeTables)
    (vocab : List (List UInt8)) :
    ∃ t, fromTables hash coldDiet tables vocab = some t ∧ Sound hash coldDiet .built t := by
  obtain ⟨s, hs, hserves, hempty, -⟩ := seededPretokenCache_serves hash coldDiet tables
    false (fun _ _ h => (lookup_invertVocab vocab h).1) vocab [] 0
  exact ⟨⟨s, tables, vocab, invertVocab vocab, ∅, [], false⟩, by
    simp only [fromTables, hs, Option.bind_eq_bind, Option.bind_some],
    sound_of_serves hserves hempty⟩

/-- `from_pair_rank_table` returns a sound tokenizer. -/
theorem sound_fromPairRankTable (hash : ℕ → ℕ) (coldDiet : Bool) (tables : MergeTables)
    (vocab : List (List UInt8)) :
    ∃ t, fromPairRankTable tables vocab = some t ∧ Sound hash coldDiet .built t := by
  obtain ⟨cache, hnew, hvalid, hempty⟩ := ShortPretokenCache.withAtLeast_valid hash 0 0
  exact ⟨⟨⟨[], cache⟩, tables, vocab, invertVocab vocab, ∅, [], false⟩, by
    simp only [fromPairRankTable, hnew, Option.bind_eq_bind, Option.bind_some],
    sound_of_serves (.of_empty hvalid hempty) fun _ => hempty⟩

/-! ### Mutators -/

/-- `set_ignore_merges` keeps the caches sound, before added tokens are set. -/
theorem Sound.setIgnoreMerges (h : Sound hash coldDiet .built t) (ignoreMerges : Bool) :
    ∃ t', t.setIgnoreMerges hash coldDiet ignoreMerges = some t' ∧
      Sound hash coldDiet .built t' := by
  rw [Tokenizer.setIgnoreMerges]
  by_cases heq : t.ignoreMerges = ignoreMerges
  · exact ⟨t, if_pos heq, h⟩
  · rw [if_neg heq]
    obtain ⟨hadded, hvocab, hempty⟩ := h.built rfl
    obtain ⟨s, hs, hserves, hempty'⟩ : ∃ s, t.reseed hash coldDiet ignoreMerges = some s ∧
        Serves hash (t.tables.shortIds ignoreMerges t.vocabInv) s ∧
        (coldDiet → ∀ e ∈ s.pretokenCache.slots, e.key = emptyKey) := by
      rw [Tokenizer.reseed]
      cases coldDiet with
      | true => exact ⟨_, rfl, .of_empty h.serves.valid (hempty rfl), hempty⟩
      | false =>
          obtain ⟨s, hs, hserves⟩ := h.serves.reseedVocab h.vocabInv_lt t.tables
            ignoreMerges t.vocab zeroBuf
          refine ⟨s, by simpa using hs, hserves.congr fun b _ => ?_, by simp⟩
          by_cases hmem : b ∈ t.vocab
          · rw [if_pos hmem]
          · -- a pretoken outside the vocabulary has the same ids under either flag
            have hnone : t.vocabInv.lookup b = none := by
              by_contra hne
              exact hmem (hvocab b (Option.isSome_iff_ne_none.mpr hne))
            have hwhole : ∀ flag, MergeTables.wholeId flag t.vocabInv b = none := fun flag => by
              simp [MergeTables.wholeId, hnone]
            rw [if_neg hmem, shortEncoding_of_nil hadded, MergeTables.shortIds,
              MergeTables.shortIds, hwhole, hwhole]
    refine ⟨{ t with toStores := s, ignoreMerges }, ?_, ?_⟩
    · simp only [hs, hadded, applyAddedTokenOverwrites, Option.bind_eq_bind, Option.bind_some]
    · exact {
        vocabInv_lt := h.vocabInv_lt
        serves := hserves.congr fun b _ => (congrFun (shortEncoding_of_nil
          (t := { t with toStores := s, ignoreMerges }) hadded) b).symm
        has := by simp [overwrittenId, hadded]
        servesLong := servesLong_of_empty (h.fresh (by decide))
        built := fun _ => ⟨hadded, hvocab, hempty'⟩
        fresh := fun _ => h.fresh (by decide) }

/-- The long cache does not see short pretokens, so a change of the added tokens keeps
it. -/
lemma ServesLong.of_eq (h : t.ServesLong) (hlong : t'.pretokenCacheLong = t.pretokenCacheLong)
    (hle : t.tokenArena <+: t'.tokenArena) (htables : t'.tables = t.tables)
    (hinv : t'.vocabInv = t.vocabInv) (hignore : t'.ignoreMerges = t.ignoreMerges) :
    t'.ServesLong := by
  intro b q hq
  obtain ⟨hb, ids, hslice, hids⟩ := h b q (hlong ▸ hq)
  refine ⟨hb, ids, arenaSlice_mono hle hslice, fun hlt => ?_⟩
  rw [← hids (hle.length_le.trans_lt hlt), uncachedEncode, uncachedEncode, if_neg hb, if_neg hb,
    htables, hinv, hignore]

/-- `set_added_tokens` restores what the outgoing tokens have overwritten. The cache may
be out of date at pretokens that are overwritten now or were before. -/
lemma setAddedTokens_serves {enc : List UInt8 → List TokenId}
    (hinv : ∀ b, ∀ id ∈ t.vocabInv.lookup b, id < 2 ^ 32) (h : Serves hash enc t.toStores)
    (addedTokens : List AddedTokenDef)
    (henc : ∀ b, Short b → (t.vocabInv.lookup b).isSome = false ∨
      b ∉ t.addedTokens.map AddedTokenDef.content ∧ b ∉ addedTokens.map AddedTokenDef.content →
        enc b = t.tables.shortIds t.ignoreMerges t.vocabInv b) :
    ∃ s added, t.setAddedTokens hash addedTokens = some { t with toStores := s, addedTokens := added } ∧
      Serves hash (shortEncoding { t with toStores := s, addedTokens := added }) s ∧
      t.tokenArena <+: s.tokenArena ∧
      ∀ b, Short b → (overwrittenId { t with toStores := s, addedTokens := added } b).isSome →
        s.Has b := by
  obtain ⟨s₁, hrestore, h₁, hle₁⟩ := h.restoreOutgoing hinv t.tables t.ignoreMerges
    t.addedTokens
  set added := (addedTokens.filter fun tok => tok.content ≠ []).mergeSort
    fun a b => b.content.length ≤ a.content.length with hadded
  have hmem : ∀ b, Short b → (b ∈ added.map AddedTokenDef.content ↔
      b ∈ addedTokens.map AddedTokenDef.content) := by
    intro b hb
    have hne : b ≠ [] := List.ne_nil_of_length_pos hb.1
    simp only [hadded, List.mem_map, List.mem_mergeSort, List.mem_filter, decide_eq_true_eq]
    constructor
    · rintro ⟨tok, ⟨htok, -⟩, rfl⟩
      exact ⟨tok, htok, rfl⟩
    · rintro ⟨tok, htok, rfl⟩
      exact ⟨tok, ⟨htok, hne⟩, rfl⟩
  obtain ⟨s, hover, hs, hle, hhas⟩ := h₁.applyAddedTokenOverwrites hinv added
  refine ⟨s, added, ?_, hs.congr fun b hb => ?_, hle₁.trans hle, fun b hb hid => ?_⟩
  · simp only [setAddedTokens, hrestore, ← hadded, hover, Option.bind_eq_bind, Option.bind_some]
  · rw [shortEncoding_eq_ite]
    by_cases hnew : b ∈ added.map AddedTokenDef.content ∧ (t.vocabInv.lookup b).isSome
    · rw [if_pos hnew, if_pos hnew]
    · rw [if_neg hnew, if_neg hnew]
      split_ifs with hold
      · rfl
      · refine henc b hb ?_
        rw [hmem b hb] at hnew
        cases hid : (t.vocabInv.lookup b).isSome with
        | false => exact .inl rfl
        | true =>
            rw [hid] at hold hnew
            exact .inr ⟨fun hm => hold ⟨hm, rfl⟩, fun hm => hnew ⟨hm, rfl⟩⟩
  · obtain ⟨hm, hid⟩ := (overwrittenId_isSome b).mp hid
    exact hhas b hb hm hid

/-- `set_added_tokens` keeps the caches sound. -/
theorem Sound.setAddedTokens (h : Sound hash coldDiet stage t) (addedTokens : List AddedTokenDef) :
    ∃ t', t.setAddedTokens hash addedTokens = some t' ∧ Sound hash coldDiet stage.load t' := by
  obtain ⟨s, added, hrun, hserves, hle, hhas⟩ :=
    setAddedTokens_serves h.vocabInv_lt h.serves addedTokens fun b _ hb => by
      rw [shortEncoding_eq_ite, if_neg]
      rintro ⟨hmem, hid⟩
      obtain hid' | ⟨hnot, -⟩ := hb
      · simp [hid'] at hid
      · exact hnot hmem
  refine ⟨_, hrun, h.vocabInv_lt, hserves, hhas, h.servesLong.of_eq rfl hle rfl rfl rfl, ?_, ?_⟩
  · cases stage <;> simp [Stage.load]
  · intro hstage
    refine h.fresh ?_
    rintro rfl
    exact hstage rfl

/-- One special token changes the inverse vocabulary at its content only, and removes
nothing. -/
lemma addSpecialToken_spec {vocabInv : VocabInv} (content : List UInt8) {id : TokenId}
    (hid : id < 2 ^ 32) (vocab : List (List UInt8))
    (hinv : ∀ b, ∀ id ∈ vocabInv.lookup b, id < 2 ^ 32) :
    let inv := (addSpecialToken vocab vocabInv content id).2
    (∀ b, ∀ id ∈ inv.lookup b, id < 2 ^ 32) ∧
      (∀ b, b ≠ content → inv.lookup b = vocabInv.lookup b) ∧
      ∀ b, inv.lookup b = none → vocabInv.lookup b = none := by
  simp only [addSpecialToken]
  split_ifs
  · refine ⟨fun b id' hid' => ?_, fun b hne => AList.lookup_insert_ne hne, fun b hnone => ?_⟩
    · obtain rfl | hne := eq_or_ne b content
      · simp only [AList.lookup_insert, Option.mem_some_iff] at hid'
        exact hid' ▸ hid
      · simp only [AList.lookup_insert_ne hne] at hid'
        exact hinv b id' hid'
    · obtain rfl | hne := eq_or_ne b content
      · simp at hnone
      · simpa only [AList.lookup_insert_ne hne] using hnone
  · exact ⟨hinv, fun _ _ => rfl, fun _ h => h⟩

/-- `add_special_tokens` changes the inverse vocabulary at the new contents only, and
removes nothing. -/
lemma addSpecialLoop_spec {tokens : List (List UInt8 × TokenId)}
    (hid : ∀ p ∈ tokens, p.2 < 2 ^ 32) (vocab : List (List UInt8)) (vocabInv : VocabInv)
    (hinv : ∀ b, ∀ id ∈ vocabInv.lookup b, id < 2 ^ 32) :
    let inv := (addSpecialLoop tokens vocab vocabInv).2
    (∀ b, ∀ id ∈ inv.lookup b, id < 2 ^ 32) ∧
      (∀ b, b ∉ tokens.map Prod.fst → inv.lookup b = vocabInv.lookup b) ∧
      ∀ b, inv.lookup b = none → vocabInv.lookup b = none := by
  induction tokens generalizing vocab vocabInv with
  | nil => exact ⟨hinv, fun _ _ => rfl, fun _ h => h⟩
  | cons p tokens ih =>
      obtain ⟨content, id⟩ := p
      simp only [List.mem_cons, forall_eq_or_imp] at hid
      obtain ⟨hlt, heq, hnone⟩ := addSpecialToken_spec content hid.1 vocab hinv
      obtain ⟨hlt', heq', hnone'⟩ := ih hid.2 (addSpecialToken vocab vocabInv content id).1 _ hlt
      refine ⟨hlt', fun b hb => ?_, fun b hb => hnone b (hnone' b hb)⟩
      simp only [List.map_cons, List.mem_cons, not_or] at hb
      exact (heq' b hb.2).trans (heq b hb.1)

/-- `add_special_tokens` keeps the caches sound, before an input is encoded. -/
theorem Sound.addSpecialTokens (h : Sound hash coldDiet stage t) (hstage : stage ≠ .encoded)
    {tokens : List (List UInt8 × TokenId)} (hid : ∀ p ∈ tokens, p.2 < 2 ^ 32) :
    ∃ t', t.addSpecialTokens hash tokens = some t' ∧ Sound hash coldDiet .loaded t' := by
  obtain ⟨hlt, heq, hnone⟩ := addSpecialLoop_spec hid t.vocab t.vocabInv h.vocabInv_lt
  rw [Tokenizer.addSpecialTokens]
  rcases hloop : addSpecialLoop tokens t.vocab t.vocabInv with ⟨vocab, vocabInv⟩
  simp only [hloop] at hlt heq hnone ⊢
  obtain ⟨s, added, hrun, hserves, hle, hhas⟩ := setAddedTokens_serves
    (t := { t with vocab, vocabInv }) hlt h.serves
    (t.addedTokens ++ tokens.map fun (content, id) => ⟨content, id⟩) fun b _ hb => by
      -- away from the new contents and the old overwrites, nothing has changed
      obtain ⟨hlook, hold⟩ : vocabInv.lookup b = t.vocabInv.lookup b ∧
          ¬ (b ∈ t.addedTokens.map AddedTokenDef.content ∧ (t.vocabInv.lookup b).isSome) := by
        obtain hb | ⟨hnot, hnew⟩ := hb
        · have hb' : vocabInv.lookup b = none := by simpa using hb
          have hnone' := hnone b hb'
          exact ⟨hb'.trans hnone'.symm, by simp [hnone']⟩
        · refine ⟨heq b fun hmem => hnew ?_, fun hmem => hnot hmem.1⟩
          obtain ⟨p, hp, rfl⟩ := List.mem_map.mp hmem
          exact List.mem_map.mpr ⟨⟨p.1, p.2⟩, List.mem_append_right _ (List.mem_map_of_mem hp), rfl⟩
      rw [shortEncoding_eq_ite, if_neg hold]
      simp only [MergeTables.shortIds, MergeTables.wholeId, hlook]
  exact ⟨_, hrun, hlt, hserves, hhas, servesLong_of_empty (h.fresh hstage), by simp,
    fun _ => h.fresh hstage⟩

/-- `fork_sized` returns a sound tokenizer with fresh caches. -/
theorem Sound.forkSized (h : Sound hash coldDiet stage t) (cacheSlots : ℕ) :
    ∃ t', t.forkSized hash coldDiet cacheSlots = some t' ∧ Sound hash coldDiet .loaded t' := by
  obtain ⟨s₁, hseed, hserves₁, -⟩ := seededPretokenCache_serves hash coldDiet t.tables
    t.ignoreMerges h.vocabInv_lt t.vocab [] cacheSlots
  obtain ⟨s, hover, hs, -, hhas⟩ :=
    hserves₁.applyAddedTokenOverwrites h.vocabInv_lt t.addedTokens
  refine ⟨{ t with toStores := s, pretokenCacheLong := ∅ }, ?_, h.vocabInv_lt,
    hs.congr fun b _ => ?_, fun b hb hid => ?_, servesLong_of_empty rfl, by simp, fun _ => rfl⟩
  · simp only [Tokenizer.forkSized, hseed, hover, Option.bind_eq_bind, Option.bind_some]
  · rw [shortEncoding_eq_ite]
  · obtain ⟨hmem, hid⟩ := (overwrittenId_isSome b).mp hid
    exact hhas b hb hmem hid

end Tokenizer

end Hypertok
