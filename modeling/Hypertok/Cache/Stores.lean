import Hypertok.Cache.Short
import Hypertok.Cache.Symbols

/-!
The short cache and the token arena as one store, and the loops of the loader that
write to it.

* `Serves hash enc s`: every entry of the store decodes to what `enc` says of its
  pretoken, as long as the arena holds fewer than `2^32` tokens.
* `Serves.put`: one write changes `enc` at one pretoken.
* `Serves.reseedVocab`, `Serves.restoreOutgoing`, `Serves.applyAddedTokenOverwrites`:
  the loops, each as a sequence of such writes.
* `Serves.seedVocab`: the seeding loop, which skips the pretokens that are there.
-/

namespace Hypertok

open Machine

/-- The part of a tokenizer that the seeding functions write. -/
structure Stores where
  tokenArena : List TokenId
  pretokenCache : ShortPretokenCache

/-- `AddedTokenDef`, as far as the caches read it. -/
structure AddedTokenDef where
  content : List UInt8
  id : TokenId

/-! ### The loops of the loader -/

section Code

variable (hash : ℕ → ℕ)

/-- `pack_val`, and `replace` of the entry of `bytes`. -/
def Stores.put (s : Stores) (bytes : List UInt8) (symbols : List TokenId) : Option Stores := do
  let key ← packPretokenKey bytes
  let ((val, ext), arena) := packVal symbols s.tokenArena
  some ⟨arena, ← s.pretokenCache.replace hash ⟨key, val, ext⟩ (hash key)⟩

/-- `[TokenId(0); SHORT_MERGE_MAX]`. -/
def zeroBuf : List TokenId := List.replicate shortMergeMax 0

/-- The loop of `seeded_pretoken_cache`, which writes the seed value of every short
entry of the vocabulary that the cache does not hold. -/
def seedVocab (T : MergeTables) (ignoreMerges : Bool) (vocabInv : VocabInv) :
    List (List UInt8) → List TokenId → Stores → Option Stores
  | [], _, s => some s
  | bytes :: vocab, buf, s =>
      if Short bytes then do
        let key ← packPretokenKey bytes
        match ← s.pretokenCache.getOrSlot key (hash key) with
        | .ok _ => seedVocab T ignoreMerges vocabInv vocab buf s
        | .error _ => do
            let (buf, n) ← T.seedSymbolsAny ignoreMerges vocabInv bytes buf
            let ((val, ext), arena) := packVal (buf.take n) s.tokenArena
            let cache ← s.pretokenCache.insert hash ⟨key, val, ext⟩ (hash key)
            seedVocab T ignoreMerges vocabInv vocab buf ⟨arena, cache⟩
      else seedVocab T ignoreMerges vocabInv vocab buf s

/-- `seeded_pretoken_cache`. With `opt-cold-diet` the cache starts empty. -/
def seededPretokenCache (coldDiet : Bool) (T : MergeTables) (ignoreMerges : Bool)
    (vocabInv : VocabInv) (vocab : List (List UInt8)) (arena : List TokenId) (minSlots : ℕ) :
    Option Stores :=
  if coldDiet then do
    some ⟨arena, ← ShortPretokenCache.withAtLeast 0 minSlots⟩
  else do
    let nShort := vocab.countP fun bytes => Short bytes
    let cache ← ShortPretokenCache.withAtLeast nShort minSlots
    seedVocab hash T ignoreMerges vocabInv vocab zeroBuf ⟨arena, cache⟩

/-- The loop of `set_ignore_merges`, which rewrites the seed value of every short entry
of the vocabulary. The entries share one buffer. -/
def reseedVocab (T : MergeTables) (ignoreMerges : Bool) (vocabInv : VocabInv) :
    List (List UInt8) → List TokenId → Stores → Option Stores
  | [], _, s => some s
  | bytes :: vocab, buf, s =>
      if Short bytes then do
        let (buf, n) ← T.seedSymbolsAny ignoreMerges vocabInv bytes buf
        reseedVocab T ignoreMerges vocabInv vocab buf (← s.put hash bytes (buf.take n))
      else reseedVocab T ignoreMerges vocabInv vocab buf s

/-- The loop of `set_added_tokens` over the outgoing tokens, which restores their seed
values. -/
def restoreOutgoing (T : MergeTables) (ignoreMerges : Bool) (vocabInv : VocabInv) :
    List AddedTokenDef → Stores → Option Stores
  | [], s => some s
  | tok :: outgoing, s =>
      if Short tok.content ∧ (vocabInv.lookup tok.content).isSome then do
        let (buf, n) ← T.seedSymbolsAny ignoreMerges vocabInv tok.content zeroBuf
        restoreOutgoing T ignoreMerges vocabInv outgoing (← s.put hash tok.content (buf.take n))
      else restoreOutgoing T ignoreMerges vocabInv outgoing s

/-- `apply_added_token_overwrites`. -/
def applyAddedTokenOverwrites (vocabInv : VocabInv) : List AddedTokenDef → Stores → Option Stores
  | [], s => some s
  | tok :: addedTokens, s =>
      if Short tok.content then
        match vocabInv.lookup tok.content with
        | some id => do
            applyAddedTokenOverwrites vocabInv addedTokens (← s.put hash tok.content [id])
        | none => applyAddedTokenOverwrites vocabInv addedTokens s
      else applyAddedTokenOverwrites vocabInv addedTokens s

end Code

/-! ### The invariant -/

/-- A value decodes, and to `ids` if the arena holds fewer than `2^32` tokens. -/
def Decodes (arena : List TokenId) (val ext : ℕ) (ids : List TokenId) : Prop :=
  IsWords (val, ext) ∧ ∃ ids', decodeVal arena val ext = some ids' ∧
    (arena.length < 2 ^ 32 → ids' = ids)

/-- The cache has an entry for a pretoken. -/
def Stores.Has (s : Stores) (bytes : List UInt8) : Prop :=
  ∃ e ∈ s.pretokenCache.slots, packPretokenKey bytes = some e.key

/-- Every entry decodes to what `enc` says of its pretoken. -/
structure Serves (hash : ℕ → ℕ) (enc : List UInt8 → List TokenId) (s : Stores) : Prop where
  valid : s.pretokenCache.Valid hash
  entry : ∀ e ∈ s.pretokenCache.slots, e.key ≠ emptyKey → ∃ bytes, Short bytes ∧
    packPretokenKey bytes = some e.key ∧ Decodes s.tokenArena e.val e.ext (enc bytes)

/-- Ids that a value of the short cache can hold. -/
def Packable (ids : List TokenId) : Prop := ids.length < 2 ^ 7 ∧ ∀ a ∈ ids, a < 2 ^ 32

variable {hash : ℕ → ℕ} {enc enc' : List UInt8 → List TokenId} {s : Stores} {bytes : List UInt8}
  {ids : List TokenId}

lemma Decodes.mono {arena arena' : List TokenId} (hle : arena <+: arena') {val ext : ℕ}
    (h : Decodes arena val ext ids) : Decodes arena' val ext ids := by
  obtain ⟨hwords, ids', hdecode, hids⟩ := h
  exact ⟨hwords, ids', decodeVal_mono hle hdecode, fun hlt => hids (hle.length_le.trans_lt hlt)⟩

lemma key_ne_empty (h : Short bytes) {key : ℕ} (hkey : packPretokenKey bytes = some key) :
    key ≠ emptyKey := by
  rw [packPretokenKey_of_short h, Option.some_inj] at hkey
  exact hkey ▸ packPretokenKey_ne_zero h

/-- The key of a short pretoken. -/
lemma exists_key (h : Short bytes) : ∃ key, packPretokenKey bytes = some key ∧ key ≠ emptyKey :=
  ⟨_, packPretokenKey_of_short h, packPretokenKey_ne_zero h⟩

namespace Serves

/-- An empty cache serves anything. -/
lemma of_empty (hvalid : s.pretokenCache.Valid hash)
    (hempty : ∀ e ∈ s.pretokenCache.slots, e.key = emptyKey) : Serves hash enc s :=
  ⟨hvalid, fun e he hne => absurd (hempty e he) hne⟩

lemma congr (h : Serves hash enc s) (heq : ∀ b, Short b → enc b = enc' b) :
    Serves hash enc' s where
  valid := h.valid
  entry e he hne := by
    obtain ⟨b, hb, hkey, hdec⟩ := h.entry e he hne
    exact ⟨b, hb, hkey, heq b hb ▸ hdec⟩

/-- The entry of a key is that of its pretoken. -/
lemma entry_of_key (h : Serves hash enc s) (hb : Short bytes) {e : Entry}
    (he : e ∈ s.pretokenCache.slots) (hkey : packPretokenKey bytes = some e.key) :
    Decodes s.tokenArena e.val e.ext (enc bytes) := by
  obtain ⟨b, hb', hkey', hdec⟩ := h.entry e he (key_ne_empty hb hkey)
  exact packPretokenKey_inj hb' hb (hkey'.trans hkey.symm) ▸ hdec

/-- A further entry, or another value for one that is there. -/
lemma write (h : Serves hash enc s) (hb : Short bytes) {key : ℕ}
    (hkey : packPretokenKey bytes = some key) (hids : Packable ids) {val ext : ℕ}
    {arena : List TokenId} (hpack : packVal ids s.tokenArena = ((val, ext), arena))
    {cache : ShortPretokenCache} (hvalid : cache.Valid hash)
    (hmem : ∀ x : Entry, x.key ≠ emptyKey → (x ∈ cache.slots ↔ x = ⟨key, val, ext⟩ ∨
      x.key ≠ key ∧ x ∈ s.pretokenCache.slots)) :
    Serves hash (Function.update enc bytes ids) ⟨arena, cache⟩ ∧ s.tokenArena <+: arena ∧
      ∀ b, Short b → (Stores.Has ⟨arena, cache⟩ b ↔ b = bytes ∨ s.Has b) := by
  obtain ⟨hle, hwords, hdec⟩ := packVal_decode hids.1 hids.2 s.tokenArena hpack
  refine ⟨⟨hvalid, fun e he hne => ?_⟩, hle, fun b hb' => ?_⟩
  · obtain rfl | ⟨hk, he⟩ := (hmem e hne).mp he
    · exact ⟨bytes, hb, hkey, by rw [Function.update_self]; exact ⟨hwords, hdec⟩⟩
    · obtain ⟨b, hb', hkey', hdec'⟩ := h.entry e he hne
      have hbne : b ≠ bytes := by
        rintro rfl
        exact hk (Option.some_inj.mp (hkey'.symm.trans hkey))
      exact ⟨b, hb', hkey', by rw [Function.update_of_ne hbne]; exact hdec'.mono hle⟩
  · constructor
    · rintro ⟨e, he, hk⟩
      obtain rfl | ⟨-, he⟩ := (hmem e (key_ne_empty hb' hk)).mp he
      · exact .inl (packPretokenKey_inj hb' hb (hk.trans hkey.symm))
      · exact .inr ⟨e, he, hk⟩
    · rintro (rfl | ⟨e, he, hk⟩)
      · exact ⟨_, (hmem _ (key_ne_empty hb hkey)).mpr (.inl rfl), hkey⟩
      · by_cases hek : e.key = key
        · exact ⟨_, (hmem _ (key_ne_empty hb hkey)).mpr (.inl rfl), by rw [hk, hek]⟩
        · exact ⟨e, (hmem e (key_ne_empty hb' hk)).mpr (.inr ⟨hek, he⟩), hk⟩

/-- `put` changes the encoding of one pretoken. -/
lemma put (h : Serves hash enc s) (hb : Short bytes) (hids : Packable ids) :
    ∃ s', s.put hash bytes ids = some s' ∧ Serves hash (Function.update enc bytes ids) s' ∧
      s.tokenArena <+: s'.tokenArena ∧ ∀ b, Short b → (s'.Has b ↔ b = bytes ∨ s.Has b) := by
  obtain ⟨key, hkey, hne⟩ := exists_key hb
  rcases hpack : packVal ids s.tokenArena with ⟨⟨val, ext⟩, arena⟩
  obtain ⟨cache, hreplace, hvalid, hmem⟩ := h.valid.replace (e := ⟨key, val, ext⟩) hne
  refine ⟨⟨arena, cache⟩, ?_, h.write hb hkey hids hpack hvalid hmem⟩
  simp only [Stores.put, hkey, hpack, hreplace, Option.bind_eq_bind, Option.bind_some]

/-- A sequence of writes, where the value of a pretoken depends on it alone. -/
lemma putAll (h : Serves hash enc s) (f : List UInt8 → List TokenId) (bs : List (List UInt8))
    (hbs : ∀ b ∈ bs, Short b ∧ Packable (f b)) :
    ∃ s', bs.foldlM (fun s b => s.put hash b (f b)) s = some s' ∧
      Serves hash (fun b => if b ∈ bs then f b else enc b) s' ∧
        s.tokenArena <+: s'.tokenArena ∧ ∀ b, Short b → (s'.Has b ↔ b ∈ bs ∨ s.Has b) := by
  induction bs generalizing s enc with
  | nil => exact ⟨s, rfl, h.congr fun b _ => by simp, List.prefix_rfl, by simp⟩
  | cons b₀ bs ih =>
      simp only [List.mem_cons, forall_eq_or_imp] at hbs
      obtain ⟨s₁, hput, h₁, hle₁, hhas₁⟩ := h.put hbs.1.1 hbs.1.2
      obtain ⟨s', hrun, h', hle, hhas⟩ := ih h₁ hbs.2
      refine ⟨s', ?_, h'.congr fun b _ => ?_, hle₁.trans hle, fun b hb => ?_⟩
      · rw [List.foldlM_cons, hput]
        exact hrun
      · by_cases hmem : b ∈ bs
        · simp [hmem]
        · obtain rfl | hne := eq_or_ne b b₀
          · simp [hmem]
          · simp [hmem, hne]
      · rw [hhas b hb, hhas₁ b hb, List.mem_cons]
        tauto

end Serves

/-! ### The loops, as writes -/

section

variable {T : MergeTables} {ignoreMerges : Bool} {vocabInv : VocabInv}

lemma reseedVocab_eq (vocab : List (List UInt8)) (buf : List TokenId) (s : Stores) :
    reseedVocab hash T ignoreMerges vocabInv vocab buf s =
      (vocab.filter fun b => Short b).foldlM
        (fun s b => s.put hash b (T.shortIds ignoreMerges vocabInv b)) s := by
  induction vocab generalizing buf s with
  | nil => rfl
  | cons b vocab ih =>
      by_cases hb : Short b
      · obtain ⟨buf', n, hseed, htake⟩ := T.seedSymbolsAny_eq ignoreMerges vocabInv hb buf
        rw [List.filter_cons_of_pos (by simpa using hb), List.foldlM_cons, reseedVocab, if_pos hb]
        simp only [hseed, htake, Option.bind_eq_bind, Option.bind_some, ih]
      · rw [List.filter_cons_of_neg (by simpa using hb), reseedVocab, if_neg hb, ih]

lemma restoreOutgoing_eq (outgoing : List AddedTokenDef) (s : Stores) :
    restoreOutgoing hash T ignoreMerges vocabInv outgoing s =
      ((outgoing.map AddedTokenDef.content).filter fun b =>
          Short b ∧ (vocabInv.lookup b).isSome).foldlM
        (fun s b => s.put hash b (T.shortIds ignoreMerges vocabInv b)) s := by
  induction outgoing generalizing s with
  | nil => rfl
  | cons tok outgoing ih =>
      rw [List.map_cons]
      by_cases hb : Short tok.content ∧ (vocabInv.lookup tok.content).isSome
      · obtain ⟨buf', n, hseed, htake⟩ := T.seedSymbolsAny_eq ignoreMerges vocabInv hb.1 zeroBuf
        rw [List.filter_cons_of_pos (by simpa using hb), List.foldlM_cons, restoreOutgoing,
          if_pos hb]
        simp only [hseed, htake, Option.bind_eq_bind, Option.bind_some, ih]
      · rw [List.filter_cons_of_neg (by simpa using hb), restoreOutgoing, if_neg hb, ih]

lemma applyAddedTokenOverwrites_eq (addedTokens : List AddedTokenDef) (s : Stores) :
    applyAddedTokenOverwrites hash vocabInv addedTokens s =
      ((addedTokens.map AddedTokenDef.content).filter fun b =>
          Short b ∧ (vocabInv.lookup b).isSome).foldlM
        (fun s b => s.put hash b [(vocabInv.lookup b).getD 0]) s := by
  induction addedTokens generalizing s with
  | nil => rfl
  | cons tok addedTokens ih =>
      rw [List.map_cons, applyAddedTokenOverwrites]
      by_cases hb : Short tok.content
      · rw [if_pos hb]
        cases hid : vocabInv.lookup tok.content with
        | some id =>
            rw [List.filter_cons_of_pos (by simp [hb, hid]), List.foldlM_cons, hid]
            simp only [Option.bind_eq_bind, Option.getD_some, ih]
        | none => rw [List.filter_cons_of_neg (by simp [hid])]; exact ih s
      · rw [if_neg hb, List.filter_cons_of_neg (by simp [hb]), ih]

namespace Serves

variable (h : Serves hash enc s) (hinv : ∀ b, ∀ id ∈ vocabInv.lookup b, id < 2 ^ 32)
include h hinv

/-- `set_ignore_merges` gives every short entry of the vocabulary its seed value. -/
lemma reseedVocab (T : MergeTables) (ignoreMerges : Bool) (vocab : List (List UInt8))
    (buf : List TokenId) :
    ∃ s', reseedVocab hash T ignoreMerges vocabInv vocab buf s = some s' ∧
      Serves hash (fun b => if b ∈ vocab then T.shortIds ignoreMerges vocabInv b else enc b)
        s' := by
  rw [reseedVocab_eq]
  obtain ⟨s', hrun, h', -, -⟩ := h.putAll (T.shortIds ignoreMerges vocabInv)
    (vocab.filter fun b => Short b) fun b hb => by
      have hb' : Short b := by simpa using (List.mem_filter.mp hb).2
      exact ⟨hb', MergeTables.shortIds_spec hinv hb'⟩
  exact ⟨s', hrun, h'.congr fun b hb => by simp [hb]⟩

/-- `set_added_tokens` restores the seed values of the outgoing tokens. -/
lemma restoreOutgoing (T : MergeTables) (ignoreMerges : Bool)
    (outgoing : List AddedTokenDef) :
    ∃ s', restoreOutgoing hash T ignoreMerges vocabInv outgoing s = some s' ∧
      Serves hash (fun b => if b ∈ outgoing.map AddedTokenDef.content ∧
        (vocabInv.lookup b).isSome then T.shortIds ignoreMerges vocabInv b else enc b) s' ∧
          s.tokenArena <+: s'.tokenArena := by
  rw [restoreOutgoing_eq]
  obtain ⟨s', hrun, h', hle, -⟩ := h.putAll (T.shortIds ignoreMerges vocabInv)
    ((outgoing.map AddedTokenDef.content).filter fun b =>
      Short b ∧ (vocabInv.lookup b).isSome) fun b hb => by
      have hb' : Short b ∧ (vocabInv.lookup b).isSome := by simpa using (List.mem_filter.mp hb).2
      exact ⟨hb'.1, MergeTables.shortIds_spec hinv hb'.1⟩
  refine ⟨s', hrun, h'.congr fun b hb => ?_, hle⟩
  simp only [List.mem_filter, decide_eq_true_eq, hb, true_and]

/-- The overwrites of the added tokens that resolve in the vocabulary. -/
lemma applyAddedTokenOverwrites (addedTokens : List AddedTokenDef) :
    ∃ s', applyAddedTokenOverwrites hash vocabInv addedTokens s = some s' ∧
      Serves hash (fun b => if b ∈ addedTokens.map AddedTokenDef.content ∧
        (vocabInv.lookup b).isSome then [(vocabInv.lookup b).getD 0] else enc b) s' ∧
          s.tokenArena <+: s'.tokenArena ∧ ∀ b, Short b →
            b ∈ addedTokens.map AddedTokenDef.content → (vocabInv.lookup b).isSome → s'.Has b := by
  rw [applyAddedTokenOverwrites_eq]
  obtain ⟨s', hrun, h', hle, hhas⟩ := h.putAll (fun b => [(vocabInv.lookup b).getD 0])
    ((addedTokens.map AddedTokenDef.content).filter fun b =>
      Short b ∧ (vocabInv.lookup b).isSome) fun b hb => by
      have hb' : Short b ∧ (vocabInv.lookup b).isSome := by simpa using (List.mem_filter.mp hb).2
      obtain ⟨id, hid⟩ := Option.isSome_iff_exists.mp hb'.2
      exact ⟨hb'.1, by simp, by simpa [hid] using hinv b id hid⟩
  refine ⟨s', hrun, h'.congr fun b hb => ?_, hle, fun b hb hmem hid => (hhas b hb).mpr (.inl ?_)⟩
  · simp only [List.mem_filter, decide_eq_true_eq, hb, true_and]
  · exact List.mem_filter.mpr ⟨hmem, by simp [hb, hid]⟩

end Serves

/-- The seeding loop fills the cache with seed values. -/
lemma Serves.seedVocab (h : Serves hash (T.shortIds ignoreMerges vocabInv) s)
    (hinv : ∀ b, ∀ id ∈ vocabInv.lookup b, id < 2 ^ 32) (vocab : List (List UInt8))
    (buf : List TokenId) :
    ∃ s', seedVocab hash T ignoreMerges vocabInv vocab buf s = some s' ∧
      Serves hash (T.shortIds ignoreMerges vocabInv) s' ∧
        (∀ b, Short b → b ∈ vocab ∨ s.Has b → s'.Has b) ∧
          s'.tokenArena.length ≤ s.tokenArena.length + 2 ^ 7 * vocab.length := by
  induction vocab generalizing buf s with
  | nil => exact ⟨s, rfl, h, by simp, by simp⟩
  | cons b vocab ih =>
      rw [Hypertok.seedVocab]
      by_cases hb : Short b
      · rw [if_pos hb]
        obtain ⟨key, hkey, hne⟩ := exists_key hb
        obtain ⟨e, he, hek, hget⟩ | ⟨i, e₀, hfull, he₀, hempty, hget⟩ := h.valid.getOrSlot key
        · obtain ⟨s', hrun, h', hhas, harena⟩ := ih h buf
          have hold : s.Has b := ⟨e, he, hek ▸ hkey⟩
          refine ⟨s', by simp only [hkey, hget, Option.bind_eq_bind, Option.bind_some, hrun], h',
            fun b' hb' hmem => hhas b' hb' ?_, by rw [List.length_cons]; omega⟩
          rw [List.mem_cons] at hmem
          rcases hmem with (rfl | hmem) | hmem
          · exact .inr hold
          · exact .inl hmem
          · exact .inr hmem
        · obtain ⟨buf', n, hseed, htake⟩ := T.seedSymbolsAny_eq ignoreMerges vocabInv hb buf
          rcases hpack : packVal (T.shortIds ignoreMerges vocabInv b) s.tokenArena with
            ⟨⟨val, ext⟩, arena⟩
          -- the walk has stopped at an empty slot, so the key is new
          have hnew : ∀ x ∈ s.pretokenCache.slots, x.key ≠ key := fun x hx heq =>
            h.valid.placed.probed.not_stores hfull he₀
              (ShortPretokenCache.probing_key_eq_none.mpr hempty) x
              (ShortPretokenCache.probing_stores.mpr ⟨hx, heq, hne⟩)
          obtain ⟨cache, hinsert, hvalid, hmem⟩ :=
            h.valid.insert (e := ⟨key, val, ext⟩) hne hnew
          have hspec : Packable (T.shortIds ignoreMerges vocabInv b) := T.shortIds_spec hinv hb
          obtain ⟨h₁, -, hhas₁⟩ := h.write hb hkey hspec hpack hvalid fun x hx => by
            rw [hmem x hx]
            exact or_congr_right ⟨fun hx' => ⟨hnew x hx', hx'⟩, And.right⟩
          rw [Function.update_eq_self] at h₁
          have hlen := length_packVal_le (T.shortIds ignoreMerges vocabInv b) s.tokenArena
          rw [hpack] at hlen
          obtain ⟨s', hrun, h', hhas, harena⟩ := ih h₁ buf'
          refine ⟨s', ?_, h', fun b' hb' hmem => hhas b' hb' ?_, ?_⟩
          · simp only [hkey, hget, hseed, htake, hpack, hinsert, Option.bind_eq_bind,
              Option.bind_some, hrun]
          · rw [List.mem_cons] at hmem
            rcases hmem with (rfl | hmem) | hmem
            · exact .inr ((hhas₁ _ hb').mpr (.inl rfl))
            · exact .inl hmem
            · exact .inr ((hhas₁ _ hb').mpr (.inr hmem))
          · have hshort := hspec.1
            simp only [List.length_cons] at harena hlen ⊢
            omega
      · rw [if_neg hb]
        obtain ⟨s', hrun, h', hhas, harena⟩ := ih h buf
        refine ⟨s', hrun, h', fun b' hb' hmem => hhas b' hb' ?_, by rw [List.length_cons]; omega⟩
        rw [List.mem_cons] at hmem
        rcases hmem with (rfl | hmem) | hmem
        · exact absurd hb' hb
        · exact .inl hmem
        · exact .inr hmem

/-- A new cache holds seed values only, and nothing with `opt-cold-diet`. -/
theorem seededPretokenCache_serves (hash : ℕ → ℕ) (coldDiet : Bool) (T : MergeTables)
    (ignoreMerges : Bool) {vocabInv : VocabInv}
    (hinv : ∀ b, ∀ id ∈ vocabInv.lookup b, id < 2 ^ 32) (vocab : List (List UInt8))
    (arena : List TokenId) (minSlots : ℕ) :
    ∃ s, seededPretokenCache hash coldDiet T ignoreMerges vocabInv vocab arena minSlots = some s ∧
      Serves hash (T.shortIds ignoreMerges vocabInv) s ∧
        (coldDiet → ∀ e ∈ s.pretokenCache.slots, e.key = emptyKey) ∧
          (coldDiet = false → ∀ b ∈ vocab, Short b → s.Has b) ∧
            s.tokenArena.length ≤ arena.length + 2 ^ 7 * vocab.length := by
  rw [seededPretokenCache]
  cases coldDiet with
  | true =>
      obtain ⟨cache, hnew, hvalid, hempty⟩ :=
        ShortPretokenCache.withAtLeast_valid hash 0 minSlots
      exact ⟨⟨arena, cache⟩, by simp [hnew], .of_empty hvalid hempty, fun _ => hempty, by simp,
        Nat.le_add_right _ _⟩
  | false =>
      obtain ⟨cache, hnew, hvalid, hempty⟩ := ShortPretokenCache.withAtLeast_valid hash
        (vocab.countP fun bytes => Short bytes) minSlots
      have hfresh : Serves hash (T.shortIds ignoreMerges vocabInv) ⟨arena, cache⟩ :=
        .of_empty hvalid hempty
      obtain ⟨s, hrun, h', hhas, harena⟩ := hfresh.seedVocab hinv vocab zeroBuf
      exact ⟨s, by simp [hnew, hrun], h', by simp, fun _ b hb hshort => hhas b hshort (.inl hb),
        harena⟩

end

end Hypertok
