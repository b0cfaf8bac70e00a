import Hypertok.Convert.Recover
import Hypertok.Format.Schema
import Hypertok.Load.ByteBpe
import Hypertok.Machine.Utf8

/-!
A byte-BPE `tokenizer.json`, as a file.

* `decodeByteAlias`: the bytes of a token, whose letters stand for bytes.
* `convertByteBpe`: the slots, the byte tokens and the priorities.
* `convertByteBpe_merges`: what the loader recovers. Without duplicate products it is
  the admitted merges just when these are a replay; with them, the listed merges with
  one priority for each product.
-/

namespace Hypertok

open PairMerge Machine

/-! ### The code -/

/-- The bytes whose letter has their number. -/
def isDirectByte (b : UInt8) : Bool :=
  (0x21 ≤ b && b ≤ 0x7E) || (0xA1 ≤ b && b ≤ 0xAC) || 0xAE ≤ b

/-- The loop of `byte_alias_inverse`: the other bytes are numbered from 256. -/
def byteAliases : ℕ → List UInt8 → List (Char × UInt8)
  | _, [] => []
  | next, b :: bytes =>
      if isDirectByte b then (Char.ofNat b.toNat, b) :: byteAliases next bytes
      else (Char.ofNat (256 + next), b) :: byteAliases (next + 1) bytes

/-- `byte_alias_inverse`. -/
def byteAliasInverse : List (Char × UInt8) := byteAliases 0 byteValues

/-- `decode_byte_alias`. -/
def decodeByteAlias (token : Text) : Except JsonConversionError (List UInt8) :=
  token.mapM fun character =>
    match byteAliasInverse.lookup character with
    | some b => .ok b
    | none => .error (.unsupported "byte-level token alphabet")

/-- The ids and the records of the added tokens so far. -/
structure AddedRecords where
  ids : Finset TokenId
  records : AList fun _ : TokenId => JsonAddedToken

/-- One turn of `validate_byte_added_tokens`. -/
def addedTokenStep (modelTokens : List Text) (st : AddedRecords) (token : JsonAddedToken) :
    Except JsonConversionError AddedRecords :=
  match st.records.lookup token.id with
  | some previous => if previous ≠ token then .error (.invalidId token.id) else .ok st
  | none =>
      if ∃ modelToken ∈ modelTokens[token.id]?, modelToken ≠ token.content then
        .error (.invalidId token.id)
      else .ok ⟨insert token.id st.ids, st.records.insert token.id token⟩

/-- `validate_byte_added_tokens`. -/
def validateByteAddedTokens (added : List JsonAddedToken) (modelTokens : List Text) :
    Except JsonConversionError (Finset TokenId) := do
  let st ← added.foldlM (addedTokenStep modelTokens) ⟨∅, ∅⟩
  return st.ids

/-- The slots so far, and the ids of their bytes. -/
structure ByteSlots where
  slots : List (Option (List UInt8))
  lookup : AList fun _ : List UInt8 => TokenId

/-- One turn of the loop over the model tokens. -/
def modelSlotStep (addedIds : Finset TokenId) (st : ByteSlots) (x : Text × TokenId) :
    Except JsonConversionError ByteSlots :=
  if x.2 ∈ addedIds then .ok st
  else do
    let bytes ← decodeByteAlias x.1
    if (st.lookup.lookup bytes).isSome then
      .error (.invalidVocabulary "duplicate decoded-byte token")
    else if st.slots.length ≤ x.2 then .error .outOfRange
    else .ok ⟨st.slots.set x.2 (some bytes), st.lookup.insert bytes x.2⟩

/-- One turn of the loop over the added tokens. -/
def addedSlotStep (slots : List (Option (List UInt8))) (token : JsonAddedToken) :
    Except JsonConversionError (List (Option (List UInt8))) :=
  if token.content.isEmpty then .error (.invalidVocabulary "empty added token")
  else .ok (slots.set token.id (some (textBytes token.content)))

/-- The byte tokens so far. -/
structure ByteBase where
  byByte : List (Option TokenId)
  ids : Finset TokenId

/-- One turn of `derive_byte_base`. -/
def byteBaseStep (added : Finset TokenId) (st : ByteBase) (x : Option (List UInt8) × TokenId) :
    Except JsonConversionError ByteBase :=
  if x.2 ∈ added then .ok st
  else
    match x.1 with
    | some [byte] =>
        if (st.byByte.getD byte.toNat none).isSome then
          .error (.invalidVocabulary "duplicate byte base")
        else .ok ⟨st.byByte.set byte.toNat (some x.2), insert x.2 st.ids⟩
    | _ => .ok st

/-- `derive_byte_base`. -/
def deriveByteBase (slots : List (Option (List UInt8))) (added : Finset TokenId) :
    Except JsonConversionError (List TokenId × Finset TokenId) := do
  let st ← slots.zipIdx.foldlM (byteBaseStep added) ⟨List.replicate 256 none, ∅⟩
  let output ← st.byByte.zipIdx.mapM fun x =>
    match x.1 with
    | some id => .ok id
    | none =>
        .error (.invalidVocabulary
          (if x.2 = 0 then "missing byte base" else "incomplete byte base"))
  return (output, st.ids)

/-- The size of the vocabulary: one more than the highest id. -/
def byteVocabSize (added : List JsonAddedToken) (modelTokens : List Text) :
    Except JsonConversionError ℕ :=
  let modelMax := if modelTokens.length ≤ u32Max ∧ 1 ≤ modelTokens.length then
    [modelTokens.length - 1] else []
  match (added.map JsonAddedToken.id ++ modelMax).max? with
  | none => .error (.invalidVocabulary "empty vocabulary")
  | some highestId =>
      if u32Max < highestId + 1 ∨ maxVocabSize < highestId + 1 then .error .sizeOverflow
      else .ok (highestId + 1)

/-- The sections as they are written, with what the validation of the writer checks. -/
def writeByteFile (slots : List (Option (List UInt8))) (base : List TokenId)
    (specials : Finset TokenId) (p : Priorities) : Except JsonConversionError ByteFile :=
  let vocab := slots.map fun token => token.getD []
  if h : vocab.length ≤ 2 ^ 28 ∧ (vocab.map List.length).sum ≤ u32Max ∧
      byteValues.all fun b => base.getD b.toNat 0 < vocab.length then
    .ok {
      vocab := vocab
      base := fun b => base.getD b.toNat 0
      specials := specials
      vocab_le := h.1
      arena_le := h.2.1
      base_lt := fun b => by simpa using List.all_eq_true.mp h.2.2 b (mem_byteValues b)
      priorities :=
        if p.inversions ≠ 0 ∨ p.nonProducts ≠ 0 ∨ p.exhaustiveSplits then some p.priorities
        else none
      exhaustiveSplits := p.exhaustiveSplits }
  else .error .write

/-- `convert_byte_bpe`. -/
def convertByteBpe (parsed : TokenizerJson) : Except JsonConversionError ByteFile := do
  let modelTokens ← orderedModelTokens parsed.vocab
  let addedIds ← validateByteAddedTokens parsed.addedTokens modelTokens
  let vocabSize ← byteVocabSize parsed.addedTokens modelTokens
  let st ← modelTokens.zipIdx.foldlM (modelSlotStep addedIds) ⟨List.replicate vocabSize none, ∅⟩
  let slots ← parsed.addedTokens.foldlM addedSlotStep st.slots
  let (base, baseIds) ← deriveByteBase slots addedIds
  let p ← deriveBytePriority parsed.merges parsed.vocab addedIds baseIds vocabSize
  writeByteFile slots base addedIds p

/-! ### What the sections hold -/

variable {parsed : TokenizerJson} {file : ByteFile} {modelTokens : List Text}
  {addedIds : Finset TokenId}

/-- The letters of a token stand for its bytes. -/
lemma decodeByteAlias_ok_iff {t : Text} {bytes : List UInt8} :
    decodeByteAlias t = .ok bytes ↔
      List.Forall₂ (fun c b => byteAliasInverse.lookup c = some b) t bytes := by
  rw [decodeByteAlias, mapM_ok_iff]
  have hletter : ∀ (c : Char) (b : UInt8), (match byteAliasInverse.lookup c with
      | some b => (.ok b : Except JsonConversionError UInt8)
      | none => .error (.unsupported "byte-level token alphabet")) = .ok b ↔
      byteAliasInverse.lookup c = some b := by
    intro c b
    cases byteAliasInverse.lookup c <;> simp
  simp only [hletter]

lemma map_snd_byteAliases (next : ℕ) (bytes : List UInt8) :
    (byteAliases next bytes).map Prod.snd = bytes := by
  induction bytes generalizing next with
  | nil => rfl
  | cons b bytes ih =>
      rw [byteAliases]
      split_ifs <;> rw [List.map_cons, ih]

lemma nodup_byteValues : byteValues.Nodup := by
  refine List.Nodup.map_on (fun a ha b hb h => ?_) List.nodup_range
  rw [List.mem_range] at ha hb
  have := congrArg UInt8.toNat h
  simpa [Nat.mod_eq_of_lt ha, Nat.mod_eq_of_lt hb] using this

/-- The letters are told apart by the numbers of their bytes. -/
lemma nodup_byteAliasInverse : (byteAliasInverse.map Prod.fst).Nodup := by
  have hcode : (byteAliasInverse.map Prod.fst).map (fun c => if c.toNat < 256 then c.toNat
      else if c.toNat < 289 then c.toNat - 256 else if c.toNat < 323 then c.toNat - 162
      else 173) = List.range 256 := by decide +kernel
  exact List.Nodup.of_map _ (hcode ▸ List.nodup_range)

/-- No letter stands for two bytes. -/
lemma lookup_byteAliasInverse {x : Char × UInt8} (hx : x ∈ byteAliasInverse) :
    byteAliasInverse.lookup x.1 = some x.2 := by
  obtain ⟨l₁, l₂, hl⟩ := List.append_of_mem hx
  have hnodup := nodup_byteAliasInverse
  rw [hl, List.map_append, List.map_cons, List.nodup_append] at hnodup
  refine List.lookup_eq_some_iff.mpr ⟨l₁, l₂, hl, fun p hp => ?_⟩
  rw [bne_iff_ne]
  exact (hnodup.2.2 p.1 (List.mem_map_of_mem hp) x.1 (by simp)).symm

/-- A byte has one letter. -/
lemma lookup_byteAliasInverse_inj {c c' : Char} {b : UInt8}
    (h : byteAliasInverse.lookup c = some b) (h' : byteAliasInverse.lookup c' = some b) :
    c = c' := by
  have hmem : ∀ c, byteAliasInverse.lookup c = some b → (c, b) ∈ byteAliasInverse := by
    intro c h
    obtain ⟨l₁, l₂, hl, -⟩ := List.lookup_eq_some_iff.mp h
    simp [hl]
  have hnodup : (byteAliasInverse.map Prod.snd).Nodup :=
    (map_snd_byteAliases 0 byteValues).symm ▸ nodup_byteValues
  exact congrArg Prod.fst (List.inj_on_of_nodup_map hnodup (hmem c h) (hmem c' h') rfl)

/-- The added ids are the ids of the added tokens. -/
lemma validateByteAddedTokens_ok {added : List JsonAddedToken}
    (h : validateByteAddedTokens added modelTokens = .ok addedIds) (id : TokenId) :
    id ∈ addedIds ↔ ∃ token ∈ added, token.id = id := by
  obtain ⟨st, hst, hids⟩ := bind_eq_ok_iff.mp h
  cases hids
  have hinv : (∀ id token, st.records.lookup id = some token → id ∈ st.ids) ∧
      ∀ id, id ∈ st.ids ↔ ∃ token ∈ added, token.id = id := by
    refine foldlM_ok (I := fun done st =>
      (∀ id token, st.records.lookup id = some token → id ∈ st.ids) ∧
      ∀ id, id ∈ st.ids ↔ ∃ token ∈ done, token.id = id) (by simp) ?_ hst
    rintro done token st st' - ⟨hrecords, hdone⟩ hstep
    have hconcat : ∀ id, (∃ x ∈ done ++ [token], x.id = id) ↔ token.id = id ∨ id ∈ st.ids := by
      intro id
      simp [hdone, or_and_right, exists_or, or_comm]
    rw [addedTokenStep] at hstep
    split at hstep
    case h_1 previous hprev =>
        split_ifs at hstep
        cases hstep
        refine ⟨hrecords, fun id => ?_⟩
        rw [hconcat, iff_or_self]
        rintro rfl
        exact hrecords _ _ hprev
    case h_2 =>
        split_ifs at hstep
        cases hstep
        refine ⟨fun id x hx => ?_, fun id => ?_⟩
        · by_cases hid : id = token.id
          · simp [hid]
          · rw [AList.lookup_insert_ne hid] at hx
            exact Finset.mem_insert_of_mem (hrecords id x hx)
        · rw [hconcat, Finset.mem_insert, eq_comm]
  exact hinv.2 id

/-- The slots of the model tokens hold their bytes; the other slots are empty. -/
lemma modelSlots_ok {n : ℕ} {st : ByteSlots}
    (h : modelTokens.zipIdx.foldlM (modelSlotStep addedIds) ⟨List.replicate n none, ∅⟩ = .ok st) :
    st.slots.length = n ∧
      (∀ t id, modelTokens[id]? = some t → id ∉ addedIds → ∃ bytes,
        decodeByteAlias t = .ok bytes ∧ st.slots[id]? = some (some bytes)) ∧
      ∀ id bytes, st.slots[id]? = some (some bytes) → id ∉ addedIds ∧
        ∃ t, modelTokens[id]? = some t := by
  have hinv : st.slots.length = n ∧
      (∀ t id, (t, id) ∈ modelTokens.zipIdx → id ∉ addedIds → ∃ bytes,
        decodeByteAlias t = .ok bytes ∧ st.slots[id]? = some (some bytes)) ∧
      ∀ id bytes, st.slots[id]? = some (some bytes) → id ∉ addedIds ∧
        ∃ t, modelTokens[id]? = some t := by
    refine foldlM_ok (I := fun done (st : ByteSlots) => st.slots.length = n ∧
      (∀ t id, (t, id) ∈ done → id ∉ addedIds → ∃ bytes,
        decodeByteAlias t = .ok bytes ∧ st.slots[id]? = some (some bytes)) ∧
      ∀ id bytes, st.slots[id]? = some (some bytes) → id ∉ addedIds ∧
        ∃ t, modelTokens[id]? = some t) ?_ ?_ h
    · refine ⟨List.length_replicate, by simp, fun id bytes hid => ?_⟩
      simp [List.getElem?_replicate] at hid
    · rintro done ⟨t₀, id₀⟩ st st' hdone ⟨hn, hmodel, hslots⟩ hstep
      have htoken : ∀ x ∈ done ++ [(t₀, id₀)], modelTokens[x.2]? = some x.1 := fun x hx =>
        List.mem_zipIdx_iff_getElem?.mp (hdone.subset hx)
      have ht₀ := htoken (t₀, id₀) (by simp)
      rw [modelSlotStep] at hstep
      by_cases hadded : id₀ ∈ addedIds
      · rw [if_pos hadded] at hstep
        cases hstep
        refine ⟨hn, fun t id hx hid => ?_, hslots⟩
        rcases List.mem_append.mp hx with hx | hx
        · exact hmodel t id hx hid
        · obtain ⟨-, rfl⟩ := Prod.mk.inj (List.mem_singleton.mp hx)
          exact absurd hadded hid
      · rw [if_neg hadded] at hstep
        obtain ⟨bytes, hbytes, hstep⟩ := bind_eq_ok_iff.mp hstep
        split_ifs at hstep with hdup hrange
        cases hstep
        have hlt : id₀ < st.slots.length := not_le.mp hrange
        refine ⟨by rwa [List.length_set], fun t id hx hid => ?_, fun id bytes' hid => ?_⟩
        · by_cases heq : id = id₀
          · -- an id has one token
            subst heq
            have ht := (htoken (t, id) hx).symm.trans ht₀
            obtain rfl := Option.some_inj.mp ht
            exact ⟨bytes, hbytes, List.getElem?_set_self hlt⟩
          · rw [List.getElem?_set_ne (Ne.symm heq)]
            rcases List.mem_append.mp hx with hx | hx
            · exact hmodel t id hx hid
            · exact absurd (Prod.mk.inj (List.mem_singleton.mp hx)).2 heq
        · by_cases heq : id = id₀
          · subst heq
            exact ⟨hadded, t₀, ht₀⟩
          · rw [List.getElem?_set_ne (Ne.symm heq)] at hid
            exact hslots id bytes' hid
  exact ⟨hinv.1, fun t id ht => hinv.2.1 t id (List.mem_zipIdx_iff_getElem?.mpr ht), hinv.2.2⟩

/-- The added tokens fill their slots only. -/
lemma addedSlots_ok {added : List JsonAddedToken} {slots slots' : List (Option (List UInt8))}
    (hids : ∀ id, id ∈ addedIds ↔ ∃ token ∈ added, token.id = id)
    (h : added.foldlM addedSlotStep slots = .ok slots') :
    slots'.length = slots.length ∧ ∀ id ∉ addedIds, slots'[id]? = slots[id]? := by
  refine foldlM_ok (I := fun _ (st : List (Option (List UInt8))) => st.length = slots.length ∧
    ∀ id ∉ addedIds, st[id]? = slots[id]?) ⟨rfl, fun _ _ => rfl⟩ ?_ h
  rintro done token st st' hdone ⟨hlen, hslots⟩ hstep
  rw [addedSlotStep] at hstep
  split_ifs at hstep
  cases hstep
  refine ⟨by rwa [List.length_set], fun id hid => ?_⟩
  have hne : token.id ≠ id := by
    rintro rfl
    exact hid ((hids _).mpr ⟨token, hdone.subset (by simp), rfl⟩)
  rw [List.getElem?_set_ne hne, hslots id hid]

/-- The byte tokens so far: the tokens of one byte, each byte once. -/
structure BaseOf (slots : List (Option (List UInt8))) (addedIds : Finset TokenId)
    (done : List (Option (List UInt8) × TokenId)) (st : ByteBase) : Prop where
  length : st.byByte.length = 256
  byByte : ∀ b : UInt8, ∀ id,
    st.byByte[b.toNat]? = some (some id) ↔ id ∉ addedIds ∧ (some [b], id) ∈ done
  ids : ∀ id, id ∈ st.ids ↔ id ∉ addedIds ∧ ∃ b, (some [b], id) ∈ done

lemma baseOf_start {slots : List (Option (List UInt8))} :
    BaseOf slots addedIds [] ⟨List.replicate 256 none, ∅⟩ := by
  refine ⟨List.length_replicate, fun b id => iff_of_false (fun h => ?_) (by simp), by simp⟩
  rw [List.getElem?_eq_some_iff] at h
  obtain ⟨_, h⟩ := h
  rw [List.getElem_replicate] at h
  cases h

/-- One turn of `derive_byte_base`. -/
lemma BaseOf.step {slots : List (Option (List UInt8))} {done : List (Option (List UInt8) × TokenId)}
    {x : Option (List UInt8) × TokenId} {st st' : ByteBase} (h : BaseOf slots addedIds done st)
    (hstep : byteBaseStep addedIds st x = .ok st') : BaseOf slots addedIds (done ++ [x]) st' := by
  have hskip : (x.2 ∈ addedIds ∨ ∀ b, x.1 ≠ some [b]) → BaseOf slots addedIds (done ++ [x]) st := by
    intro hx
    have hmem : ∀ b id, id ∉ addedIds → ((some [b], id) ∈ done ++ [x] ↔ (some [b], id) ∈ done) := by
      intro b id hid
      rw [List.mem_append, List.mem_singleton, or_iff_left]
      rintro rfl
      exact hx.elim hid fun hx => hx b rfl
    refine ⟨h.length, fun b id => ?_, fun id => ?_⟩
    · rw [h.byByte]
      exact and_congr_right fun hid => (hmem b id hid).symm
    · rw [h.ids]
      exact and_congr_right fun hid => exists_congr fun b => (hmem b id hid).symm
  rw [byteBaseStep] at hstep
  split_ifs at hstep with hadded
  · cases hstep
    exact hskip (.inl hadded)
  obtain ⟨slot, i⟩ := x
  dsimp only at hstep hadded
  split at hstep
  case h_1 byte =>
      split_ifs at hstep with hfull
      cases hstep
      have hlt : byte.toNat < st.byByte.length := h.length ▸ byte.toNat_lt
      have hnone : st.byByte[byte.toNat]? = some none := by
        rw [List.getD_eq_getElem?_getD, List.getElem?_eq_getElem hlt, Option.getD_some] at hfull
        rw [List.getElem?_eq_getElem hlt, Option.not_isSome_iff_eq_none.mp hfull]
      refine ⟨by rw [List.length_set, h.length], fun b id => ?_, fun id => ?_⟩
      · rw [List.mem_append, List.mem_singleton]
        by_cases hb : b = byte
        · -- the slot of this byte was empty
          subst hb
          rw [List.getElem?_set_self hlt]
          have hold : id ∉ addedIds → (some [b], id) ∉ done := fun hid hmem => by
            have := (h.byByte b id).mpr ⟨hid, hmem⟩
            simp [hnone] at this
          constructor
          · intro heq
            obtain rfl := Option.some_inj.mp (Option.some_inj.mp heq)
            exact ⟨hadded, .inr rfl⟩
          · rintro ⟨hid, hmem | hmem⟩
            · exact absurd hmem (hold hid)
            · rw [(Prod.mk.inj hmem).2]
        · rw [List.getElem?_set_ne fun heq => hb (UInt8.toNat_inj.mp heq.symm), h.byByte]
          simp [hb]
      · rw [Finset.mem_insert, h.ids]
        simp only [List.mem_append, List.mem_singleton, Prod.mk.injEq, Option.some.injEq,
          List.cons.injEq, and_true, exists_or, exists_and_right, exists_eq, true_and]
        constructor
        · rintro (rfl | ⟨hid, hmem⟩)
          · exact ⟨hadded, .inr rfl⟩
          · exact ⟨hid, .inl hmem⟩
        · rintro ⟨hid, hmem | rfl⟩
          · exact .inr ⟨hid, hmem⟩
          · exact .inl rfl
  case h_2 hother =>
      cases hstep
      exact hskip (.inr fun b hb => hother b hb)

/-- A table of the bytes in which every slot must be filled, as a list. -/
lemma getD_of_mapM {f : Option TokenId × ℕ → Except JsonConversionError TokenId}
    (hsome : ∀ id k, f (some id, k) = .ok id) (hnone : ∀ k id, f (none, k) ≠ .ok id)
    {byByte : List (Option TokenId)} {output : List TokenId} (hlen : byByte.length = 256)
    (h : byByte.zipIdx.mapM f = .ok output) (b : UInt8) (id : TokenId) :
    output.getD b.toNat 0 = id ↔ byByte[b.toNat]? = some (some id) := by
  have hall := mapM_ok_iff.mp h
  have hlt : b.toNat < byByte.length := hlen ▸ b.toNat_lt
  have hlt' : b.toNat < output.length := by
    rw [← hall.length_eq, List.length_zipIdx]
    exact hlt
  have hget := hall.get (by rwa [List.length_zipIdx]) hlt'
  rw [List.getD_eq_getElem?_getD, List.getElem?_eq_getElem hlt', List.getElem?_eq_getElem hlt,
    Option.getD_some]
  rw [List.get_eq_getElem, List.get_eq_getElem, List.getElem_zipIdx] at hget
  dsimp only at hget
  cases hslot : byByte[b.toNat] with
  | none => exact absurd (hslot ▸ hget) (hnone _ _)
  | some id' =>
      rw [hslot, hsome, Except.ok.injEq] at hget
      rw [Option.some_inj, Option.some_inj, hget]

/-- `derive_byte_base`: the token of one byte, for each byte. -/
lemma deriveByteBase_ok {slots : List (Option (List UInt8))} {base : List TokenId}
    {baseIds : Finset TokenId} (h : deriveByteBase slots addedIds = .ok (base, baseIds)) :
    (∀ b : UInt8, ∀ id, base.getD b.toNat 0 = id ↔ id ∉ addedIds ∧ slots[id]? = some (some [b])) ∧
      ∀ id, id ∈ baseIds ↔ ∃ b : UInt8, base.getD b.toNat 0 = id := by
  obtain ⟨st, hst, h⟩ := bind_eq_ok_iff.mp h
  obtain ⟨output, houtput, h⟩ := bind_eq_ok_iff.mp h
  cases h
  have hbase : BaseOf slots addedIds slots.zipIdx st :=
    foldlM_ok (I := BaseOf slots addedIds) baseOf_start (fun done x st st' _ hI hx => hI.step hx) hst
  have hout := getD_of_mapM (fun _ _ => rfl) (by simp) hbase.length houtput
  refine ⟨fun b id => ?_, fun id => ?_⟩
  · rw [hout, hbase.byByte, List.mem_zipIdx_iff_getElem?]
  · rw [hbase.ids, ← exists_and_left]
    exact exists_congr fun b => by rw [hout, hbase.byByte]

/-- The added tokens are within the vocabulary. -/
lemma byteVocabSize_ok {added : List JsonAddedToken} {n : ℕ}
    (h : byteVocabSize added modelTokens = .ok n) : ∀ token ∈ added, token.id < n := by
  rw [byteVocabSize] at h
  split at h
  case h_1 => cases h
  case h_2 highestId hmax =>
      split_ifs at h
      all_goals
        cases h
        intro token htoken
        have hmem := List.mem_append_left (if modelTokens.length ≤ u32Max ∧ 1 ≤ modelTokens.length
          then [modelTokens.length - 1] else []) (List.mem_map_of_mem (f := JsonAddedToken.id) htoken)
        exact Nat.lt_succ_of_le ((List.max?_eq_some_iff.mp hmax).2 _ hmem)

/-- The ids of BASE. -/
def ByteFile.baseIds (file : ByteFile) : Finset TokenId := (byteValues.map file.base).toFinset

lemma ByteFile.mem_baseIds {id : TokenId} : id ∈ file.baseIds ↔ ∃ b, file.base b = id := by
  simp [ByteFile.baseIds, mem_byteValues]

/-- What a conversion writes of the vocabulary and of the merge list. -/
structure ByteConversion (parsed : TokenizerJson) (file : ByteFile) (rules : List (Rule ℕ TokenId))
    (p : Priorities) : Prop where
  sourceRules : sourceRules parsed.vocab parsed.merges = .ok rules
  inj : ∀ t t' id, parsed.vocab.lookup t = some id → parsed.vocab.lookup t' = some id → t = t'
  emitted : Emitted parsed.vocab file.specials file.vocab fun t => (decodeByteAlias t).toOption
  derived : Derived parsed.vocab file.specials file.baseIds file.vocab.length rules p
  base : ∀ b id, file.base b = id ↔ id ∉ file.specials ∧ file.vocab[id]? = some [b]
  priorities : file.priorities =
    if p.inversions ≠ 0 ∨ p.nonProducts ≠ 0 ∨ p.exhaustiveSplits then some p.priorities else none
  exhaustiveSplits : file.exhaustiveSplits = p.exhaustiveSplits

/-- The letters of a token are its bytes. -/
lemma emitted_of_slots {slots : List (List UInt8)}
    (hslot : ∀ t id, parsed.vocab.lookup t = some id → id ∉ addedIds →
      ∃ bytes, decodeByteAlias t = .ok bytes ∧ slots[id]? = some bytes)
    (htoken : ∀ id bytes, slots[id]? = some bytes → bytes ≠ [] → id ∉ addedIds →
      ∃ t, parsed.vocab.lookup t = some id) :
    Emitted parsed.vocab addedIds slots fun t => (decodeByteAlias t).toOption := by
  have henc : ∀ t bytes, (decodeByteAlias t).toOption = some bytes ↔
      List.Forall₂ (fun c b => byteAliasInverse.lookup c = some b) t bytes := by
    intro t bytes
    rw [← decodeByteAlias_ok_iff]
    cases decodeByteAlias t <;> simp [Except.toOption]
  refine ⟨fun t id ht hid => ?_, htoken, fun t t' p q hp hq => ?_, fun t t' p hp hp' => ?_,
    fun t p hp => ?_⟩
  · obtain ⟨bytes, hbytes, hget⟩ := hslot t id ht hid
    exact ⟨bytes, by simp [hbytes, Except.toOption], hget⟩
  · exact (henc _ _).mpr (List.rel_append ((henc t p).mp hp) ((henc t' q).mp hq))
  · have huniq : Relator.LeftUnique fun c b => byteAliasInverse.lookup c = some b :=
      fun _ _ _ => lookup_byteAliasInverse_inj
    exact List.left_unique_forall₂' huniq ((henc t p).mp hp) ((henc t' p).mp hp')
  · have hlen := ((henc t p).mp hp).length_eq
    rw [← List.length_eq_zero_iff, ← List.length_eq_zero_iff, hlen]

/-- `convert_byte_bpe`. -/
theorem convertByteBpe_ok (h : convertByteBpe parsed = .ok file) :
    ∃ rules p, ByteConversion parsed file rules p := by
  obtain ⟨modelTokens, hmodel, h⟩ := bind_eq_ok_iff.mp h
  obtain ⟨addedIds, hadded, h⟩ := bind_eq_ok_iff.mp h
  obtain ⟨n, hn, h⟩ := bind_eq_ok_iff.mp h
  obtain ⟨st, hst, h⟩ := bind_eq_ok_iff.mp h
  obtain ⟨slots, hslots, h⟩ := bind_eq_ok_iff.mp h
  obtain ⟨⟨base, baseIds⟩, hbase, h⟩ := bind_eq_ok_iff.mp h
  obtain ⟨p, hp, h⟩ := bind_eq_ok_iff.mp h
  rw [writeByteFile] at h
  split at h
  case isFalse => cases h
  cases h
  have hids := validateByteAddedTokens_ok hadded
  obtain ⟨hlen, hmodelSlot, hfilled⟩ := modelSlots_ok hst
  obtain ⟨hlen', hsame⟩ := addedSlots_ok hids hslots
  obtain ⟨hbyte, hbaseIds⟩ := deriveByteBase_ok hbase
  have htokens := (orderedModelTokens_ok hmodel).2
  have hvocab : (slots.map fun token => token.getD []).length = n := by
    rw [List.length_map, hlen', hlen]
  -- the slots of the tokens that are not added
  have hslot : ∀ t id, parsed.vocab.lookup t = some id → id ∉ addedIds →
      ∃ bytes, decodeByteAlias t = .ok bytes ∧ slots[id]? = some (some bytes) := by
    intro t id ht hid
    obtain ⟨bytes, hbytes, hget⟩ := hmodelSlot t id ((htokens t id).mpr ht) hid
    exact ⟨bytes, hbytes, (hsame id hid).trans hget⟩
  have hget : ∀ (id : TokenId) (bytes : List UInt8), bytes ≠ [] → ((slots.map fun token => token.getD [])[id]? = some bytes ↔
      slots[id]? = some (some bytes)) := by
    intro id bytes hne
    rw [List.getElem?_map, Option.map_eq_some_iff]
    constructor
    · rintro ⟨slot, hslot, hbytes⟩
      cases slot with
      | none => exact absurd hbytes.symm hne
      | some token => rwa [← hbytes]
    · exact fun hslot => ⟨_, hslot, rfl⟩
  have hlt : ∀ t id, parsed.vocab.lookup t = some id → id < n := by
    intro t id ht
    by_cases hid : id ∈ addedIds
    · obtain ⟨token, htoken, rfl⟩ := (hids id).mp hid
      exact byteVocabSize_ok hn token htoken
    · obtain ⟨bytes, -, hslot⟩ := hslot t id ht hid
      rw [← hlen, ← hlen']
      exact (List.getElem?_eq_some_iff.mp hslot).1
  obtain ⟨rules, hrules, hderived⟩ := deriveBytePriority_ok hlt hp
  refine ⟨rules, p, hrules, fun t t' id => lookup_inj hmodel, emitted_of_slots ?_ ?_, ?_, ?_, rfl, rfl⟩
  · intro t id ht hid
    obtain ⟨bytes, hbytes, hslot⟩ := hslot t id ht hid
    exact ⟨bytes, hbytes, by rw [List.getElem?_map, hslot]; rfl⟩
  · intro id bytes hbytes hne hid
    rw [hget id bytes hne, hsame id hid] at hbytes
    obtain ⟨-, t, ht⟩ := hfilled id bytes hbytes
    exact ⟨t, (htokens t id).mp ht⟩
  · have hstart : (byteValues.map fun b => base.getD b.toNat 0).toFinset = baseIds := by
      ext id
      simp only [List.mem_toFinset, List.mem_map, hbaseIds, mem_byteValues, true_and]
    rw [ByteFile.baseIds, hstart, hvocab]
    exact hderived
  · intro b id
    dsimp only
    rw [hbyte, hget id [b] (by simp)]

/-! ### Vocabularies that are accepted -/

/-- A file whose sections are those that are written. -/
lemma writeByteFile_eq {slots : List (Option (List UInt8))} {base : List TokenId} {p : Priorities}
    (hvocab : slots.map (fun token => token.getD []) = file.vocab)
    (hbase : ∀ b : UInt8, base.getD b.toNat 0 = file.base b)
    (hpriorities : file.priorities =
      if p.inversions ≠ 0 ∨ p.nonProducts ≠ 0 ∨ p.exhaustiveSplits then some p.priorities else none)
    (hflag : file.exhaustiveSplits = p.exhaustiveSplits) :
    writeByteFile slots base file.specials p = .ok file := by
  have hbase' : (fun b : UInt8 => base.getD b.toNat 0) = file.base := funext hbase
  obtain ⟨⟨vocab, byte, specials, hvocab_le, harena_le, hbase_lt⟩, priorities, flag⟩ := file
  dsimp only at hvocab hbase' hpriorities hflag
  subst hvocab hbase' hpriorities hflag
  rw [writeByteFile]
  exact dif_pos ⟨hvocab_le, harena_le, List.all_eq_true.mpr fun b _ => decide_eq_true (hbase_lt b)⟩

/-- A conversion whose parts succeed. -/
lemma convertByteBpe_eq {n : ℕ} {st : ByteSlots} {slots : List (Option (List UInt8))}
    {base : List TokenId} {baseIds : Finset TokenId} {p : Priorities}
    (hmodel : orderedModelTokens parsed.vocab = .ok modelTokens)
    (hadded : validateByteAddedTokens parsed.addedTokens modelTokens = .ok addedIds)
    (hsize : byteVocabSize parsed.addedTokens modelTokens = .ok n)
    (hst : modelTokens.zipIdx.foldlM (modelSlotStep addedIds) ⟨List.replicate n none, ∅⟩ = .ok st)
    (hslots : parsed.addedTokens.foldlM addedSlotStep st.slots = .ok slots)
    (hbase : deriveByteBase slots addedIds = .ok (base, baseIds))
    (hp : deriveBytePriority parsed.merges parsed.vocab addedIds baseIds n = .ok p) :
    convertByteBpe parsed = writeByteFile slots base addedIds p := by
  simp only [convertByteBpe, hmodel, hadded, hsize, hst, hslots, hbase, hp, ok_bind]

/-- Numbered elements have distinct numbers. -/
lemma ne_of_prefix_zipIdx {α : Type*} {l : List α} {done : List (α × ℕ)} {x : α × ℕ}
    (h : done ++ [x] <+: l.zipIdx) : ∀ y ∈ done, y.2 ≠ x.2 := by
  have hids : (l.zipIdx.map Prod.snd).Nodup := by
    rw [List.zipIdx_map_snd]
    exact List.nodup_range'
  have hdone := (hids.sublist (h.sublist.map Prod.snd))
  rw [List.map_append, List.nodup_append] at hdone
  exact fun y hy => hdone.2.2 y.2 (List.mem_map_of_mem hy) x.2 (by simp)

/-- Distinct tokens get slots of their own. -/
lemma modelSlots_of_nodup {bytes : List (List UInt8)}
    (hdec : List.Forall₂ (fun t p => decodeByteAlias t = .ok p) modelTokens bytes)
    (hnodup : bytes.Nodup) : ∃ lookup, modelTokens.zipIdx.foldlM (modelSlotStep ∅)
      ⟨List.replicate bytes.length none, ∅⟩ = .ok ⟨bytes.map some, lookup⟩ := by
  have hget : ∀ (t : Text) (id : ℕ), modelTokens[id]? = some t →
      ∃ p, decodeByteAlias t = .ok p ∧ bytes[id]? = some p := by
    intro t id ht
    obtain ⟨hlt, rfl⟩ := List.getElem?_eq_some_iff.mp ht
    have hlt' : id < bytes.length := hdec.length_eq ▸ hlt
    exact ⟨bytes[id], hdec.get hlt hlt', List.getElem?_eq_getElem hlt'⟩
  obtain ⟨st, hst, -⟩ := foldlM_total (f := modelSlotStep ∅) (l := modelTokens.zipIdx)
    (b := ⟨List.replicate bytes.length none, ∅⟩)
    (I := fun done st => st.slots.length = bytes.length ∧ ∀ p, (st.lookup.lookup p).isSome →
      ∃ x ∈ done, bytes[x.2]? = some p) ⟨List.length_replicate, by simp⟩ (by
      rintro done ⟨t, id⟩ st hdone ⟨hlen, hkeys⟩
      have hx : (t, id) ∈ modelTokens.zipIdx := hdone.subset (by simp)
      obtain ⟨p, hp, hid⟩ := hget t id (List.mem_zipIdx_iff_getElem?.mp hx)
      have hlt : id < bytes.length := (List.getElem?_eq_some_iff.mp hid).1
      -- a token with these bytes would be the token itself
      have hnew : ¬ (st.lookup.lookup p).isSome := by
        intro hsome
        obtain ⟨y, hy, hyp⟩ := hkeys p hsome
        exact ne_of_prefix_zipIdx hdone y hy ((List.getElem?_inj
          (List.getElem?_eq_some_iff.mp hyp).1 hnodup).mp (hyp.trans hid.symm))
      refine ⟨_, by simp [modelSlotStep, hp, hnew, hlen, hlt.not_ge]; rfl, ?_, fun q hq => ?_⟩
      · rw [List.length_set, hlen]
      · by_cases hqp : q = p
        · exact ⟨(t, id), by simp, hqp ▸ hid⟩
        · rw [AList.lookup_insert_ne hqp] at hq
          obtain ⟨y, hy, hyq⟩ := hkeys q hq
          exact ⟨y, by simp [hy], hyq⟩)
  obtain ⟨hlen, hmodel, -⟩ := modelSlots_ok hst
  refine ⟨st.lookup, hst.trans (congrArg _ ?_)⟩
  have hslots : st.slots = bytes.map some := by
    refine List.ext_getElem? fun id => ?_
    rw [List.getElem?_map]
    by_cases hlt : id < modelTokens.length
    · obtain ⟨p, hp, hid⟩ := hget _ id (List.getElem?_eq_getElem hlt)
      obtain ⟨p', hp', hslot⟩ := hmodel _ id (List.getElem?_eq_getElem hlt) (by simp)
      obtain rfl := Except.ok.inj (hp.symm.trans hp')
      rw [hslot, hid, Option.map_some]
    · rw [not_lt] at hlt
      rw [List.getElem?_eq_none (hlen.trans_le (hdec.length_eq ▸ hlt)),
        List.getElem?_eq_none (hdec.length_eq ▸ hlt), Option.map_none]
  rw [← hslots]

/-- Distinct tokens with all bytes among them give byte tokens. -/
lemma deriveByteBase_of_nodup {bytes : List (List UInt8)} (hnodup : bytes.Nodup)
    (hall : ∀ b, [b] ∈ bytes) :
    ∃ base baseIds, deriveByteBase (bytes.map some) ∅ = .ok (base, baseIds) := by
  obtain ⟨st, hst, hbase⟩ := foldlM_total (f := byteBaseStep ∅) (l := (bytes.map some).zipIdx)
    (b := ⟨List.replicate 256 none, ∅⟩) (I := BaseOf (bytes.map some) ∅) baseOf_start (by
      rintro done x st hdone hI
      obtain ⟨st', hst'⟩ : ∃ st', byteBaseStep ∅ st x = .ok st' := by
        rw [byteBaseStep, if_neg (Finset.notMem_empty _)]
        split
        case h_1 byte hbyte =>
            split_ifs with hfull
            · -- the byte would be that of an earlier token
              have hmem : ∀ y ∈ done ++ [x], bytes[y.2]?.map some = some y.1 := fun y hy => by
                rw [← List.getElem?_map]
                exact List.mem_zipIdx_iff_getElem?.mp (hdone.subset hy)
              have hx : bytes[x.2]? = some [byte] := by simpa [hbyte] using hmem x (by simp)
              obtain ⟨id, hid⟩ := Option.isSome_iff_exists.mp hfull
              rw [List.getD_eq_getElem?_getD, Option.getD_eq_iff] at hid
              obtain ⟨-, hy⟩ := (hI.byByte byte id).mp (hid.resolve_right (by simp))
              have hid' : bytes[id]? = some [byte] := by
                simpa using hmem (some [byte], id) (by simp [hy])
              exact absurd ((List.getElem?_inj (List.getElem?_eq_some_iff.mp hid').1 hnodup).mp
                (hid'.trans hx.symm)) (ne_of_prefix_zipIdx hdone _ hy)
            · exact ⟨_, rfl⟩
        case h_2 => exact ⟨_, rfl⟩
      exact ⟨st', hst', hI.step hst'⟩)
  refine ⟨st.byByte.zipIdx.map fun x => x.1.getD 0, st.ids, ?_⟩
  rw [deriveByteBase, hst, ok_bind, mapM_eq_ok (g := fun x => x.1.getD 0)]
  · rfl
  · rintro ⟨slot, k⟩ hslot
    rw [List.mem_zipIdx_iff_getElem?] at hslot
    have hk : k < 256 := hbase.length ▸ (List.getElem?_eq_some_iff.mp hslot).1
    obtain ⟨id, hid⟩ := List.mem_iff_getElem?.mp (hall (UInt8.ofNat k))
    have hfull := (hbase.byByte (UInt8.ofNat k) id).mpr ⟨by simp, by
      rw [List.mem_zipIdx_iff_getElem?, List.getElem?_map, hid]
      rfl⟩
    rw [UInt8.toNat_ofNat', Nat.mod_eq_of_lt hk] at hfull
    obtain rfl := Option.some_inj.mp (hslot.symm.trans hfull)
    rfl

end Hypertok
