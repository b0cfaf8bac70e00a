import Hypertok.Convert.ByteBpe
import Hypertok.Load.SentencePiece

/-!
A SentencePiece `tokenizer.json`, as a file.

* `deriveByteFallback`, `deriveBase`: the tokens that stand for bytes and for characters.
* `convertSentencePiece_ok`: the slots, the initial symbols and the priorities.
-/

namespace Hypertok

open PairMerge Machine

/-! ### The code -/

/-- The ordered tokens of a SentencePiece vocabulary. -/
def tokenStrings (vocab : VocabMap) : Except JsonConversionError (List Text) := do
  let tokens ← vocab.toList.foldlM placeToken (List.replicate vocab.entries.length none)
  tokens.mapM fun
    | some token => .ok token
    | none => .error (.invalidVocabulary "ids are not contiguous")

/-- One turn of `validate_sentencepiece_added_tokens`. -/
def specialStep (tokens : List Text) (ids : Finset TokenId) (token : JsonAddedToken) :
    Except JsonConversionError (Finset TokenId) :=
  if !token.special then .error (.unsupported "non-special added token")
  else if token.content.isEmpty then
    .error (.invalidVocabulary "special token bytes must not be empty")
  else if tokens[token.id]? ≠ some token.content then .error (.invalidId token.id)
  else if token.id ∈ ids then .error (.invalidId token.id)
  else .ok (insert token.id ids)

/-- `validate_sentencepiece_added_tokens`. -/
def validateSentencePieceAddedTokens (added : List JsonAddedToken) (tokens : List Text) :
    Except JsonConversionError (Finset TokenId) :=
  added.foldlM (specialStep tokens) ∅

/-- `char::to_digit` at 16. -/
def hexDigit (c : Char) : Option ℕ :=
  if '0' ≤ c ∧ c ≤ '9' then some (c.toNat - '0'.toNat)
  else if 'a' ≤ c ∧ c ≤ 'f' then some (c.toNat - 'a'.toNat + 10)
  else if 'A' ≤ c ∧ c ≤ 'F' then some (c.toNat - 'A'.toNat + 10)
  else none

/-- `u8::from_str_radix` at 16, which takes a plus sign. -/
def byteFromHex (s : Text) : Option UInt8 :=
  let digits := match s with
    | '+' :: rest => rest
    | _ => s
  if digits.isEmpty then none
  else (digits.foldlM (fun value c => (hexDigit c).bind fun d =>
    if value * 16 + d < 256 then some (value * 16 + d) else none) 0).map UInt8.ofNat

/-- The letters between `<0x` and `>`. -/
def fallbackHex (token : Text) : Option Text :=
  if ['<', '0', 'x'] <+: token ∧ (token.drop 3).getLast? = some '>' then
    some (token.drop 3).dropLast
  else none

/-- The byte of a token that is written as one. -/
def fallbackByte (token : Text) : Except JsonConversionError (Option UInt8) :=
  match fallbackHex token with
  | none => .ok none
  | some hex =>
      if (textBytes hex).length ≠ 2 then .error (.invalidByteFallback token)
      else
        match byteFromHex hex with
        | some byte => .ok (some byte)
        | none => .error (.invalidByteFallback token)

/-- The byte-fallback tokens so far. -/
structure ByteFallback where
  byByte : List (Option TokenId)
  byId : AList fun _ : TokenId => UInt8

/-- One turn of `derive_byte_fallback`. -/
def byteFallbackStep (specials : Finset TokenId) (st : ByteFallback) (x : Text × TokenId) :
    Except JsonConversionError ByteFallback :=
  if x.2 ∈ specials then .ok st
  else do
    match ← fallbackByte x.1 with
    | none => .ok st
    | some byte =>
        if (st.byByte.getD byte.toNat none).isSome then .error (.invalidByteFallback x.1)
        else .ok ⟨st.byByte.set byte.toNat (some x.2), st.byId.insert x.2 byte⟩

/-- The letters of a number in hexadecimal. -/
def upperHex (byte : ℕ) : Text :=
  [byte / 16, byte % 16].map fun d => Char.ofNat (if d < 10 then '0'.toNat + d else 'A'.toNat + d - 10)

/-- `derive_byte_fallback`. -/
def deriveByteFallback (tokens : List Text) (specials : Finset TokenId) :
    Except JsonConversionError (List TokenId × AList fun _ : TokenId => UInt8) := do
  let st ← tokens.zipIdx.foldlM (byteFallbackStep specials) ⟨List.replicate 256 none, ∅⟩
  let output ← st.byByte.zipIdx.mapM fun x =>
    match x.1 with
    | some id => .ok id
    | none => .error (.invalidByteFallback (['<', '0', 'x'] ++ upperHex x.2 ++ ['>']))
  return (output, st.byId)

/-- The tokens of one character so far. -/
structure CharBase where
  entries : AList fun _ : ℕ => TokenId
  ids : Finset TokenId

/-- One turn of `derive_base`. -/
def charBaseStep (specials : Finset TokenId) (byteFallback : AList fun _ : TokenId => UInt8)
    (st : CharBase) (x : Text × TokenId) : Except JsonConversionError CharBase :=
  if x.2 ∈ specials ∨ (byteFallback.lookup x.2).isSome then .ok st
  else
    match x.1 with
    | [value] =>
        if (st.entries.lookup value.toNat).isSome then .error (.duplicateBase value.toNat)
        else .ok ⟨st.entries.insert value.toNat x.2, insert x.2 st.ids⟩
    | _ => .ok st

/-- `derive_base`. -/
def deriveBase (tokens : List Text) (specials : Finset TokenId)
    (byteFallback : AList fun _ : TokenId => UInt8) : Except JsonConversionError CharBase :=
  tokens.zipIdx.foldlM (charBaseStep specials byteFallback) ⟨∅, ∅⟩

/-- The slots: the byte of a byte-fallback token, the UTF-8 bytes of the others. -/
def sentencePieceSlots (tokens : List Text) (byteFallback : AList fun _ : TokenId => UInt8) :
    List (List UInt8) :=
  tokens.zipIdx.map fun x =>
    match byteFallback.lookup x.2 with
    | some byte => [byte]
    | none => textBytes x.1

/-- The sections as they are written, with what the validation of the writer checks. -/
def writeSentencePieceFile (slots : List (List UInt8)) (base : AList fun _ : ℕ => TokenId)
    (byteFallback : List TokenId) (specials : Finset TokenId) (p : Priorities) :
    Except JsonConversionError SentencePieceFile :=
  if h : slots.length ≤ 2 ^ 28 ∧ (slots.map List.length).sum ≤ u32Max ∧
      (∀ e ∈ base.entries, e.2 < slots.length) ∧
      byteValues.all fun b => byteFallback.getD b.toNat 0 < slots.length then
    .ok {
      vocab := slots
      base := base
      byteFallback := fun b => byteFallback.getD b.toNat 0
      specials := specials
      priorities :=
        if p.inversions ≠ 0 ∨ p.nonProducts ≠ 0 ∨ p.exhaustiveSplits then some p.priorities
        else none
      exhaustiveSplits := p.exhaustiveSplits
      vocab_le := h.1
      arena_le := h.2.1
      base_lt := fun _ _ hc => h.2.2.1 _ (AList.mem_lookup_iff.mp hc)
      byteFallback_lt := fun b => by
        simpa using List.all_eq_true.mp h.2.2.2 b (mem_byteValues b) }
  else .error .write

/-- `convert_sentencepiece`. -/
def convertSentencePiece (parsed : TokenizerJson) : Except JsonConversionError SentencePieceFile := do
  if u32Max < parsed.vocab.entries.length ∨ maxVocabSize < parsed.vocab.entries.length then
    .error .sizeOverflow
  let tokens ← tokenStrings parsed.vocab
  let specials ← validateSentencePieceAddedTokens parsed.addedTokens tokens
  let (byteFallback, byteFallbackIds) ← deriveByteFallback tokens specials
  let base ← deriveBase tokens specials byteFallbackIds
  let p ← derivePriority parsed.merges parsed.vocab specials byteFallbackIds.keys.toFinset base.ids
    parsed.vocab.entries.length true
  writeSentencePieceFile (sentencePieceSlots tokens byteFallbackIds) base.entries byteFallback
    specials p

/-! ### What the sections hold -/

variable {parsed : TokenizerJson} {file : SentencePieceFile} {tokens : List Text}
  {specials : Finset TokenId} {byId : AList fun _ : TokenId => UInt8}

/-- Both conversions order the tokens alike. -/
lemma tokenStrings_ok_iff {vocab : VocabMap} :
    tokenStrings vocab = .ok tokens ↔ orderedModelTokens vocab = .ok tokens := by
  rw [tokenStrings, orderedModelTokens, bind_eq_ok_iff, bind_eq_ok_iff]
  refine exists_congr fun slots => and_congr_right fun _ => ?_
  rw [mapM_ok_iff, mapM_ok_iff]
  refine Iff.of_eq (congrArg (fun R => List.Forall₂ R slots tokens) ?_)
  funext slot token
  cases slot <;> simp

/-- A byte-fallback token is not empty. -/
lemma fallbackByte_ne_nil {t : Text} {b : UInt8} (h : fallbackByte t = .ok (some b)) : t ≠ [] := by
  rintro rfl
  simp [fallbackByte, fallbackHex] at h

/-- The byte-fallback tokens so far have distinct bytes. -/
structure FallbackOf (specials : Finset TokenId) (done : List (Text × TokenId))
    (st : ByteFallback) : Prop where
  length : st.byByte.length = 256
  byByte : ∀ b : UInt8, ∀ id, st.byByte[b.toNat]? = some (some id) ↔ st.byId.lookup id = some b
  token : ∀ id b, st.byId.lookup id = some b → id ∉ specials ∧
    ∃ t, (t, id) ∈ done ∧ fallbackByte t = .ok (some b)
  found : ∀ t id b, (t, id) ∈ done → id ∉ specials → fallbackByte t = .ok (some b) →
    st.byId.lookup id = some b

lemma fallbackOf_start : FallbackOf specials [] ⟨List.replicate 256 none, ∅⟩ := by
  refine ⟨List.length_replicate, fun b id => iff_of_false (fun h => ?_) (by simp), by simp, by simp⟩
  obtain ⟨_, h⟩ := List.getElem?_eq_some_iff.mp h
  rw [List.getElem_replicate] at h
  cases h

/-- One turn of `derive_byte_fallback`. -/
lemma FallbackOf.step {done : List (Text × TokenId)} {x : Text × TokenId} {st st' : ByteFallback}
    (h : FallbackOf specials done st) (hx : ∀ y ∈ done, y.2 ≠ x.2)
    (hstep : byteFallbackStep specials st x = .ok st') :
    FallbackOf specials (done ++ [x]) st' := by
  have htoken : ∀ id b, st.byId.lookup id = some b → id ∉ specials ∧
      ∃ t, (t, id) ∈ done ++ [x] ∧ fallbackByte t = .ok (some b) := fun id b hid =>
    ⟨(h.token id b hid).1, (h.token id b hid).2.imp fun t ht => ⟨by simp [ht.1], ht.2⟩⟩
  have hskip : (x.2 ∉ specials → ∀ b, fallbackByte x.1 ≠ .ok (some b)) →
      FallbackOf specials (done ++ [x]) st := by
    refine fun hx => ⟨h.length, h.byByte, htoken, fun t id b hmem hid hbyte => ?_⟩
    rcases List.mem_append.mp hmem with hmem | hmem
    · exact h.found t id b hmem hid hbyte
    · obtain rfl := List.mem_singleton.mp hmem
      exact absurd hbyte (hx hid b)
  obtain ⟨t, i⟩ := x
  rw [byteFallbackStep] at hstep
  split_ifs at hstep with hspecial
  · cases hstep
    exact hskip fun hs => absurd hspecial hs
  obtain ⟨found, hfound, hstep⟩ := bind_eq_ok_iff.mp hstep
  cases found with
  | none =>
      cases hstep
      exact hskip fun _ b hb => by simp [hfound] at hb
  | some byte =>
      dsimp only at hstep
      split_ifs at hstep with hfull
      cases hstep
      have hlt : byte.toNat < st.byByte.length := h.length ▸ byte.toNat_lt
      have hnone : st.byByte[byte.toNat]? = some none := by
        rw [List.getD_eq_getElem?_getD, List.getElem?_eq_getElem hlt, Option.getD_some] at hfull
        rw [List.getElem?_eq_getElem hlt, Option.not_isSome_iff_eq_none.mp hfull]
      -- the id is new
      have hnew : ∀ b, st.byId.lookup i ≠ some b := by
        intro b hb
        obtain ⟨-, t', ht', -⟩ := h.token i b hb
        exact hx _ ht' rfl
      refine ⟨by rw [List.length_set, h.length], fun b id => ?_, fun id b hid => ?_,
        fun t' id b hmem hid hbyte => ?_⟩
      · by_cases hid : id = i
        · subst hid
          rw [AList.lookup_insert, Option.some_inj]
          by_cases hb : b = byte
          · subst hb
            simp [List.getElem?_set_self hlt]
          · rw [List.getElem?_set_ne fun heq => hb (UInt8.toNat_inj.mp heq.symm), h.byByte]
            exact iff_of_false (hnew b) (Ne.symm hb)
        · rw [AList.lookup_insert_ne hid, ← h.byByte]
          by_cases hb : b = byte
          · subst hb
            rw [List.getElem?_set_self hlt, hnone]
            simp [Ne.symm hid]
          · rw [List.getElem?_set_ne fun heq => hb (UInt8.toNat_inj.mp heq.symm)]
      · by_cases hid' : id = i
        · subst hid'
          rw [AList.lookup_insert, Option.some_inj] at hid
          subst hid
          exact ⟨hspecial, t, by simp, hfound⟩
        · rw [AList.lookup_insert_ne hid'] at hid
          exact htoken id b hid
      · rcases List.mem_append.mp hmem with hmem | hmem
        · rw [AList.lookup_insert_ne (hx _ hmem)]
          exact h.found t' id b hmem hid hbyte
        · obtain ⟨rfl, rfl⟩ := Prod.mk.inj (List.mem_singleton.mp hmem)
          simp only [hfound, Except.ok.injEq, Option.some.injEq] at hbyte
          rw [AList.lookup_insert, hbyte]

/-- `derive_byte_fallback`: a token for each byte. -/
lemma deriveByteFallback_ok {output : List TokenId}
    (h : deriveByteFallback tokens specials = .ok (output, byId)) :
    (∀ b : UInt8, ∀ id, output.getD b.toNat 0 = id ↔ byId.lookup id = some b) ∧
      ∀ id b, byId.lookup id = some b →
        id ∉ specials ∧ ∃ t, tokens[id]? = some t ∧ fallbackByte t = .ok (some b) := by
  obtain ⟨st, hst, h⟩ := bind_eq_ok_iff.mp h
  obtain ⟨output, houtput, h⟩ := bind_eq_ok_iff.mp h
  cases h
  have hfallback : FallbackOf specials tokens.zipIdx st :=
    foldlM_ok (I := FallbackOf specials) fallbackOf_start
      (fun done x st st' hdone hI hx => hI.step (ne_of_prefix_zipIdx hdone) hx) hst
  refine ⟨fun b id => ?_, fun id b hid => ?_⟩
  · rw [← hfallback.byByte]
    exact getD_of_mapM (fun _ _ => rfl) (by simp) hfallback.length houtput b id
  · obtain ⟨hs, t, ht, hbyte⟩ := hfallback.token id b hid
    exact ⟨hs, t, List.mem_zipIdx_iff_getElem?.mp ht, hbyte⟩

/-- `derive_base`: tokens of one character. -/
lemma deriveBase_ok {base : CharBase} (h : deriveBase tokens specials byId = .ok base) :
    (∀ id, id ∈ base.ids ↔ ∃ c, base.entries.lookup c = some id) ∧
      ∀ c id, base.entries.lookup c = some id → id ∉ specials ∧ byId.lookup id = none ∧
        ∃ a, tokens[id]? = some [a] := by
  have hinv : (∀ id, id ∈ base.ids ↔ ∃ c, base.entries.lookup c = some id) ∧
      ∀ c id, base.entries.lookup c = some id → id ∉ specials ∧ byId.lookup id = none ∧
        ∃ a, ([a], id) ∈ tokens.zipIdx := by
    refine foldlM_ok (I := fun done (st : CharBase) =>
      (∀ id, id ∈ st.ids ↔ ∃ c, st.entries.lookup c = some id) ∧
      ∀ c id, st.entries.lookup c = some id → id ∉ specials ∧ byId.lookup id = none ∧
        ∃ a, ([a], id) ∈ done) (by simp) ?_ h
    rintro done ⟨t, i⟩ st st' - ⟨hids, htoken⟩ hstep
    have hskip : ∀ c id, st.entries.lookup c = some id → id ∉ specials ∧ byId.lookup id = none ∧
        ∃ a, ([a], id) ∈ done ++ [(t, i)] := fun c id hc =>
      ⟨(htoken c id hc).1, (htoken c id hc).2.1, (htoken c id hc).2.2.imp fun a ha => by simp [ha]⟩
    rw [charBaseStep] at hstep
    split_ifs at hstep with hexcluded
    · cases hstep
      exact ⟨hids, hskip⟩
    dsimp only at hstep
    split at hstep
    case h_1 value =>
        split_ifs at hstep with hdup
        cases hstep
        rw [Option.not_isSome_iff_eq_none] at hdup
        refine ⟨fun id => ?_, fun c id hc => ?_⟩
        · rw [Finset.mem_insert, hids]
          constructor
          · rintro (rfl | ⟨c, hc⟩)
            · exact ⟨_, AList.lookup_insert _⟩
            · refine ⟨c, ?_⟩
              rw [AList.lookup_insert_ne, hc]
              rintro rfl
              rw [hdup] at hc
              cases hc
          · rintro ⟨c, hc⟩
            by_cases hval : c = value.toNat
            · rw [hval, AList.lookup_insert, Option.some_inj] at hc
              exact .inl hc.symm
            · rw [AList.lookup_insert_ne hval] at hc
              exact .inr ⟨c, hc⟩
        · by_cases hval : c = value.toNat
          · rw [hval, AList.lookup_insert, Option.some_inj] at hc
            subst hc
            rw [not_or, Option.not_isSome_iff_eq_none] at hexcluded
            exact ⟨hexcluded.1, hexcluded.2, value, by simp⟩
          · rw [AList.lookup_insert_ne hval] at hc
            exact hskip c id hc
    case h_2 =>
        cases hstep
        exact ⟨hids, hskip⟩
  exact ⟨hinv.1, fun c id hc => ⟨(hinv.2 c id hc).1, (hinv.2 c id hc).2.1,
    (hinv.2 c id hc).2.2.imp fun a ha => List.mem_zipIdx_iff_getElem?.mp ha⟩⟩

/-- What a conversion writes of the vocabulary and of the merge list. -/
structure SentencePieceConversion (parsed : TokenizerJson) (file : SentencePieceFile)
    (rules : List (Rule ℕ TokenId)) (p : Priorities) : Prop where
  sourceRules : sourceRules parsed.vocab parsed.merges = .ok rules
  inj : ∀ t t' id, parsed.vocab.lookup t = some id → parsed.vocab.lookup t' = some id → t = t'
  emitted : Emitted parsed.vocab file.lookupExcluded file.vocab fun t => some (textBytes t)
  derived : Derived parsed.vocab file.specials (file.baseIds ∪ file.fallbackIds) file.vocab.length
    rules p
  base : ∀ id ∈ file.baseIds, id ∉ file.specials ∧ ∃ a, parsed.vocab.lookup [a] = some id
  fallback : ∀ id ∈ file.fallbackIds, id ∉ file.specials ∧
    ∃ t, t ≠ [] ∧ parsed.vocab.lookup t = some id
  priorities : file.priorities =
    if p.inversions ≠ 0 ∨ p.nonProducts ≠ 0 ∨ p.exhaustiveSplits then some p.priorities else none
  exhaustiveSplits : file.exhaustiveSplits = p.exhaustiveSplits

/-- The texts of the tokens are their bytes. -/
lemma emitted_of_textBytes {vocab : VocabMap} {excluded : Finset TokenId} {slots : List (List UInt8)}
    (hslot : ∀ t id, vocab.lookup t = some id → id ∉ excluded → slots[id]? = some (textBytes t))
    (htoken : ∀ id bytes, slots[id]? = some bytes → ∃ t, vocab.lookup t = some id) :
    Emitted vocab excluded slots fun t => some (textBytes t) where
  slot t id ht hid := ⟨_, rfl, hslot t id ht hid⟩
  token id bytes hid _ _ := htoken id bytes hid
  append t t' p q hp hq := by
    cases hp
    cases hq
    rw [textBytes_append]
  inj t t' p hp hp' := textBytes_inj (Option.some_inj.mp (hp.trans hp'.symm))
  eq_nil t p hp := by
    cases hp
    exact textBytes_eq_nil

/-- `convert_sentencepiece`. -/
theorem convertSentencePiece_ok (h : convertSentencePiece parsed = .ok file) :
    ∃ rules p, SentencePieceConversion parsed file rules p := by
  rw [convertSentencePiece] at h
  split_ifs at h
  · cases h
  obtain ⟨tokens, htokens, h⟩ := bind_eq_ok_iff.mp h
  obtain ⟨specials, -, h⟩ := bind_eq_ok_iff.mp h
  obtain ⟨⟨byteFallback, byId⟩, hbyte, h⟩ := bind_eq_ok_iff.mp h
  obtain ⟨base, hbase, h⟩ := bind_eq_ok_iff.mp h
  obtain ⟨p, hp, h⟩ := bind_eq_ok_iff.mp h
  rw [writeSentencePieceFile] at h
  split at h
  case isFalse => cases h
  cases h
  have hordered := tokenStrings_ok_iff.mp htokens
  have hlookup := (orderedModelTokens_ok hordered).2
  obtain ⟨houtput, hfallback⟩ := deriveByteFallback_ok hbyte
  obtain ⟨hids, hentries⟩ := deriveBase_ok hbase
  have hslots : (sentencePieceSlots tokens byId).length = parsed.vocab.entries.length := by
    rw [sentencePieceSlots, List.length_map, List.length_zipIdx,
      (orderedModelTokens_ok hordered).1]
  -- the initial symbols are the tokens that were found
  have hbaseIds : (base.entries.entries.map fun e => e.2).toFinset = base.ids := by
    ext id
    simp only [List.mem_toFinset, List.mem_map, hids, ← Option.mem_def, AList.mem_lookup_iff]
    exact ⟨fun ⟨⟨c, id'⟩, he, heq⟩ => ⟨c, heq ▸ he⟩, fun ⟨c, hc⟩ => ⟨⟨c, id⟩, hc, rfl⟩⟩
  have hfallbackIds : (byteValues.map fun b => byteFallback.getD b.toNat 0).toFinset =
      byId.keys.toFinset := by
    ext id
    rw [List.mem_toFinset, List.mem_toFinset, ← AList.mem_keys, ← AList.lookup_isSome,
      Option.isSome_iff_exists]
    simp only [List.mem_map, mem_byteValues, true_and, houtput]
  have hmemFallback : ∀ id, id ∈ byId.keys.toFinset ↔ ∃ b, byId.lookup id = some b := fun id => by
    rw [List.mem_toFinset, ← AList.mem_keys, ← AList.lookup_isSome, Option.isSome_iff_exists]
  obtain ⟨rules, hrules, hderived⟩ := derivePriority_ok
    (fun t id ht => (lookup_lt hordered ht).trans_eq (orderedModelTokens_ok hordered).1) hp
  refine ⟨rules, p, hrules, fun t t' id => lookup_inj hordered, emitted_of_textBytes ?_ ?_, ?_,
    fun id hid => ?_, fun id hid => ?_, rfl, rfl⟩
  · intro t id ht hid
    rw [SentencePieceFile.lookupExcluded, SentencePieceFile.fallbackIds, hfallbackIds,
      Finset.mem_union, not_or, hmemFallback] at hid
    have hnone : byId.lookup id = none := by
      rw [Option.eq_none_iff_forall_ne_some]
      exact fun b hb => hid.2 ⟨b, hb⟩
    dsimp only
    rw [sentencePieceSlots, List.getElem?_map, List.getElem?_zipIdx, (hlookup t id).mpr ht]
    simp [hnone]
  · intro id bytes hid
    have hlt : id < tokens.length := by
      have := (List.getElem?_eq_some_iff.mp hid).1
      dsimp only at this
      rwa [hslots, ← (orderedModelTokens_ok hordered).1] at this
    exact ⟨_, (hlookup _ id).mp (List.getElem?_eq_getElem hlt)⟩
  · rw [SentencePieceFile.baseIds, SentencePieceFile.fallbackIds, hbaseIds, hfallbackIds, hslots]
    exact hderived
  · rw [SentencePieceFile.baseIds, hbaseIds, hids] at hid
    obtain ⟨c, hc⟩ := hid
    obtain ⟨hs, -, a, ha⟩ := hentries c id hc
    exact ⟨hs, a, (hlookup _ id).mp ha⟩
  · rw [SentencePieceFile.fallbackIds, hfallbackIds, hmemFallback] at hid
    obtain ⟨b, hb⟩ := hid
    obtain ⟨hs, t, ht, hbyte⟩ := hfallback id b hb
    exact ⟨hs, t, fallbackByte_ne_nil hbyte, (hlookup t id).mp ht⟩

/-! ### Vocabularies that are accepted -/

/-- One token for each byte is accepted. -/
lemma deriveByteFallback_of_unique (hbyte : ∀ t ∈ tokens, ∃ found, fallbackByte t = .ok found)
    (huniq : ∀ (id id' : TokenId) t t' b, tokens[id]? = some t → tokens[id']? = some t' →
      fallbackByte t = .ok (some b) → fallbackByte t' = .ok (some b) → id = id')
    (hall : ∀ b, ∃ t ∈ tokens, fallbackByte t = .ok (some b)) :
    ∃ output byId, deriveByteFallback tokens ∅ = .ok (output, byId) := by
  obtain ⟨st, hst, hfallback⟩ := foldlM_total (f := byteFallbackStep ∅) (l := tokens.zipIdx)
    (b := ⟨List.replicate 256 none, ∅⟩) (I := FallbackOf ∅) fallbackOf_start (by
      rintro done ⟨t, i⟩ st hdone hI
      have hget : ∀ y ∈ done ++ [(t, i)], tokens[y.2]? = some y.1 := fun y hy =>
        List.mem_zipIdx_iff_getElem?.mp (hdone.subset hy)
      have ht := hget (t, i) (by simp)
      obtain ⟨found, hfound⟩ := hbyte t (List.mem_of_getElem? ht)
      obtain ⟨st', hst'⟩ : ∃ st', byteFallbackStep ∅ st (t, i) = .ok st' := by
        rw [byteFallbackStep, if_neg (Finset.notMem_empty _)]
        dsimp only
        rw [hfound, ok_bind]
        cases found with
        | none => exact ⟨_, rfl⟩
        | some byte =>
            dsimp only
            split_ifs with hfull
            · -- the byte would be that of an earlier token
              obtain ⟨id, hid⟩ := Option.isSome_iff_exists.mp hfull
              rw [List.getD_eq_getElem?_getD, Option.getD_eq_iff] at hid
              obtain ⟨-, t', ht', hbyte'⟩ := hI.token id byte
                ((hI.byByte byte id).mp (hid.resolve_right (by simp)))
              exact absurd (huniq id i t' t byte (hget (t', id) (by simp [ht'])) ht hbyte' hfound)
                (ne_of_prefix_zipIdx hdone _ ht')
            · exact ⟨_, rfl⟩
      exact ⟨st', hst', hI.step (ne_of_prefix_zipIdx hdone) hst'⟩)
  refine ⟨st.byByte.zipIdx.map fun x => x.1.getD 0, st.byId, ?_⟩
  rw [deriveByteFallback, hst, ok_bind, mapM_eq_ok (g := fun x => x.1.getD 0)]
  · rfl
  · rintro ⟨slot, k⟩ hslot
    rw [List.mem_zipIdx_iff_getElem?] at hslot
    have hk : k < 256 := hfallback.length ▸ (List.getElem?_eq_some_iff.mp hslot).1
    obtain ⟨t, ht, hbyte⟩ := hall (UInt8.ofNat k)
    obtain ⟨id, hid⟩ := List.mem_iff_getElem?.mp ht
    have hfull := (hfallback.byByte (UInt8.ofNat k) id).mpr
      (hfallback.found t id _ (List.mem_zipIdx_iff_getElem?.mpr hid) (by simp) hbyte)
    rw [UInt8.toNat_ofNat', Nat.mod_eq_of_lt hk] at hfull
    obtain rfl := Option.some_inj.mp (hslot.symm.trans hfull)
    rfl

/-- A file whose sections are those that are written. -/
lemma writeSentencePieceFile_eq {byteFallback : List TokenId} {p : Priorities}
    (hbyte : ∀ b : UInt8, byteFallback.getD b.toNat 0 = file.byteFallback b)
    (hpriorities : file.priorities =
      if p.inversions ≠ 0 ∨ p.nonProducts ≠ 0 ∨ p.exhaustiveSplits then some p.priorities else none)
    (hflag : file.exhaustiveSplits = p.exhaustiveSplits) :
    writeSentencePieceFile file.vocab file.base byteFallback file.specials p = .ok file := by
  have hbyte' : (fun b : UInt8 => byteFallback.getD b.toNat 0) = file.byteFallback := funext hbyte
  obtain ⟨vocab, base, byte, specials, priorities, flag, hvocab_le, harena_le, hbase_lt, hbyte_lt⟩ :=
    file
  dsimp only at hbyte' hpriorities hflag
  subst hbyte' hpriorities hflag
  rw [writeSentencePieceFile]
  exact dif_pos ⟨hvocab_le, harena_le, fun e he => hbase_lt e.1 e.2 (AList.mem_lookup_iff.mpr he),
    List.all_eq_true.mpr fun b _ => decide_eq_true (hbyte_lt b)⟩

/-- A conversion whose parts succeed. -/
lemma convertSentencePiece_eq {byteFallback : List TokenId} {base : CharBase} {p : Priorities}
    (hsize : parsed.vocab.entries.length ≤ maxVocabSize)
    (htokens : tokenStrings parsed.vocab = .ok tokens)
    (hspecials : validateSentencePieceAddedTokens parsed.addedTokens tokens = .ok specials)
    (hfallback : deriveByteFallback tokens specials = .ok (byteFallback, byId))
    (hbase : deriveBase tokens specials byId = .ok base)
    (hp : derivePriority parsed.merges parsed.vocab specials byId.keys.toFinset base.ids
      parsed.vocab.entries.length true = .ok p) :
    convertSentencePiece parsed =
      writeSentencePieceFile (sentencePieceSlots tokens byId) base.entries byteFallback specials p := by
  have hle : ¬ (u32Max < parsed.vocab.entries.length ∨ maxVocabSize < parsed.vocab.entries.length) := by
    rw [not_or, not_lt, not_lt]
    exact ⟨hsize.trans (by decide), hsize⟩
  simp only [convertSentencePiece, if_neg hle, htokens, hspecials, hfallback, hbase, hp, ok_bind]

end Hypertok
