import Hypertok.Convert.ByteBpe
import Hypertok.PairMerge.Spelling

/-!
Loading a byte-level `tokenizer.json` without a conversion.

* `buildBpe`: the vocabulary by id and by bytes, the merges that are known, and their
  table: by the id of the product if the products are listed in the order of their ids,
  by the place in the list otherwise.
* `HfJson.sourceRules`: the merge list of the file, over ids; `HfJson.entries_eq` says that
  the loader keeps its rules.
* `HfJson.spelled`: ids spell the bytes of their strings, so that a rule concatenates.
-/

namespace Hypertok

open PairMerge Machine

/-! ### The code -/

/-- `AddedToken`, as far as the vocabulary goes. -/
structure HfAddedToken where
  id : TokenId
  content : Text
  deriving DecidableEq, Repr

/-- `TokenizerJson`, as far as the merges go. Ids have 32 bits. -/
structure HfJson where
  modelType : String
  byteFallback : Bool
  vocab : VocabMap
  merges : List (Text × Text)
  addedTokens : List HfAddedToken
  vocab_lt : ∀ x ∈ vocab.toList, x.2 < 2 ^ 32
  added_lt : ∀ token ∈ addedTokens, token.id < 2 ^ 32

/-- The errors of `build_bpe`. -/
inductive HfError
  | unsupportedModel (modelType : String)
  | byteFallback
  | missingByte (b : UInt8)
  deriving DecidableEq, Repr

/-- `unicode_to_bytes`: a string of letters for bytes, or any other string as it is. -/
def unicodeToBytes (s : Text) : List UInt8 :=
  if s.all fun c => (byteAliasInverse.lookup c).isSome then
    s.filterMap fun c => byteAliasInverse.lookup c
  else textBytes s

/-- The vocabulary by id, and by bytes. -/
structure HfVocab where
  slots : List (List UInt8)
  inv : AList fun _ : List UInt8 => TokenId

/-- One turn of the loop over `model.vocab`. -/
def vocabStep (st : HfVocab) (x : Text × TokenId) : HfVocab :=
  ⟨st.slots.set x.2 (unicodeToBytes x.1), st.inv.insert (unicodeToBytes x.1) x.2⟩

/-- One turn of `extend_vocab_with_added_tokens`: the slot of the token, if it is empty. -/
def extendStep (slots : List (List UInt8)) (token : HfAddedToken) : List (List UInt8) :=
  let slots := slots ++ List.replicate (token.id + 1 - slots.length) []
  if slots[token.id]? = some [] then slots.set token.id (textBytes token.content) else slots

/-- A merge of known parts and product. -/
def mergeEntry (inv : AList fun _ : List UInt8 => TokenId) (m : Text × Text) :
    Option (TokenId × TokenId × TokenId) := do
  let a ← inv.lookup (unicodeToBytes m.1)
  let b ← inv.lookup (unicodeToBytes m.2)
  let merged ← inv.lookup (unicodeToBytes m.1 ++ unicodeToBytes m.2)
  some (a, b, merged)

/-- `is_valid_utf8_byte`. -/
def isValidUtf8Byte (b : UInt8) : Bool := !(b = 0xC0 || b = 0xC1 || 0xF5 ≤ b)

/-- One turn of the scan for single bytes; `u32::MAX` is `UNSET`. -/
def mappingStep (mapping : List TokenId) (x : List UInt8 × TokenId) : List TokenId :=
  match x.1 with
  | [b] => if mapping[b.toNat]? = some u32Max then mapping.set b.toNat x.2 else mapping
  | _ => mapping

/-- `ByteRemapping::from_byte_vocab`. The identity, for which the code returns `None`, is
a mapping like others. -/
def fromByteVocab (slots : List (List UInt8)) : Except HfError (UInt8 → TokenId) :=
  let mapping := slots.zipIdx.foldl mappingStep (List.replicate 256 u32Max)
  match byteValues.find? fun b => mapping[b.toNat]? = some u32Max && isValidUtf8Byte b with
  | some b => .error (.missingByte b)
  | none => .ok fun b => if mapping[b.toNat]? = some u32Max then 0 else mapping.getD b.toNat 0

/-- `entry(k).or_insert(v)`. -/
def orInsert {κ β : Type} [DecidableEq κ] (m : AList fun _ : κ => β) (x : κ × β) :
    AList fun _ : κ => β :=
  if (m.lookup x.1).isSome then m else m.insert x.1 x.2

/-- The products are listed in the order of their ids, `is_sorted_by_key`. -/
def idOrderOk (entries : List (TokenId × TokenId × TokenId)) : Bool :=
  decide ((entries.map fun e => e.2.2).IsChain (· ≤ ·))

/-- `Tokenizer::new`: the merges by id, in a flat table if they fit. -/
def idMerges (compact : Bool) (entries : List (TokenId × TokenId × TokenId)) (vocabLen : ℕ) :
    LoadedMerges :=
  let merges : Merges := (entries.map fun e => ((e.1, e.2.1), e.2.2)).foldl orInsert ∅
  match PairRankTable.build compact merges vocabLen with
  | some pairRanks => .idRanked (.pairRanks pairRanks)
  | none => .idRanked (.merges merges)

/-- `Tokenizer::new_ranked`: the merges by place. -/
def rankMerges (entries : List (TokenId × TokenId × TokenId)) : LoadedMerges :=
  .ranked ((entries.zipIdx.map fun x =>
    (rankedMergeKey x.1.1 x.1.2.1, (x.1.2.2, x.2 % 2 ^ 32))).foldl orInsert ∅)

/-- The tokenizer, as far as the merges go. -/
structure HfModel where
  slots : List (List UInt8)
  base : UInt8 → TokenId
  merges : LoadedMerges

namespace HfJson

variable (json : HfJson)

/-- The highest id of the vocabulary. -/
def maxId : ℕ := (json.vocab.toList.map Prod.snd).max?.getD 0

/-- The vocabulary, by id and by bytes. -/
def readVocab : HfVocab :=
  json.vocab.toList.foldl vocabStep ⟨List.replicate (json.maxId + 1) [], ∅⟩

/-- The vocabulary with the added tokens. -/
def slots : List (List UInt8) := json.addedTokens.foldl extendStep json.readVocab.slots

/-- The merges that are known. -/
def entries : List (TokenId × TokenId × TokenId) :=
  json.merges.filterMap (mergeEntry json.readVocab.inv)

end HfJson

/-- `build_bpe`, up to the settings of the pipeline. -/
def buildBpe (json : HfJson) (compact : Bool) : Except HfError HfModel := do
  if json.modelType ≠ "BPE" then .error (.unsupportedModel json.modelType)
  else if json.byteFallback then .error .byteFallback
  else
    let base ← fromByteVocab json.slots
    return ⟨json.slots, base, if idOrderOk json.entries then
      idMerges compact json.entries json.slots.length else rankMerges json.entries⟩

/-! ### The merge list -/

namespace HfJson

variable (json : HfJson)

/-- The id of the vocabulary string with the given bytes. -/
def idOf (p : List UInt8) : Option TokenId :=
  (json.vocab.toList.find? fun x => unicodeToBytes x.1 = p).map Prod.snd

/-- A listed merge, if its parts and its product are in the vocabulary. The rank is the
place in the list. -/
def sourceRule (x : (Text × Text) × ℕ) : Option (Rule ℕ TokenId) := do
  let left ← json.idOf (unicodeToBytes x.1.1)
  let right ← json.idOf (unicodeToBytes x.1.2)
  let product ← json.idOf (unicodeToBytes x.1.1 ++ unicodeToBytes x.1.2)
  some ⟨x.2, left, right, product⟩

/-- The merge list over ids. -/
def sourceRules : List (Rule ℕ TokenId) := json.merges.zipIdx.filterMap json.sourceRule

end HfJson

/-- The symbol of a byte that is a token. -/
def HfModel.IsBase (model : HfModel) (a : TokenId) : Prop :=
  ∃ b, model.slots[a]? = some [b] ∧ model.base b = a

/-- The loop for words of any length. -/
def LoadedMerges.merge : LoadedMerges → List TokenId → Option (List TokenId)
  | .idRanked model => bpeMergeSymbolsByRank model.getRank
  | .ranked merges => bpeMergeSymbolsRanked merges.pair

/-! ### The vocabulary -/

variable {json : HfJson} {compact : Bool} {model : HfModel}

namespace HfJson

/-- The strings of the vocabulary are told apart by their bytes. -/
def DistinctBytes (json : HfJson) : Prop :=
  (json.vocab.toList.map fun x => unicodeToBytes x.1).Nodup

lemma idOf_eq_some {p : List UInt8} {id : TokenId} (h : json.idOf p = some id) :
    ∃ t, (t, id) ∈ json.vocab.toList ∧ unicodeToBytes t = p := by
  obtain ⟨⟨t, id'⟩, hfind, rfl⟩ := Option.map_eq_some_iff.mp h
  exact ⟨t, List.mem_of_find?_eq_some hfind, by simpa using List.find?_some hfind⟩

/-- A string is found by its bytes. -/
lemma idOf_eq (h : json.DistinctBytes) {t : Text} {id : TokenId}
    (ht : (t, id) ∈ json.vocab.toList) : json.idOf (unicodeToBytes t) = some id := by
  cases hfind : json.vocab.toList.find? fun x => unicodeToBytes x.1 = unicodeToBytes t with
  | none => simpa using List.find?_eq_none.mp hfind _ ht
  | some x =>
      have hx := List.find?_some hfind
      rw [decide_eq_true_eq] at hx
      have heq : x = (t, id) :=
        List.inj_on_of_nodup_map h (List.mem_of_find?_eq_some hfind) ht hx
      rw [idOf, hfind, heq]
      rfl

/-- With distinct bytes, the map of the loader finds the string of given bytes. -/
lemma lookup_inv (h : json.DistinctBytes) (p : List UInt8) :
    json.readVocab.inv.lookup p = json.idOf p := by
  have hgen : ∀ (l : List (Text × TokenId)) (st : HfVocab),
      (l.map fun x => unicodeToBytes x.1).Nodup → (l.foldl vocabStep st).inv.lookup p =
        ((l.find? fun x => unicodeToBytes x.1 = p).map Prod.snd).or (st.inv.lookup p) := by
    intro l
    induction l with
    | nil => simp
    | cons x l ih =>
        intro st hl
        rw [List.map_cons, List.nodup_cons] at hl
        rw [List.foldl_cons, ih _ hl.2, vocabStep]
        by_cases hx : unicodeToBytes x.1 = p
        · have hnone : (l.find? fun x => unicodeToBytes x.1 = p) = none := by
            refine List.find?_eq_none.mpr fun y hy => ?_
            rw [decide_eq_true_eq]
            rintro hyp
            exact hl.1 (hx ▸ hyp ▸ List.mem_map_of_mem hy)
          rw [List.find?_cons_of_pos (by simpa using hx), hnone, hx, AList.lookup_insert]
          rfl
        · rw [List.find?_cons_of_neg (by simpa using hx), AList.lookup_insert_ne (Ne.symm hx)]
  have hempty : ((∅ : AList fun _ : List UInt8 => TokenId).lookup p) = none := rfl
  rw [readVocab, hgen _ _ h, idOf]
  simp [hempty]

/-! ### The merge list -/

lemma sourceRule_eq_some {x : (Text × Text) × ℕ} {r : Rule ℕ TokenId}
    (h : json.sourceRule x = some r) : r.rank = x.2 ∧ ∃ p q, json.idOf p = some r.left ∧
      json.idOf q = some r.right ∧ json.idOf (p ++ q) = some r.product := by
  simp only [sourceRule, Option.bind_eq_bind, Option.bind_eq_some_iff, Option.some.injEq] at h
  obtain ⟨left, hleft, right, hright, product, hproduct, rfl⟩ := h
  exact ⟨rfl, _, _, hleft, hright, hproduct⟩

/-- A rule concatenates, and has a place in the list. -/
lemma mem_sourceRules {r : Rule ℕ TokenId} (h : r ∈ json.sourceRules) :
    r.rank < json.merges.length ∧ ∃ p q, json.idOf p = some r.left ∧
      json.idOf q = some r.right ∧ json.idOf (p ++ q) = some r.product := by
  obtain ⟨x, hx, hr⟩ := List.mem_filterMap.mp h
  obtain ⟨hrank, hparts⟩ := sourceRule_eq_some hr
  refine ⟨?_, hparts⟩
  rw [hrank]
  simpa using (List.mem_zipIdx hx).2.1

lemma ranked_sourceRules : Ranked json.sourceRules := by
  refine List.Pairwise.filterMap json.sourceRule (R := fun x y => x.2 < y.2) ?_ ?_
  · intro x y hxy r hr r' hr'
    rw [(sourceRule_eq_some hr).1, (sourceRule_eq_some hr').1]
    exact hxy
  · have hmap : (json.merges.zipIdx.map Prod.snd).Pairwise (· < ·) := by
      rw [List.zipIdx_map_snd]
      exact List.pairwise_lt_range'
    exact List.pairwise_map.mp hmap

lemma nodup_sourceRules : json.sourceRules.Nodup :=
  ranked_sourceRules.imp fun hlt heq => hlt.ne (congrArg Rule.rank heq)

lemma length_sourceRules_le : json.sourceRules.length ≤ json.merges.length := by
  rw [← List.length_zipIdx (l := json.merges) (i := 0)]
  exact List.length_filterMap_le _ _

/-- The loader keeps the rules of the list. -/
lemma entries_eq (h : json.DistinctBytes) :
    json.entries = json.sourceRules.map fun r => (r.left, r.right, r.product) := by
  rw [entries, sourceRules, List.map_filterMap]
  conv_lhs => rw [← List.zipIdx_map_fst 0 json.merges, List.filterMap_map]
  refine List.filterMap_congr fun x _ => ?_
  simp only [Function.comp_apply, mergeEntry, sourceRule, lookup_inv h]
  cases json.idOf (unicodeToBytes x.1.1) with
  | none => rfl
  | some a =>
      cases json.idOf (unicodeToBytes x.1.2) with
      | none => rfl
      | some b =>
          cases json.idOf (unicodeToBytes x.1.1 ++ unicodeToBytes x.1.2) <;> rfl

/-! ### The slots -/

omit json in
lemma length_foldl_vocabStep (l : List (Text × TokenId)) (st : HfVocab) :
    (l.foldl vocabStep st).slots.length = st.slots.length := by
  induction l generalizing st with
  | nil => rfl
  | cons x l ih => exact (ih _).trans List.length_set

lemma length_readVocab : json.readVocab.slots.length = json.maxId + 1 := by
  rw [readVocab, length_foldl_vocabStep, List.length_replicate]

lemma le_maxId {t : Text} {id : TokenId} (h : (t, id) ∈ json.vocab.toList) : id ≤ json.maxId := by
  have hmem : id ∈ json.vocab.toList.map Prod.snd := List.mem_map_of_mem h
  rw [maxId]
  cases hmax : (json.vocab.toList.map Prod.snd).max? with
  | none => simp [List.max?_eq_none_iff.mp hmax] at hmem
  | some m => exact (List.max?_eq_some_iff.mp hmax).2 id hmem

lemma maxId_lt : json.maxId < 2 ^ 32 := by
  rw [maxId]
  cases hmax : (json.vocab.toList.map Prod.snd).max? with
  | none => decide
  | some m =>
      obtain ⟨x, hx, rfl⟩ := List.mem_map.mp (List.max?_eq_some_iff.mp hmax).1
      exact json.vocab_lt x hx

/-- A slot with an id holds the bytes of a string of this id. -/
lemma getElem?_readVocab {t : Text} {id : TokenId} (h : (t, id) ∈ json.vocab.toList) :
    ∃ t', (t', id) ∈ json.vocab.toList ∧
      json.readVocab.slots[id]? = some (unicodeToBytes t') := by
  have hgen : ∀ (l : List (Text × TokenId)) (st : HfVocab), id < st.slots.length →
      ((∀ t', (t', id) ∉ l) ∧ (l.foldl vocabStep st).slots[id]? = st.slots[id]?) ∨
        ∃ t', (t', id) ∈ l ∧ (l.foldl vocabStep st).slots[id]? = some (unicodeToBytes t') := by
    intro l
    induction l with
    | nil => exact fun _ _ => .inl ⟨by simp, rfl⟩
    | cons x l ih =>
        intro st hlt
        rcases ih (vocabStep st x) (by simpa [vocabStep] using hlt) with ⟨hnone, hold⟩ | ⟨t', ht', hget⟩
        · by_cases hx : x.2 = id
          · refine .inr ⟨x.1, by simp [← hx], ?_⟩
            rw [List.foldl_cons, hold, vocabStep, hx, List.getElem?_set_self hlt]
          · refine .inl ⟨fun t' => ?_, ?_⟩
            · simp only [List.mem_cons, not_or]
              exact ⟨fun heq => hx (by rw [← heq]), hnone t'⟩
            · rw [List.foldl_cons, hold, vocabStep, List.getElem?_set_ne hx]
        · exact .inr ⟨t', List.mem_cons_of_mem _ ht', hget⟩
  have hlt : id < (List.replicate (json.maxId + 1) ([] : List UInt8)).length := by
    rw [List.length_replicate]
    exact Nat.lt_succ_of_le (le_maxId h)
  obtain ⟨hnone, -⟩ | hsome := hgen json.vocab.toList ⟨_, ∅⟩ hlt
  · exact absurd h (hnone t)
  · exact hsome

/-- The added tokens leave the slots that are not empty. -/
lemma getElem?_slots {id : TokenId} {p : List UInt8} (h : json.readVocab.slots[id]? = some p)
    (hp : p ≠ []) : json.slots[id]? = some p := by
  refine List.foldlRecOn (motive := fun slots => slots[id]? = some p) json.addedTokens extendStep h
    fun slots hslots token _ => ?_
  have hext : (slots ++ List.replicate (token.id + 1 - slots.length) [])[id]? = some p := by
    rwa [List.getElem?_append_left (List.getElem?_eq_some_iff.mp hslots).1]
  rw [extendStep]
  split_ifs with hempty
  · rwa [List.getElem?_set_ne]
    rintro rfl
    rw [hext, Option.some_inj] at hempty
    exact hp hempty
  · exact hext

/-- Ids have 32 bits. -/
lemma length_slots_le : json.slots.length ≤ 2 ^ 32 := by
  refine List.foldlRecOn (motive := fun slots => slots.length ≤ 2 ^ 32) json.addedTokens extendStep
    ?_ fun slots hslots token htoken => ?_
  · rw [length_readVocab]
    exact maxId_lt
  · have hle : ∀ i n : ℕ, i < 2 ^ 32 → n ≤ 2 ^ 32 → n + (i + 1 - n) ≤ 2 ^ 32 := by omega
    have hlen := hle token.id slots.length (json.added_lt token htoken) hslots
    rw [extendStep]
    split_ifs <;> simpa using hlen

end HfJson

/-- If the first slots are the bytes in their order, each byte is its own symbol. -/
lemma fromByteVocab_of_slots {slots : List (List UInt8)}
    (h : ∀ b : UInt8, slots[b.toNat]? = some [b]) :
    ∃ base, fromByteVocab slots = .ok base ∧ ∀ b : UInt8, base b = b.toNat := by
  have hlen : byteValues.length = 256 := by simp [byteValues]
  -- the bytes fill the mapping, in their order
  have hfill : ∀ (done rest : List UInt8), done ++ rest = byteValues →
      ((done.map fun b => [b]).zipIdx).foldl mappingStep (List.replicate 256 u32Max) =
        List.range done.length ++ List.replicate rest.length u32Max := by
    intro done
    induction done using List.reverseRecOn with
    | nil =>
        rintro rest rfl
        rw [hlen, List.map_nil, List.zipIdx_nil, List.foldl_nil, List.length_nil, List.range_zero,
          List.nil_append]
    | append_singleton done b ih =>
        intro rest hrest
        have hlt : done.length < 256 := by
          have := congrArg List.length hrest
          simp only [List.length_append, List.length_singleton, hlen] at this
          omega
        have hb : b.toNat = done.length := by
          have hget : byteValues[done.length]? = some b := by simp [← hrest]
          rw [byteValues, List.getElem?_map, List.getElem?_range hlt, Option.map_some,
            Option.some_inj] at hget
          rw [← hget, UInt8.toNat_ofNat_of_lt' hlt]
        rw [List.map_append, List.zipIdx_append, List.foldl_append, ih (b :: rest) (by simp [← hrest])]
        simp [mappingStep, hb, List.range_succ, List.replicate_succ]
  have hslots : slots = (byteValues.map fun b => [b]) ++ slots.drop 256 := by
    refine List.ext_getElem? fun i => ?_
    by_cases hi : i < 256
    · have hlt : i < (byteValues.map fun b : UInt8 => [b]).length := by simpa [byteValues] using hi
      have hb := h (UInt8.ofNat i)
      rw [UInt8.toNat_ofNat_of_lt' hi] at hb
      rw [List.getElem?_append_left hlt, hb]
      simp [byteValues, hi]
    · have hge : (byteValues.map fun b : UInt8 => [b]).length ≤ i := by simpa [byteValues] using hi
      have hi' : 256 + (i - 256) = i := by omega
      rw [List.getElem?_append_right hge, List.getElem?_drop, List.length_map, hlen, hi']
  have hmapping : slots.zipIdx.foldl mappingStep (List.replicate 256 u32Max) = List.range 256 := by
    rw [hslots, List.zipIdx_append, List.foldl_append, hfill byteValues [] (by simp)]
    rw [hlen, List.length_nil, List.replicate_zero, List.append_nil]
    refine List.foldlRecOn (motive := (· = List.range 256)) _ mappingStep rfl fun mapping hm x _ => ?_
    subst hm
    rw [mappingStep]
    split
    · rw [if_neg]
      rw [List.getElem?_range (UInt8.toNat_lt _), Option.some_inj]
      exact ((UInt8.toNat_lt _).trans (by decide)).ne
    · rfl
  have hget : ∀ b : UInt8, (List.range 256)[b.toNat]? = some b.toNat := fun b =>
    List.getElem?_range b.toNat_lt
  have hne : ∀ b : UInt8, b.toNat ≠ u32Max := fun b => (b.toNat_lt.trans (by decide)).ne
  refine ⟨fun b => (List.range 256).getD b.toNat 0, ?_, fun b => by simp [List.getD, hget]⟩
  have hnone : (byteValues.find? fun b => (List.range 256)[b.toNat]? = some u32Max &&
      isValidUtf8Byte b) = none := by simp [hget, hne]
  rw [fromByteVocab, hmapping]
  simp only [hnone]
  simp only [hget, Option.some_inj, hne, if_false]

namespace HfJson

/-! ### Letters -/

/-- The letters of an id: the bytes of its string, or itself. -/
def letters (json : HfJson) (id : TokenId) : List (UInt8 ⊕ TokenId) :=
  match json.vocab.toList.find? fun x => x.2 = id with
  | some x => (unicodeToBytes x.1).map .inl
  | none => [.inr id]

/-- The strings of the vocabulary are told apart by their ids, none is `u32::MAX`, and no
byte has the id of the empty string for its symbol. -/
structure IdsTellApart (json : HfJson) (model : HfModel) : Prop where
  nodup : (json.vocab.toList.map Prod.snd).Nodup
  ne_max : ∀ x ∈ json.vocab.toList, x.2 ≠ u32Max
  nonempty : ∀ a, json.vocab.lookup [] = some a → ¬ model.IsBase a

lemma letters_eq (h : (json.vocab.toList.map Prod.snd).Nodup) {t : Text} {id : TokenId}
    (ht : (t, id) ∈ json.vocab.toList) : json.letters id = (unicodeToBytes t).map .inl := by
  rw [letters]
  cases hfind : json.vocab.toList.find? fun x => x.2 = id with
  | none => simpa using List.find?_eq_none.mp hfind _ ht
  | some x =>
      have hx := List.find?_some hfind
      rw [decide_eq_true_eq] at hx
      rw [List.inj_on_of_nodup_map h (List.mem_of_find?_eq_some hfind) ht hx]

/-- The bytes of a string are empty when it is. -/
lemma unicodeToBytes_eq_nil {t : Text} (h : unicodeToBytes t = []) : t = [] := by
  rw [unicodeToBytes] at h
  split_ifs at h with hall
  · cases t with
    | nil => rfl
    | cons c t =>
        simp only [List.all_cons, Bool.and_eq_true] at hall
        obtain ⟨b, hb⟩ := Option.isSome_iff_exists.mp hall.1
        simp [hb] at h
  · exact textBytes_eq_nil.mp h

/-- A base symbol spells its byte, or nothing of the vocabulary. -/
lemma letters_base (hslots : model.slots = json.slots) (h : json.IdsTellApart model) {a : TokenId}
    (ha : model.IsBase a) :
    json.letters a = [.inr a] ∨ ∃ b, json.letters a = [.inl b] ∧ model.base b = a := by
  obtain ⟨b, hget, hbase⟩ := id ha
  cases hfind : json.vocab.toList.find? fun x => x.2 = a with
  | none => exact .inl (by rw [letters, hfind])
  | some x =>
      have hx := List.find?_some hfind
      rw [decide_eq_true_eq] at hx
      have hmem : (x.1, a) ∈ json.vocab.toList := hx ▸ List.mem_of_find?_eq_some hfind
      obtain ⟨t, ht, hold⟩ := getElem?_readVocab hmem
      have hne : unicodeToBytes t ≠ [] := fun hnil =>
        h.nonempty a (VocabMap.mem_toList.mp (unicodeToBytes_eq_nil hnil ▸ ht)) ha
      rw [hslots, getElem?_slots hold hne, Option.some_inj] at hget
      refine .inr ⟨b, ?_, hbase⟩
      rw [letters_eq h.nodup ht, hget]
      rfl

/-- The rules concatenate, over words of base symbols. -/
lemma spelled (hslots : model.slots = json.slots) (h : json.IdsTellApart model) :
    Spelled (ruleTable json.sourceRules) json.letters model.IsBase where
  merge a b q hq := by
    obtain ⟨r, hr, rfl, rfl, rfl⟩ := exists_rule hq
    obtain ⟨-, p, p', hleft, hright, hproduct⟩ := mem_sourceRules hr
    obtain ⟨t, ht, rfl⟩ := idOf_eq_some hleft
    obtain ⟨t', ht', rfl⟩ := idOf_eq_some hright
    obtain ⟨u, hu, heq⟩ := idOf_eq_some hproduct
    rw [letters_eq h.nodup ht, letters_eq h.nodup ht', letters_eq h.nodup hu, heq, List.map_append]
  base a ha := by
    rcases letters_base hslots h ha with heq | ⟨b, heq, -⟩
    · exact ⟨_, heq⟩
    · exact ⟨_, heq⟩
  inj a b ha hb hab := by
    rcases letters_base hslots h ha with hla | ⟨x, hla, rfl⟩ <;>
      rcases letters_base hslots h hb with hlb | ⟨y, hlb, rfl⟩ <;> rw [hla, hlb] at hab
    · simpa using hab
    · simp at hab
    · simp at hab
    · rw [show x = y by simpa using hab]

end HfJson

end Hypertok
