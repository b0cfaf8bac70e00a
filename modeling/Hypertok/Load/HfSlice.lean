import Hypertok.Convert.SentencePiece
import Hypertok.Load.HfMerges
import Hypertok.Machine.LastWriter

/-!
Loading a `tokenizer.json` of either kind, in the order in which the parsed vocabulary is iterated.

* `buildHfSentencePiece`: the vocabulary by id and by bytes, the ids of the bytes, and the merges,
  with byte-fallback spellings before the others.
* `loadHfSlice`: one of the two loaders.
* `HfJson.reordered`, `HfTokenizer.Same`: the file in another order, and what it should not change.
* `foldl_extendStep_eq_iff`: what the added tokens leave of a difference.
-/

namespace Hypertok

open Machine

/-! ### The code -/

/-- `parse_byte_fallback`. -/
def parseByteFallback (s : Text) : Option UInt8 :=
  if (textBytes s).length = 6 then (fallbackHex s).bind byteFromHex else none

/-- `token_str_to_bytes`. -/
def tokenStrToBytes (s : Text) : List UInt8 :=
  match parseByteFallback s with
  | some byte => [byte]
  | none => textBytes s

/-- One turn of the loops over the vocabulary. -/
def spVocabStep (st : HfVocab) (x : Text × TokenId) : HfVocab :=
  ⟨st.slots.set x.2 (tokenStrToBytes x.1), st.inv.insert (tokenStrToBytes x.1) x.2⟩

/-- A merge of known parts and product, with its place in the list. -/
def spMergeEntry (inv : AList fun _ : List UInt8 => TokenId) (x : (Text × Text) × ℕ) :
    Option (ℕ × (TokenId × ℕ)) := do
  let a ← inv.lookup (tokenStrToBytes x.1.1)
  let b ← inv.lookup (tokenStrToBytes x.1.2)
  let merged ← inv.lookup (tokenStrToBytes (x.1.1 ++ x.1.2))
  some (rankedMergeKey a b, (merged, x.2 % 2 ^ 32))

/-- `SentencePieceBPE`, as far as it comes from the vocabulary. -/
structure HfSentencePiece where
  slots : List (List UInt8)
  inv : AList fun _ : List UInt8 => TokenId
  byteFallbackIds : UInt8 → Option TokenId
  merges : RankedMerges

/-- The errors of `build_sentencepiece`. -/
inductive HfSentencePieceError
  | unsupportedModel (modelType : String)
  | noByteFallback
  | noByteTokens

namespace HfJson

variable (json : HfJson)

/-- `byte_fallback_entries` and then `other_entries`. -/
def spEntries : List (Text × TokenId) :=
  json.vocab.toList.filter (fun x => (parseByteFallback x.1).isSome) ++
    json.vocab.toList.filter fun x => !(parseByteFallback x.1).isSome

/-- The vocabulary, by id and by bytes. -/
def spReadVocab : HfVocab :=
  json.spEntries.foldl spVocabStep ⟨List.replicate (json.maxId + 1) [], ∅⟩

/-- The vocabulary with the added tokens. -/
def spSlots : List (List UInt8) := json.addedTokens.foldl extendStep json.spReadVocab.slots

/-- The id of `<0x00>` and so on. -/
def spByteFallbackId (b : UInt8) : Option TokenId :=
  json.vocab.lookup (['<', '0', 'x'] ++ upperHex b.toNat ++ ['>'])

/-- The merges by place. -/
def spMerges : RankedMerges :=
  (json.merges.zipIdx.filterMap (spMergeEntry json.spReadVocab.inv)).foldl orInsert ∅

end HfJson

/-- `build_sentencepiece`, up to the settings of the pipeline. -/
def buildHfSentencePiece (json : HfJson) : Except HfSentencePieceError HfSentencePiece :=
  if json.modelType ≠ "BPE" then .error (.unsupportedModel json.modelType)
  else if !json.byteFallback then .error .noByteFallback
  else if byteValues.all fun b => (json.spByteFallbackId b).isNone then .error .noByteTokens
  else .ok ⟨json.spSlots, json.spReadVocab.inv, json.spByteFallbackId, json.spMerges⟩

/-- `HfTokenizer`. -/
inductive HfTokenizer
  | bpe (model : HfModel)
  | sentencePiece (model : HfSentencePiece)

/-- The errors of both loaders. -/
inductive HfLoadError
  | bpe (error : HfError)
  | sentencePiece (error : HfSentencePieceError)

/-- `load_hf_slice`, behind the parser. -/
def loadHfSlice (json : HfJson) (compact : Bool) : Except HfLoadError HfTokenizer :=
  if json.byteFallback then
    match buildHfSentencePiece json with
    | .ok model => .ok (.sentencePiece model)
    | .error error => .error (.sentencePiece error)
  else
    match buildBpe json compact with
    | .ok model => .ok (.bpe model)
    | .error error => .error (.bpe error)

/-! ### The order of the vocabulary -/

/-- The file, with its vocabulary in another order. -/
def HfJson.reordered (json : HfJson) (vocab : VocabMap)
    (h : vocab.toList.Perm json.vocab.toList) : HfJson :=
  { json with
    vocab
    vocab_lt := fun x hx => json.vocab_lt x (h.mem_iff.mp hx) }

/-- The same vocabulary, merges and byte mapping; maps by bytes are the same where their lookups
are. -/
def HfTokenizer.Same : HfTokenizer → HfTokenizer → Prop
  | bpe model, bpe model' => model = model'
  | sentencePiece model, sentencePiece model' => model.slots = model'.slots ∧
      (∀ p, model.inv.lookup p = model'.inv.lookup p) ∧
        model.byteFallbackIds = model'.byteFallbackIds ∧ model.merges = model'.merges
  | _, _ => False

/-! ### The slots -/

/-- What the added tokens leave in the slot of an id. -/
def HfJson.fill (json : HfJson) (id : TokenId) (p : List UInt8) : List UInt8 :=
  json.addedTokens.foldl
    (fun p token => if token.id = id ∧ p = [] then textBytes token.content else p) p

lemma getD_extendStep (slots : List (List UInt8)) (token : HfAddedToken) (id : TokenId) :
    (extendStep slots token).getD id [] =
      if token.id = id ∧ slots.getD id [] = [] then textBytes token.content
      else slots.getD id [] := by
  have hext : ∀ i, (slots ++ List.replicate (token.id + 1 - slots.length) []).getD i [] =
      slots.getD i [] := by
    intro i
    simp only [List.getD_eq_getElem?_getD]
    by_cases hi : i < slots.length
    · rw [List.getElem?_append_left hi]
    · rw [List.getElem?_append_right (not_lt.mp hi), List.getElem?_replicate,
        List.getElem?_eq_none (not_lt.mp hi)]
      split_ifs <;> rfl
  have hlen : token.id < (slots ++ List.replicate (token.id + 1 - slots.length) []).length := by
    have hlt : ∀ i n : ℕ, i < n + (i + 1 - n) := by omega
    rw [List.length_append, List.length_replicate]
    exact hlt token.id slots.length
  rw [extendStep]
  have hempty : (slots ++ List.replicate (token.id + 1 - slots.length) [])[token.id]? = some [] ↔
      slots.getD token.id [] = [] := by
    rw [← hext, List.getD_eq_getElem?_getD, List.getElem?_eq_getElem hlen, Option.some_inj,
      Option.getD_some]
  by_cases hfill : slots.getD token.id [] = []
  · rw [if_pos (hempty.mpr hfill)]
    by_cases hid : token.id = id
    · subst hid
      rw [if_pos ⟨rfl, hfill⟩, List.getD_eq_getElem?_getD, List.getElem?_set_self hlen]
      rfl
    · rw [if_neg fun h => hid h.1, ← hext id, List.getD_eq_getElem?_getD,
        List.getElem?_set_ne hid, ← List.getD_eq_getElem?_getD]
  · rw [if_neg (mt hempty.mp hfill), hext]
    refine (if_neg ?_).symm
    rintro ⟨rfl, h⟩
    exact hfill h

lemma length_extendStep (slots : List (List UInt8)) (token : HfAddedToken) :
    (extendStep slots token).length = slots.length + (token.id + 1 - slots.length) := by
  rw [extendStep]
  split_ifs
  · rw [List.length_set, List.length_append, List.length_replicate]
  · rw [List.length_append, List.length_replicate]

/-- The slots after the added tokens. -/
lemma getD_foldl_extendStep (json : HfJson) (slots : List (List UInt8)) (id : TokenId) :
    (json.addedTokens.foldl extendStep slots).getD id [] = json.fill id (slots.getD id []) := by
  rw [HfJson.fill]
  generalize json.addedTokens = added
  induction added generalizing slots with
  | nil => rfl
  | cons token added ih => rw [List.foldl_cons, ih, getD_extendStep, List.foldl_cons]

lemma length_foldl_extendStep {slots slots' : List (List UInt8)} (h : slots.length = slots'.length)
    (added : List HfAddedToken) :
    (added.foldl extendStep slots).length = (added.foldl extendStep slots').length := by
  induction added generalizing slots slots' with
  | nil => exact h
  | cons token added ih => exact ih (by rw [length_extendStep, length_extendStep, h])

/-- Slots are the same where the added tokens leave the same. -/
lemma foldl_extendStep_eq_iff {json : HfJson} {slots slots' : List (List UInt8)}
    (h : slots.length = slots'.length) :
    json.addedTokens.foldl extendStep slots = json.addedTokens.foldl extendStep slots' ↔
      ∀ id, json.fill id (slots.getD id []) = json.fill id (slots'.getD id []) := by
  simp only [← getD_foldl_extendStep]
  have hlen := length_foldl_extendStep h json.addedTokens
  constructor
  · intro heq id
    rw [heq]
  · intro hall
    refine List.ext_getElem hlen fun i hi hi' => ?_
    have := hall i
    rwa [List.getD_eq_getElem?_getD, List.getD_eq_getElem?_getD, List.getElem?_eq_getElem hi,
      List.getElem?_eq_getElem hi'] at this

end Hypertok
