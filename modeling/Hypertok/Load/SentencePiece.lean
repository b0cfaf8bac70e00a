import Hypertok.Load.Ranked
import Hypertok.Machine.Utf8

/-!
The merges of a SentencePiece file.

* `buildSentencePiece`: the checks, and the reconstruction that the sections ask for. A
  file without PRIORITY takes the id of a token for its priority.
* `buildSentencePiece_ranked`: without the flag for all cuts, the merges are a replay of
  the products in the order of their priorities.
* `buildSentencePiece_exhaustive`: with the flag, they are all cuts of the products.
-/

namespace Hypertok

open PairMerge Machine

/-- A validated SentencePiece file, as far as its merges go. -/
structure SentencePieceFile where
  vocab : List (List UInt8)
  /-- BASE, from codepoints. -/
  base : AList fun _ : ℕ => TokenId
  /-- BYTEFALL. -/
  byteFallback : UInt8 → TokenId
  specials : Finset TokenId
  /-- PRIORITY, one number per token. -/
  priorities : Option (List ℕ)
  /-- `BYTE_BPE_EXHAUSTIVE_SPLITS_FLAG`. -/
  exhaustiveSplits : Bool
  vocab_le : vocab.length ≤ 2 ^ 28
  arena_le : (vocab.map List.length).sum ≤ u32Max
  base_lt : ∀ c id, base.lookup c = some id → id < vocab.length
  byteFallback_lt : ∀ b, byteFallback b < vocab.length

namespace SentencePieceFile

variable (file : SentencePieceFile)

/-- The ids of BASE. -/
def baseIds : Finset TokenId := (file.base.entries.map fun e => e.2).toFinset

/-- The ids of BYTEFALL. -/
def fallbackIds : Finset TokenId := (byteValues.map file.byteFallback).toFinset

/-- The tokens that no cut looks up. -/
def lookupExcluded : Finset TokenId := file.specials ∪ file.fallbackIds

/-- The special tokens and the initial symbols. -/
def nonProducts : Finset TokenId := file.specials ∪ file.fallbackIds ∪ file.baseIds

/-- The symbols of a character: its token, or those of its bytes. -/
def charSymbols (c : Char) : List TokenId :=
  match file.base.lookup c.toNat with
  | some id => [id]
  | none => (String.utf8EncodeChar c).map file.byteFallback

/-- `sentencepiece_initial_symbols`. -/
def initialSymbols (token : List UInt8) : List TokenId :=
  ((fromUtf8 token).getD []).flatMap file.charSymbols

/-- The symbols of a token before any merge. -/
def init (id : TokenId) : List TokenId := file.initialSymbols (tokenBytes file.vocab id)

/-- The initial symbols. -/
def IsInitial (id : TokenId) : Prop := id ∈ file.baseIds ∨ id ∈ file.fallbackIds

/-- The check of BASE. -/
def validateBase : Except HtkLoadError Unit :=
  if ∃ e ∈ file.base.entries, ¬ e.1.isValidChar then
    .error (.invalidModel "BASE contains a non-scalar codepoint")
  else if ∃ e ∈ file.base.entries,
      tokenBytes file.vocab e.2 ≠ String.utf8EncodeChar (Char.ofNat e.1) then
    .error (.invalidModel "BASE id does not denote its codepoint")
  else .ok ()

/-- The check of BYTEFALL. -/
def validateByteFallback : Except HtkLoadError Unit :=
  if ∃ b ∈ byteValues, tokenBytes file.vocab (file.byteFallback b) ≠ [b] then
    .error (.invalidModel "BYTEFALL id does not denote its indexed byte")
  else .ok ()

/-- The check that the other tokens are texts. -/
def validateUtf8 : Except HtkLoadError Unit :=
  if ∃ x ∈ file.vocab.zipIdx, x.1 ≠ [] ∧ x.2 ∉ file.fallbackIds ∧ (fromUtf8 x.1).isNone then
    .error (.invalidModel "sentencepiece vocabulary contains non-UTF-8 token bytes")
  else .ok ()

/-- The checks that a trusted resolver leaves out. -/
def validate : Except HtkLoadError Unit := do
  file.validateBase
  file.validateByteFallback
  validateKeySet file.vocab file.specials file.fallbackIds
  file.validateUtf8
  if file.exhaustiveSplits && file.priorities.isNone then
    .error (.invalidModel "exhaustive split reconstruction requires PRIORITY")
  else if ∃ priorities ∈ file.priorities, ∃ id ∈ file.nonProducts, priorityOf priorities id ≠ 0 then
    .error (.invalidModel "initial or special token has merge priority")
  else .ok ()

/-- PRIORITY, or the ids. -/
def priorityList : List ℕ := file.priorities.getD (List.range file.vocab.length)

end SentencePieceFile

/-- The merges of `build_sentencepiece`. -/
def buildSentencePiece (file : SentencePieceFile) (resolverTrusted : Bool) :
    Except HtkLoadError RankedMerges := do
  if !resolverTrusted then file.validate
  if file.exhaustiveSplits then
    reconstructExhaustiveRankedMerges file.vocab file.priorityList file.nonProducts
      file.lookupExcluded
  else
    reconstructRankedMerges file.vocab file.priorityList file.nonProducts file.initialSymbols

variable {file : SentencePieceFile} {resolverTrusted : Bool} {m : RankedMerges}

namespace SentencePieceFile

lemma mem_baseIds {id : TokenId} : id ∈ file.baseIds ↔ ∃ c, file.base.lookup c = some id := by
  simp only [baseIds, List.mem_toFinset, List.mem_map, ← Option.mem_def, AList.mem_lookup_iff]
  exact ⟨fun ⟨⟨c, id'⟩, he, heq⟩ => ⟨c, heq ▸ he⟩, fun ⟨c, hc⟩ => ⟨⟨c, id⟩, hc, rfl⟩⟩

lemma mem_fallbackIds {id : TokenId} : id ∈ file.fallbackIds ↔ ∃ b, file.byteFallback b = id := by
  simp [fallbackIds, mem_byteValues]

lemma IsInitial.lt {id : TokenId} (h : file.IsInitial id) : id < 2 ^ 32 := by
  have hlt : id < file.vocab.length := by
    rcases h with h | h
    · obtain ⟨c, hc⟩ := mem_baseIds.mp h
      exact file.base_lt c id hc
    · obtain ⟨b, rfl⟩ := mem_fallbackIds.mp h
      exact file.byteFallback_lt b
  exact (hlt.trans_le file.vocab_le).trans (by decide)

lemma charSymbols_isInitial (c : Char) : ∀ id ∈ file.charSymbols c, file.IsInitial id := by
  rw [charSymbols]
  split
  case h_1 id hid => simpa using .inl (mem_baseIds.mpr ⟨_, hid⟩)
  case h_2 =>
      intro id hid
      obtain ⟨b, -, rfl⟩ := List.mem_map.mp hid
      exact .inr (mem_fallbackIds.mpr ⟨b, rfl⟩)

lemma init_isInitial (id : TokenId) : ∀ a ∈ file.init id, file.IsInitial a := by
  intro a ha
  obtain ⟨c, -, hc⟩ := List.mem_flatMap.mp ha
  exact charSymbols_isInitial c a hc

lemma length_charSymbols_le (c : Char) :
    (file.charSymbols c).length ≤ (String.utf8EncodeChar c).length := by
  rw [charSymbols]
  split
  · exact length_utf8EncodeChar_pos c
  · rw [List.length_map]

/-- A token has at most as many symbols as bytes. -/
lemma length_initialSymbols_le (token : List UInt8) :
    (file.initialSymbols token).length ≤ token.length := by
  rw [initialSymbols]
  cases h : fromUtf8 token with
  | none => simp
  | some t =>
      rw [← textBytes_of_fromUtf8 h, Option.getD_some, textBytes, List.length_flatMap,
        List.length_flatMap]
      exact List.sum_le_sum fun c _ => length_charSymbols_le c

lemma length_init_le (id : TokenId) : (file.init id).length ≤ usizeMax := by
  refine (length_initialSymbols_le _).trans ?_
  rw [tokenBytes, List.getD_eq_getElem?_getD]
  cases h : file.vocab[id]? with
  | none => simp
  | some token =>
      have hle := List.single_le_sum (fun _ _ => Nat.zero_le _) _
        (List.mem_map_of_mem (f := List.length) (List.mem_of_getElem? h))
      exact (hle.trans file.arena_le).trans (by decide)

end SentencePieceFile

/-- The merges are reconstructed, whatever is checked. -/
lemma buildSentencePiece_ok (h : buildSentencePiece file resolverTrusted = .ok m) :
    (if file.exhaustiveSplits then
      reconstructExhaustiveRankedMerges file.vocab file.priorityList file.nonProducts
        file.lookupExcluded
    else
      reconstructRankedMerges file.vocab file.priorityList file.nonProducts
        file.initialSymbols) = .ok m := by
  cases resolverTrusted with
  | true => exact h
  | false =>
      obtain ⟨⟨⟩, -, h⟩ := bind_eq_ok_iff.mp h
      exact h

/-- Without the flag the products are replayed in the order of their priorities, if these
tell them apart. -/
theorem buildSentencePiece_ranked (h : buildSentencePiece file resolverTrusted = .ok m)
    (hflag : file.exhaustiveSplits = false) {products : List TokenId}
    (hsorted : products.Pairwise fun a b =>
      priorityOf file.priorityList a < priorityOf file.priorityList b)
    (hmem : ∀ id, id ∈ products ↔ id < file.vocab.length ∧ tokenBytes file.vocab id ≠ [] ∧
      id ∉ file.nonProducts ∧ priorityOf file.priorityList id ≠ 0)
    (hle : ∀ id ∈ products, priorityOf file.priorityList id ≤ u32Max) :
    ∃ rules, Rebuilt file.init (priorityOf file.priorityList) products (rankedTable m.pair)
      rules := by
  replace h := buildSentencePiece_ok h
  rw [hflag] at h
  exact reconstructRankedMerges_rebuilt hsorted hmem hle file.vocab_le
    (fun id _ => ⟨file.length_init_le id, fun a ha => (file.init_isInitial id a ha).lt⟩) h

/-- With the flag, the merges are the cuts of the products into two tokens, if no bytes
belong to two tokens. -/
theorem buildSentencePiece_exhaustive (h : buildSentencePiece file resolverTrusted = .ok m)
    (hflag : file.exhaustiveSplits = true)
    (huniq : ∀ id id' token, Keyed file.vocab file.lookupExcluded id token →
      Keyed file.vocab file.lookupExcluded id' token → id = id')
    {a b : TokenId} (hb : b < 2 ^ 32) {q : ℕ × TokenId} :
    q ∈ rankedTable m.pair a b ↔ ∃ left right, Keyed file.vocab file.lookupExcluded a left ∧
      Keyed file.vocab file.lookupExcluded b right ∧ file.vocab[q.2]? = some (left ++ right) ∧
      q.2 ∉ file.nonProducts ∧ q.1 = priorityOf file.priorityList q.2 ∧ q.1 ≠ 0 := by
  replace h := buildSentencePiece_ok h
  rw [hflag] at h
  exact exhaustive_table file.vocab_le huniq h hb

end Hypertok
