import Hypertok.Convert.SentencePiece

/-!
The merges of a converted SentencePiece tokenizer, after the file is loaded.

* `SentencePieceConversion.rebuilt`: without the flag for all cuts the loader replays the
  admitted products that are no byte-fallback tokens, in the order of the merge list.
* `convertSentencePiece_merges`: so the loader merges as these merges do just when they
  are a replay; with the flag it merges as the listed merges of texts do when each takes
  the priority of its product.
-/

namespace Hypertok

open PairMerge Machine

variable {parsed : TokenizerJson} {file : SentencePieceFile}

namespace SentencePieceFile

/-- The admitted merges; byte-fallback tokens are no products. -/
def kept (file : SentencePieceFile) (rules : List (Rule ℕ TokenId)) : List (Rule ℕ TokenId) :=
  (admitted file.specials (file.baseIds ∪ file.fallbackIds) rules).filter fun r =>
    r.product ∉ file.fallbackIds

/-- The listed merges of texts only, each with the priority of its product. -/
def textMerges (file : SentencePieceFile) (rules : List (Rule ℕ TokenId)) : List (Rule ℕ TokenId) :=
  byProduct (admitted file.specials (file.baseIds ∪ file.fallbackIds) rules)
    (rules.filter fun r => r.left ∉ file.fallbackIds && r.right ∉ file.fallbackIds &&
      r.product ∉ file.fallbackIds)

lemma mem_kept {rules : List (Rule ℕ TokenId)} {id : TokenId} : id ∈ (file.kept rules).map Rule.product ↔
    id ∈ products (admitted file.specials (file.baseIds ∪ file.fallbackIds) rules) ∧
      id ∉ file.fallbackIds := by
  simp only [kept, List.mem_map, List.mem_filter, decide_eq_true_eq, mem_products]
  constructor
  · rintro ⟨r, ⟨hr, hf⟩, rfl⟩
    exact ⟨⟨r, hr, rfl⟩, hf⟩
  · rintro ⟨⟨r, hr, rfl⟩, hf⟩
    exact ⟨r, ⟨hr, hf⟩, rfl⟩

lemma kept_sublist (file : SentencePieceFile) (rules : List (Rule ℕ TokenId)) : (file.kept rules).Sublist
    (admitted file.specials (file.baseIds ∪ file.fallbackIds) rules) := List.filter_sublist

end SentencePieceFile

namespace SentencePieceConversion

variable {rules : List (Rule ℕ TokenId)} {p : Priorities} {resolverTrusted : Bool}
  {m : RankedMerges} (h : SentencePieceConversion parsed file rules p)
include h

/-- The products of the admitted merges are texts of two characters or more. -/
lemma product_ok {id : TokenId}
    (hid : id ∈ products (admitted file.specials (file.baseIds ∪ file.fallbackIds) rules)) :
    id ∉ file.specials ∧ id ∉ file.baseIds ∧ ∃ t, t ≠ [] ∧ parsed.vocab.lookup t = some id := by
  obtain ⟨r, hr, rfl⟩ := mem_products.mp hid
  obtain ⟨left, right, hleft, hright, hproduct⟩ := h.derived.parts_of_admitted h.inj (fun a ha t ht => by
    rcases Finset.mem_union.mp ha with ha | ha
    · obtain ⟨-, c, hc⟩ := h.base a ha
      rw [h.inj t _ _ ht hc]
      simp
    · obtain ⟨-, t', hne, ht'⟩ := h.fallback a ha
      rwa [h.inj t _ _ ht ht']) hr
  refine ⟨(admits_of_mem hr).1, fun hbase => ?_, _, by simp [hleft], hproduct⟩
  obtain ⟨-, c, hc⟩ := h.base _ hbase
  have hlen := congrArg List.length (h.inj _ _ _ hc hproduct)
  rw [List.length_append, List.length_singleton] at hlen
  have := List.length_pos_iff.mpr hleft
  have := List.length_pos_iff.mpr hright
  omega

/-- The products that the loader may find. -/
lemma kept_ok {id : TokenId} (hid : id ∈ (file.kept rules).map Rule.product) :
    id < file.vocab.length ∧ tokenBytes file.vocab id ≠ [] ∧ id ∉ file.nonProducts := by
  obtain ⟨hid, hfallback⟩ := SentencePieceFile.mem_kept.mp hid
  obtain ⟨hs, hbase, t, hne, ht⟩ := h.product_ok hid
  have hexcluded : id ∉ file.lookupExcluded := fun hmem =>
    (Finset.mem_union.mp hmem).elim hs hfallback
  obtain ⟨bytes, hbytes, hget⟩ := h.emitted.slot t id ht hexcluded
  cases hbytes
  refine ⟨(List.getElem?_eq_some_iff.mp hget).1, ?_, fun hnon => ?_⟩
  · rw [tokenBytes, List.getD_eq_getElem?_getD, hget, Option.getD_some, ne_eq, textBytes_eq_nil]
    exact hne
  · exact (Finset.mem_union.mp hnon).elim hexcluded hbase

/-- Without the flag for all cuts, the loader replays the kept products. -/
theorem rebuilt (hload : buildSentencePiece file resolverTrusted = .ok m)
    (hflag : file.exhaustiveSplits = false)
    (hzero : file.priorities = none → 0 ∉ (file.kept rules).map Rule.product) :
    ∃ loaded, Rebuilt file.init (priorityOf file.priorityList) ((file.kept rules).map Rule.product)
      (rankedTable m.pair) loaded ∧ ((file.kept rules).map Rule.product).Pairwise fun a b =>
        priorityOf file.priorityList a < priorityOf file.priorityList b := by
  have hflag' : p.exhaustiveSplits = false := h.exhaustiveSplits ▸ hflag
  have hsub := (file.kept_sublist rules).map Rule.product
  by_cases hnone : p.inversions = 0 ∧ p.nonProducts = 0
  · have hprio : file.priorities = none := by simp [h.priorities, hnone, hflag']
    -- the priority of a token is its id
    have hid : ∀ id < file.vocab.length, priorityOf file.priorityList id = id := by
      intro id hlt
      simp [SentencePieceFile.priorityList, hprio, priorityOf, List.getD_eq_getElem?_getD, hlt]
    have hsorted : ((file.kept rules).map Rule.product).Pairwise fun a b =>
        priorityOf file.priorityList a < priorityOf file.priorityList b := by
      refine ((h.derived.pairwise_id hflag' hnone.1).sublist hsub).imp_of_mem fun {a b} ha hb hlt => ?_
      rwa [hid a (h.kept_ok ha).1, hid b (h.kept_ok hb).1]
    have hfound : ∀ id, id ∈ (file.kept rules).map Rule.product ↔ id < file.vocab.length ∧
        tokenBytes file.vocab id ≠ [] ∧ id ∉ file.nonProducts ∧
        priorityOf file.priorityList id ≠ 0 := by
      intro id
      constructor
      · intro hmem
        obtain ⟨hlt, hne, hnon⟩ := h.kept_ok hmem
        refine ⟨hlt, hne, hnon, ?_⟩
        rw [hid id hlt]
        rintro rfl
        exact hzero hprio hmem
      · rintro ⟨hlt, -, hnon, -⟩
        simp only [SentencePieceFile.nonProducts, Finset.mem_union, not_or] at hnon
        exact SentencePieceFile.mem_kept.mpr ⟨h.derived.nonProducts hnone.2 id hlt hnon.1.1 (by simp [hnon]),
          hnon.1.2⟩
    have hle : ∀ id ∈ (file.kept rules).map Rule.product,
        priorityOf file.priorityList id ≤ u32Max := by
      intro id hmem
      have hlt := (h.kept_ok hmem).1
      rw [hid id hlt]
      exact (hlt.le.trans file.vocab_le).trans (by decide)
    obtain ⟨loaded, hT⟩ := buildSentencePiece_ranked hload hflag hsorted hfound hle
    exact ⟨loaded, hT, hsorted⟩
  · have hprio : file.priorityList = p.priorities := by
      rw [SentencePieceFile.priorityList, h.priorities, if_pos (by tauto), Option.getD_some]
    have hsorted : ((file.kept rules).map Rule.product).Pairwise fun a b =>
        priorityOf file.priorityList a < priorityOf file.priorityList b := by
      rw [hprio]
      exact (h.derived.pairwise_priority hflag').sublist hsub
    have hfound : ∀ id, id ∈ (file.kept rules).map Rule.product ↔ id < file.vocab.length ∧
        tokenBytes file.vocab id ≠ [] ∧ id ∉ file.nonProducts ∧
        priorityOf file.priorityList id ≠ 0 := by
      intro id
      rw [hprio, h.derived.priority_ne_zero]
      constructor
      · intro hmem
        obtain ⟨hlt, hne, hnon⟩ := h.kept_ok hmem
        exact ⟨hlt, hne, hnon, (SentencePieceFile.mem_kept.mp hmem).1⟩
      · rintro ⟨-, -, hnon, hmem⟩
        simp only [SentencePieceFile.nonProducts, Finset.mem_union, not_or] at hnon
        exact SentencePieceFile.mem_kept.mpr ⟨hmem, hnon.1.2⟩
    have hle : ∀ id ∈ (file.kept rules).map Rule.product,
        priorityOf file.priorityList id ≤ u32Max := fun id hmem => by
      rw [hprio]
      exact h.derived.priority_le hflag' id (hsub.subset hmem)
    obtain ⟨loaded, hT⟩ := buildSentencePiece_ranked hload hflag hsorted hfound hle
    exact ⟨loaded, hT, hsorted⟩

lemma product_lt {id : TokenId} (hid : id ∈ (file.kept rules).map Rule.product) : id < 2 ^ 32 :=
  ((h.kept_ok hid).1.trans_le file.vocab_le).trans (by decide)

/-- With the flag for all cuts, the loader has the merges of texts, each with the priority
of its product. -/
theorem table_exhaustive (hload : buildSentencePiece file resolverTrusted = .ok m)
    (hflag : file.exhaustiveSplits = true) {a b : TokenId} (ha : a ∉ file.specials)
    (hb : b < 2 ^ 32 ∧ b ∉ file.specials) :
    rankedTable m.pair a b = ruleTable (file.textMerges rules) a b := by
  have hflag' : p.exhaustiveSplits = true := h.exhaustiveSplits ▸ hflag
  have hprio : file.priorityList = p.priorities := by
    simp [SentencePieceFile.priorityList, h.priorities, hflag']
  have huniq : ∀ id id' token, Keyed file.vocab file.lookupExcluded id token →
      Keyed file.vocab file.lookupExcluded id' token → id = id' := by
    intro id id' token hid hid'
    obtain ⟨t, ht⟩ := h.emitted.token id token hid.1 hid.2.1 hid.2.2
    obtain ⟨t', ht'⟩ := h.emitted.token id' token hid'.1 hid'.2.1 hid'.2.2
    obtain ⟨bytes, henc, hget⟩ := h.emitted.slot t id ht hid.2.2
    obtain ⟨bytes', henc', hget'⟩ := h.emitted.slot t' id' ht' hid'.2.2
    obtain rfl := Option.some_inj.mp (hid.1.symm.trans hget)
    obtain rfl := Option.some_inj.mp (hid'.1.symm.trans hget')
    obtain rfl := h.emitted.inj t t' _ henc henc'
    exact Option.some_inj.mp (ht.symm.trans ht')
  have hexcluded : file.specials ∪ file.fallbackIds ⊆ file.nonProducts := Finset.subset_union_left
  rw [exhaustive_eq_byProduct h.emitted h.derived hflag' h.inj hexcluded (T := rankedTable m.pair) fun q => by
      rw [buildSentencePiece_exhaustive hload hflag huniq hb.1, hprio, h.derived.priority],
    SentencePieceFile.textMerges, byProduct_filter (fun _ => rfl), byProduct_filter (fun _ => rfl)]
  -- in both lists the pair has the rules with an admitted product that is no byte-fallback token
  set l := byProduct (admitted file.specials (file.baseIds ∪ file.fallbackIds) rules) rules with hl
  have hsplit : l.filter (fun r => r.left ∉ file.lookupExcluded && r.right ∉ file.lookupExcluded &&
      r.product ∉ file.nonProducts) = (l.filter fun r => r.left ∉ file.fallbackIds &&
        r.right ∉ file.fallbackIds && r.product ∉ file.fallbackIds).filter fun r =>
          r.left ∉ file.specials && r.right ∉ file.specials := by
    rw [List.filter_filter]
    refine List.filter_congr fun r hr => ?_
    obtain ⟨hs, hbase, -⟩ := h.product_ok (h.derived.product_of_byProduct hr)
    have hnon : r.product ∉ file.nonProducts ↔ r.product ∉ file.fallbackIds := by
      simp [SentencePieceFile.nonProducts, hs, hbase]
    simp only [SentencePieceFile.lookupExcluded, Finset.mem_union, not_or, hnon, Bool.decide_and]
    cases decide (r.left ∉ file.specials) <;> cases decide (r.right ∉ file.specials) <;> simp
  rw [hsplit, ruleTable_filter]
  rintro r - rfl rfl
  simp [ha, hb.2]

lemma not_special {a : TokenId} (ha : file.IsInitial a) : a ∉ file.specials :=
  ha.elim (fun hbase => (h.base a hbase).1) fun hfallback => (h.fallback a hfallback).1

/-- The products of the merges of texts. -/
lemma product_of_textMerges {r : Rule ℕ TokenId} (hr : r ∈ file.textMerges rules) :
    r.product < 2 ^ 32 ∧ r.product ∉ file.specials := by
  rw [SentencePieceFile.textMerges, byProduct_filter (fun _ => rfl), List.mem_filter] at hr
  have hproduct := h.derived.product_of_byProduct hr.1
  have hfallback : r.product ∉ file.fallbackIds := by
    simpa using (Bool.and_eq_true_iff.mp hr.2).2
  exact ⟨h.product_lt (SentencePieceFile.mem_kept.mpr ⟨hproduct, hfallback⟩),
    (h.product_ok hproduct).1⟩

end SentencePieceConversion

/-- The tokens `<0x00>` to `<0xFF>`. -/
def fallbackTokens : List Text :=
  byteValues.map fun b => ['<', '0', 'x'] ++ upperHex b.toNat ++ ['>']

/-- Letters (from 256), then `bc` (259), `ab` (260) and `abc` (261). -/
def abcTexts : List Text := [['a'], ['b'], ['c'], ['b', 'c'], ['a', 'b'], ['a', 'b', 'c']]

lemma fallbackByte_fallbackTokens :
    fallbackTokens.map fallbackByte = byteValues.map fun b => .ok (some b) := by
  decide +kernel

lemma fallbackByte_abcTexts : ∀ t ∈ abcTexts, fallbackByte t = .ok none := by
  simp only [abcTexts, List.forall_mem_cons]
  exact ⟨rfl, rfl, rfl, rfl, rfl, rfl, List.forall_mem_nil _⟩

lemma length_fallbackTokens : fallbackTokens.length = 256 := by
  simp [fallbackTokens, byteValues]

lemma getElem?_byteValues (b : UInt8) : byteValues[b.toNat]? = some b := by
  rw [byteValues, List.getElem?_map, List.getElem?_range b.toNat_lt]
  simp

/-- The byte of a token is its number. -/
lemma fallbackByte_of_getElem? {t : Text} {id : TokenId}
    (h : (fallbackTokens ++ abcTexts)[id]? = some t) :
    id < 256 ∧ fallbackByte t = .ok (some (UInt8.ofNat id)) ∨ 256 ≤ id ∧ fallbackByte t = .ok none := by
  by_cases hid : id < 256
  · refine .inl ⟨hid, ?_⟩
    rw [List.getElem?_append_left (length_fallbackTokens ▸ hid)] at h
    have hbyte := congrArg (fun l => l[id]?) fallbackByte_fallbackTokens
    have hval := getElem?_byteValues (UInt8.ofNat id)
    rw [UInt8.toNat_ofNat', Nat.mod_eq_of_lt hid] at hval
    simpa [h, hval] using hbyte
  · rw [not_lt] at hid
    rw [List.getElem?_append_right (length_fallbackTokens ▸ hid)] at h
    exact .inr ⟨hid, fallbackByte_abcTexts t (List.mem_of_getElem? h)⟩

lemma byte_of_getElem? {t : Text} {id : TokenId} {b : UInt8}
    (h : (fallbackTokens ++ abcTexts)[id]? = some t) (hb : fallbackByte t = .ok (some b)) :
    id = b.toNat := by
  rcases fallbackByte_of_getElem? h with ⟨hlt, hbyte⟩ | ⟨-, hbyte⟩
  · obtain rfl := Option.some_inj.mp (Except.ok.inj (hbyte.symm.trans hb))
    exact (UInt8.toNat_ofNat_of_lt' hlt).symm
  · simp [hb] at hbyte

lemma nodup_spTokens : (fallbackTokens ++ abcTexts).Nodup := by
  refine List.Nodup.append ?_ (by decide) fun t ht ht' => ?_
  · refine List.Nodup.of_map fallbackByte ?_
    rw [fallbackByte_fallbackTokens]
    exact nodup_byteValues.map fun _ _ h => Option.some_inj.mp (Except.ok.inj h)
  · have hmem := List.mem_map_of_mem (f := fallbackByte) ht
    rw [fallbackByte_fallbackTokens, fallbackByte_abcTexts t ht'] at hmem
    simp at hmem

/-- In `abc` the merge of `b` and `c` is listed first, and `abc` is listed as `ab`, `c`. -/
def abcTextJson : TokenizerJson where
  vocab := ⟨(fallbackTokens ++ abcTexts).zipIdx.map fun x => ⟨x.1, x.2⟩, by
    have hkeys : ((fallbackTokens ++ abcTexts).zipIdx.map fun x =>
        (⟨x.1, x.2⟩ : (_ : Text) × TokenId)).keys = fallbackTokens ++ abcTexts := by
      rw [List.keys, List.map_map]
      exact List.zipIdx_map_fst 0 _
    rw [List.NodupKeys, hkeys]
    exact nodup_spTokens⟩
  merges := [.pair ['b'] ['c'], .pair ['a'] ['b'], .pair ['a', 'b'] ['c']]
  addedTokens := []

/-- The file of `abcTextJson`. -/
def abcTextFile : SentencePieceFile where
  vocab := byteValues.map (fun b => [b]) ++ abcTexts.map textBytes
  base := ⟨[⟨99, 258⟩, ⟨98, 257⟩, ⟨97, 256⟩], by simp [List.NodupKeys, List.keys]⟩
  byteFallback b := b.toNat
  specials := ∅
  priorities := none
  exhaustiveSplits := false
  vocab_le := by simp [abcTexts, byteValues]
  arena_le := by decide +kernel
  base_lt c id h := by
    have hmem : (⟨c, id⟩ : (_ : ℕ) × TokenId) ∈ [⟨99, 258⟩, ⟨98, 257⟩, ⟨97, 256⟩] :=
      AList.mem_lookup_iff.mp h
    have hle : id ≤ 258 := by
      simp only [List.mem_cons, List.not_mem_nil, or_false, Sigma.mk.injEq, heq_eq_eq] at hmem
      rcases hmem with ⟨-, rfl⟩ | ⟨-, rfl⟩ | ⟨-, rfl⟩ <;> decide
    exact hle.trans_lt (by simp [abcTexts, byteValues])
  byteFallback_lt b := b.toNat_lt.trans (by simp [abcTexts, byteValues])

/-- The merge list of `abcTextJson`. -/
def abcTextRules : List (Rule ℕ TokenId) :=
  [⟨1, 257, 258, 259⟩, ⟨2, 256, 257, 260⟩, ⟨3, 260, 258, 261⟩]

lemma orderedModelTokens_abcTextJson :
    orderedModelTokens abcTextJson.vocab = .ok (fallbackTokens ++ abcTexts) := by
  refine orderedModelTokens_of_toList ?_
  rw [VocabMap.toList, abcTextJson, List.map_map]
  exact List.map_id _

lemma lookup_abcTextJson {t : Text} {n : ℕ} (h : abcTexts[n]? = some t) :
    abcTextJson.vocab.lookup t = some (n + 256) := by
  refine ((orderedModelTokens_ok orderedModelTokens_abcTextJson).2 t (n + 256)).mp ?_
  rw [← length_fallbackTokens, List.getElem?_append_right (Nat.le_add_left _ n), Nat.add_sub_cancel, h]

/-- The ids of its merges. -/
lemma resolveMerge_abcTextJson : ∀ x ∈ abcTextJson.merges.zipIdx.zip abcTextRules,
    resolveMerge abcTextJson.vocab x.1 = .ok x.2 := by
  have hb := @lookup_abcTextJson ['b'] 1 rfl
  have hc := @lookup_abcTextJson ['c'] 2 rfl
  have hbc := @lookup_abcTextJson ['b', 'c'] 3 rfl
  have hab := @lookup_abcTextJson ['a', 'b'] 4 rfl
  have habc := @lookup_abcTextJson ['a', 'b', 'c'] 5 rfl
  have ha := @lookup_abcTextJson ['a'] 0 rfl
  intro x hx
  obtain rfl | rfl | rfl : x = ((.pair ['b'] ['c'], 0), ⟨1, 257, 258, 259⟩) ∨
      x = ((.pair ['a'] ['b'], 1), ⟨2, 256, 257, 260⟩) ∨
      x = ((.pair ['a', 'b'] ['c'], 2), ⟨3, 260, 258, 261⟩) := by
    simpa [abcTextJson, abcTextRules] using hx
  · simp [resolveMerge, MergeLine.parts, hb, hc, hbc]
  · simp [resolveMerge, MergeLine.parts, ha, hb, hab]
  · simp [resolveMerge, MergeLine.parts, hab, hc, habc]

lemma sourceRules_abcTextJson : sourceRules abcTextJson.vocab abcTextJson.merges = .ok abcTextRules := by
  exact mapM_ok_iff.mpr (List.forall₂_iff_zip.mpr ⟨rfl, fun h => resolveMerge_abcTextJson _ h⟩)

lemma derivePriority_abcTextJson : ∃ p, derivePriority abcTextJson.merges abcTextJson.vocab ∅
    (Finset.range 256) {258, 257, 256} 262 true = .ok p ∧
      p.inversions = 0 ∧ p.nonProducts = 0 ∧ p.exhaustiveSplits = false := by
  obtain ⟨st, hst, hfields⟩ := eq_ok_of_toOption (x := abcTextRules.foldlM (priorityStep ∅)
    (.start 262 ({258, 257, 256} ∪ Finset.range 256))) (b := (0, 0, [1, 2, 3]))
    (f := fun st => (st.duplicateProducts, st.inversions, st.priorities.drop 259)) (by decide +kernel)
  obtain ⟨hdup, hinv, hdrop⟩ : st.duplicateProducts = 0 ∧ st.inversions = 0 ∧
      st.priorities.drop 259 = [1, 2, 3] := by simpa using hfields
  -- every token is a byte, a letter or a product
  have hnone : ((List.range 262).filter fun id => id ∉ (∅ : Finset TokenId) &&
      id ∉ Finset.range 256 && id ∉ ({258, 257, 256} : Finset TokenId) &&
        priorityOf st.priorities id == 0) = [] := by
    refine List.filter_eq_nil_iff.mpr fun (id : ℕ) hid => ?_
    have hlt : id < 262 := List.mem_range.mp hid
    by_cases hproduct : 259 ≤ id
    · have hrank : priorityOf st.priorities id = [1, 2, 3].getD (id - 259) 0 := by
        rw [← hdrop, priorityOf, List.getD_eq_getElem?_getD, List.getD_eq_getElem?_getD,
          List.getElem?_drop, Nat.add_sub_cancel' hproduct]
      obtain rfl | rfl | rfl : id = 259 ∨ id = 260 ∨ id = 261 := by omega
      all_goals simp [hrank]
    · have hmem : id < 256 ∨ id = 258 ∨ id = 257 ∨ id = 256 := by omega
      rcases hmem with h | rfl | rfl | rfl
      · simp [h]
      all_goals simp
  refine ⟨⟨st.priorities, st.inversions, 0, false⟩, ?_, hinv, rfl, rfl⟩
  rw [derivePriority, foldlM_of_mapM _ sourceRules_abcTextJson, hst, ok_bind]
  dsimp only
  rw [hnone]
  exact if_pos hdup

lemma getElem?_abcTextFile (b : UInt8) : abcTextFile.vocab[b.toNat]? = some [b] := by
  have hlt : b.toNat < byteValues.length := by simpa [byteValues] using b.toNat_lt
  rw [abcTextFile, List.getElem?_append_left (by simpa using hlt), List.getElem?_map,
    getElem?_byteValues]
  rfl

lemma mem_fallbackIds_abcTextFile {id : ℕ} : id ∈ abcTextFile.fallbackIds ↔ id < 256 := by
  rw [SentencePieceFile.mem_fallbackIds]
  constructor
  · rintro ⟨b, rfl⟩
    exact b.toNat_lt
  · intro hid
    exact ⟨UInt8.ofNat id, UInt8.toNat_ofNat_of_lt' hid⟩

lemma convertSentencePiece_abcTextJson : convertSentencePiece abcTextJson = .ok abcTextFile := by
  have hordered := orderedModelTokens_abcTextJson
  have hlen : (fallbackTokens ++ abcTexts).length = 262 := by
    rw [List.length_append, length_fallbackTokens]
    rfl
  have hentries : abcTextJson.vocab.entries.length = 262 := by
    rw [← (orderedModelTokens_ok hordered).1, hlen]
  obtain ⟨output, byId, hfallback⟩ := deriveByteFallback_of_unique
    (fun t (ht : t ∈ fallbackTokens ++ abcTexts) => by
      obtain ⟨id, hid⟩ := List.mem_iff_getElem?.mp ht
      exact (fallbackByte_of_getElem? hid).elim (fun h => ⟨_, h.2⟩) fun h => ⟨_, h.2⟩)
    (fun id id' t t' b ht ht' hb hb' =>
      (byte_of_getElem? ht hb).trans (byte_of_getElem? ht' hb').symm)
    fun b => by
      have hmem : Except.ok (some b) ∈ fallbackTokens.map fallbackByte := by
        rw [fallbackByte_fallbackTokens]
        exact List.mem_map_of_mem (f := fun b => (.ok (some b) : Except _ _)) (mem_byteValues b)
      obtain ⟨t, ht, hb⟩ := List.mem_map.mp hmem
      exact ⟨t, List.mem_append_left _ ht, hb⟩
  -- the byte of a token is its number
  obtain ⟨hget, htoken⟩ := deriveByteFallback_ok hfallback
  have hbyte : ∀ b : UInt8, ∀ id, byId.lookup id = some b → id = b.toNat := by
    intro b id hid
    obtain ⟨-, t, ht, hb⟩ := htoken id b hid
    exact byte_of_getElem? ht hb
  have houtput : ∀ b : UInt8, output.getD b.toNat 0 = b.toNat := fun b =>
    hbyte b _ ((hget b _).mp rfl)
  have hlookup : ∀ b : UInt8, byId.lookup b.toNat = some b := fun b => (hget b _).mp (houtput b)
  have hnone : ∀ id, 256 ≤ id → byId.lookup id = none := by
    intro id hid
    refine Option.eq_none_iff_forall_ne_some.mpr fun b hb => ?_
    exact absurd (hbyte b id hb ▸ hid) b.toNat_lt.not_ge
  have hkeys : byId.keys.toFinset = Finset.range 256 := by
    ext id
    rw [List.mem_toFinset, ← AList.mem_keys, ← AList.lookup_isSome, Option.isSome_iff_exists,
      Finset.mem_range]
    constructor
    · rintro ⟨b, hb⟩
      exact hbyte b id hb ▸ b.toNat_lt
    · intro hid
      have h := hlookup (UInt8.ofNat id)
      rw [UInt8.toNat_ofNat_of_lt' hid] at h
      exact ⟨_, h⟩
  have hbase : deriveBase (fallbackTokens ++ abcTexts) ∅ byId =
      .ok ⟨abcTextFile.base, {258, 257, 256}⟩ := by
    have hskip : fallbackTokens.zipIdx.foldlM (charBaseStep ∅ byId) ⟨∅, ∅⟩ = .ok ⟨∅, ∅⟩ := by
      refine foldlM_skip fun x hx => if_pos (.inr ?_)
      have hlt : x.2 < 256 := by
        rw [← length_fallbackTokens]
        exact (List.getElem?_eq_some_iff.mp (List.mem_zipIdx_iff_getElem?.mp hx)).1
      have h := hlookup (UInt8.ofNat x.2)
      rw [UInt8.toNat_ofNat_of_lt' hlt] at h
      rw [h]
      rfl
    rw [deriveBase, List.zipIdx_append, List.foldlM_append, hskip, ok_bind, length_fallbackTokens]
    have hchar : ∀ (st : CharBase) (a : Char) (id : TokenId), 256 ≤ id →
        st.entries.lookup a.toNat = none → charBaseStep ∅ byId st ([a], id) =
          .ok ⟨st.entries.insert a.toNat id, insert id st.ids⟩ := by
      intro st a id hid hnew
      simp [charBaseStep, hnone id hid, hnew]
    have hrest : ((abcTexts.drop 3).zipIdx 259).foldlM (charBaseStep ∅ byId)
        ⟨abcTextFile.base, {258, 257, 256}⟩ = .ok ⟨abcTextFile.base, {258, 257, 256}⟩ := by
      refine foldlM_skip fun x hx => ?_
      have htext : ∀ t ∈ abcTexts.drop 3, ∀ a, t ≠ [a] := by simp [abcTexts]
      have ht := htext x.1 (List.fst_mem_of_mem_zipIdx hx)
      rw [charBaseStep]
      split_ifs
      · rfl
      · split
        · exact absurd ‹_› (ht _)
        · rfl
    have htexts : abcTexts.zipIdx (0 + 256) = (['a'], 256) :: (['b'], 257) :: (['c'], 258) ::
        (abcTexts.drop 3).zipIdx 259 := rfl
    rw [htexts, List.foldlM_cons, hchar _ _ _ (by decide) rfl, ok_bind, List.foldlM_cons,
      hchar _ _ _ (by decide) rfl, ok_bind, List.foldlM_cons, hchar _ _ _ (by decide) rfl, ok_bind]
    exact hrest
  have hslots : sentencePieceSlots (fallbackTokens ++ abcTexts) byId = abcTextFile.vocab := by
    rw [sentencePieceSlots, List.zipIdx_append, List.map_append]
    refine congrArg₂ (· ++ ·) ?_ ?_
    · refine List.ext_getElem (by simp [length_fallbackTokens, byteValues]) fun id hid hid' => ?_
      have hlt : id < 256 := by simpa [length_fallbackTokens] using hid
      have h := hlookup (UInt8.ofNat id)
      rw [UInt8.toNat_ofNat_of_lt' hlt, ← Nat.zero_add id] at h
      rw [List.getElem_map, List.getElem_map, List.getElem_zipIdx, h]
      simp [byteValues]
    · refine List.ext_getElem (by simp) fun id hid hid' => ?_
      simp [length_fallbackTokens, hnone]
  obtain ⟨p, hp, hinv, hnon, hflag⟩ := derivePriority_abcTextJson
  rw [← hkeys, ← hentries] at hp
  rw [convertSentencePiece_eq (by rw [hentries]; decide) (tokenStrings_ok_iff.mpr hordered) rfl
    hfallback hbase hp, hslots]
  refine @writeSentencePieceFile_eq abcTextFile _ _ houtput ?_ hflag.symm
  rw [hinv, hnon, hflag]
  rfl

/-- The tokens of the file that are no byte-fallback tokens. -/
lemma text_of_getElem? {id : TokenId} {token : List UInt8}
    (h : abcTextFile.vocab[id]? = some token) (hid : id ∉ abcTextFile.fallbackIds) :
    ∃ t ∈ abcTexts, textBytes t = token := by
  rw [mem_fallbackIds_abcTextFile, not_lt] at hid
  have hlen : (byteValues.map fun b => [b]).length ≤ id := by simpa [byteValues] using hid
  rw [abcTextFile, List.getElem?_append_right hlen] at h
  exact List.mem_map.mp (List.mem_of_getElem? h)

lemma validate_abcTextFile : abcTextFile.validate = .ok () := by
  have hbase : abcTextFile.validateBase = .ok () := by decide +kernel
  have hfallback : abcTextFile.validateByteFallback = .ok () := by
    refine if_neg fun h => ?_
    obtain ⟨b, -, hne⟩ := h
    refine hne ?_
    rw [tokenBytes, List.getD_eq_getElem?_getD]
    exact congrArg (fun o => o.getD []) (getElem?_abcTextFile b)
  have hkeys : validateKeySet abcTextFile.vocab abcTextFile.specials abcTextFile.fallbackIds = .ok () := by
    rw [validateKeySet]
    have hsplit : abcTextFile.vocab.zipIdx = (byteValues.map fun b => [b]).zipIdx ++
        (abcTexts.map textBytes).zipIdx (0 + (byteValues.map fun b => [b]).length) :=
      List.zipIdx_append
    rw [hsplit, validateKeySetLoop_skip fun x hx => ?_, validateKeySetLoop_of_nodup]
    · rw [List.zipIdx_map_fst]
      decide
    · simp
    · rw [mem_fallbackIds_abcTextFile]
      have hlt := (List.getElem?_eq_some_iff.mp (List.mem_zipIdx_iff_getElem?.mp hx)).1
      simpa [byteValues] using hlt
  have hutf8 : abcTextFile.validateUtf8 = .ok () := by
    refine if_neg fun h => ?_
    obtain ⟨x, hx, hne, hid, hnone⟩ := h
    obtain ⟨t, -, ht⟩ := text_of_getElem? (List.mem_zipIdx_iff_getElem?.mp hx) hid
    rw [← ht, fromUtf8_textBytes] at hnone
    cases hnone
  rw [SentencePieceFile.validate, hbase, ok_bind, hfallback, ok_bind, hkeys, ok_bind, hutf8, ok_bind]
  rfl

lemma initialSymbols_textBytes (file : SentencePieceFile) (t : Text) :
    file.initialSymbols (textBytes t) = t.flatMap file.charSymbols := by
  rw [SentencePieceFile.initialSymbols, fromUtf8_textBytes, Option.getD_some]

lemma charSymbols_abcTextFile : abcTextFile.charSymbols 'a' = [256] ∧
    abcTextFile.charSymbols 'b' = [257] ∧ abcTextFile.charSymbols 'c' = [258] :=
  ⟨rfl, rfl, rfl⟩

lemma init_abcTextFile : abcTextFile.init 259 = [257, 258] ∧ abcTextFile.init 260 = [256, 257] ∧
    abcTextFile.init 261 = [256, 257, 258] := by
  obtain ⟨ha, hb, hc⟩ := charSymbols_abcTextFile
  have hbytes : tokenBytes abcTextFile.vocab 259 = textBytes ['b', 'c'] ∧
      tokenBytes abcTextFile.vocab 260 = textBytes ['a', 'b'] ∧
      tokenBytes abcTextFile.vocab 261 = textBytes ['a', 'b', 'c'] := by decide +kernel
  simp [SentencePieceFile.init, hbytes, initialSymbols_textBytes, ha, hb, hc]

lemma length_abcTextFile : abcTextFile.vocab.length = 262 := by
  simp [abcTextFile, abcTexts, byteValues]

lemma priorityOf_abcTextFile (id : ℕ) (hid : id < 262) :
    priorityOf abcTextFile.priorityList id = id := by
  have hnone : abcTextFile.priorities = none := rfl
  rw [SentencePieceFile.priorityList, hnone, Option.getD_none, length_abcTextFile, priorityOf,
    List.getD_eq_getElem?_getD, List.getElem?_range hid, Option.getD_some]

lemma rankedProducts_abcTextFile : rankedProducts abcTextFile.vocab abcTextFile.priorityList
    abcTextFile.nonProducts = [259, 260, 261] := by
  have hlen := length_abcTextFile
  have hne : ∀ id ∈ ([259, 260, 261] : List ℕ), tokenBytes abcTextFile.vocab id ≠ [] := by decide +kernel
  have hbase : ∀ id : ℕ, id ∈ abcTextFile.baseIds ↔ id = 258 ∨ id = 257 ∨ id = 256 := by
    intro id
    simp [SentencePieceFile.baseIds, abcTextFile]
  have hnon : ∀ id : ℕ, id ∈ abcTextFile.nonProducts ↔ id < 259 := by
    intro id
    rw [SentencePieceFile.nonProducts, Finset.mem_union, Finset.mem_union, hbase,
      mem_fallbackIds_abcTextFile]
    have hspecial : id ∉ abcTextFile.specials := Finset.notMem_empty id
    simp only [hspecial, false_or]
    omega
  refine rankedProducts_eq ?_ fun (id : ℕ) => ?_
  · simp [priorityOf_abcTextFile]
  · rw [hnon, hlen]
    constructor
    · intro hid
      have hmem := hne id hid
      have hval : id = 259 ∨ id = 260 ∨ id = 261 := by simpa using hid
      have hlt : id < 262 := by omega
      refine ⟨hlt, hmem, by omega, ?_⟩
      rw [priorityOf_abcTextFile id hlt]
      omega
    · rintro ⟨hlt, -, hge, -⟩
      have hlt' : id < 262 := hlt
      have hval : id = 259 ∨ id = 260 ∨ id = 261 := by omega
      simpa using hval

lemma buildSentencePiece_abcTextFile : ∃ m, buildSentencePiece abcTextFile false = .ok m := by
  obtain ⟨hbc, hab, habc⟩ := init_abcTextFile
  obtain ⟨m, hm⟩ : ∃ m, reconstructRankedMerges abcTextFile.vocab abcTextFile.priorityList
      abcTextFile.nonProducts abcTextFile.initialSymbols = .ok m := by
    rw [SentencePieceFile.init] at hbc hab habc
    rw [reconstructRankedMerges, rankedProducts_abcTextFile,
      rankedMergesLoop_cons (a := 257) (b := 258) (by rw [hbc]; decide +kernel) rfl,
      priorityOf_abcTextFile 259 (by decide),
      rankedMergesLoop_cons (a := 256) (b := 257) (by rw [hab]; decide +kernel) (by decide +kernel),
      priorityOf_abcTextFile 260 (by decide),
      rankedMergesLoop_cons (a := 256) (b := 259) (by rw [habc]; decide +kernel) (by decide +kernel)]
    exact ⟨_, rfl⟩
  have hflag : abcTextFile.exhaustiveSplits = false := rfl
  refine ⟨m, ?_⟩
  simp only [buildSentencePiece, validate_abcTextFile, hflag, hm, Bool.not_false, if_true, ok_bind,
    Bool.false_eq_true, if_false]

lemma kept_abcTextRules : abcTextFile.kept abcTextRules = abcTextRules := by
  have hstart : ∀ id : ℕ, id ∈ abcTextFile.baseIds ∪ abcTextFile.fallbackIds ↔ id < 259 := by
    intro id
    rw [Finset.mem_union, mem_fallbackIds_abcTextFile]
    simp only [SentencePieceFile.baseIds, abcTextFile, List.map_cons, List.map_nil,
      List.mem_toFinset, List.mem_cons, List.not_mem_nil, or_false]
    omega
  have hfallback := @mem_fallbackIds_abcTextFile
  have hspecials : abcTextFile.specials = ∅ := rfl
  rw [SentencePieceFile.kept, hspecials]
  generalize abcTextFile.baseIds ∪ abcTextFile.fallbackIds = start at hstart ⊢
  generalize abcTextFile.fallbackIds = fallback at hfallback ⊢
  simp [abcTextRules, admitted, admits, hstart, hfallback]

lemma bpe_abcTextRules : bpe (ruleTable abcTextRules) [256, 257, 258] = [256, 259] := by
  decide +kernel

/-- The loader finds another pair for `abc`: with `b` and `c` merged it is `a`, `bc`. -/
lemma bpe_abcTextFile {m : RankedMerges} (hload : buildSentencePiece abcTextFile false = .ok m) :
    bpe (rankedTable m.pair) [256, 257, 258] = [261] := by
  obtain ⟨rules, p, h⟩ := convertSentencePiece_ok convertSentencePiece_abcTextJson
  obtain rfl := Except.ok.inj (sourceRules_abcTextJson.symm.trans h.sourceRules)
  have hzero : 0 ∉ (abcTextFile.kept abcTextRules).map Rule.product := by
    rw [kept_abcTextRules]
    decide
  obtain ⟨loaded, hT, -⟩ := h.rebuilt hload rfl fun _ => hzero
  rw [← init_abcTextFile.2.2]
  refine hT.bpe_init (fun c hc => h.product_lt hc) ?_ fun a ha =>
    (abcTextFile.init_isInitial 261 a ha).lt
  rw [kept_abcTextRules]
  simp [abcTextRules]

end Hypertok
