import Hypertok.Convert.ByteBpe

/-!
The merges of a converted byte-BPE tokenizer, after the file is loaded.

* `ByteConversion.product_ok`: the products of admitted merges are ordinary tokens of
  two bytes or more.
* `ByteConversion.rebuilt`: without the flag for all cuts the loader replays exactly these
  products, in the order of the merge list.
* `convertByteBpe_merges`: so the loader merges as the admitted merges do just when
  these are a replay; with the flag it merges as the listed merges do when each takes
  the priority of its product.
-/

namespace Hypertok

open PairMerge Machine

variable {parsed : TokenizerJson} {file : ByteFile} {rules : List (Rule ℕ TokenId)}
  {p : Priorities} {compact : Bool} {model : LoadedMerges}

namespace ByteConversion

variable (h : ByteConversion parsed file rules p)
include h

/-- The merges that the conversion admits concatenate nonempty tokens. -/
lemma parts_of_admitted {r : Rule ℕ TokenId} (hr : r ∈ admitted file.specials file.baseIds rules) :
    ∃ left right, left ≠ [] ∧ right ≠ [] ∧ parsed.vocab.lookup (left ++ right) = some r.product := by
  refine h.derived.parts_of_admitted h.inj (fun a ha t ht => ?_) hr
  -- a byte token has one letter
  obtain ⟨b, hb⟩ := ByteFile.mem_baseIds.mp ha
  obtain ⟨hs, hslot⟩ := (h.base b a).mp hb
  obtain ⟨bytes, henc, hget⟩ := h.emitted.slot t a ht hs
  obtain rfl := Option.some_inj.mp (hslot.symm.trans hget)
  exact fun hnil => by simpa using (h.emitted.eq_nil t _ henc).mpr hnil

/-- The products of the admitted merges. -/
lemma product_ok {id : TokenId} (hid : id ∈ products (admitted file.specials file.baseIds rules)) :
    id ∉ file.specials ∧ id ∉ file.baseIds ∧ ∃ token, file.vocab[id]? = some token ∧
      2 ≤ token.length := by
  obtain ⟨r, hr, rfl⟩ := mem_products.mp hid
  have hs := (admits_of_mem hr).1
  obtain ⟨left, right, hleft, hright, hproduct⟩ := h.parts_of_admitted hr
  obtain ⟨token, henc, hget⟩ := h.emitted.slot _ _ hproduct hs
  have hlen : 2 ≤ token.length := by
    obtain ⟨t, htoken⟩ : ∃ t, decodeByteAlias (left ++ right) = .ok t := by
      cases hdec : decodeByteAlias (left ++ right) with
      | error e => simp [hdec, Except.toOption] at henc
      | ok t => exact ⟨t, rfl⟩
    simp only [htoken, Except.toOption, Option.some.injEq] at henc
    rw [← henc, ← (decodeByteAlias_ok_iff.mp htoken).length_eq, List.length_append]
    have := List.length_pos_iff.mpr hleft
    have := List.length_pos_iff.mpr hright
    omega
  refine ⟨hs, fun hbase => ?_, token, hget, hlen⟩
  obtain ⟨b, hb⟩ := ByteFile.mem_baseIds.mp hbase
  have hone := ((h.base b _).mp hb).2
  rw [hget, Option.some_inj] at hone
  simp [hone] at hlen

lemma product_lt {id : TokenId} (hid : id ∈ products (admitted file.specials file.baseIds rules)) :
    id < 2 ^ 32 := by
  obtain ⟨-, -, token, hget, -⟩ := h.product_ok hid
  exact ((List.getElem?_eq_some_iff.mp hget).1.trans_le file.vocab_le).trans (by decide)

/-- Without the flag for all cuts, the loader replays the admitted products. -/
theorem rebuilt (hload : buildByteBpe file compact = .ok model)
    (hflag : file.exhaustiveSplits = false) : ∃ key T loaded,
    Rebuilt file.init key ((admitted file.specials file.baseIds rules).map Rule.product) T loaded ∧
      (((admitted file.specials file.baseIds rules).map Rule.product).Pairwise fun a b =>
        key a < key b) ∧
      ∀ bytes, bpe model.table (file.symbols bytes) = bpe T (file.symbols bytes) := by
  set adm := admitted file.specials file.baseIds rules with hadm
  have hmem : ∀ id, id ∈ adm.map Rule.product ↔ id ∈ products adm := fun id => by
    rw [products, List.mem_toFinset]
  have htoken : ∀ id token, file.vocab[id]? = some token → tokenBytes file.vocab id = token := by
    intro id token hget
    rw [tokenBytes, List.getD_eq_getElem?_getD, hget, Option.getD_some]
  have hflag' := h.exhaustiveSplits ▸ hflag
  by_cases hnone : p.inversions = 0 ∧ p.nonProducts = 0
  · have hprio : file.priorities = none := by simp [h.priorities, hnone, hflag']
    obtain ⟨-, loaded, T, hT, hbpe⟩ := buildByteBpe_id hload hprio
    have hsorted := h.derived.pairwise_id hflag' hnone.1
    have hproducts : idProducts file.toByteImage = adm.map Rule.product := by
      refine List.Perm.eq_of_pairwise (fun a b _ _ hab hba => absurd hab (lt_asymm hba))
        (List.pairwise_lt_range.filter _) hsorted ?_
      refine (List.perm_ext_iff_of_nodup (List.nodup_range.filter _)
        (hsorted.imp fun hlt => hlt.ne)).mpr fun id => ?_
      rw [hmem, List.mem_filter, List.mem_range]
      simp only [ByteImage.skipped, Bool.not_eq_true', Bool.or_eq_false_iff,
        decide_eq_false_iff_not, not_lt]
      constructor
      · rintro ⟨hlt, hlen, hs⟩
        refine h.derived.nonProducts hnone.2 id hlt hs fun hbase => ?_
        obtain ⟨b, hb⟩ := ByteFile.mem_baseIds.mp hbase
        rw [htoken id _ ((h.base b id).mp hb).2] at hlen
        simp at hlen
      · intro hid
        obtain ⟨hs, -, token, hget, hlen⟩ := h.product_ok hid
        exact ⟨(List.getElem?_eq_some_iff.mp hget).1, by rwa [htoken id token hget], hs⟩
    exact ⟨id, T, loaded, hproducts ▸ hT, hsorted, hbpe⟩
  · have hprio : file.priorities = some p.priorities := by
      rw [h.priorities, if_pos]
      tauto
    have hsorted := h.derived.pairwise_priority hflag'
    have hfound : ∀ id, id ∈ adm.map Rule.product ↔ id < file.vocab.length ∧
        tokenBytes file.vocab id ≠ [] ∧ id ∉ file.nonProducts ∧
        priorityOf p.priorities id ≠ 0 := by
      intro id
      rw [hmem, h.derived.priority_ne_zero]
      refine ⟨fun hid => ?_, fun hid => hid.2.2.2⟩
      obtain ⟨hs, hbase, token, hget, hlen⟩ := h.product_ok hid
      refine ⟨(List.getElem?_eq_some_iff.mp hget).1, ?_, ?_, hid⟩
      · rw [htoken id token hget]
        rintro rfl
        simp at hlen
      · exact fun hnon => (Finset.mem_union.mp hnon).elim hs hbase
    obtain ⟨loaded, hT⟩ := buildByteBpe_ranked hload hprio hflag hsorted hfound
      (h.derived.priority_le hflag')
    exact ⟨_, _, loaded, hT, hsorted, fun _ => rfl⟩

/-- With the flag for all cuts, the loader has the listed merges, each with the priority of
its product. -/
theorem table_exhaustive (hload : buildByteBpe file compact = .ok model)
    (hflag : file.exhaustiveSplits = true) {a b : TokenId} (ha : a ∉ file.specials)
    (hb : b < 2 ^ 32 ∧ b ∉ file.specials) :
    model.table a b =
      ruleTable (byProduct (admitted file.specials file.baseIds rules) rules) a b := by
  obtain ⟨priorities, hprio, htable⟩ := buildByteBpe_exhaustive hload hflag
  have hflag' : p.exhaustiveSplits = true := h.exhaustiveSplits ▸ hflag
  obtain rfl : p.priorities = priorities := by simpa [h.priorities, hflag'] using hprio
  have hexcluded : file.specials ⊆ file.nonProducts := Finset.subset_union_left
  rw [exhaustive_eq_byProduct h.emitted h.derived hflag' h.inj hexcluded (T := model.table) fun q => by rw [htable hb.1, h.derived.priority]]
  -- no pair of ordinary tokens is left out
  rw [byProduct_filter (fun _ => rfl), ruleTable_filter]
  rintro r hr rfl rfl
  obtain ⟨hs, hbase, -⟩ := h.product_ok (h.derived.product_of_byProduct hr)
  have hnon : r.product ∉ file.nonProducts := fun hnon =>
    (Finset.mem_union.mp hnon).elim hs hbase
  simp [ha, hb.2, hnon]

end ByteConversion

/-- The letters of the bytes, then `bc` (256), `ab` (257) and `abc` (258). -/
def abcTokens : List Text :=
  byteAliasInverse.map (fun x => [x.1]) ++ [['b', 'c'], ['a', 'b'], ['a', 'b', 'c']]

/-- Their bytes. -/
def abcBytes : List (List UInt8) :=
  byteValues.map (fun b => [b]) ++ [[98, 99], [97, 98], [97, 98, 99]]

lemma nodup_abcBytes : abcBytes.Nodup := by
  refine (nodup_byteValues.map fun _ _ h => List.singleton_inj.mp h).append (by decide) ?_
  rintro p hp hp'
  obtain ⟨b, -, rfl⟩ := List.mem_map.mp hp
  simp at hp'

lemma decode_abcTokens : abcTokens.map decodeByteAlias = abcBytes.map .ok := by
  have hletter : byteAliasInverse.map (fun x => decodeByteAlias [x.1]) =
      byteAliasInverse.map fun x => .ok [x.2] :=
    List.map_congr_left fun x hx => decodeByteAlias_ok_iff.mpr (.cons (lookup_byteAliasInverse hx) .nil)
  have hsnd : byteValues = byteAliasInverse.map Prod.snd := (map_snd_byteAliases 0 byteValues).symm
  rw [abcTokens, abcBytes, List.map_append, List.map_append, List.map_map, List.map_map, hsnd,
    List.map_map]
  refine congrArg₂ _ hletter ?_
  decide +kernel

lemma nodup_abcTokens : abcTokens.Nodup := by
  refine List.Nodup.of_map decodeByteAlias ?_
  rw [decode_abcTokens]
  exact nodup_abcBytes.map fun _ _ h => Except.ok.inj h

/-- In `abc` the merge of `b` and `c` is listed first, and `abc` is listed as `ab`, `c`. -/
def abcJson : TokenizerJson where
  vocab := ⟨abcTokens.zipIdx.map fun x => ⟨x.1, x.2⟩, by
    have hkeys : (abcTokens.zipIdx.map fun x => (⟨x.1, x.2⟩ : (_ : Text) × TokenId)).keys =
        abcTokens := by
      rw [List.keys, List.map_map]
      exact List.zipIdx_map_fst 0 abcTokens
    rw [List.NodupKeys, hkeys]
    exact nodup_abcTokens⟩
  merges := [.pair ['b'] ['c'], .pair ['a'] ['b'], .pair ['a', 'b'] ['c']]
  addedTokens := []

/-- The file of `abcJson`. -/
def abcFile : ByteFile where
  vocab := abcBytes
  base b := b.toNat
  specials := ∅
  vocab_le := by decide +kernel
  arena_le := by decide +kernel
  base_lt b := b.toNat_lt.trans (by decide +kernel)
  priorities := none
  exhaustiveSplits := false

/-- The merge list of `abcJson`. -/
def abcRules : List (Rule ℕ TokenId) := [⟨1, 98, 99, 256⟩, ⟨2, 97, 98, 257⟩, ⟨3, 257, 99, 258⟩]

lemma sourceRules_abcJson : sourceRules abcJson.vocab abcJson.merges = .ok abcRules := by
  decide +kernel

lemma getElem?_abcBytes (b : UInt8) : abcBytes[b.toNat]? = some [b] := by
  have hlt : b.toNat < byteValues.length := by simpa [byteValues] using b.toNat_lt
  rw [abcBytes, List.getElem?_append_left (by simpa using hlt), List.getElem?_map,
    List.getElem?_eq_getElem hlt]
  simp [byteValues]

lemma convertByteBpe_abcJson : convertByteBpe abcJson = .ok abcFile := by
  have hlen : abcTokens.length = abcBytes.length := by
    have := congrArg List.length decode_abcTokens
    rwa [List.length_map, List.length_map] at this
  have hlen' : abcBytes.length = 259 := by decide +kernel
  have hordered : orderedModelTokens abcJson.vocab = .ok abcTokens := by
    refine orderedModelTokens_of_toList ?_
    rw [VocabMap.toList, abcJson, List.map_map]
    exact List.map_id _
  have hdec : List.Forall₂ (fun t p => decodeByteAlias t = .ok p) abcTokens abcBytes := by
    have heq : List.Forall₂ (· = ·) (abcTokens.map decodeByteAlias) (abcBytes.map .ok) := by
      rw [List.forall₂_eq_eq_eq, decode_abcTokens]
    rwa [List.forall₂_map_left_iff, List.forall₂_map_right_iff] at heq
  obtain ⟨lookup, hslots⟩ := modelSlots_of_nodup hdec nodup_abcBytes
  obtain ⟨base, baseIds, hbase⟩ := deriveByteBase_of_nodup nodup_abcBytes fun b =>
    List.mem_of_getElem? (getElem?_abcBytes b)
  -- each byte is its own token
  obtain ⟨hbyte, hids⟩ := deriveByteBase_ok hbase
  have hbyte' : ∀ b : UInt8, base.getD b.toNat 0 = b.toNat := fun b => (hbyte b _).mpr
    ⟨by simp, by rw [List.getElem?_map, getElem?_abcBytes]; rfl⟩
  have hids' : baseIds = Finset.range 256 := by
    ext id
    rw [hids, Finset.mem_range]
    constructor
    · rintro ⟨b, rfl⟩
      exact (hbyte' b).trans_lt b.toNat_lt
    · intro hid
      exact ⟨UInt8.ofNat id, by rw [hbyte', UInt8.toNat_ofNat', Nat.mod_eq_of_lt hid]⟩
  obtain ⟨p, hp, hnone⟩ := eq_ok_of_toOption (x := deriveBytePriority abcJson.merges
    abcJson.vocab ∅ (Finset.range 256) 259) (b := (0, 0, false))
    (f := fun p => (p.inversions, p.nonProducts, p.exhaustiveSplits)) (by decide +kernel)
  have hadded : validateByteAddedTokens abcJson.addedTokens abcTokens = .ok ∅ := rfl
  have hsize : byteVocabSize abcJson.addedTokens abcTokens = .ok 259 := by
    simp [byteVocabSize, abcJson, hlen, hlen', u32Max, maxVocabSize]
  rw [hlen'] at hslots
  rw [hids'] at hbase
  obtain ⟨hinv, hnon, hflag⟩ : p.inversions = 0 ∧ p.nonProducts = 0 ∧ p.exhaustiveSplits = false := by
    simpa using hnone
  rw [convertByteBpe_eq hordered hadded hsize hslots rfl hbase hp]
  refine @writeByteFile_eq abcFile _ _ _ ?_ hbyte' ?_ hflag.symm
  · rw [List.map_map]
    exact List.map_id _
  · rw [hinv, hnon, hflag]
    rfl

lemma buildByteBpe_abcFile : ∃ model, buildByteBpe abcFile false = .ok model := by
  have hbase : validateBase abcFile.toByteImage = .ok () := by
    rw [validateBase, if_pos]
    exact List.all_eq_true.mpr fun b _ => beq_iff_eq.mpr (getElem?_abcBytes b)
  have hkeys : validateKeySet abcFile.vocab abcFile.specials ∅ = .ok () :=
    validateKeySetLoop_of_nodup (by rw [List.zipIdx_map_fst]; exact nodup_abcBytes) (by simp)
  obtain ⟨t, ht, hsome⟩ := eq_ok_of_toOption (x := reconstructIdPairRanks abcFile.toByteImage false
    false) (f := Option.isSome) (b := true) (by decide +kernel)
  obtain ⟨t, rfl⟩ := Option.isSome_iff_exists.mp hsome
  have hload : loadIdRanked abcFile.toByteImage false false = .ok (.pairRanks t) := by
    simp [loadIdRanked, hbase, hkeys, ht]
  have hprio : abcFile.priorities = none := rfl
  have hflag : abcFile.exhaustiveSplits = false := rfl
  refine ⟨.idRanked (.pairRanks t), ?_⟩
  simp only [buildByteBpe, hbase, hkeys, hload, hprio, hflag, ok_bind, Bool.false_eq_true, if_false]
  rfl

lemma bpe_abcRules : bpe (ruleTable abcRules) (abcFile.symbols [97, 98, 99]) = [97, 256] := by
  decide +kernel

lemma admitted_abcRules : admitted abcFile.specials abcFile.baseIds abcRules = abcRules := by
  have hbase : ∀ b : UInt8, b.toNat ∈ abcFile.baseIds := fun b => ByteFile.mem_baseIds.mpr ⟨b, rfl⟩
  have ha := hbase 97
  have hb := hbase 98
  have hc := hbase 99
  have hs : abcFile.specials = ∅ := rfl
  simp only [UInt8.reduceToNat] at ha hb hc
  simp [abcRules, admitted, admits, hs, ha, hb, hc]

/-- The loader finds another pair for `abc`: with `b` and `c` merged it is `a`, `bc`. -/
lemma bpe_abcFile {model : LoadedMerges} (hload : buildByteBpe abcFile false = .ok model) :
    bpe model.table (abcFile.symbols [97, 98, 99]) = [258] := by
  obtain ⟨rules, p, h⟩ := convertByteBpe_ok convertByteBpe_abcJson
  obtain rfl := Except.ok.inj (sourceRules_abcJson.symm.trans h.sourceRules)
  obtain ⟨key, T, loaded, hT, -, hbpe⟩ := h.rebuilt hload rfl
  rw [hbpe]
  refine hT.bpe_init (c := 258) (fun c hc => h.product_lt (mem_products.mpr (List.mem_map.mp hc)))
    ?_ (abcFile.symbols_lt _)
  rw [admitted_abcRules]
  simp [abcRules]

end Hypertok
