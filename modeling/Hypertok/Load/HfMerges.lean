import Hypertok.Load.HfBpe

/-!
The merges of a `tokenizer.json` that is loaded without a conversion.

* `idMap_bpe`: in the order of the ids, the neighbours that a run reaches are told apart
  by their product, and the id of the product stands for the place in the list.
* `buildBpe_merges`: the table encodes as the merge list does.
* `buildBpe_differs`: what the order of the ids takes for granted.
-/

namespace Hypertok

open PairMerge Machine

/-! ### Maps -/

section Maps

variable {κ β : Type} [DecidableEq κ]

/-- The first value of a key stays. -/
lemma lookup_foldl_orInsert {l : List (κ × β)} {m : AList fun _ : κ => β} (k : κ) :
    (l.foldl orInsert m).lookup k = (m.lookup k).or ((l.find? fun x => x.1 = k).map Prod.snd) := by
  induction l generalizing m with
  | nil => simp
  | cons x l ih =>
      rw [List.foldl_cons, ih, orInsert]
      by_cases hx : x.1 = k
      · subst hx
        rw [List.find?_cons_of_pos (by simp)]
        cases hm : m.lookup x.1 with
        | none => simp [AList.lookup_insert]
        | some v => simp [hm]
      · rw [List.find?_cons_of_neg (by simpa using hx)]
        split_ifs
        · rfl
        · rw [AList.lookup_insert_ne (Ne.symm hx)]

end Maps

variable {json : HfJson} {compact : Bool} {model : HfModel}

/-! ### The tables -/

/-- The products of the known merges are in the order of the list. -/
lemma product_le_of_idOrderOk {entries : List (TokenId × TokenId × TokenId)}
    (h : idOrderOk entries = true) : (entries.map fun e => e.2.2).Pairwise (· ≤ ·) :=
  List.isChain_iff_pairwise.mp (of_decide_eq_true h)

/-- The map of the merges by id. -/
def idMap (rules : List (Rule ℕ TokenId)) : Merges :=
  (rules.map fun r => ((r.left, r.right), r.product)).foldl orInsert ∅

lemma lookup_idMap (rules : List (Rule ℕ TokenId)) (a b : TokenId) :
    (idMap rules).lookup (a, b) =
      (rules.find? fun r => r.left = a ∧ r.right = b).map Rule.product := by
  have hempty : (∅ : Merges).lookup (a, b) = none := rfl
  rw [idMap, lookup_foldl_orInsert, hempty, Option.none_or, List.find?_map, Option.map_map]
  simp only [Function.comp_def, Prod.mk.injEq]

/-- Rules whose products are in the order of the list: on the words that a run reaches, the
products stand for the places. -/
lemma sameOrderOn_idMap {rules : List (Rule ℕ TokenId)} (hranked : Ranked rules)
    (hsorted : (rules.map Rule.product).Pairwise (· ≤ ·))
    (hmax : ∀ r ∈ rules, r.product ≠ u32Max) {t : List TokenId}
    (hunique : ∀ a b a' b', [a, b] <:+: t → [a', b'] <:+: t → ∀ q ∈ ruleTable rules a b,
      ∀ q' ∈ ruleTable rules a' b', q.2 = q'.2 → a = a' ∧ b = b') :
    SameOrderOn (ruleTable rules) (mergesTable (idMap rules)) t := by
  have hlookup : ∀ a b, mergesTable (idMap rules) a b =
      (ruleTable rules a b).map fun q => (q.2, q.2) := by
    intro a b
    rw [mergesTable, rankTable, mergesRank, lookup_idMap, ruleTable, Option.map_map]
    cases hfind : rules.find? fun r => r.left = a ∧ r.right = b with
    | none => simp
    | some r => simp [hmax r (List.mem_of_find?_eq_some hfind)]
  have hle : ∀ r ∈ rules, ∀ r' ∈ rules, (r.rank < r'.rank → r.product ≤ r'.product) ∧
      (r'.rank < r.rank → r'.product ≤ r.product) := by
    have hpair : rules.Pairwise fun r r' => (r.rank < r'.rank → r.product ≤ r'.product) ∧
        (r'.rank < r.rank → r'.product ≤ r.product) := by
      refine (hranked.and (List.pairwise_map.mp hsorted)).imp fun {r r'} h => ?_
      exact ⟨fun _ => h.2, fun hlt => absurd h.1 hlt.not_gt⟩
    intro r hr r' hr'
    exact hpair.forall_of_forall_of_flip (fun _ _ => by simp) (hpair.imp And.symm) hr hr'
  refine ⟨fun a b _ => ?_, fun a b a' b' hab hab' p hp q hq p' hp' q' hq' => ?_⟩
  · rw [hlookup, Option.map_map]
    rfl
  · rw [hlookup, Option.mem_def.mp hp, Option.map_some, Option.mem_some_iff] at hq
    rw [hlookup, Option.mem_def.mp hp', Option.map_some, Option.mem_some_iff] at hq'
    obtain ⟨r, hr, -, -, hpr⟩ := exists_rule hp
    obtain ⟨r', hr', -, -, hpr'⟩ := exists_rule hp'
    have hord := hle r hr r' hr'
    rw [← hq, ← hq']
    have hrank : p.1 = r.rank := by rw [hpr]
    have hrank' : p'.1 = r'.rank := by rw [hpr']
    have hprod : p.2 = r.product := by rw [hpr]
    have hprod' : p'.2 = r'.product := by rw [hpr']
    rw [← hrank, ← hrank', ← hprod, ← hprod'] at hord
    constructor
    · intro hlt
      refine lt_of_le_of_ne (hord.1 hlt) fun heq => hlt.ne ?_
      obtain ⟨rfl, rfl⟩ := hunique a b a' b' hab hab' p hp p' hp' heq
      rw [Option.some_inj.mp ((Option.mem_def.mp hp).symm.trans (Option.mem_def.mp hp'))]
    · intro hlt
      refine lt_of_not_ge fun hge => ?_
      rcases hge.lt_or_eq with hgt | heq
      · exact hlt.not_ge (hord.2 hgt)
      · have hnodup : (rules.map Rule.rank).Nodup :=
          (List.pairwise_map.mpr hranked).imp fun hlt => hlt.ne
        have hrr : r' = r := List.inj_on_of_nodup_map hnodup hr' hr (by rw [← hrank, ← hrank', heq])
        rw [hprod, hprod', hrr] at hlt
        exact hlt.false

lemma HfModel.IsBase.lt_length {a : TokenId} (h : model.IsBase a) : a < model.slots.length := by
  obtain ⟨b, hget, -⟩ := h
  exact (List.getElem?_eq_some_iff.mp hget).1

/-- An id of the vocabulary has 32 bits. -/
lemma HfJson.lt_of_idOf {p : List UInt8} {id : TokenId} (h : json.idOf p = some id) :
    id < 2 ^ 32 := by
  obtain ⟨t, ht, -⟩ := HfJson.idOf_eq_some h
  exact json.vocab_lt _ ht

/-- A map of pairs below a bound. -/
lemma length_le_of_pairs {m : Merges} {n : ℕ} (h : ∀ e ∈ m.entries, e.1.1 < n ∧ e.1.2 < n) :
    m.entries.length ≤ n * n := by
  have hmem : (m.entries.map Sigma.fst).toFinset ⊆ Finset.range n ×ˢ Finset.range n := by
    intro p hp
    obtain ⟨e, he, rfl⟩ := List.mem_map.mp (List.mem_toFinset.mp hp)
    exact Finset.mem_product.mpr ⟨Finset.mem_range.mpr (h e he).1, Finset.mem_range.mpr (h e he).2⟩
  have hnodup : (m.entries.map Sigma.fst).Nodup := m.nodupKeys
  have hcard := Finset.card_le_card hmem
  rwa [List.toFinset_card_of_nodup hnodup, List.length_map, Finset.card_product,
    Finset.card_range] at hcard

/-- A map that is built in a flat table has few pairs. -/
lemma length_le_of_build {m : Merges} {t : PairRankTable}
    {vocabLen : ℕ}
    (hbuild : PairRankTable.build compact m vocabLen = some t) : m.entries.length ≤ 2 ^ 62 := by
  rw [PairRankTable.build] at hbuild
  split_ifs at hbuild with hbig
  simp only [not_exists, not_and, not_or, ge_iff_le, not_le] at hbig
  refine (length_le_of_pairs fun e he => ⟨(hbig e he).1, (hbig e he).2.1⟩).trans ?_
  decide

/-- The merges by id encode by their map. -/
lemma idMerges_bpe {entries : List (TokenId × TokenId × TokenId)} {vocabLen : ℕ}
    (hproduct : ∀ e ∈ entries, e.2.2 ≤ u32Max) {symbols : List TokenId}
    (hsymbols : ∀ a ∈ symbols, a < vocabLen) :
    bpe (idMerges compact entries vocabLen).table symbols = bpe (mergesTable
        ((entries.map fun e => ((e.1, e.2.1), e.2.2)).foldl orInsert ∅)) symbols ∧
      ∀ model, idMerges compact entries vocabLen = .idRanked model →
        ∀ a b, model.getRank a b ≤ u32Max := by
  set merges : Merges := (entries.map fun e => ((e.1, e.2.1), e.2.2)).foldl orInsert ∅ with hmerges
  have hle : ∀ a b, mergesRank merges a b ≤ u32Max := by
    refine mergesRank_le fun a b c hc => ?_
    have hempty : (∅ : Merges).lookup (a, b) = none := rfl
    rw [hmerges, lookup_foldl_orInsert, hempty, Option.none_or] at hc
    obtain ⟨x, hx, rfl⟩ := Option.map_eq_some_iff.mp hc
    obtain ⟨e, he, rfl⟩ := List.mem_map.mp (List.mem_of_find?_eq_some hx)
    exact hproduct e he
  rw [idMerges, ← hmerges]
  cases hbuild : PairRankTable.build compact merges vocabLen with
  | none =>
      refine ⟨rfl, ?_⟩
      rintro _ ⟨⟩
      exact hle
  | some t =>
      obtain ⟨hvocab, ht⟩ := PairRankTable.build_holds hbuild (length_le_of_build hbuild)
      refine ⟨(ht.bpe_rank fun a ha => (hsymbols a ha).trans_le hvocab).1, ?_⟩
      rintro _ ⟨⟩
      exact ht.rank_le

/-- The merges by id encode by the map. -/
lemma idMerges_table (hbytes : json.DistinctBytes) {symbols : List TokenId}
    (hsymbols : ∀ a ∈ symbols, a < json.slots.length) :
    let merges := idMerges compact json.entries json.slots.length
    bpe merges.table symbols = bpe (mergesTable (idMap json.sourceRules)) symbols ∧
      ∀ model, merges = .idRanked model → ∀ a b, model.getRank a b ≤ u32Max := by
  have hentries : (json.entries.map fun e => ((e.1, e.2.1), e.2.2)).foldl orInsert ∅ =
      idMap json.sourceRules := by
    rw [HfJson.entries_eq hbytes, List.map_map]
    rfl
  rw [← hentries]
  refine idMerges_bpe (fun e he => ?_) hsymbols
  rw [HfJson.entries_eq hbytes] at he
  obtain ⟨r, hr, rfl⟩ := List.mem_map.mp he
  obtain ⟨-, p, q, -, -, hpq⟩ := HfJson.mem_sourceRules hr
  exact Nat.le_of_lt_succ (HfJson.lt_of_idOf hpq)

/-- In the order of the ids, the map encodes as the list does. -/
theorem idMap_bpe (hslots : model.slots = json.slots) (hbytes : json.DistinctBytes)
    (hids : json.IdsTellApart model) (hsorted : idOrderOk json.entries = true)
    {symbols : List TokenId} (hsymbols : ∀ a ∈ symbols, model.IsBase a) :
    bpe (mergesTable (idMap json.sourceRules)) symbols =
      bpe (ruleTable json.sourceRules) symbols := by
  have hproduct : ∀ r ∈ json.sourceRules, r.product ≠ u32Max := by
    intro r hr
    obtain ⟨-, p, q, -, -, hpq⟩ := HfJson.mem_sourceRules hr
    obtain ⟨t, ht, -⟩ := HfJson.idOf_eq_some hpq
    exact hids.ne_max _ ht
  refine bpe_rerank_of_steps fun t ht => sameOrderOn_idMap HfJson.ranked_sourceRules ?_ hproduct
    fun a b a' b' hab hab' q hq q' hq' heq =>
      (HfJson.spelled hslots hids).pair_unique hsymbols hsymbols ht ht hab hab' hq hq' heq
  have := product_le_of_idOrderOk hsorted
  rwa [HfJson.entries_eq hbytes, List.map_map] at this

/-- The merges by place encode as the list does. -/
theorem rankMerges_bpe (hslots : model.slots = json.slots) (hbytes : json.DistinctBytes)
    (hlen : json.merges.length ≤ u32Max) {symbols : List TokenId}
    (hsymbols : ∀ a ∈ symbols, model.IsBase a) :
    bpe (rankMerges json.entries).table symbols = bpe (ruleTable json.sourceRules) symbols ∧
      ∀ m, rankMerges json.entries = .ranked m → ∀ a b c r, m.pair a b = some (c, r) →
        r < u32Max := by
  set rules := json.sourceRules with hrules
  let place : Rule ℕ TokenId → ℕ := fun r => rules.idxOf r % 2 ^ 32
  have hplace : ∀ r ∈ rules, place r = rules.idxOf r ∧ rules.idxOf r < u32Max := by
    intro r hr
    have hlt := (List.idxOf_lt_length_of_mem hr).trans_le
      (HfJson.length_sourceRules_le.trans hlen)
    exact ⟨Nat.mod_eq_of_lt (hlt.trans (by decide)), hlt⟩
  have hlist : (json.entries.zipIdx.map fun x =>
      (rankedMergeKey x.1.1 x.1.2.1, (x.1.2.2, x.2 % 2 ^ 32))) =
      rules.map fun r => (rankedMergeKey r.left r.right, (r.product, place r)) := by
    rw [HfJson.entries_eq hbytes, List.zipIdx_map, List.map_map]
    conv_rhs => rw [← List.zipIdx_map_fst 0 rules, List.map_map]
    refine List.map_congr_left fun x hx => ?_
    have hidx : rules.idxOf x.1 = x.2 := by
      obtain ⟨i, hi, rfl⟩ := List.mem_iff_getElem.mp hx
      rw [List.length_zipIdx] at hi
      simp [HfJson.nodup_sourceRules.idxOf_getElem i hi, hrules]
    simp [place, hidx, rankedMergeKey]
  have hlt : ∀ r ∈ rules, r.left < 2 ^ 32 ∧ r.right < 2 ^ 32 ∧ r.product < 2 ^ 32 := by
    intro r hr
    obtain ⟨-, p, q, hp, hq, hpq⟩ := HfJson.mem_sourceRules hr
    exact ⟨HfJson.lt_of_idOf hp, HfJson.lt_of_idOf hq, HfJson.lt_of_idOf hpq⟩
  -- the map, as a list
  have hpair : ∀ a b, RankedMerges.pair ((rules.map fun r =>
      (rankedMergeKey r.left r.right, (r.product, place r))).foldl orInsert ∅) a b =
      (rules.find? fun r => rankedMergeKey r.left r.right = rankedMergeKey a b).map fun r =>
        (r.product, place r) := by
    intro a b
    have hempty : (∅ : RankedMerges).lookup (rankedMergeKey a b) = none := rfl
    rw [RankedMerges.pair, lookup_foldl_orInsert, hempty, Option.none_or, List.find?_map,
      Option.map_map]
    rfl
  have htable : ∀ a b, a < 2 ^ 32 → b < 2 ^ 32 →
      ruleTable (rules.map (Rule.rerank place)) a b = (rankMerges json.entries).table a b := by
    intro a b ha hb
    rw [rankMerges, LoadedMerges.table, hlist, rankedTable, hpair, ruleTable_rerank, Option.map_map]
    refine congrArg _ (List.find?_congr fun r hr => ?_)
    rw [decide_eq_decide]
    exact ⟨fun h => by rw [h.1, h.2], rankedMergeKey_inj (hlt r hr).2.1 hb⟩
  have hplaces : Ranked (rules.map (Rule.rerank place)) := by
    refine List.pairwise_map.mpr (List.pairwise_iff_getElem.mpr fun i j hi hj hij => ?_)
    have hidx : ∀ k (hk : k < rules.length), rules.idxOf rules[k] = k := fun k hk =>
      HfJson.nodup_sourceRules.idxOf_getElem k hk
    simp only [Rule.rerank]
    rw [(hplace _ (List.getElem_mem hi)).1, (hplace _ (List.getElem_mem hj)).1, hidx i hi, hidx j hj]
    exact hij
  constructor
  · rw [← bpe_ruleTable_rerank HfJson.ranked_sourceRules hplaces]
    refine (bpe_congr htable (fun a b _ _ q hq => ?_) fun a ha => ?_).symm
    · obtain ⟨_, hr, -, -, rfl⟩ := exists_rule hq
      obtain ⟨r', hr', rfl⟩ := List.mem_map.mp hr
      exact (hlt r' hr').2.2
    · exact (hslots ▸ (hsymbols a ha).lt_length).trans_le HfJson.length_slots_le
  · rintro _ ⟨⟩ a b c r hr
    rw [hlist, hpair, Option.map_eq_some_iff] at hr
    obtain ⟨x, hx, heq⟩ := hr
    obtain ⟨-, rfl⟩ := Prod.mk.inj heq
    have := hplace x (List.mem_of_find?_eq_some hx)
    rw [this.1]
    exact this.2

/-- The loop by rank and by place, on the tables of the loader. -/
lemma LoadedMerges.merge_eq {merges : LoadedMerges} {symbols : List TokenId}
    (hid : ∀ model, merges = .idRanked model → ∀ a b, model.getRank a b ≤ u32Max)
    (hranked : ∀ m, merges = .ranked m → ∀ a b c r, m.pair a b = some (c, r) → r < u32Max)
    (hlen : symbols.length ≤ u32Max) :
    merges.merge symbols = some (bpe merges.table symbols) := by
  cases merges with
  | idRanked model => exact bpeMergeSymbolsByRank_eq (hid model rfl) hlen
  | ranked m =>
      exact bpeMergeSymbolsRanked_eq (hranked m rfl) (hlen.trans (by decide))

/-- What a file that loads has. -/
lemma buildBpe_ok (h : buildBpe json compact = .ok model) :
    model.slots = json.slots ∧ fromByteVocab json.slots = .ok model.base ∧
      model.merges = if idOrderOk json.entries then
        idMerges compact json.entries json.slots.length else rankMerges json.entries := by
  rw [buildBpe] at h
  by_cases htype : json.modelType ≠ "BPE"
  · rw [if_pos htype] at h
    cases h
  by_cases hfallback : json.byteFallback = true
  · rw [if_neg htype, if_pos hfallback] at h
    cases h
  rw [if_neg htype, if_neg hfallback] at h
  obtain ⟨base, hbase, h⟩ := bind_eq_ok_iff.mp h
  cases h
  exact ⟨rfl, hbase, rfl⟩

/-- The merges that are loaded encode words of base symbols as the merge list does: in the
order of the places for any vocabulary, and in the order of the ids for one whose strings
have ids of their own. -/
theorem buildBpe_merges (hload : buildBpe json compact = .ok model)
    (hbytes : json.DistinctBytes) (hlen : json.merges.length ≤ u32Max)
    (hids : idOrderOk json.entries = true → json.IdsTellApart model) {symbols : List TokenId}
    (hsymbols : ∀ a ∈ symbols, model.IsBase a) :
    bpe model.merges.table symbols = bpe (ruleTable json.sourceRules) symbols ∧
      (symbols.length ≤ u32Max →
        model.merges.merge symbols = some (bpe (ruleTable json.sourceRules) symbols)) := by
  obtain ⟨hslots, -, hmerges⟩ := buildBpe_ok hload
  cases hsorted : idOrderOk json.entries with
  | true =>
      rw [hsorted, if_pos rfl] at hmerges
      obtain ⟨htable, hrank⟩ := @idMerges_table _ compact hbytes _ fun a ha =>
        hslots ▸ (hsymbols a ha).lt_length
      have hbpe := htable.trans (idMap_bpe hslots hbytes (hids hsorted) hsorted hsymbols)
      rw [hmerges]
      refine ⟨hbpe, fun hsize => ?_⟩
      rw [LoadedMerges.merge_eq hrank (fun m hm => ?_) hsize, hbpe]
      rw [idMerges] at hm
      split at hm <;> cases hm
  | false =>
      rw [hsorted, if_neg (by simp)] at hmerges
      obtain ⟨hbpe, hrank⟩ := rankMerges_bpe hslots hbytes hlen hsymbols
      rw [hmerges]
      refine ⟨hbpe, fun hsize => ?_⟩
      rw [LoadedMerges.merge_eq (fun m hm => by cases hm) hrank hsize, hbpe]

/-! ### What the order of the ids takes for granted -/

/-- The letters of the bytes but `skip`, each with the number of its byte. -/
def letterEntries (skip : List UInt8) : List (Text × TokenId) :=
  (byteAliasInverse.filter fun x => x.2 ∉ skip).map fun x => ([x.1], x.2.toNat)

lemma unicodeToBytes_letter {x : Char × UInt8} (hx : x ∈ byteAliasInverse) :
    unicodeToBytes [x.1] = [x.2] := by
  simp [unicodeToBytes, lookup_byteAliasInverse hx]

lemma nodup_letterEntries (skip : List UInt8) : ((letterEntries skip).map Prod.fst).Nodup := by
  have hletters : (letterEntries skip).map Prod.fst =
      ((byteAliasInverse.filter fun x => x.2 ∉ skip).map Prod.fst).map fun c => [c] := by
    rw [letterEntries, List.map_map, List.map_map]
    rfl
  rw [hletters]
  exact ((List.filter_sublist.map Prod.fst).nodup nodup_byteAliasInverse).map
    fun _ _ h => List.singleton_inj.mp h

/-- Further strings, none a letter. -/
lemma nodup_letterEntries_append {skip : List UInt8} {extra : List (Text × TokenId)}
    (h : (extra.map Prod.fst).Nodup) (h' : ∀ x ∈ extra, x.1.length ≠ 1) :
    ((letterEntries skip ++ extra).map Prod.fst).Nodup := by
  rw [List.map_append]
  refine (nodup_letterEntries skip).append h ?_
  intro t ht ht'
  obtain ⟨y, hy, rfl⟩ := List.mem_map.mp ht'
  obtain ⟨z, hz, heq⟩ := List.mem_map.mp ht
  obtain ⟨x, -, rfl⟩ := List.mem_map.mp hz
  exact h' y hy (by rw [← heq]; rfl)

/-- A file with the letters but `skip`, and further strings. -/
def lettersJson (skip : List UInt8) (extra : List (Text × TokenId)) (merges : List (Text × Text))
    (added : List HfAddedToken) (hkeys : ((letterEntries skip ++ extra).map Prod.fst).Nodup)
    (hextra : ∀ x ∈ extra, x.2 < 2 ^ 32) (hadded : ∀ token ∈ added, token.id < 2 ^ 32) : HfJson where
  modelType := "BPE"
  byteFallback := false
  vocab := ⟨(letterEntries skip ++ extra).map fun x => ⟨x.1, x.2⟩, by
    have hkeys' : ((letterEntries skip ++ extra).map fun x =>
        (⟨x.1, x.2⟩ : (_ : Text) × TokenId)).keys = (letterEntries skip ++ extra).map Prod.fst := by
      rw [List.keys, List.map_map]
      rfl
    rwa [List.NodupKeys, hkeys']⟩
  merges := merges
  addedTokens := added
  vocab_lt x hx := by
    rw [VocabMap.toList, List.map_map, List.mem_map] at hx
    obtain ⟨x, hx, rfl⟩ := hx
    rcases List.mem_append.mp hx with hx | hx
    · obtain ⟨y, -, rfl⟩ := List.mem_map.mp hx
      exact y.2.toNat_lt.trans (by decide)
    · exact hextra x hx
  added_lt := hadded

section Letters

variable {skip : List UInt8} {extra : List (Text × TokenId)} {merges : List (Text × Text)}
  {added : List HfAddedToken} {hkeys : ((letterEntries skip ++ extra).map Prod.fst).Nodup}
  {hextra : ∀ x ∈ extra, x.2 < 2 ^ 32} {hadded : ∀ token ∈ added, token.id < 2 ^ 32}

lemma toList_lettersJson :
    (lettersJson skip extra merges added hkeys hextra hadded).vocab.toList =
      letterEntries skip ++ extra := by
  rw [VocabMap.toList, lettersJson, List.map_map]
  exact List.map_id _

/-- The bytes of further strings, none a single byte. -/
lemma distinctBytes_lettersJson (h : (extra.map fun x => unicodeToBytes x.1).Nodup)
    (h' : ∀ x ∈ extra, (unicodeToBytes x.1).length ≠ 1) :
    (lettersJson skip extra merges added hkeys hextra hadded).DistinctBytes := by
  have hletters : (letterEntries skip).map (fun x => unicodeToBytes x.1) =
      ((byteAliasInverse.filter fun x => x.2 ∉ skip).map Prod.snd).map fun b => [b] := by
    rw [letterEntries, List.map_map, List.map_map]
    exact List.map_congr_left fun x hx => unicodeToBytes_letter (List.mem_filter.mp hx).1
  have hnodup : (byteAliasInverse.map Prod.snd).Nodup :=
    (map_snd_byteAliases 0 byteValues).symm ▸ nodup_byteValues
  rw [HfJson.DistinctBytes, toList_lettersJson, List.map_append, hletters]
  refine (((List.filter_sublist.map Prod.snd).nodup hnodup).map
    fun _ _ h => List.singleton_inj.mp h).append h ?_
  intro p hp hp'
  obtain ⟨y, hy, rfl⟩ := List.mem_map.mp hp'
  obtain ⟨b, -, heq⟩ := List.mem_map.mp hp
  exact h' y hy (by rw [← heq]; rfl)

/-- A letter that is not skipped. -/
lemma exists_letter {b : UInt8} (hb : b ∉ skip) : ∃ c, (c, b) ∈ byteAliasInverse ∧
    ([c], b.toNat) ∈ (lettersJson skip extra merges added hkeys hextra hadded).vocab.toList := by
  have hmem : b ∈ byteAliasInverse.map Prod.snd :=
    (map_snd_byteAliases 0 byteValues).symm ▸ mem_byteValues b
  obtain ⟨⟨c, _⟩, hx, rfl⟩ := List.mem_map.mp hmem
  rw [toList_lettersJson]
  exact ⟨c, hx, List.mem_append_left _ (List.mem_map.mpr
    ⟨(c, _), List.mem_filter.mpr ⟨hx, by simpa using hb⟩, rfl⟩)⟩

/-- Its slot, if no further string has its number. -/
lemma slot_lettersJson (h : ∀ x ∈ extra, 256 ≤ x.2 ∨ ∃ b ∈ skip, x.2 = b.toNat) {b : UInt8}
    (hb : b ∉ skip) :
    (lettersJson skip extra merges added hkeys hextra hadded).slots[b.toNat]? = some [b] := by
  obtain ⟨c, hc, hmem⟩ := @exists_letter skip extra merges added hkeys hextra hadded b hb
  obtain ⟨t, ht, hget⟩ := HfJson.getElem?_readVocab hmem
  have hbytes : unicodeToBytes t = [b] := by
    rw [toList_lettersJson, List.mem_append] at ht
    rcases ht with ht | ht
    · obtain ⟨x, hx, heq⟩ := List.mem_map.mp ht
      obtain ⟨rfl, hxb⟩ := Prod.mk.inj heq
      rw [unicodeToBytes_letter (List.mem_filter.mp hx).1, UInt8.toNat_inj.mp hxb]
    · rcases h _ ht with hge | ⟨b', hb', heq⟩
      · exact absurd b.toNat_lt (not_lt.mpr hge)
      · exact absurd (UInt8.toNat_inj.mp heq ▸ hb') hb
  exact HfJson.getElem?_slots (hbytes ▸ hget) (by simp)

lemma idOf_letter (h : (lettersJson skip extra merges added hkeys hextra hadded).DistinctBytes)
    {b : UInt8} (hb : b ∉ skip) :
    (lettersJson skip extra merges added hkeys hextra hadded).idOf [b] = some b.toNat := by
  obtain ⟨c, hc, hmem⟩ := @exists_letter skip extra merges added hkeys hextra hadded b hb
  rw [← HfJson.idOf_eq h hmem, unicodeToBytes_letter hc]

/-- Letters and strings with ids of their own above the bytes are told apart by their ids. -/
lemma idsTellApart_lettersJson (h : (extra.map Prod.snd).Nodup)
    (h' : ∀ x ∈ extra, 256 ≤ x.2 ∧ x.2 ≠ u32Max ∧ x.1 ≠ []) :
    (lettersJson skip extra merges added hkeys hextra hadded).IdsTellApart model := by
  have hletters : (letterEntries skip).map Prod.snd =
      ((byteAliasInverse.filter fun x => x.2 ∉ skip).map Prod.snd).map UInt8.toNat := by
    rw [letterEntries, List.map_map, List.map_map]
    rfl
  have hnodup : (byteAliasInverse.map Prod.snd).Nodup :=
    (map_snd_byteAliases 0 byteValues).symm ▸ nodup_byteValues
  refine ⟨?_, fun x hx => ?_, fun a ha => ?_⟩
  · rw [toList_lettersJson, List.map_append, hletters]
    refine (((List.filter_sublist.map Prod.snd).nodup hnodup).map
      fun _ _ h => UInt8.toNat_inj.mp h).append h fun id hid hid' => ?_
    obtain ⟨b, -, rfl⟩ := List.mem_map.mp hid
    obtain ⟨x, hx, heq⟩ := List.mem_map.mp hid'
    exact absurd b.toNat_lt (not_lt.mpr (heq ▸ (h' x hx).1))
  · rw [toList_lettersJson, List.mem_append] at hx
    rcases hx with hx | hx
    · obtain ⟨y, -, rfl⟩ := List.mem_map.mp hx
      exact (y.2.toNat_lt.trans (by decide)).ne
    · exact (h' x hx).2.1
  · rw [← VocabMap.mem_toList, toList_lettersJson, List.mem_append] at ha
    rcases ha with ha | ha
    · obtain ⟨y, -, heq⟩ := List.mem_map.mp ha
      exact absurd (Prod.mk.inj heq).1 (by simp)
    · exact absurd rfl (h' _ ha).2.2

end Letters

/-- A file whose first slots are the bytes, and whose products are in the order of the list,
loads: each byte is its own symbol, and the merges are those of the map. -/
lemma buildBpe_of_slots {rules : List (Rule ℕ TokenId)} (htype : json.modelType = "BPE")
    (hfallback : json.byteFallback = false) (hslots : ∀ b : UInt8, json.slots[b.toNat]? = some [b])
    (hbytes : json.DistinctBytes) (hrules : json.sourceRules = rules)
    (hsorted : (rules.map Rule.product).IsChain (· ≤ ·)) :
    ∃ model, buildBpe json compact = .ok model ∧ (∀ b : UInt8, model.IsBase b.toNat) ∧
      ∀ symbols : List UInt8, bpe model.merges.table (symbols.map UInt8.toNat) =
        bpe (mergesTable (idMap rules)) (symbols.map UInt8.toNat) := by
  obtain ⟨base, hbase, hid⟩ := fromByteVocab_of_slots hslots
  have hok : idOrderOk json.entries = true := by
    rw [idOrderOk, HfJson.entries_eq hbytes, hrules, List.map_map]
    exact decide_eq_true hsorted
  have hload : buildBpe json compact =
      .ok ⟨json.slots, base, idMerges compact json.entries json.slots.length⟩ := by
    rw [buildBpe, if_neg (by simp [htype]), if_neg (by simp [hfallback]), hbase, hok]
    rfl
  refine ⟨_, hload, fun b => ⟨b, hslots b, hid b⟩, fun symbols => ?_⟩
  rw [← hrules]
  refine (idMerges_table hbytes fun a ha => ?_).1
  obtain ⟨b, -, rfl⟩ := List.mem_map.mp ha
  exact (List.getElem?_eq_some_iff.mp (hslots b)).1

/-- The loader and the merge list give different words. -/
def HfJson.Differs (json : HfJson) (symbols loaded listed : List TokenId) : Prop :=
  json.DistinctBytes ∧ ∃ model, buildBpe json false = .ok model ∧
    (∀ a ∈ symbols, model.IsBase a) ∧ bpe model.merges.table symbols = loaded ∧
      bpe (ruleTable json.sourceRules) symbols = listed

/-- The ids of a listed merge, from the bytes of its parts. -/
lemma sourceRule_eq {t u : Text} {i : ℕ} {p q : List UInt8} {a b c : TokenId}
    (ht : unicodeToBytes t = p) (hu : unicodeToBytes u = q) (ha : json.idOf p = some a)
    (hb : json.idOf q = some b) (hc : json.idOf (p ++ q) = some c) :
    json.sourceRule ((t, u), i) = some ⟨i, a, b, c⟩ := by
  simp [HfJson.sourceRule, ht, hu, ha, hb, hc]

/-- Strings of the letters `a`, `b` and `c`. -/
lemma unicodeToBytes_abc {t : Text} (h : t ⊆ ['a', 'b', 'c']) :
    unicodeToBytes t = t.map fun c => UInt8.ofNat c.toNat := by
  have ha : byteAliasInverse.lookup 'a' = some 97 := by decide +kernel
  have hb : byteAliasInverse.lookup 'b' = some 98 := by decide +kernel
  have hc : byteAliasInverse.lookup 'c' = some 99 := by decide +kernel
  have hletter : ∀ c ∈ t, byteAliasInverse.lookup c = some (UInt8.ofNat c.toNat) := by
    intro c hc'
    obtain rfl | rfl | rfl : c = 'a' ∨ c = 'b' ∨ c = 'c' := by simpa using h hc'
    · exact ha
    · exact hb
    · exact hc
  rw [unicodeToBytes, if_pos (List.all_eq_true.mpr fun c hc => by rw [hletter c hc]; rfl),
    List.filterMap_congr hletter]
  exact congrFun (List.filterMap_eq_map (f := fun c : Char => UInt8.ofNat c.toNat)) t

lemma unicodeToBytes_a : unicodeToBytes ['a'] = [97] := unicodeToBytes_abc (by simp)

lemma unicodeToBytes_b : unicodeToBytes ['b'] = [98] := unicodeToBytes_abc (by simp)

lemma unicodeToBytes_ab : unicodeToBytes ['a', 'b'] = [97, 98] := unicodeToBytes_abc (by simp)

/-- A file of letters with `bc` listed before `ab`. -/
def bcabJson (bc ab : TokenId) (h : bc < 2 ^ 32 ∧ ab < 2 ^ 32) : HfJson :=
  lettersJson [] [(['b', 'c'], bc), (['a', 'b'], ab)] [(['b'], ['c']), (['a'], ['b'])] []
    (nodup_letterEntries_append (by simp) (by simp)) (by simpa using h) (by simp)

/-- Its rules. -/
lemma sourceRules_bcabJson (bc ab : TokenId) (h : bc < 2 ^ 32 ∧ ab < 2 ^ 32) :
    (bcabJson bc ab h).DistinctBytes ∧
      (bcabJson bc ab h).sourceRules = [⟨0, 98, 99, bc⟩, ⟨1, 97, 98, ab⟩] := by
  have hc' : unicodeToBytes ['c'] = [99] := unicodeToBytes_abc (by simp)
  have hbc' : unicodeToBytes ['b', 'c'] = [98, 99] := unicodeToBytes_abc (by simp)
  have hbytes : (bcabJson bc ab h).DistinctBytes :=
    distinctBytes_lettersJson (by simp [hbc', unicodeToBytes_ab])
      (by simp [hbc', unicodeToBytes_ab])
  have hletter : ∀ b : UInt8, (bcabJson bc ab h).idOf [b] = some b.toNat := fun b =>
    idOf_letter hbytes (by simp)
  have hbc : (bcabJson bc ab h).idOf [98, 99] = some bc :=
    hbc' ▸ HfJson.idOf_eq hbytes (by rw [bcabJson, toList_lettersJson]; simp)
  have hab : (bcabJson bc ab h).idOf [97, 98] = some ab :=
    unicodeToBytes_ab ▸ HfJson.idOf_eq hbytes (by rw [bcabJson, toList_lettersJson]; simp)
  have hzip : (bcabJson bc ab h).merges.zipIdx = [((['b'], ['c']), 0), ((['a'], ['b']), 1)] := rfl
  refine ⟨hbytes, ?_⟩
  rw [HfJson.sourceRules, hzip,
    List.filterMap_cons_some (sourceRule_eq unicodeToBytes_b hc' (hletter 98) (hletter 99) hbc),
    List.filterMap_cons_some
      (sourceRule_eq unicodeToBytes_a unicodeToBytes_b (hletter 97) (hletter 98) hab)]
  rfl

/-- It loads in the order of the ids, if these are in order and no bytes. -/
lemma buildBpe_bcabJson (bc ab : TokenId) (h : bc < 2 ^ 32 ∧ ab < 2 ^ 32) (hbc : 256 ≤ bc)
    (hle : bc ≤ ab) :
    ∃ model, buildBpe (bcabJson bc ab h) false = .ok model ∧ (∀ b : UInt8, model.IsBase b.toNat) ∧
      ∀ symbols : List UInt8, bpe model.merges.table (symbols.map UInt8.toNat) =
        bpe (mergesTable (idMap [⟨0, 98, 99, bc⟩, ⟨1, 97, 98, ab⟩])) (symbols.map UInt8.toNat) := by
  obtain ⟨hbytes, hrules⟩ := sourceRules_bcabJson bc ab h
  exact buildBpe_of_slots rfl rfl (fun b => slot_lettersJson (by simp [hbc, hbc.trans hle]) (by simp))
    hbytes hrules (by simpa using hle)

/-- Two strings with one id: the pair on the left is merged, not the one that is listed
first. -/
lemma sharedId_differs :
    (bcabJson 300 300 (by decide)).Differs [97, 98, 99] [300, 99] [97, 300] := by
  obtain ⟨hbytes, hrules⟩ := sourceRules_bcabJson 300 300 (by decide)
  obtain ⟨model, hload, hbase, hbpe⟩ := buildBpe_bcabJson 300 300 (by decide) (by decide) le_rfl
  refine ⟨hbytes, model, hload, ?_, (hbpe [97, 98, 99]).trans (by decide +kernel), ?_⟩
  · simpa using ⟨hbase 97, hbase 98, hbase 99⟩
  · rw [hrules]
    decide +kernel

/-- A product `u32::MAX` stands for no merge. -/
lemma maxId_differs :
    (bcabJson 300 u32Max (by decide)).Differs [97, 98] [97, 98] [u32Max] := by
  obtain ⟨hbytes, hrules⟩ := sourceRules_bcabJson 300 u32Max (by decide)
  obtain ⟨model, hload, hbase, hbpe⟩ := buildBpe_bcabJson 300 u32Max (by decide) (by decide)
    (by decide)
  refine ⟨hbytes, model, hload, ?_, (hbpe [97, 98]).trans (by decide +kernel), ?_⟩
  · simpa using ⟨hbase 97, hbase 98⟩
  · rw [hrules]
    decide +kernel

/-- The empty string has the id 107, which an added token fills with the byte `k`. -/
def emptyStringJson : HfJson :=
  lettersJson [107] [([], 107), (['a', 'b'], 300), (['b', 'a'], 301), (['a', 'b', 'a'], 302)]
    [(['a'], ['b']), (['b'], ['a']), ([], ['b', 'a']), (['a'], ['b', 'a']), (['a', 'b'], ['a'])]
    [⟨107, ['k']⟩] (nodup_letterEntries_append (by decide) (by decide)) (by decide) (by decide)

/-- An added token fills an empty slot. -/
lemma extendStep_of_empty {slots : List (List UInt8)} {id : TokenId} (content : Text)
    (h : slots[id]? = some []) : extendStep slots ⟨id, content⟩ = slots.set id (textBytes content) := by
  have hnone : id + 1 - slots.length = 0 :=
    Nat.sub_eq_zero_of_le (List.getElem?_eq_some_iff.mp h).1
  rw [extendStep, hnone, List.replicate_zero, List.append_nil, if_pos h]

/-- The bytes come first, `k` from the added token. -/
lemma slots_emptyStringJson (b : UInt8) : emptyStringJson.slots[b.toNat]? = some [b] := by
  by_cases hb : b = 107
  · have hmem : (([] : Text), 107) ∈ emptyStringJson.vocab.toList := by
      rw [emptyStringJson, toList_lettersJson]
      simp
    obtain ⟨t, ht, hget⟩ := HfJson.getElem?_readVocab hmem
    have hnil : t = [] := by
      rw [emptyStringJson, toList_lettersJson, List.mem_append] at ht
      rcases ht with ht | ht
      · obtain ⟨x, hx, heq⟩ := List.mem_map.mp ht
        have hne : x.2 ≠ 107 := by simpa using (List.mem_filter.mp hx).2
        exact absurd (UInt8.toNat_inj.mp (Prod.mk.inj heq).2) hne
      · simpa using ht
    have hempty : unicodeToBytes [] = [] := rfl
    rw [hnil, hempty] at hget
    have hlt := (List.getElem?_eq_some_iff.mp hget).1
    have hadded : emptyStringJson.addedTokens = [⟨107, ['k']⟩] := rfl
    have hk : textBytes ['k'] = [107] := by decide
    rw [hb, HfJson.slots, hadded, List.foldl_cons, List.foldl_nil, extendStep_of_empty ['k'] hget, hk]
    exact List.getElem?_set_self hlt
  · exact slot_lettersJson (by decide) (by simpa using hb)

/-- Two pairs of one product meet in a word with `k` for the empty string. -/
lemma emptyString_differs :
    emptyStringJson.Differs [97, 98, 97, 107, 98, 97] [302, 301] [300, 302] := by
  have hba' : unicodeToBytes ['b', 'a'] = [98, 97] := unicodeToBytes_abc (by simp)
  have haba' : unicodeToBytes ['a', 'b', 'a'] = [97, 98, 97] := unicodeToBytes_abc (by simp)
  have hnil' : unicodeToBytes [] = [] := rfl
  have hbytes : emptyStringJson.DistinctBytes :=
    distinctBytes_lettersJson (by simp [hba', haba', hnil', unicodeToBytes_ab])
      (by simp [hba', haba', hnil', unicodeToBytes_ab])
  have ha : emptyStringJson.idOf [97] = some 97 :=
    idOf_letter hbytes (show (97 : UInt8) ∉ [107] by decide)
  have hb : emptyStringJson.idOf [98] = some 98 :=
    idOf_letter hbytes (show (98 : UInt8) ∉ [107] by decide)
  have hextra : ∀ t id, (t, id) ∈ [(([] : Text), 107), (['a', 'b'], 300), (['b', 'a'], 301),
      (['a', 'b', 'a'], 302)] → emptyStringJson.idOf (unicodeToBytes t) = some id := by
    intro t id ht
    refine HfJson.idOf_eq hbytes ?_
    rw [emptyStringJson, toList_lettersJson]
    exact List.mem_append_right _ ht
  have hnil : emptyStringJson.idOf [] = some 107 := hextra [] 107 (by simp)
  have hab : emptyStringJson.idOf [97, 98] = some 300 :=
    unicodeToBytes_ab ▸ hextra ['a', 'b'] 300 (by simp)
  have hba : emptyStringJson.idOf [98, 97] = some 301 := hba' ▸ hextra ['b', 'a'] 301 (by simp)
  have haba : emptyStringJson.idOf [97, 98, 97] = some 302 :=
    haba' ▸ hextra ['a', 'b', 'a'] 302 (by simp)
  have hzip : emptyStringJson.merges.zipIdx = [((['a'], ['b']), 0), ((['b'], ['a']), 1),
      (([], ['b', 'a']), 2), ((['a'], ['b', 'a']), 3), ((['a', 'b'], ['a']), 4)] := rfl
  have hrules : emptyStringJson.sourceRules = [⟨0, 97, 98, 300⟩, ⟨1, 98, 97, 301⟩,
      ⟨2, 107, 301, 301⟩, ⟨3, 97, 301, 302⟩, ⟨4, 300, 97, 302⟩] := by
    rw [HfJson.sourceRules, hzip,
      List.filterMap_cons_some (sourceRule_eq unicodeToBytes_a unicodeToBytes_b ha hb hab),
      List.filterMap_cons_some (sourceRule_eq unicodeToBytes_b unicodeToBytes_a hb ha hba),
      List.filterMap_cons_some (sourceRule_eq hnil' hba' hnil hba hba),
      List.filterMap_cons_some (sourceRule_eq unicodeToBytes_a hba' ha hba haba),
      List.filterMap_cons_some (sourceRule_eq unicodeToBytes_ab unicodeToBytes_a hab ha haba)]
    rfl
  obtain ⟨model, hload, hbase, hbpe⟩ := @buildBpe_of_slots _ false _ rfl rfl slots_emptyStringJson
    hbytes hrules (by decide)
  refine ⟨hbytes, model, hload, ?_, (hbpe [97, 98, 97, 107, 98, 97]).trans (by decide +kernel), ?_⟩
  · simpa using ⟨hbase 97, hbase 98, hbase 97, hbase 107, hbase 98, hbase 97⟩
  · rw [hrules]
    decide +kernel

/-- Three files that load in the order of the ids and encode otherwise than their lists:
two strings of one id, a product `u32::MAX`, and a byte with the id of the empty string. -/
theorem buildBpe_differs :
    (∃ json : HfJson, json.Differs [97, 98, 99] [300, 99] [97, 300]) ∧
      (∃ json : HfJson, json.Differs [97, 98] [97, 98] [u32Max]) ∧
        ∃ json : HfJson, json.Differs [97, 98, 97, 107, 98, 97] [302, 301] [300, 302] :=
  ⟨⟨_, sharedId_differs⟩, ⟨_, maxId_differs⟩, _, emptyString_differs⟩

/-- `buildBpe_merges` on `bc` and `ab` with the ids 300 and 350. -/
theorem buildBpe_merges_bcab : ∃ model, buildBpe (bcabJson 300 350 (by decide)) false = .ok model ∧
    model.merges.merge [97, 98, 99] = some [97, 300] := by
  obtain ⟨hbytes, hrules⟩ := sourceRules_bcabJson 300 350 (by decide)
  obtain ⟨model, hload, hbase, -⟩ := buildBpe_bcabJson 300 350 (by decide) (by decide) (by decide)
  have hids : (bcabJson 300 350 (by decide)).IdsTellApart model :=
    idsTellApart_lettersJson (by decide) (by decide)
  have hsymbols : ∀ a ∈ [97, 98, 99], model.IsBase a := by
    simpa using ⟨hbase 97, hbase 98, hbase 99⟩
  have h := (buildBpe_merges hload hbytes (show 2 ≤ u32Max by decide) (fun _ => hids) hsymbols).2
    (by decide)
  rw [hrules] at h
  exact ⟨model, hload, h.trans (by decide +kernel)⟩

end Hypertok
