import Hypertok.Convert.Priority

/-!
What a loader recovers of the merges that a converter has admitted.

* `Rebuilt.bpe_eq_iff`: a replay of the admitted products encodes as the admitted merges
  do just when these are a replay themselves.
* `exhaustive_eq_byProduct`: all cuts of the products, with the priorities of the
  products, encode as the listed merges with these priorities.
-/

namespace Hypertok

open PairMerge Machine

variable {init : TokenId → List TokenId} {key : TokenId → ℕ} {T : Table ℕ TokenId}
  {rules adm : List (Rule ℕ TokenId)}

/-- A replay of the products of `adm` encodes as `adm` just when `adm` is a replay. -/
theorem Rebuilt.bpe_eq_iff {P : TokenId → Prop} (h : Rebuilt init key (adm.map Rule.product) T rules)
    (hadm : Ranked adm) (hkey : (adm.map Rule.product).Pairwise fun a b => key a < key b)
    (hP : ∀ a, P a → a < 2 ^ 32) (hproduct : ∀ c ∈ adm.map Rule.product, c < 2 ^ 32)
    (hinit : ∀ c ∈ adm.map Rule.product, ∀ a ∈ init c, P a) :
    (∀ s : List TokenId, (∀ a ∈ s, P a) → bpe (ruleTable adm) s = bpe T s) ↔
      Replays init adm := by
  set f : Rule ℕ TokenId → ℕ := fun r => key r.product with hf
  have hpair : adm.Pairwise fun r r' => f r < f r' :=
    (List.pairwise_map (f := Rule.product) (R := fun a b => key a < key b)).mp hkey
  have hadm' : Ranked (adm.map (Rule.rerank f)) := List.pairwise_map.mpr hpair
  have hkeys : (adm.map (Rule.rerank f)).map (fun r => (r.rank, r.product)) =
      rules.map fun r => (r.rank, r.product) := by
    have hrules : rules.map (fun r => (r.rank, r.product)) =
        (rules.map Rule.product).map fun c => (key c, c) := by
      rw [List.map_map]
      exact List.map_congr_left fun r hr => by rw [h.rank r hr]; rfl
    rw [hrules, h.product, List.map_map, List.map_map]
    rfl
  have hnodup : ((adm.map (Rule.rerank f)).map Rule.product).Nodup := by
    rw [List.map_map]
    exact hkey.imp fun hlt heq => hlt.ne (congrArg key heq)
  rw [← replays_rerank hadm hadm', ← bpe_eq_iff_replays h.replays hadm' hnodup hkeys
    fun r hr => hinit _ (h.product_mem hr)]
  refine forall_congr' fun s => imp_congr_right fun hs => ?_
  rw [h.bpe_eq hproduct fun a ha => hP a (hs a ha), bpe_ruleTable_rerank hadm hadm']

/-- The listed merges, each with the priority of its product; a merge whose product has
none is left out. -/
def byProduct (adm rules : List (Rule ℕ TokenId)) : List (Rule ℕ TokenId) :=
  (rules.filter fun r => firstRank adm r.product != 0).map
    (Rule.rerank fun r => firstRank adm r.product)

/-- How the tokens of the vocabulary stand in the slots of a file: those that are not
excluded are encoded letter by letter, and the other slots are empty. -/
structure Emitted (vocab : VocabMap) (excluded : Finset TokenId) (slots : List (List UInt8))
    (enc : Text → Option (List UInt8)) : Prop where
  slot : ∀ t id, vocab.lookup t = some id → id ∉ excluded →
    ∃ bytes, enc t = some bytes ∧ slots[id]? = some bytes
  token : ∀ id bytes, slots[id]? = some bytes → bytes ≠ [] → id ∉ excluded →
    ∃ t, vocab.lookup t = some id
  append : ∀ t t' p q, enc t = some p → enc t' = some q → enc (t ++ t') = some (p ++ q)
  inj : ∀ t t' p, enc t = some p → enc t' = some p → t = t'
  eq_nil : ∀ t p, enc t = some p → (p = [] ↔ t = [])

variable {vocab : VocabMap} {specials start excluded : Finset TokenId}
  {slots : List (List UInt8)} {enc : Text → Option (List UInt8)} {n : ℕ} {p : Priorities}

/-- The pairs of the vocabulary are the cuts into nonempty tokens. -/
lemma mem_expectedPairs {a b c : TokenId} : (a, b, c) ∈ expectedPairs vocab ↔
    ∃ t t', t ≠ [] ∧ t' ≠ [] ∧ vocab.lookup t = some a ∧ vocab.lookup t' = some b ∧
      vocab.lookup (t ++ t') = some c := by
  simp only [expectedPairs, tokenPairs, List.mem_toFinset, List.mem_flatMap, List.mem_filterMap,
    Prod.exists, VocabMap.mem_toList, List.mem_range'_1]
  constructor
  · rintro ⟨token, id, hid, offset, ⟨hpos, hlt⟩, hcut⟩
    simp only [Option.bind_eq_bind, Option.bind_eq_some_iff, Option.some.injEq, Prod.mk.injEq] at hcut
    obtain ⟨l, hl, r, hr, rfl, rfl, rfl⟩ := hcut
    refine ⟨token.take offset, token.drop offset, ?_, ?_, hl, hr, by rwa [List.take_append_drop]⟩
    · simp only [ne_eq, List.take_eq_nil_iff, not_or]
      exact ⟨by omega, by rintro rfl; simp at hlt; omega⟩
    · simp only [ne_eq, List.drop_eq_nil_iff]
      omega
  · rintro ⟨t, t', hne, hne', ha, hb, hc⟩
    have hpos := List.length_pos_iff.mpr hne
    have hpos' := List.length_pos_iff.mpr hne'
    refine ⟨t ++ t', c, hc, t.length, ⟨hpos, by rw [List.length_append]; omega⟩, ?_⟩
    rw [List.take_left' rfl, List.drop_left' rfl, ha, hb]
    rfl

/-- A merge is told by its parts. -/
lemma Derived.eq_of_parts (h : Derived vocab specials start n rules p)
    (hinj : ∀ t t' id, vocab.lookup t = some id → vocab.lookup t' = some id → t = t') :
    ∀ r ∈ rules, ∀ r' ∈ rules, r.left = r'.left → r.right = r'.right → r = r' := by
  intro r hr r' hr' hleft hright
  obtain ⟨t, u, ht, hu, hp⟩ := h.parts r hr
  obtain ⟨t', u', ht', hu', hp'⟩ := h.parts r' hr'
  rw [hinj t t' _ ht (hleft ▸ ht'), hinj u u' _ hu (hright ▸ hu'), hp', Option.some_inj] at hp
  exact List.inj_on_of_nodup_map h.nodup hr hr' (by simp [idTriple, hleft, hright, hp])

namespace Derived

variable (h : Derived vocab specials start n rules p)
include h

/-- The merges that are admitted concatenate nonempty tokens. -/
lemma parts_of_admitted
    (hinj : ∀ t t' id, vocab.lookup t = some id → vocab.lookup t' = some id → t = t')
    (hstart : ∀ a ∈ start, ∀ t, vocab.lookup t = some a → t ≠ []) {r : Rule ℕ TokenId}
    (hr : r ∈ admitted specials start rules) :
    ∃ left right, left ≠ [] ∧ right ≠ [] ∧ vocab.lookup (left ++ right) = some r.product := by
  have hne := forall_of_admitted (Q := fun a => ∀ t, vocab.lookup t = some a → t ≠ []) hstart
    (fun r hr hleft _ t ht => ?_) hr
  · obtain ⟨left, right, hleft, hright, hproduct⟩ :=
      h.parts r ((admitted_sublist _ _ _).subset hr)
    exact ⟨left, right, hne.1 left hleft, hne.2 right hright, hproduct⟩
  · obtain ⟨left, right, hl, -, hproduct⟩ := h.parts r hr
    rw [hinj t _ _ ht hproduct]
    exact fun hnil => hleft left hl (List.append_eq_nil_iff.mp hnil).1

/-- The slots order the products as the merge list does. -/
lemma pairwise_priority (hflag : p.exhaustiveSplits = false) :
    ((admitted specials start rules).map Rule.product).Pairwise fun a b =>
      priorityOf p.priorities a < priorityOf p.priorities b := by
  refine List.pairwise_map.mpr ((h.ranked.sublist (admitted_sublist _ _ _)).imp_of_mem ?_)
  intro r r' hr hr' hlt
  rwa [h.priority, h.priority, firstRank_of_nodup (h.unique hflag) hr,
    firstRank_of_nodup (h.unique hflag) hr']

/-- Without inversions the products are listed in the order of their ids. -/
lemma pairwise_id (hflag : p.exhaustiveSplits = false) (hinv : p.inversions = 0) :
    ((admitted specials start rules).map Rule.product).Pairwise (· < ·) := by
  have hle := (List.isChain_iff_pairwise.mp (h.inversions hinv)).sublist
    ((admitted_sublist specials start rules).map Rule.product)
  exact (hle.and (h.unique hflag)).imp fun ⟨hle, hne⟩ => lt_of_le_of_ne hle hne

/-- The slot of a token is empty if the token is no product. -/
lemma priority_ne_zero {id : TokenId} : priorityOf p.priorities id ≠ 0 ↔
    id ∈ products (admitted specials start rules) := by
  rw [h.priority, ne_eq (firstRank _ id), firstRank_eq_zero, not_not]
  exact fun r hr => h.pos r ((admitted_sublist _ _ _).subset hr)

/-- The slot of an admitted product is a number of 32 bits. -/
lemma priority_le (hflag : p.exhaustiveSplits = false) :
    ∀ id ∈ (admitted specials start rules).map Rule.product,
      priorityOf p.priorities id ≤ u32Max := by
  intro id hid
  obtain ⟨r, hr, rfl⟩ := List.mem_map.mp hid
  rw [h.priority, firstRank_of_nodup (h.unique hflag) hr]
  exact h.rank_le r hr

end Derived

/-- The table of all cuts is the table of the listed merges with the priorities of their
products, up to parts that are not looked up and products that are passed over. -/
theorem exhaustive_eq_byProduct (hE : Emitted vocab excluded slots enc)
    (h : Derived vocab specials start n rules p) (hflag : p.exhaustiveSplits = true)
    (hinj : ∀ t t' id, vocab.lookup t = some id → vocab.lookup t' = some id → t = t')
    {nonProducts : Finset TokenId} (hexcluded : excluded ⊆ nonProducts)
    {a b : TokenId}
    (hT : ∀ q, q ∈ T a b ↔ ∃ left right, Keyed slots excluded a left ∧
      Keyed slots excluded b right ∧ slots[q.2]? = some (left ++ right) ∧ q.2 ∉ nonProducts ∧
      q.1 = firstRank (admitted specials start rules) q.2 ∧ q.1 ≠ 0) :
    T a b = ruleTable (byProduct (admitted specials start rules) (rules.filter fun r =>
      r.left ∉ excluded && r.right ∉ excluded && r.product ∉ nonProducts)) a b := by
  set adm := admitted specials start rules with hadm
  have hrules : ∀ r, r ∈ byProduct adm (rules.filter fun r =>
      r.left ∉ excluded && r.right ∉ excluded && r.product ∉ nonProducts) ↔
      ∃ r' ∈ rules, r'.left ∉ excluded ∧ r'.right ∉ excluded ∧ r'.product ∉ nonProducts ∧
        firstRank adm r'.product ≠ 0 ∧ r = Rule.rerank (fun r => firstRank adm r.product) r' := by
    intro r
    simp only [byProduct, List.mem_map, List.mem_filter, Bool.and_eq_true, decide_eq_true_eq,
      bne_iff_ne, and_assoc]
    exact exists_congr fun r' => by rw [eq_comm (a := r)]
  refine Option.ext fun q => ?_
  rw [← Option.mem_def, ← Option.mem_def, hT, mem_ruleTable]
  · constructor
    · rintro ⟨left, right, ha, hb, hc, hnon, hq, hne⟩
      have hs : q.2 ∉ excluded := fun hs => hnon (hexcluded hs)
      -- the cut is a pair of the vocabulary, so it is listed
      obtain ⟨t, ht⟩ := hE.token a left ha.1 ha.2.1 ha.2.2
      obtain ⟨u, hu⟩ := hE.token b right hb.1 hb.2.1 hb.2.2
      obtain ⟨left', henct, hleft⟩ := hE.slot t a ht ha.2.2
      obtain ⟨right', hencu, hright⟩ := hE.slot u b hu hb.2.2
      obtain rfl := Option.some_inj.mp (ha.1.symm.trans hleft)
      obtain rfl := Option.some_inj.mp (hb.1.symm.trans hright)
      obtain ⟨v, hv⟩ := hE.token q.2 _ hc (by simp [ha.2.1]) hs
      obtain ⟨bytes, hencv, hslot⟩ := hE.slot v q.2 hv hs
      obtain rfl := Option.some_inj.mp (hc.symm.trans hslot)
      obtain rfl := hE.inj _ _ _ hencv (hE.append _ _ _ _ henct hencu)
      have hpair : (a, b, q.2) ∈ expectedPairs vocab := mem_expectedPairs.mpr
        ⟨t, u, fun hnil => ha.2.1 ((hE.eq_nil _ _ henct).mpr hnil),
          fun hnil => hb.2.1 ((hE.eq_nil _ _ hencu).mpr hnil), ht, hu, hv⟩
      rw [← h.cover hflag, List.mem_map] at hpair
      obtain ⟨r, hr, htriple⟩ := hpair
      simp only [idTriple, Prod.mk.injEq] at htriple
      obtain ⟨rfl, rfl, hprod⟩ := htriple
      refine ⟨_, (hrules _).mpr ⟨r, hr, ha.2.2, hb.2.2, hprod ▸ hnon, ?_, rfl⟩, rfl, rfl, ?_⟩
      · rwa [hprod, ← hq]
      · rw [Rule.rerank, hprod, ← hq]
    · rintro ⟨r, hr, rfl, rfl, rfl⟩
      obtain ⟨r, hlisted, hleft, hright, hnon, hne, rfl⟩ := (hrules _).mp hr
      have hpair := (h.cover hflag (idTriple r)).mp (List.mem_map_of_mem hlisted)
      obtain ⟨t, u, hnet, hneu, ht, hu, hv⟩ := mem_expectedPairs.mp hpair
      obtain ⟨left, henct, hl⟩ := hE.slot t _ ht hleft
      obtain ⟨right, hencu, hr'⟩ := hE.slot u _ hu hright
      obtain ⟨bytes, hencv, hv'⟩ := hE.slot _ _ hv fun hs => hnon (hexcluded hs)
      obtain rfl := Option.some_inj.mp (hencv.symm.trans (hE.append _ _ _ _ henct hencu))
      exact ⟨left, right, ⟨hl, fun hnil => hnet ((hE.eq_nil _ _ henct).mp hnil), hleft⟩,
        ⟨hr', fun hnil => hneu ((hE.eq_nil _ _ hencu).mp hnil), hright⟩, hv', hnon, rfl, hne⟩
  · intro r hr r' hr' hl hr''
    obtain ⟨x, hx, -, -, -, -, rfl⟩ := (hrules _).mp hr
    obtain ⟨x', hx', -, -, -, -, rfl⟩ := (hrules _).mp hr'
    rw [h.eq_of_parts hinj x hx x' hx' hl hr'']

/-- The merges with the priorities of their products, for a part of the list. -/
lemma byProduct_filter {f : Rule ℕ TokenId → Bool}
    (hf : ∀ r, f (Rule.rerank (fun r => firstRank adm r.product) r) = f r) :
    byProduct adm (rules.filter f) = (byProduct adm rules).filter f := by
  rw [byProduct, byProduct, List.filter_map, List.filter_filter, List.filter_filter]
  refine congrArg _ (List.filter_congr fun r _ => ?_)
  rw [Bool.and_comm, Function.comp_apply, hf]

/-- The merges that take the priority of their product have an admitted product. -/
lemma Derived.product_of_byProduct (h : Derived vocab specials start n rules p)
    {r : Rule ℕ TokenId} (hr : r ∈ byProduct (admitted specials start rules) rules) :
    r.product ∈ products (admitted specials start rules) := by
  obtain ⟨x, hx, rfl⟩ := List.mem_map.mp hr
  by_contra hnot
  have hzero := (firstRank_eq_zero fun r hr =>
    h.pos r ((admitted_sublist _ _ _).subset hr)).mpr hnot
  have hne := (List.mem_filter.mp hx).2
  rw [bne_iff_ne] at hne
  exact hne hzero

end Hypertok
