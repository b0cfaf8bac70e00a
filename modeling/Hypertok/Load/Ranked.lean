import Hypertok.Bpe.MergeRanked
import Hypertok.Load.RankFile
import Hypertok.PairMerge.Replay

/-!
Merges of an image with a PRIORITY section: one number per token, zero for a token that
is no product.

* `reconstructRankedMerges`: in the order of the priorities, each product is encoded
  under the merges so far, and must give a pair; `Rebuilt` says that the result is a
  replay.
* `reconstructExhaustiveRankedMerges`: all cuts of a product into two tokens are
  merges, with the priority of the product; `exhaustive_table` says which pairs those
  are.
* `reconstructIdMerges_rebuilt`: the merges in id order are a replay as well.
-/

namespace Hypertok

open PairMerge Machine

/-! ### The code -/

section

variable (vocab : List (List UInt8)) (priorities : List ℕ) (nonProducts : Finset TokenId)

/-- `vocab[id]`. -/
def tokenBytes (id : TokenId) : List UInt8 := vocab.getD id []

/-- `priorities[id]`. -/
def priorityOf (id : TokenId) : ℕ := priorities.getD id 0

/-- The products of `reconstruct_ranked_merges`, sorted by priority and id. -/
def rankedProducts : List TokenId :=
  ((List.range vocab.length).filter fun id =>
    !(tokenBytes vocab id).isEmpty && id ∉ nonProducts && priorityOf priorities id != 0).mergeSort
    fun a b => toLex (priorityOf priorities a, a) ≤ toLex (priorityOf priorities b, b)

/-- The symbols that `bpe_merge_symbols_ranked` leaves in place. -/
def replayRanked (merges : RankedMerges) (symbols : List TokenId) : List TokenId :=
  (bpeMergeSymbolsRanked merges.pair symbols).getD symbols

/-- The loop of `reconstruct_ranked_merges`. -/
def rankedMergesLoop (initialSymbols : List UInt8 → List TokenId) :
    List TokenId → RankedMerges → Except HtkLoadError RankedMerges
  | [], merges => .ok merges
  | id :: products, merges =>
      match replayRanked merges (initialSymbols (tokenBytes vocab id)) with
      | [left, right] =>
          if (merges.lookup (rankedMergeKey left right)).isSome then
            .error (.invalidModel "duplicate ranked merge pair")
          else
            rankedMergesLoop initialSymbols products
              (merges.insert (rankedMergeKey left right) (id, priorityOf priorities id))
      | _ => .error (.invalidModel "priority token does not reconstruct from one final merge")

/-- `reconstruct_ranked_merges`. -/
def reconstructRankedMerges (initialSymbols : List UInt8 → List TokenId) :
    Except HtkLoadError RankedMerges :=
  rankedMergesLoop vocab priorities initialSymbols (rankedProducts vocab priorities nonProducts) ∅

/-- `by_token`: the tokens that a cut may lead to, by their bytes. -/
def byToken (lookupExcluded : Finset TokenId) : AList fun _ : List UInt8 => TokenId :=
  (vocab.zipIdx.filter fun x => !x.1.isEmpty && x.2 ∉ lookupExcluded).foldl
    (fun keys x => keys.insert x.1 x.2) ∅

/-- The loop over the cuts of a product, with the number of pairs inserted. -/
def splitsLoop (keys : AList fun _ : List UInt8 => TokenId) (token : List UInt8)
    (entry : TokenId × ℕ) : List ℕ → RankedMerges → ℕ → Except HtkLoadError (RankedMerges × ℕ)
  | [], merges, inserted => .ok (merges, inserted)
  | split :: splits, merges, inserted =>
      match keys.lookup (token.take split), keys.lookup (token.drop split) with
      | some left, some right =>
          if (merges.lookup (rankedMergeKey left right)).isSome then
            .error (.invalidModel "duplicate exhaustive ranked merge pair")
          else
            splitsLoop keys token entry splits (merges.insert (rankedMergeKey left right) entry)
              (inserted + 1)
      | _, _ => splitsLoop keys token entry splits merges inserted

/-- The loop of `reconstruct_exhaustive_ranked_merges`. -/
def exhaustiveLoop (keys : AList fun _ : List UInt8 => TokenId) :
    List (List UInt8 × TokenId) → RankedMerges → Except HtkLoadError RankedMerges
  | [], merges => .ok merges
  | (token, id) :: tokens, merges =>
      if token.isEmpty || id ∈ nonProducts || priorityOf priorities id == 0 then
        exhaustiveLoop keys tokens merges
      else do
        let (merges, inserted) ← splitsLoop keys token (id, priorityOf priorities id)
          (List.range' 1 (token.length - 1)) merges 0
        if inserted = 0 then
          .error (.invalidModel "priority token has no vocabulary-valid split")
        else exhaustiveLoop keys tokens merges

/-- `reconstruct_exhaustive_ranked_merges`. -/
def reconstructExhaustiveRankedMerges (lookupExcluded : Finset TokenId) :
    Except HtkLoadError RankedMerges :=
  exhaustiveLoop priorities nonProducts (byToken vocab lookupExcluded) vocab.zipIdx ∅

end

/-! ### Replay -/

/-- The table `T` has, for the words of 32 bits, the rules of a replay: one rule for each
of the products, in their order, with the key of the product for its rank. -/
structure Rebuilt (init : TokenId → List TokenId) (key : TokenId → ℕ) (products : List TokenId)
    (T : Table ℕ TokenId) (rules : List (Rule ℕ TokenId)) : Prop where
  product : rules.map Rule.product = products
  rank : ∀ r ∈ rules, r.rank = key r.product
  replays : Replays init rules
  table : ∀ a b, a < 2 ^ 32 → b < 2 ^ 32 → T a b = ruleTable rules a b

namespace Rebuilt

variable {init : TokenId → List TokenId} {key : TokenId → ℕ} {products : List TokenId}
  {T T' : Table ℕ TokenId} {rules : List (Rule ℕ TokenId)}

lemma nil (hT : ∀ a b, T a b = none) : Rebuilt init key [] T [] :=
  ⟨rfl, by simp, .nil, fun a b _ _ => hT a b⟩

variable (h : Rebuilt init key products T rules)
include h

lemma product_mem {r : Rule ℕ TokenId} (hr : r ∈ rules) : r.product ∈ products :=
  h.product ▸ List.mem_map_of_mem hr

/-- The rules and the table give the same words. -/
lemma bpe_eq (hproducts : ∀ c ∈ products, c < 2 ^ 32) {s : List TokenId}
    (hs : ∀ a ∈ s, a < 2 ^ 32) : bpe T s = bpe (ruleTable rules) s := by
  refine (bpe_congr (fun a b ha hb => (h.table a b ha hb).symm) (fun a b _ _ q hq => ?_) hs).symm
  obtain ⟨r, hr, -, -, rfl⟩ := exists_rule hq
  exact hproducts _ (h.product_mem hr)

/-- The word of a product runs to the product. -/
lemma bpe_init (hproducts : ∀ c ∈ products, c < 2 ^ 32) {c : TokenId} (hc : c ∈ products)
    (hinit : ∀ a ∈ init c, a < 2 ^ 32) : bpe T (init c) = [c] := by
  rw [← h.product] at hc
  obtain ⟨r, hr, rfl⟩ := List.mem_map.mp hc
  rw [h.bpe_eq hproducts hinit, h.replays.bpe_init r hr]

/-- The step of a replay: the word of a new product runs to a pair. -/
lemma concat {a b c : TokenId} (hlt : ∀ c' ∈ products, key c' < key c)
    (hrun : bpe (ruleTable rules) (init c) = [a, b])
    (hnew : ∀ a' b', a' < 2 ^ 32 → b' < 2 ^ 32 →
      T' a' b' = if a' = a ∧ b' = b then some (key c, c) else T a' b') :
    Rebuilt init key (products ++ [c]) T' (rules ++ [⟨key c, a, b, c⟩]) := by
  have hnone : ruleTable rules a b = none := by
    have hfinal := bpe_final (ruleTable rules) (init c)
    rw [hrun] at hfinal
    exact (final_cons_cons.mp hfinal).1
  refine ⟨by simp [h.product], fun r hr => ?_, h.replays.concat (fun r hr => ?_) hrun,
    fun a' b' ha hb => ?_⟩
  · rcases List.mem_append.mp hr with hr | hr
    · exact h.rank r hr
    · rw [List.mem_singleton.mp hr]
  · rw [h.rank r hr]
    exact hlt _ (h.product_mem hr)
  · rw [hnew a' b' ha hb]
    split_ifs with heq
    · rw [heq.1, heq.2, ruleTable_concat hnone]
    · rw [ruleTable_concat_of_ne fun hab => heq ⟨hab.1.symm, hab.2.symm⟩, h.table a' b' ha hb]

end Rebuilt

lemma rankedMergeKey_inj {a b a' b' : TokenId} (hb : b < 2 ^ 32) (hb' : b' < 2 ^ 32)
    (h : rankedMergeKey a b = rankedMergeKey a' b') : a = a' ∧ b = b' := pack_inj hb hb' h

/-- A new entry of the merge map, as an entry of its table. -/
lemma rankedTable_insert (m : RankedMerges) {a b : TokenId} (hb : b < 2 ^ 32) (q : TokenId × ℕ)
    (a' : TokenId) {b' : TokenId} (hb' : b' < 2 ^ 32) :
    rankedTable (RankedMerges.pair (m.insert (rankedMergeKey a b) q)) a' b' =
      if a' = a ∧ b' = b then some q.swap else rankedTable m.pair a' b' := by
  by_cases h : rankedMergeKey a' b' = rankedMergeKey a b
  · obtain ⟨rfl, rfl⟩ := rankedMergeKey_inj hb' hb h
    simp [rankedTable, RankedMerges.pair]
  · have hne : ¬ (a' = a ∧ b' = b) := by
      rintro ⟨rfl, rfl⟩
      exact h rfl
    simp [rankedTable, RankedMerges.pair, AList.lookup_insert_ne h, hne]

section Ranked

variable {vocab : List (List UInt8)} {priorities : List ℕ} {nonProducts : Finset TokenId}

/-- A strictly increasing list of the products is their sorted list. -/
lemma rankedProducts_eq {products : List TokenId}
    (hsorted : products.Pairwise fun a b => priorityOf priorities a < priorityOf priorities b)
    (hmem : ∀ id, id ∈ products ↔ id < vocab.length ∧ tokenBytes vocab id ≠ [] ∧
      id ∉ nonProducts ∧ priorityOf priorities id ≠ 0) :
    rankedProducts vocab priorities nonProducts = products := by
  have hnodup : products.Nodup := hsorted.imp fun hlt heq => hlt.ne (congrArg _ heq)
  let le (a b : TokenId) := toLex (priorityOf priorities a, a) ≤ toLex (priorityOf priorities b, b)
  refine @List.Perm.eq_of_pairwise _ le _ _ (fun a b _ _ hab hba => ?_) ?_
    (hsorted.imp fun hlt => ?_) ((List.mergeSort_perm _ _).trans ?_)
  · exact congrArg (fun x => (ofLex x).2) (le_antisymm hab hba)
  · exact List.pairwise_mergeSort' _ _
  · exact Prod.Lex.toLex_le_toLex.mpr (.inl hlt)
  · refine (List.perm_ext_iff_of_nodup (List.nodup_range.filter _) hnodup).mpr fun id => ?_
    simp [hmem, and_assoc]

variable {initialSymbols : List UInt8 → List TokenId} {done products : List TokenId}
  {m m' : RankedMerges} {rules : List (Rule ℕ TokenId)}

/-- A product that gives a new pair. -/
lemma rankedMergesLoop_cons {id a b : TokenId}
    (hreplay : replayRanked m (initialSymbols (tokenBytes vocab id)) = [a, b])
    (hnew : m.lookup (rankedMergeKey a b) = none) :
    rankedMergesLoop vocab priorities initialSymbols (id :: products) m =
      rankedMergesLoop vocab priorities initialSymbols products
        (m.insert (rankedMergeKey a b) (id, priorityOf priorities id)) := by
  rw [rankedMergesLoop, hreplay]
  simp [hnew]

/-- The replay of the products, in the order of their priorities. -/
theorem rankedMergesLoop_rebuilt
    (hsorted : (done ++ products).Pairwise fun a b =>
      priorityOf priorities a < priorityOf priorities b)
    (hle : ∀ id ∈ products, priorityOf priorities id ≤ u32Max)
    (hid : ∀ id ∈ done ++ products, id < 2 ^ 32)
    (hinit : ∀ id ∈ products, (initialSymbols (tokenBytes vocab id)).length ≤ usizeMax ∧
      ∀ a ∈ initialSymbols (tokenBytes vocab id), a < 2 ^ 32)
    (h : Rebuilt (fun id => initialSymbols (tokenBytes vocab id)) (priorityOf priorities) done
      (rankedTable m.pair) rules)
    (hentries : ∀ k, ∀ q ∈ m.lookup k, q.1 ∈ done ∧ q.2 = priorityOf priorities q.1)
    (hrun : rankedMergesLoop vocab priorities initialSymbols products m = .ok m') :
    ∃ rules', Rebuilt (fun id => initialSymbols (tokenBytes vocab id)) (priorityOf priorities)
      (done ++ products) (rankedTable m'.pair) rules' := by
  induction products generalizing done m rules with
  | nil =>
      rw [rankedMergesLoop, Except.ok.injEq] at hrun
      rw [List.append_nil, ← hrun]
      exact ⟨rules, h⟩
  | cons id products ih =>
      simp only [List.mem_cons, forall_eq_or_imp] at hle hinit
      have hlt : ∀ c ∈ done, priorityOf priorities c < priorityOf priorities id := fun c hc =>
        (List.pairwise_append.mp hsorted).2.2 c hc id (by simp)
      -- the merges so far have lower priorities, so none is `u32::MAX`
      have hreplay : replayRanked m (initialSymbols (tokenBytes vocab id)) =
          bpe (ruleTable rules) (initialSymbols (tokenBytes vocab id)) := by
        rw [replayRanked, bpeMergeSymbolsRanked_eq (fun a b c r hab => ?_) hinit.1.1,
          Option.getD_some, h.bpe_eq (fun c hc => hid c (by simp [hc])) hinit.1.2]
        obtain ⟨hc, hr⟩ := hentries _ _ hab
        exact lt_of_eq_of_lt hr ((hlt c hc).trans_le hle.1)
      have hwords := (bpe_steps (ruleTable rules) (initialSymbols (tokenBytes vocab id))).forall_mem
        (P := (· < 2 ^ 32)) (fun a b _ _ q hq => by
          obtain ⟨r, hr, -, -, rfl⟩ := exists_rule hq
          exact hid _ (List.mem_append_left _ (h.product_mem hr))) hinit.1.2
      rw [rankedMergesLoop, hreplay] at hrun
      split at hrun
      case h_1 left right hbpe =>
          rw [hbpe] at hwords
          split_ifs at hrun with hdup
          have hstep := h.concat hlt hbpe fun a' b' _ hb' => rankedTable_insert m
            (hwords right (by simp)) (id, priorityOf priorities id) a' hb'
          have hassoc : done ++ id :: products = done ++ [id] ++ products := by simp
          rw [hassoc] at hsorted hid ⊢
          refine ih hsorted hle.2 hid hinit.2 hstep (fun k q hq => ?_) hrun
          by_cases hk : k = rankedMergeKey left right
          · rw [hk, AList.lookup_insert, Option.mem_some_iff] at hq
            simp [← hq]
          · rw [AList.lookup_insert_ne hk] at hq
            exact ⟨List.mem_append_left _ (hentries k q hq).1, (hentries k q hq).2⟩
      case h_2 => cases hrun

/-- `reconstruct_ranked_merges` replays the products, if their priorities tell them
apart. -/
theorem reconstructRankedMerges_rebuilt
    (hsorted : products.Pairwise fun a b => priorityOf priorities a < priorityOf priorities b)
    (hmem : ∀ id, id ∈ products ↔ id < vocab.length ∧ tokenBytes vocab id ≠ [] ∧
      id ∉ nonProducts ∧ priorityOf priorities id ≠ 0)
    (hle : ∀ id ∈ products, priorityOf priorities id ≤ u32Max) (hvocab : vocab.length ≤ 2 ^ 28)
    (hinit : ∀ id ∈ products, (initialSymbols (tokenBytes vocab id)).length ≤ usizeMax ∧
      ∀ a ∈ initialSymbols (tokenBytes vocab id), a < 2 ^ 32)
    (hrun : reconstructRankedMerges vocab priorities nonProducts initialSymbols = .ok m) :
    ∃ rules, Rebuilt (fun id => initialSymbols (tokenBytes vocab id)) (priorityOf priorities)
      products (rankedTable m.pair) rules := by
  rw [reconstructRankedMerges, rankedProducts_eq hsorted hmem] at hrun
  have hid : ∀ id ∈ products, id < 2 ^ 32 := fun id h =>
    (((hmem id).mp h).1.trans_le hvocab).trans (by decide)
  have hnil : Rebuilt (fun id => initialSymbols (tokenBytes vocab id)) (priorityOf priorities) []
      (rankedTable (RankedMerges.pair ∅)) [] :=
    .nil fun a b => by simp [rankedTable, RankedMerges.pair]
  exact rankedMergesLoop_rebuilt hsorted hle hid hinit hnil (by simp) hrun

end Ranked

/-! ### All cuts -/

/-- An entry under a new key leaves the other entries. -/
lemma mem_lookup_insert {κ β : Type*} [DecidableEq κ] {m : AList fun _ : κ => β} {k : κ}
    (h : m.lookup k = none) (v : β) {k' : κ} {q : β} :
    q ∈ (m.insert k v).lookup k' ↔ q ∈ m.lookup k' ∨ k' = k ∧ q = v := by
  by_cases hk : k' = k
  · rw [hk, AList.lookup_insert, h]
    simp [eq_comm]
  · simp [AList.lookup_insert_ne hk, hk]

/-- The pairs that the cuts of a product give. -/
def CutInto (keys : AList fun _ : List UInt8 => TokenId) (token : List UInt8) (splits : List ℕ)
    (k : ℕ) : Prop :=
  ∃ split ∈ splits, ∃ left right, keys.lookup (token.take split) = some left ∧
    keys.lookup (token.drop split) = some right ∧ k = rankedMergeKey left right

lemma cutInto_cons {keys : AList fun _ : List UInt8 => TokenId} {token : List UInt8} {split : ℕ}
    {splits : List ℕ} {k : ℕ} : CutInto keys token (split :: splits) k ↔
      (∃ left right, keys.lookup (token.take split) = some left ∧
        keys.lookup (token.drop split) = some right ∧ k = rankedMergeKey left right) ∨
      CutInto keys token splits k := by
  simp only [CutInto, List.exists_mem_cons_iff]

section Exhaustive

variable {keys : AList fun _ : List UInt8 => TokenId} {priorities : List ℕ}
  {nonProducts : Finset TokenId} {m m' : RankedMerges}

/-- The loop over the cuts adds their pairs. -/
lemma splitsLoop_ok {token : List UInt8} {entry : TokenId × ℕ} {splits : List ℕ} {n n' : ℕ}
    (h : splitsLoop keys token entry splits m n = .ok (m', n')) (k : ℕ) (q : TokenId × ℕ) :
    q ∈ m'.lookup k ↔ q ∈ m.lookup k ∨ CutInto keys token splits k ∧ q = entry := by
  induction splits generalizing m n with
  | nil =>
      rw [splitsLoop, Except.ok.injEq, Prod.mk.injEq] at h
      simp [h.1, CutInto]
  | cons split splits ih =>
      rw [splitsLoop] at h
      split at h
      case h_1 left right hleft hright =>
          split_ifs at h with hdup
          have hcut : (∃ l r, keys.lookup (token.take split) = some l ∧
              keys.lookup (token.drop split) = some r ∧ k = rankedMergeKey l r) ↔
              k = rankedMergeKey left right := by simp [hleft, hright]
          rw [ih h, mem_lookup_insert (by simpa using hdup), cutInto_cons, hcut, or_and_right,
            or_assoc]
      case h_2 hnone =>
          have hcut : ¬ ∃ l r, keys.lookup (token.take split) = some l ∧
              keys.lookup (token.drop split) = some r ∧ k = rankedMergeKey l r := by
            rintro ⟨left, right, hleft, hright, -⟩
            exact hnone left right hleft hright
          rw [ih h, cutInto_cons, or_iff_right hcut]

/-- A product of the loop. -/
def ExhaustiveProduct (priorities : List ℕ) (nonProducts : Finset TokenId)
    (x : List UInt8 × TokenId) : Prop :=
  x.1 ≠ [] ∧ x.2 ∉ nonProducts ∧ priorityOf priorities x.2 ≠ 0

/-- The loop over the tokens adds the pairs of the products. -/
lemma exhaustiveLoop_ok {tokens : List (List UInt8 × TokenId)}
    (h : exhaustiveLoop priorities nonProducts keys tokens m = .ok m') (k : ℕ)
    (q : TokenId × ℕ) :
    q ∈ m'.lookup k ↔ q ∈ m.lookup k ∨ ∃ x ∈ tokens, ExhaustiveProduct priorities nonProducts x ∧
      CutInto keys x.1 (List.range' 1 (x.1.length - 1)) k ∧
      q = (x.2, priorityOf priorities x.2) := by
  induction tokens generalizing m with
  | nil =>
      rw [exhaustiveLoop, Except.ok.injEq] at h
      simp [h]
  | cons x tokens ih =>
      obtain ⟨token, id⟩ := x
      rw [exhaustiveLoop] at h
      simp only [List.mem_cons, exists_eq_or_imp]
      split_ifs at h with hskip
      · rw [ih h]
        refine or_congr_right (or_iff_right ?_).symm
        rintro ⟨⟨hne, hid, hprio⟩, -⟩
        simp [hne, hid, hprio] at hskip
      · obtain ⟨⟨m₁, n⟩, hsplits, h⟩ := bind_eq_ok_iff.mp h
        simp only at h
        split_ifs at h
        rw [ih h, splitsLoop_ok hsplits, or_assoc]
        refine or_congr_right (or_congr_left (iff_and_self.mpr fun _ => ?_))
        simpa [ExhaustiveProduct, not_or, and_assoc] using hskip

/-- Entries with distinct keys, inserted one by one. -/
lemma mem_lookup_foldl_insert {κ β : Type*} [DecidableEq κ] {l : List (κ × β)}
    (hl : ∀ x ∈ l, ∀ y ∈ l, x.1 = y.1 → x.2 = y.2) {m : AList fun _ : κ => β} {k : κ} {q : β} :
    q ∈ (l.foldl (fun m x => m.insert x.1 x.2) m).lookup k ↔
      (k, q) ∈ l ∨ (∀ x ∈ l, x.1 ≠ k) ∧ q ∈ m.lookup k := by
  induction l generalizing m with
  | nil => simp
  | cons x l ih =>
      rw [List.foldl_cons, ih fun y hy z hz => hl y (by simp [hy]) z (by simp [hz])]
      simp only [List.mem_cons, forall_eq_or_imp]
      by_cases hk : k = x.1
      · subst hk
        rw [AList.lookup_insert, Option.mem_some_iff]
        constructor
        · rintro (hmem | ⟨-, rfl⟩)
          · exact .inl (.inr hmem)
          · exact .inl (.inl rfl)
        · rintro ((hx | hmem) | ⟨⟨hne, -⟩, -⟩)
          · have hq : x.2 = q := (congrArg Prod.snd hx).symm
            by_cases hall : ∀ y ∈ l, y.1 ≠ x.1
            · exact .inr ⟨hall, hq⟩
            · push Not at hall
              obtain ⟨y, hy, hyk⟩ := hall
              have hval := hl y (by simp [hy]) x (by simp) hyk
              exact .inl (by rwa [← hyk, ← hq, ← hval])
          · exact .inl hmem
          · exact absurd rfl hne
      · have hx : (k, q) ≠ x := fun h => hk (congrArg Prod.fst h)
        rw [AList.lookup_insert_ne hk]
        simp [hx, Ne.symm hk]

/-- A token that the cuts look up. -/
def Keyed (vocab : List (List UInt8)) (excluded : Finset TokenId) (id : TokenId)
    (token : List UInt8) : Prop :=
  vocab[id]? = some token ∧ token ≠ [] ∧ id ∉ excluded

variable {vocab : List (List UInt8)} {excluded : Finset TokenId}

/-- The lookup by bytes, if no bytes belong to two tokens. -/
lemma lookup_byToken (huniq : ∀ id id' token, Keyed vocab excluded id token →
      Keyed vocab excluded id' token → id = id') {token : List UInt8} {id : TokenId} :
    (byToken vocab excluded).lookup token = some id ↔ Keyed vocab excluded id token := by
  have hmem : ∀ x, x ∈ (vocab.zipIdx.filter fun x => !x.1.isEmpty && x.2 ∉ excluded) ↔
      Keyed vocab excluded x.2 x.1 := by
    rintro ⟨token, id⟩
    simp [List.mem_zipIdx_iff_getElem?, Keyed]
  rw [byToken, ← Option.mem_def, mem_lookup_foldl_insert fun x hx y hy hxy => ?_, hmem]
  · simp
  · exact huniq _ _ x.1 ((hmem x).mp hx) (hxy ▸ (hmem y).mp hy)

/-- The pairs of the exhaustive reconstruction: the tokens into which a product may be
cut. -/
theorem exhaustive_table (hvocab : vocab.length ≤ 2 ^ 28)
    (huniq : ∀ id id' token, Keyed vocab excluded id token →
      Keyed vocab excluded id' token → id = id')
    (hrun : reconstructExhaustiveRankedMerges vocab priorities nonProducts excluded = .ok m)
    {a b : TokenId} (hb : b < 2 ^ 32) {q : ℕ × TokenId} :
    q ∈ rankedTable m.pair a b ↔ ∃ left right, Keyed vocab excluded a left ∧
      Keyed vocab excluded b right ∧ vocab[q.2]? = some (left ++ right) ∧ q.2 ∉ nonProducts ∧
      q.1 = priorityOf priorities q.2 ∧ q.1 ≠ 0 := by
  have hkey : ∀ id token, Keyed vocab excluded id token → id < 2 ^ 32 := fun id token h =>
    ((List.getElem?_eq_some_iff.mp h.1).1.trans_le hvocab).trans (by decide)
  obtain ⟨r, c⟩ := q
  rw [Option.mem_def, rankedTable_eq_some, RankedMerges.pair, ← Option.mem_def,
    exhaustiveLoop_ok hrun]
  simp only [AList.lookup_empty, Option.not_mem_none, false_or, CutInto, lookup_byToken huniq]
  constructor
  · rintro ⟨⟨token, id⟩, hx, ⟨hne, hid, hprio⟩, ⟨split, hsplit, left, right, hleft, hright, hk⟩, hq⟩
    obtain ⟨rfl, rfl⟩ := Prod.mk.inj hq
    obtain ⟨rfl, rfl⟩ := rankedMergeKey_inj hb (hkey _ _ hright) hk
    refine ⟨_, _, hleft, hright, ?_, hid, rfl, hprio⟩
    rw [List.take_append_drop]
    exact List.mem_zipIdx_iff_getElem?.mp hx
  · rintro ⟨left, right, hleft, hright, hc, hid, rfl, hprio⟩
    have hl := List.length_pos_iff.mpr hleft.2.1
    have hr := List.length_pos_iff.mpr hright.2.1
    refine ⟨⟨left ++ right, c⟩, List.mem_zipIdx_iff_getElem?.mpr hc,
      ⟨by simp [hleft.2.1], hid, hprio⟩, ⟨left.length, ?_, a, b, ?_, ?_, rfl⟩, rfl⟩
    · rw [List.mem_range'_1, List.length_append]
      omega
    · rwa [List.take_left']
      rfl
    · rwa [List.drop_left']
      rfl

end Exhaustive

/-! ### Id order -/

/-- `reconstruct_id_merges` replays its products in the order of their ids. -/
theorem reconstructIdMerges_rebuilt {img : ByteImage} {m : Merges}
    (h : reconstructIdMerges img = .ok m) :
    ∃ rules, Rebuilt (fun id => img.symbols (tokenBytes img.vocab id)) id
      ((List.range img.vocab.length).filter fun id => !img.skipped id (tokenBytes img.vocab id))
      (mergesTable m) rules := by
  have hinv : Replayed img img.vocab.length m ∧ ∃ rules,
      Rebuilt (fun id => img.symbols (tokenBytes img.vocab id)) id
        ((List.range img.vocab.length).filter fun id => !img.skipped id (tokenBytes img.vocab id))
        (mergesTable m) rules := by
    refine mergesLoop_inv (I := fun k m => Replayed img k m ∧ ∃ rules,
        Rebuilt (fun id => img.symbols (tokenBytes img.vocab id)) id
          ((List.range k).filter fun id => !img.skipped id (tokenBytes img.vocab id))
          (mergesTable m) rules)
      ⟨.empty, [], .nil fun a b => by simp [rankTable, mergesRank]⟩ ?_ ?_ h
    · rintro k m token ⟨hR, rules, hrules⟩ hk hskip
      refine ⟨hR.skip hk hskip, rules, ?_⟩
      have htoken : tokenBytes img.vocab k = token := by
        rw [tokenBytes, List.getD_eq_getElem?_getD, hk, Option.getD_some]
      rw [List.range_succ, List.filter_append]
      simpa [htoken, hskip] using hrules
    · rintro k m token a b ⟨hR, rules, hrules⟩ hp hnew hrun
      rw [hR.replay_eq (List.mem_of_getElem? hp.1)] at hrun
      have htoken : tokenBytes img.vocab k = token := by
        rw [tokenBytes, List.getD_eq_getElem?_getD, hp.1, Option.getD_some]
      refine ⟨hR.insert hp hnew hrun, rules ++ [⟨k, a, b, k⟩], ?_⟩
      rw [List.range_succ, List.filter_append]
      have hk : [k].filter (fun id => !img.skipped id (tokenBytes img.vocab id)) = [k] := by
        simp [htoken, hp.2]
      rw [hk]
      have hlt : k < img.vocab.length := (List.getElem?_eq_some_iff.mp hp.1).1
      have hwords : ∀ c ∈ (List.range k).filter
          (fun id => !img.skipped id (tokenBytes img.vocab id)), c < 2 ^ 32 := fun c hc =>
        (((List.mem_range.mp (List.mem_filter.mp hc).1).trans hlt).trans_le img.vocab_le).trans
          (by decide)
      have hbpe : bpe (ruleTable rules) (img.symbols (tokenBytes img.vocab k)) = [a, b] := by
        rw [htoken, ← hrun]
        refine (hrules.bpe_eq hwords fun x hx => ?_).symm
        obtain ⟨b, -, rfl⟩ := List.mem_map.mp hx
        exact ((img.base_lt b).trans_le img.vocab_le).trans (by decide)
      refine hrules.concat (fun c hc => List.mem_range.mp (List.mem_filter.mp hc).1) hbpe
        fun a' b' _ _ => ?_
      by_cases hab : a' = a ∧ b' = b
      · have hk : k ≠ u32Max := ((hlt.trans_le img.vocab_le).trans (by decide)).ne
        obtain ⟨rfl, rfl⟩ := hab
        simp [rankTable, mergesRank, hk]
      · have hne : (a', b') ≠ (a, b) := fun h => hab (Prod.mk.inj h)
        have hrank : mergesRank (m.insert (a, b) k) a' b' = mergesRank m a' b' := by
          rw [mergesRank, mergesRank, AList.lookup_insert_ne hne]
        rw [if_neg hab, mergesTable, mergesTable, rankTable, rankTable, hrank]
  exact hinv.2

end Hypertok
