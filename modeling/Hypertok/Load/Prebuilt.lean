import Hypertok.Bpe.PairImage
import Hypertok.Load.RankFile

/-!
Prebuilt pair ranks: an image that carries the pairs of its merges is checked, not replayed.

The check takes a pair for a token if its parts concatenate to the token and have smaller
ids, and wants one pair for each token. Replay wants the pair that the bytes of the token
encode to.

* `loadPrebuilt`: the checks and the three forms of a prebuilt section.
* `validatePrebuiltPairRanks_ok`: what an accepted table is.
* `loadPrebuilt_iff`: an accepted table is the replayed one exactly if the bytes of each
  token encode to it under the pairs of the section.
* `loadPrebuilt_differs`: a section with another split of a token.
-/

namespace Hypertok

open PairMerge Machine

/-! ### The code -/

/-- `PrebuiltPairEntries`. The header counts the entries in 32 bits. -/
structure PrebuiltPairEntries where
  entries : List ℕ
  count_le : entries.length ≤ u32Max

/-- `PrebuiltPairSlots`. -/
structure PrebuiltPairSlots where
  slotCount : ℕ
  slots : List (ℕ × ℕ)
  count_le : slots.length ≤ u32Max

/-- `PrebuiltReplayPairs`: the pairs in the order of their products. -/
structure PrebuiltReplayPairs where
  entries : List (TokenId × TokenId)

/-- `PrebuiltPairData`. -/
inductive PrebuiltPairData
  | entries (prebuilt : PrebuiltPairEntries)
  | slots (prebuilt : PrebuiltPairSlots)
  | replay (prebuilt : PrebuiltReplayPairs)

/-- The check of one pair, with the products so far. -/
def validateEntry (img : ByteImage) (t : PairRankTable) (products : Finset TokenId)
    (entry : TokenId × TokenId × TokenId) : Except HtkLoadError (Finset TokenId) :=
  let (left, right, merged) := entry
  if img.vocab.length ≤ merged ∨ merged ∈ products ∨ merged ∈ byteValues.map img.base ∨
      merged ∈ img.specials ∨ merged ≤ left ∨ merged ≤ right ∨ left ∈ img.specials ∨
      right ∈ img.specials ∨ t.rank left right ≠ merged then
    .error (.invalidModel "prebuilt pair rank has invalid token identities")
  else
    let leftBytes := img.vocab.getD left []
    let rightBytes := img.vocab.getD right []
    let mergedBytes := img.vocab.getD merged []
    if mergedBytes.length ≠ leftBytes.length + rightBytes.length ∨ ¬ leftBytes <+: mergedBytes ∨
        ¬ rightBytes <:+ mergedBytes then
      .error (.invalidModel "prebuilt pair rank does not match token bytes")
    else .ok (insert merged products)

/-- `validate_prebuilt_pair_ranks`. -/
def validatePrebuiltPairRanks (img : ByteImage) (t : PairRankTable) :
    Except HtkLoadError PairRankTable := do
  let products ← t.entries.foldlM (validateEntry img t) ∅
  if img.vocab.zipIdx.all fun x => decide (x.2 ∈ products) == !img.skipped x.2 x.1 then .ok t
  else .error (.invalidModel "prebuilt pair ranks do not cover the vocabulary")

/-- `hydrate_prebuilt_pair_ranks`. -/
def hydratePrebuiltPairRanks (img : ByteImage) (compact : Bool) (prebuilt : PrebuiltPairEntries) :
    Except HtkLoadError PairRankTable := do
  let t ← (PairRankTable.fromPackedEntries compact prebuilt.entries img.vocab.length).mapError
    .invalidModel
  validatePrebuiltPairRanks img t

/-- `hydrate_prebuilt_pair_slots`. -/
def hydratePrebuiltPairSlots (img : ByteImage) (compact : Bool) (prebuilt : PrebuiltPairSlots) :
    Except HtkLoadError PairRankTable := do
  let t ← (PairRankTable.fromPrebuiltSlots compact prebuilt.slotCount prebuilt.slots
    img.vocab.length).mapError .invalidModel
  validatePrebuiltPairRanks img t

/-- The ids of the tokens that have a pair. -/
def productIds (img : ByteImage) : List TokenId :=
  (img.vocab.zipIdx.filter fun x => !img.skipped x.2 x.1).map Prod.snd

/-- One turn of the loop of `hydrate_prebuilt_replay_pairs`. -/
def replayPairStep (t : PairRankTable) (x : (TokenId × TokenId) × TokenId) :
    Except HtkLoadError PairRankTable :=
  match t.insert x.1.1 x.1.2 x.2 with
  | none => .error (.invalidModel "prebuilt compact replay contains an invalid pair")
  | some t => .ok t

/-- `hydrate_prebuilt_replay_pairs`. -/
def hydratePrebuiltReplayPairs (img : ByteImage) (compact : Bool) (prebuilt : PrebuiltReplayPairs) :
    Except HtkLoadError PairRankTable :=
  let mergeCount := mergeCount img img.vocab.zipIdx
  if prebuilt.entries.length ≠ mergeCount then
    .error (.invalidModel "prebuilt compact replay entry count does not match the vocabulary")
  else
    match PairRankTable.withCapacity compact img.vocab.length mergeCount with
    | none => .error (.invalidModel "prebuilt compact replay exceeds pair-table capacity")
    | some t => do
        let t ← (prebuilt.entries.zip (productIds img)).foldlM replayPairStep t
        validatePrebuiltPairRanks img t

/-- The prebuilt section, in each of its forms. -/
def hydratePrebuilt (img : ByteImage) (compact : Bool) :
    PrebuiltPairData → Except HtkLoadError PairRankTable
  | .entries prebuilt => hydratePrebuiltPairRanks img compact prebuilt
  | .slots prebuilt => hydratePrebuiltPairSlots img compact prebuilt
  | .replay prebuilt => hydratePrebuiltReplayPairs img compact prebuilt

/-- The part of `build_byte_bpe` without PRIORITY, for a file with a prebuilt section that
is not trusted. -/
def loadPrebuilt (img : ByteImage) (compact : Bool) (data : PrebuiltPairData) :
    Except HtkLoadError PairRankTable := do
  validateBase img
  validateKeySet img.vocab img.specials ∅
  hydratePrebuilt img compact data

/-- The pairs of the section with their products. -/
def PrebuiltPairData.pairs (img : ByteImage) : PrebuiltPairData → List (TokenId × TokenId × TokenId)
  | .entries prebuilt => prebuilt.entries.map PairRankTable.unpackSlot
  | .slots prebuilt => prebuilt.slots.map fun x => PairRankTable.unpackSlot x.2
  | .replay prebuilt => (prebuilt.entries.zip (productIds img)).map fun x => (x.1.1, x.1.2, x.2)

/-- The pairs of a list as a merge table, with the products for the ranks. -/
def pairsTable (pairs : List (TokenId × TokenId × TokenId)) : Table ℕ TokenId := fun a b =>
  (pairs.find? fun e => e.1 = a ∧ e.2.1 = b).map fun e => (e.2.2, e.2.2)

/-! ### What the check accepts -/

variable {img : ByteImage} {m : Merges} {t : PairRankTable}

/-- A pair whose parts make its product. -/
structure ValidEntry (img : ByteImage) (t : PairRankTable) (e : TokenId × TokenId × TokenId) :
    Prop where
  left_lt : e.1 < e.2.2
  right_lt : e.2.1 < e.2.2
  merged_lt : e.2.2 < img.vocab.length
  rank : t.rank e.1 e.2.1 = e.2.2
  bytes : img.vocab.getD e.2.2 [] = img.vocab.getD e.1 [] ++ img.vocab.getD e.2.1 []

lemma eq_append_of_prefix_suffix {α : Type*} {l l₁ l₂ : List α} (hlen : l.length = l₁.length + l₂.length)
    (h₁ : l₁ <+: l) (h₂ : l₂ <:+ l) : l = l₁ ++ l₂ := by
  obtain ⟨s, rfl⟩ := h₁
  rw [List.length_append, Nat.add_left_cancel_iff] at hlen
  have hs : l₂ <:+ s := List.suffix_of_suffix_length_le h₂ (List.suffix_append _ _) hlen.ge
  rw [hs.eq_of_length hlen.symm]

/-- The pairs so far are valid, and have the products so far. -/
structure Validated (img : ByteImage) (t : PairRankTable) (done : List (TokenId × TokenId × TokenId))
    (products : Finset TokenId) : Prop where
  nodup : (done.map fun e => e.2.2).Nodup
  mem : ∀ c, c ∈ products ↔ c ∈ done.map fun e => e.2.2
  valid : ∀ e ∈ done, ValidEntry img t e

lemma Validated.step {done : List (TokenId × TokenId × TokenId)} {products products' : Finset TokenId}
    {e : TokenId × TokenId × TokenId} (h : Validated img t done products)
    (hstep : validateEntry img t products e = .ok products') : Validated img t (done ++ [e]) products' := by
  rw [validateEntry] at hstep
  dsimp only at hstep
  split_ifs at hstep with hids hbytes
  cases hstep
  simp only [not_or, not_le, not_not] at hids hbytes
  obtain ⟨hlt, hnew, -, -, hleft, hright, -, -, hrank⟩ := hids
  have hvalid : ValidEntry img t e :=
    ⟨hleft, hright, hlt, hrank, eq_append_of_prefix_suffix hbytes.1 hbytes.2.1 hbytes.2.2⟩
  rw [h.mem] at hnew
  refine ⟨?_, fun c => ?_, fun e' he' => ?_⟩
  · rw [List.map_append, List.map_singleton]
    exact List.nodup_append_comm.mp (List.nodup_cons.mpr ⟨hnew, h.nodup⟩)
  · rw [Finset.mem_insert, h.mem, List.map_append, List.mem_append, List.map_singleton,
      List.mem_singleton, or_comm]
  · rcases List.mem_append.mp he' with he' | he'
    · exact h.valid e' he'
    · rwa [List.mem_singleton.mp he']

/-- An accepted table has one valid pair for each token of two or more bytes that is not
special, and no others. -/
theorem validatePrebuiltPairRanks_ok {t' : PairRankTable}
    (h : validatePrebuiltPairRanks img t = .ok t') :
    t' = t ∧ (t.entries.map fun e => e.2.2).Nodup ∧ (∀ e ∈ t.entries, ValidEntry img t e) ∧
      ∀ c token, img.vocab[c]? = some token →
        ((c ∈ t.entries.map fun e => e.2.2) ↔ img.skipped c token = false) := by
  rw [validatePrebuiltPairRanks] at h
  obtain ⟨products, hfold, h⟩ := bind_eq_ok_iff.mp h
  split_ifs at h with hcover
  cases h
  have hv : Validated img t t.entries products :=
    foldlM_ok ⟨by simp, by simp, by simp⟩ (fun _ _ _ _ _ hI hstep => hI.step hstep) hfold
  refine ⟨rfl, hv.nodup, hv.valid, fun c token hc => ?_⟩
  have hx := List.all_eq_true.mp hcover (token, c) (List.mem_zipIdx_iff_getElem?.mpr hc)
  rw [← hv.mem]
  cases hs : img.skipped c token <;> simp_all

/-- The pairs of an accepted section: smaller parts, one pair for each token. -/
structure Prebuilt (img : ByteImage) (m : Merges) : Prop where
  parts_lt : ∀ a b, ∀ c ∈ m.lookup (a, b), a < c ∧ b < c
  product : ∀ a b, ∀ c ∈ m.lookup (a, b), ∃ token, img.Product c token
  unique : ∀ p p' c, c ∈ m.lookup p → c ∈ m.lookup p' → p = p'
  cover : ∀ c token, img.Product c token → ∃ p, c ∈ m.lookup p

lemma PairRankTable.Holds.prebuilt (ht : t.Holds m 0) {t' : PairRankTable}
    (h : validatePrebuiltPairRanks img t = .ok t') : t' = t ∧ Prebuilt img m := by
  obtain ⟨rfl, hnodup, hvalid, hcover⟩ := validatePrebuiltPairRanks_ok h
  refine ⟨rfl, fun a b c hc => ?_, fun a b c hc => ?_, fun p p' c hc hc' => ?_, fun c token hp => ?_⟩
  · have he := hvalid _ (ht.mem_entries.mpr hc)
    exact ⟨he.left_lt, he.right_lt⟩
  · have he := ht.mem_entries.mpr hc
    have hget : img.vocab[c]? = some _ := List.getElem?_eq_getElem (hvalid _ he).merged_lt
    exact ⟨_, hget, (hcover c _ hget).mp (List.mem_map_of_mem he)⟩
  · have he : (p.1, p.2, c) ∈ t'.entries := ht.mem_entries.mpr hc
    have he' : (p'.1, p'.2, c) ∈ t'.entries := ht.mem_entries.mpr hc'
    have heq := List.inj_on_of_nodup_map hnodup he he' rfl
    simp only [Prod.mk.injEq] at heq
    exact Prod.ext heq.1 heq.2.1
  · obtain ⟨⟨a, b, c'⟩, he, rfl⟩ := List.mem_map.mp ((hcover c token hp.1).mpr hp.2)
    exact ⟨(a, b), ht.mem_entries.mp he⟩

/-- Each form of the section hydrates to a table of its pairs. -/
theorem hydratePrebuilt_ok {compact : Bool} {data : PrebuiltPairData}
    (h : hydratePrebuilt img compact data = .ok t) :
    img.vocab.length ≤ 2 ^ 21 ∧ ∃ m, t.Holds m 0 ∧ Prebuilt img m ∧
      ∀ a b c, c ∈ m.lookup (a, b) ↔ (a, b, c) ∈ data.pairs img := by
  have hu32 : u32Max ≤ 2 ^ 62 := by decide
  cases data with
  | entries prebuilt =>
      obtain ⟨t₀, hfrom, h⟩ := bind_eq_ok_iff.mp h
      obtain ⟨hlen, m, hm, hpairs⟩ := PairRankTable.fromPackedEntries_holds
        (mapError_eq_ok.mp hfrom) (prebuilt.count_le.trans hu32)
      obtain ⟨rfl, hpre⟩ := hm.prebuilt h
      exact ⟨hlen, m, hm, hpre, hpairs⟩
  | slots prebuilt =>
      obtain ⟨t₀, hfrom, h⟩ := bind_eq_ok_iff.mp h
      obtain ⟨rfl, hnodup, hvalid, -⟩ := validatePrebuiltPairRanks_ok h
      obtain ⟨hlen, m, hm, hpairs⟩ := PairRankTable.fromPrebuiltSlots_holds
        (mapError_eq_ok.mp hfrom) (prebuilt.count_le.trans hu32) hnodup fun e he => (hvalid e he).rank
      exact ⟨hlen, m, hm, (hm.prebuilt h).2, hpairs⟩
  | replay prebuilt =>
      rw [hydratePrebuilt, hydratePrebuiltReplayPairs] at h
      split_ifs at h with hcount
      split at h
      case h_1 => cases h
      case h_2 t₀ hcap =>
          obtain ⟨t₁, hfold, h⟩ := bind_eq_ok_iff.mp h
          have hlen := (PairRankTable.withCapacity_eq_some hcap).1
          have hids : (productIds img).length = mergeCount img img.vocab.zipIdx := by
            rw [productIds, List.length_map, mergeCount, List.countP_eq_length_filter]
          have hzip : (prebuilt.entries.zip (productIds img)).length =
              mergeCount img img.vocab.zipIdx := by
            rw [List.length_zip, hids, not_not.mp hcount, Nat.min_self]
          have ht₀ := PairRankTable.withCapacity_holds hcap
            ((mergeCount_le img).trans (hlen.trans (by decide)))
          rw [← hzip] at ht₀
          have hinsert : ∀ t x t', replayPairStep t x = .ok t' → t.insert x.1.1 x.1.2 x.2 = some t' := by
            intro t x t' hstep
            rw [replayPairStep] at hstep
            split at hstep
            case h_1 => cases hstep
            case h_2 t₁ hins =>
                cases hstep
                exact hins
          obtain ⟨m, hm, hpairs⟩ := ht₀.foldlM (g := fun x => (x.1.1, x.1.2, x.2)) hinsert hfold
          obtain ⟨rfl, hpre⟩ := hm.prebuilt h
          exact ⟨hlen, m, hm, hpre, fun a b c => (hpairs a b c).trans (or_iff_right (by simp))⟩

/-! ### Against replay -/

namespace Prebuilt

variable (h : Prebuilt img m)
include h

lemma lt_length {a b c : TokenId} (hc : c ∈ m.lookup (a, b)) : c < img.vocab.length := by
  obtain ⟨token, hp⟩ := h.product a b c hc
  exact (List.getElem?_eq_some_iff.mp hp.1).1

lemma lt_u32Max {a b c : TokenId} (hc : c ∈ m.lookup (a, b)) : c < u32Max :=
  ((h.lt_length hc).trans_le img.vocab_le).trans (by decide)

lemma mem_table {a b : TokenId} {q : ℕ × TokenId} :
    q ∈ mergesTable m a b ↔ ∃ c ∈ m.lookup (a, b), q = (c, c) :=
  mem_mergesTable fun _ _ _ => h.lt_u32Max

/-- The pairs of the section, looked up in their list or in the map. -/
lemma pairsTable_eq {pairs : List (TokenId × TokenId × TokenId)}
    (hpairs : ∀ a b c, c ∈ m.lookup (a, b) ↔ (a, b, c) ∈ pairs) : pairsTable pairs = mergesTable m := by
  funext a b
  refine Option.ext fun q => ?_
  rw [← Option.mem_def, ← Option.mem_def, h.mem_table, pairsTable, Option.mem_map]
  constructor
  · rintro ⟨e, he, rfl⟩
    obtain ⟨rfl, rfl⟩ : e.1 = a ∧ e.2.1 = b := by simpa using List.find?_some he
    exact ⟨e.2.2, (hpairs _ _ _).mpr (List.mem_of_find?_eq_some he), rfl⟩
  · rintro ⟨c, hc, rfl⟩
    have hmem := (hpairs _ _ _).mp hc
    obtain ⟨e, he⟩ := Option.isSome_iff_exists.mp
      (List.find?_isSome (p := fun e => decide (e.1 = a ∧ e.2.1 = b)).mpr ⟨_, hmem, by simp⟩)
    obtain ⟨rfl, rfl⟩ : e.1 = a ∧ e.2.1 = b := by simpa using List.find?_some he
    have hce := (hpairs _ _ _).mpr (List.mem_of_find?_eq_some he)
    obtain rfl : e.2.2 = c := Option.mem_unique hce hc
    exact ⟨e, he, rfl⟩

/-- The map up to a token gives the pairs of smaller products. -/
lemma mergesTable_below {m₀ : Merges} {k : ℕ}
    (hm₀ : ∀ p c, c ∈ m₀.lookup p ↔ c ∈ m.lookup p ∧ c < k) :
    mergesTable m₀ = below (mergesTable m) k := by
  have hlt : ∀ a b, ∀ c ∈ m₀.lookup (a, b), c < u32Max := fun a b c hc =>
    h.lt_u32Max ((hm₀ _ _).mp hc).1
  funext a b
  refine Option.ext fun q => ?_
  rw [← Option.mem_def, ← Option.mem_def, mem_below, h.mem_table, mem_mergesTable hlt]
  constructor
  · rintro ⟨c, hc, rfl⟩
    obtain ⟨hc, hck⟩ := (hm₀ _ _).mp hc
    exact ⟨⟨c, hc, rfl⟩, hck⟩
  · rintro ⟨⟨c, hc, rfl⟩, hck⟩
    exact ⟨c, (hm₀ _ _).mpr ⟨hc, hck⟩, rfl⟩

/-- The turn of the replay at a token that encodes to itself: the parts of its pair have
smaller ids, so the pairs of smaller products are enough to reach them. -/
lemma bpe_below {c : TokenId} {token : List UInt8} (hp : img.Product c token)
    (hbpe : bpe (mergesTable m) (img.symbols token) = [c]) :
    ∃ a b, c ∈ m.lookup (a, b) ∧ bpe (below (mergesTable m) c) (img.symbols token) = [a, b] := by
  have hne : img.symbols token ≠ [c] := by
    intro heq
    have hlen := congrArg List.length heq
    have hskip := hp.2
    simp only [ByteImage.symbols, List.length_map, List.length_singleton] at hlen
    simp [ByteImage.skipped, hlen] at hskip
  obtain ⟨a, b, r, hrun, hab⟩ := (hbpe ▸ bpe_steps _ _ : Steps _ _ [c]).exists_pair hne
  obtain ⟨c', hc, heq⟩ := h.mem_table.mp hab
  obtain ⟨rfl, rfl⟩ := Prod.mk.inj heq
  obtain ⟨ha, hb⟩ := h.parts_lt a b c hc
  have hlevel : ∀ a b, ∀ q ∈ mergesTable m a b, q.1 = id q.2 ∧ id a < q.1 ∧ id b < q.1 := by
    intro a b q hq
    obtain ⟨c, hc, rfl⟩ := h.mem_table.mp hq
    exact ⟨rfl, h.parts_lt a b c hc⟩
  have hbelow : Steps (below (mergesTable m) c) (img.symbols token) [a, b] :=
    hrun.below hlevel (by simp [ha, hb])
  refine ⟨a, b, hc, eq_bpe hbelow ?_⟩
  have hnone : below (mergesTable m) c a b = none := by
    refine Option.eq_none_iff_forall_not_mem.mpr fun q hq => ?_
    obtain ⟨hq, hlt⟩ := mem_below.mp hq
    rw [Option.mem_unique hq hab] at hlt
    exact lt_irrefl _ hlt
  simpa [Final] using hnone

/-- If the bytes of each token encode to it, replay finds the pairs. -/
theorem reconstructIdMerges_ok
    (hbpe : ∀ c token, img.Product c token → bpe (mergesTable m) (img.symbols token) = [c]) :
    ∃ m', reconstructIdMerges img = .ok m' ∧ ∀ p, m'.lookup p = m.lookup p := by
  have hloop : ∀ (l : List (List UInt8)) (k : ℕ) (m₀ : Merges), img.vocab.drop k = l →
      (∀ p c, c ∈ m₀.lookup p ↔ c ∈ m.lookup p ∧ c < k) →
      ∃ m', mergesLoop img (l.zipIdx k) m₀ = .ok m' ∧ ∀ p, m'.lookup p = m.lookup p := by
    intro l
    induction l with
    | nil =>
        intro k m₀ hl hm₀
        refine ⟨m₀, rfl, fun p => Option.ext fun c => ?_⟩
        refine (hm₀ p c).trans (and_iff_left_of_imp fun hc => ?_)
        exact (h.lt_length hc).trans_le (List.drop_eq_nil_iff.mp hl)
    | cons token l ih =>
        intro k m₀ hl hm₀
        obtain ⟨hk, hl'⟩ := drop_eq_cons hl
        rw [List.zipIdx_cons, mergesLoop]
        by_cases hskip : img.skipped k token = true
        · rw [if_pos hskip]
          refine ih (k + 1) m₀ hl' fun p c => (hm₀ p c).trans (and_congr_right fun hc => ?_)
          have hck : c ≠ k := by
            rintro rfl
            obtain ⟨token', hp⟩ := h.product p.1 p.2 c hc
            obtain rfl := Option.some.inj (hk.symm.trans hp.1)
            exact absurd (hskip.symm.trans hp.2) (by simp)
          have hiff : ∀ x y : ℕ, x ≠ y → (x < y ↔ x < y + 1) := by omega
          exact hiff c k hck
        · rw [if_neg hskip]
          have hp : img.Product k token := ⟨hk, by simpa using hskip⟩
          obtain ⟨a, b, hab, hrun⟩ := h.bpe_below hp (hbpe k token hp)
          have hle : ∀ a b, mergesRank m₀ a b ≤ u32Max := mergesRank_le fun a b c hc =>
            (h.lt_u32Max ((hm₀ _ _).mp hc).1).le
          have hreplay : replay (mergesRank m₀) (img.symbols token) = [a, b] := by
            rw [replay_eq hle (img.length_symbols_le (List.mem_of_getElem? hk))]
            exact (congrArg (bpe · _) (h.mergesTable_below hm₀)).trans hrun
          have hnone : m₀.lookup (a, b) = none := by
            refine Option.eq_none_iff_forall_not_mem.mpr fun c hc => ?_
            obtain ⟨hc, hlt⟩ := (hm₀ _ _).mp hc
            rw [Option.mem_unique hc hab] at hlt
            exact lt_irrefl _ hlt
          simp only [hreplay, hnone, Option.isSome_none, Bool.false_eq_true, if_false]
          refine ih (k + 1) _ hl' fun p c => ?_
          by_cases hpab : p = (a, b)
          · subst hpab
            rw [AList.lookup_insert, Option.mem_some_iff]
            constructor
            · rintro rfl
              exact ⟨hab, Nat.lt_succ_self _⟩
            · exact fun hc => Option.mem_unique hab hc.1
          · rw [AList.lookup_insert_ne hpab, hm₀]
            refine and_congr_right fun hc => ?_
            have hck : c ≠ k := by
              rintro rfl
              exact hpab (h.unique _ _ _ hc hab)
            have hiff : ∀ x y : ℕ, x ≠ y → (x < y ↔ x < y + 1) := by omega
            exact hiff c k hck
  exact hloop img.vocab 0 ∅ List.drop_zero (by simp)

end Prebuilt

/-- What a successful load of a prebuilt section has checked. -/
lemma loadPrebuilt_ok {compact : Bool} {data : PrebuiltPairData}
    (h : loadPrebuilt img compact data = .ok t) :
    validateBase img = .ok () ∧ validateKeySet img.vocab img.specials ∅ = .ok () ∧
      hydratePrebuilt img compact data = .ok t := by
  rw [loadPrebuilt] at h
  obtain ⟨⟨⟩, hbase, h⟩ := bind_eq_ok_iff.mp h
  obtain ⟨⟨⟩, hkeys, h⟩ := bind_eq_ok_iff.mp h
  exact ⟨hbase, hkeys, h⟩

/-- An image whose merges replay loads, with their ranks. -/
lemma loadIdRanked_of_replay (hbase : validateBase img = .ok ())
    (hkeys : validateKeySet img.vocab img.specials ∅ = .ok ())
    (hm : reconstructIdMerges img = .ok m) (compact : Bool) :
    ∃ model, loadIdRanked img compact false = .ok model ∧
      ∀ a b, a < img.vocab.length → b < img.vocab.length → model.getRank a b = mergesRank m a b := by
  have hpair := ((reconstruct_replays img compact).2.2 m hm).1 false
  rcases hpair with hnone | ⟨t, ht, hrank, -⟩
  · exact ⟨.merges m, by simp [loadIdRanked, hbase, hkeys, hnone, hm], fun _ _ _ _ => rfl⟩
  · exact ⟨.pairRanks t, by simp [loadIdRanked, hbase, hkeys, ht], hrank⟩

/-- An accepted table is the one that replay gives, and encodes alike, exactly if under the
pairs of the section the bytes of each token encode to the token. -/
theorem loadPrebuilt_iff (img : ByteImage) (compact : Bool) (data : PrebuiltPairData)
    (t : PairRankTable) (hload : loadPrebuilt img compact data = .ok t) :
    (∃ model, loadIdRanked img compact false = .ok model ∧
        (∀ a b, a < img.vocab.length → b < img.vocab.length → t.rank a b = model.getRank a b) ∧
        ∀ bytes : List UInt8, bytes.length ≤ u32Max →
          bpeMergeSymbolsByRank t.rank (img.symbols bytes) =
            bpeMergeSymbolsByRank model.getRank (img.symbols bytes)) ↔
      ∀ id token, img.Product id token →
        bpe (pairsTable (data.pairs img)) (img.symbols token) = [id] := by
  obtain ⟨hbase, hkeys, hhyd⟩ := loadPrebuilt_ok hload
  obtain ⟨hlen, m, hm, hpre, hpairs⟩ := hydratePrebuilt_ok hhyd
  rw [hpre.pairsTable_eq hpairs]
  have htable : ∀ bytes : List UInt8,
      bpe (rankTable t.rank) (img.symbols bytes) = bpe (mergesTable m) (img.symbols bytes) :=
    fun bytes => (hm.bpe_rank (img.symbols_fits hlen bytes)).1
  have hsym : ∀ {bytes : List UInt8}, bytes.length ≤ u32Max →
      (img.symbols bytes).length ≤ u32Max := by
    intro bytes hb
    rwa [ByteImage.symbols, List.length_map]
  constructor
  · rintro ⟨model, hmodel, -, hencode⟩ id token hp
    obtain ⟨-, -, m', hm', hcase⟩ := loadIdRanked_ok hmodel
    have hR := reconstructIdMerges_replayed hm'
    have hget : (∀ a b, model.getRank a b ≤ u32Max) ∧ ∀ bytes : List UInt8,
        bpe (rankTable model.getRank) (img.symbols bytes) = bpe (mergesTable m') (img.symbols bytes) := by
      obtain rfl | ⟨t', rfl, ht', -⟩ := hcase
      · exact ⟨mergesRank_le fun _ _ _ hc => (hR.lt_u32Max hc).le, fun _ => rfl⟩
      · exact ⟨ht'.rank_le, fun bytes => (ht'.bpe_rank (img.symbols_fits hlen bytes)).1⟩
    have hshort := img.length_symbols_le (List.mem_of_getElem? hp.1)
    have heq := hencode token (by rwa [ByteImage.symbols, List.length_map] at hshort)
    rw [bpeMergeSymbolsByRank_eq hm.rank_le hshort, bpeMergeSymbolsByRank_eq hget.1 hshort,
      Option.some_inj, htable, hget.2] at heq
    exact heq.trans (hR.bpe_symbols (List.getElem?_eq_some_iff.mp hp.1).1 hp)
  · intro hbpe
    obtain ⟨m', hm', hlookup⟩ := hpre.reconstructIdMerges_ok hbpe
    obtain ⟨model, hmodel, hrank⟩ := loadIdRanked_of_replay hbase hkeys hm' compact
    have hmerges : mergesRank m' = mergesRank m := by
      funext a b
      rw [mergesRank, mergesRank, hlookup]
    have hranks : ∀ a b, a < img.vocab.length → b < img.vocab.length →
        t.rank a b = model.getRank a b := by
      intro a b ha hb
      rw [hrank a b ha hb, hmerges, hm.rank (ha.trans_le hlen) (hb.trans_le hlen)]
    refine ⟨model, hmodel, hranks, fun bytes hb => ?_⟩
    have hle : ∀ a b, model.getRank a b ≤ u32Max := by
      obtain ⟨-, -, m'', hm'', rfl | ⟨t', rfl, ht', -⟩⟩ := loadIdRanked_ok hmodel
      · exact mergesRank_le fun _ _ _ hc =>
          ((reconstructIdMerges_replayed hm'').lt_u32Max hc).le
      · exact ht'.rank_le
    rw [bpeMergeSymbolsByRank_eq hm.rank_le (hsym hb), bpeMergeSymbolsByRank_eq hle (hsym hb)]
    refine congrArg some (bpe_congr (P := (· < img.vocab.length)) (fun a b ha hb => ?_)
      (fun a b ha hb q hq => ?_) fun id hid => ?_)
    · rw [rankTable, rankTable, hranks a b ha hb]
    · have hq' : q ∈ mergesTable m a b := by
        rwa [mergesTable, rankTable, ← hm.rank (ha.trans_le hlen) (hb.trans_le hlen)]
      obtain ⟨c, hc, rfl⟩ := hpre.mem_table.mp hq'
      exact hpre.lt_length hc
    · obtain ⟨b, -, rfl⟩ := List.mem_map.mp hid
      exact img.base_lt b

/-- A product comes after the byte tokens. -/
lemma Product.of_bytes_append {l : List (List UInt8)} {id : TokenId} {token : List UInt8}
    (hp : img.Product id token)
    (hv : img.vocab = (List.range 256).map (fun b => [UInt8.ofNat b]) ++ l) :
    ∃ i, id = 256 + i ∧ l[i]? = some token := by
  obtain ⟨hget, hskip⟩ := hp
  rw [hv] at hget
  rcases Nat.lt_or_ge id 256 with hlt | hge
  · rw [List.getElem?_append_left (by simpa using hlt)] at hget
    obtain ⟨b, -, rfl⟩ := List.mem_map.mp (List.mem_of_getElem? hget)
    simp [ByteImage.skipped] at hskip
  · rw [List.getElem?_append_right (by simpa using hge), List.length_map, List.length_range] at hget
    exact ⟨id - 256, (Nat.add_sub_cancel' hge).symm, hget⟩

/-- `loadPrebuilt_iff` on `abcImage` with the pairs of its replay. -/
theorem loadPrebuilt_abcImage :
    ∃ t model, loadPrebuilt abcImage false (.replay ⟨[(98, 99), (97, 256)]⟩) = .ok t ∧
      loadIdRanked abcImage false false = .ok model ∧ t.rank 97 256 = model.getRank 97 256 := by
  have hbase : validateBase abcImage = .ok () := if_pos (by decide +kernel)
  have hkeys : validateKeySet abcImage.vocab abcImage.specials ∅ = .ok () :=
    validateKeySet_of_nodup (nodup_bytes_append (by decide) (by decide)) _
  obtain ⟨t, ht, -⟩ := eq_ok_of_toOption (f := fun _ => ())
    (x := hydratePrebuilt abcImage false (.replay ⟨[(98, 99), (97, 256)]⟩)) (b := ())
    (by decide +kernel)
  have hload : loadPrebuilt abcImage false (.replay ⟨[(98, 99), (97, 256)]⟩) = .ok t := by
    simp [loadPrebuilt, hbase, hkeys, ht]
  have hbpe : ∀ id token, abcImage.Product id token →
      bpe (pairsTable (PrebuiltPairData.pairs abcImage (.replay ⟨[(98, 99), (97, 256)]⟩)))
        (abcImage.symbols token) = [id] := by
    intro id token hp
    obtain ⟨i, rfl, hi⟩ := Product.of_bytes_append hp (l := [[98, 99], [97, 98, 99]]) rfl
    match i, hi with
    | 0, rfl => decide +kernel
    | 1, rfl => decide +kernel
  obtain ⟨model, hmodel, hrank, -⟩ := (loadPrebuilt_iff abcImage false _ t hload).mpr hbpe
  exact ⟨t, model, hload, hmodel, hrank 97 256 (by decide +kernel) (by decide +kernel)⟩

/-- The bytes, then `ab` (256), `bc` (257) and `abc` (258). -/
def splitImage : ByteImage where
  vocab := (List.range 256).map (fun b => [UInt8.ofNat b]) ++ [[97, 98], [98, 99], [97, 98, 99]]
  base b := b.toNat
  specials := ∅
  vocab_le := by decide +kernel
  arena_le := by decide +kernel
  base_lt b := b.toNat_lt.trans (by simp)

/-- Replay splits `abc` as `ab`, `c`. A section that splits it as `a`, `bc` is accepted, and
`abc` is then encoded as `ab`, `c`. -/
theorem loadPrebuilt_differs :
    ∃ t model, loadPrebuilt splitImage false (.replay ⟨[(97, 98), (98, 99), (97, 257)]⟩) = .ok t ∧
      loadIdRanked splitImage false false = .ok model ∧
      t.rank 97 257 = 258 ∧ model.getRank 97 257 = u32Max ∧
      bpeMergeSymbolsByRank t.rank (splitImage.symbols [97, 98, 99]) = some [256, 99] ∧
      bpeMergeSymbolsByRank model.getRank (splitImage.symbols [97, 98, 99]) = some [258] := by
  have hbase : validateBase splitImage = .ok () := if_pos (by decide +kernel)
  have hkeys : validateKeySet splitImage.vocab splitImage.specials ∅ = .ok () :=
    validateKeySet_of_nodup (nodup_bytes_append (by decide) (by decide)) _
  obtain ⟨t, ht, hrank⟩ := eq_ok_of_toOption
    (f := fun t => (t.rank 97 257, bpeMergeSymbolsByRank t.rank (splitImage.symbols [97, 98, 99])))
    (x := hydratePrebuilt splitImage false (.replay ⟨[(97, 98), (98, 99), (97, 257)]⟩))
    (b := (258, some [256, 99])) (by decide +kernel)
  obtain ⟨o, hmodel, ho⟩ := eq_ok_of_toOption
    (f := fun o => o.map fun t =>
      (t.rank 97 257, bpeMergeSymbolsByRank t.rank (splitImage.symbols [97, 98, 99])))
    (x := reconstructIdPairRanks splitImage false false)
    (b := some (u32Max, some [258])) (by decide +kernel)
  obtain ⟨t', rfl, hrank'⟩ := Option.map_eq_some_iff.mp ho
  simp only [Prod.mk.injEq] at hrank hrank'
  exact ⟨t, .pairRanks t', by simp [loadPrebuilt, hbase, hkeys, ht],
    by simp [loadIdRanked, hbase, hkeys, hmodel], hrank.1, hrank'.1, hrank.2, hrank'.2⟩

end Hypertok
