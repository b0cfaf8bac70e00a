import Hypertok.Bpe.MergeHeap
import Mathlib.Data.List.AList
import Mathlib.Data.Prod.Lex

/-!
The merge with explicit ranks, `bpe_merge_symbols_ranked`: the slice scan for at most
32 symbols, and the heap above.

* `rankedTable`: the merge table of a lookup that gives the token and the rank.
* `bpeMergeSymbolsRanked_eq`: the loop terminates and computes `bpe`.
* `bpeMergeSymbolsRanked_exact`: `bpe` is a sequence of steps, each at the leftmost pair of the
  lowest rank, that ends where no pair has a rank.
-/

namespace Hypertok

open PairMerge Machine

/-- `ranked_merge_key`. -/
def rankedMergeKey (a b : TokenId) : ℕ := a <<< 32 ||| b

/-- `RankedMerges`, `HashMap<u64, (TokenId, u32)>`. -/
abbrev RankedMerges := AList fun _ : ℕ => TokenId × ℕ

/-- The lookup of a pair in the merge map: the token it merges to, and its rank. -/
abbrev RankedGet := TokenId → TokenId → Option (TokenId × ℕ)

/-- `merges.get(&ranked_merge_key(a, b))`. -/
def RankedMerges.pair (merges : RankedMerges) : RankedGet := fun a b =>
  merges.lookup (rankedMergeKey a b)

/-- The merge table of a lookup. -/
def rankedTable (get : RankedGet) : Table ℕ TokenId := fun a b => (get a b).map Prod.swap

/-- `NONE`, an index of 64 bits. -/
def usizeMax : ℕ := 2 ^ 64 - 1

/-- The entries of `bpe_merge_symbols_ranked`: a rank and a position. -/
def rankedHeap (get : RankedGet) : HeapKind (ℕ ×ₗ ℕ) where
  nil := usizeMax
  cast n := n
  entry rank pos := toLex (rank, pos)
  pos entry := (ofLex entry).2
  rank entry := (ofLex entry).1
  push a b := (get a b).map Prod.snd
  check a b rank :=
    match get a b with
    | some (mergedToken, r) => if r = rank then some mergedToken else none
    | none => none
  clearPrev := true

/-- One turn of the collection: push `token[i]`, and on to `next[i]` unless it is
`NONE`. -/
def collectStep (token : List TokenId) (next : List ℕ) :
    List TokenId × ℕ → Option ((List TokenId × ℕ) ⊕ List TokenId)
  | (symbols, i) => do
      let symbols := symbols ++ [← token[i]?]
      let q ← next[i]?
      if q = usizeMax then some (.inr symbols) else some (.inl (symbols, q))

/-- The lookup of the slice scan, `(0, u32::MAX)` for no merge. -/
def rankedOrMax (get : RankedGet) (a b : TokenId) : TokenId × ℕ := (get a b).getD (0, u32Max)

/-- `bpe_merge_symbols_ranked`. -/
def bpeMergeSymbolsRanked (get : RankedGet) (symbols : List TokenId) : Option (List TokenId) :=
  let n := symbols.length
  if n < 2 then some symbols
  else if n ≤ smallMergeMax then do
    let (symbols, newLen) ← bpeMergeSymbolsRankedSlice (rankedOrMax get) symbols
    some (symbols.take newLen)
  else do
    let K := rankedHeap get
    let st ← loop (heapStep K) (3 * n) (heapInit K symbols)
    loop (collectStep st.symbols st.next) (n + 1) ([], 0)

variable {get : RankedGet} {n : ℕ}

lemma rankedTable_eq_some {a b : TokenId} {r c : ℕ} :
    rankedTable get a b = some (r, c) ↔ get a b = some (c, r) := by
  simp only [rankedTable, Option.map_eq_some_iff, Prod.exists, Prod.swap_prod_mk, Prod.mk.injEq]
  constructor
  · rintro ⟨_, _, h, rfl, rfl⟩
    exact h
  · exact fun h => ⟨c, r, h, rfl, rfl⟩

/-- Entries of a rank and a position are lawful for positions below `NONE`. -/
lemma rankedHeap_lawful (get : RankedGet) (hn : n ≤ usizeMax) :
    (rankedHeap get).Lawful (rankedTable get) n where
  pos_entry _ _ _ := rfl
  rank_entry _ _ _ := rfl
  le_iff _ _ _ _ _ _ := Prod.Lex.toLex_le_toLex
  push_eq a b := by
    simp only [rankedHeap, rankedTable, Option.map_map]
    rfl
  check_iff a b r c _ := by
    rw [rankedTable_eq_some]
    simp only [rankedHeap]
    cases get a b with
    | none => simp
    | some q => grind
  cast_eq := rfl
  le_nil := hn

/-- The slots of the slice scan hold the same table, if no rank is the one that stands
for no merge. -/
lemma table_rankedSlot (hget : ∀ a b m r, get a b = some (m, r) → r < u32Max) :
    rankedSlot.table (rankedOrMax get) = rankedTable get := by
  funext a b
  cases h : get a b with
  | none => simp [SlotKind.table, rankedSlot, rankedTable, rankedOrMax, h]
  | some q =>
      simp [SlotKind.table, rankedSlot, rankedTable, rankedOrMax, h, (hget a b q.1 q.2 h).ne,
        Prod.swap]

lemma rank_rankedOrMax_le (hget : ∀ a b m r, get a b = some (m, r) → r ≤ u32Max) (a b : TokenId) :
    rankedSlot.rank (rankedOrMax get a b) ≤ u32Max := by
  rw [rankedOrMax]
  cases h : get a b with
  | none => exact le_rfl
  | some q => exact hget a b q.1 q.2 h

/-- The second loop collects the symbols of the cells. -/
lemma Heaped.collect {T : Table ℕ TokenId} {st : HeapState (ℕ ×ₗ ℕ)}
    {cells : List (ℕ × TokenId)} (h : Heaped (rankedHeap get) T n st cells) (hn : n ≤ usizeMax)
    (hne : cells ≠ []) {k : ℕ} (hk : cells.length < k) :
    Machine.loop (collectStep st.symbols st.next) k ([], 0) = some (cells.map Prod.snd) := by
  obtain ⟨x, vs, rfl⟩ := List.exists_cons_of_ne_nil hne
  suffices h' : ∃ out, Machine.loop (collectStep st.symbols st.next) k ([], 0) = some out ∧
      out = (x :: vs).map Prod.snd by
    obtain ⟨_, hout, rfl⟩ := h'
    exact hout
  refine loop_eq_some (I := fun m s => ∃ us y vs', x :: vs = us ++ y :: vs' ∧ vs'.length + 1 = m ∧
    s = (us.map Prod.snd, y.1)) ?_ ⟨[], x, vs, rfl, rfl, by rw [← h.head]; rfl⟩ hk
  rintro m _ ⟨us, y, vs', hcells, rfl, rfl⟩
  have hsym := h.linked.sym y (by simp [hcells])
  have hnext := h.linked.next us y vs' hcells
  cases vs' with
  | nil =>
      refine .inr ⟨(us ++ [y]).map Prod.snd, ?_, by rw [hcells]⟩
      simp [collectStep, hsym, hnext, rankedHeap]
  | cons z vs' =>
      refine .inl ⟨((us ++ [y]).map Prod.snd, z.1), ?_, vs'.length + 1, by simp, us ++ [y], z, vs',
        by simp [hcells], rfl, rfl⟩
      have hz : z.1 ≠ usizeMax := ((h.lt (by simp [hcells])).trans_le hn).ne
      simp [collectStep, hsym, hnext, hz]

/-- `bpe_merge_symbols_ranked` computes `bpe`. -/
theorem bpeMergeSymbolsRanked_eq (hget : ∀ a b m r, get a b = some (m, r) → r < u32Max)
    {symbols : List TokenId} (hn : symbols.length ≤ usizeMax) :
    bpeMergeSymbolsRanked get symbols = some (bpe (rankedTable get) symbols) := by
  obtain h2 | h2 := lt_or_ge symbols.length 2
  · simp [bpeMergeSymbolsRanked, h2, bpe_of_length_lt_two h2]
  obtain hsmall | hlarge := le_or_gt symbols.length smallMergeMax
  · have hslot := rank_rankedOrMax_le fun a b m r h => (hget a b m r h).le
    obtain ⟨r, hr, -, htake⟩ :=
      scanMerge_eq (S := rankedSlot) hslot (.inl rfl) (by decide) h2 hsmall le_rfl
    rw [List.take_length, table_rankedSlot hget] at htake
    simp only [bpeMergeSymbolsRanked, if_neg (not_lt.mpr h2), if_pos hsmall,
      bpeMergeSymbolsRankedSlice, hr, Option.bind_eq_bind, Option.bind_some, htake]
  · obtain ⟨st, hst, cells, hcells, hne, hlen, hbpe⟩ :=
      heapLoop_eq (rankedHeap_lawful get hn) h2
    have hcollect := hcells.collect hn hne (k := symbols.length + 1) (by omega)
    simp only [bpeMergeSymbolsRanked, if_neg (not_lt.mpr h2), if_neg (not_le.mpr hlarge), hst,
      hcollect, Option.bind_eq_bind, Option.bind_some, hbpe]

/-- Merging with explicit ranks is exact. The pairs may share ranks and products, and the products
are in no order; the symbols are those of a vector, whose length is a `usize`. -/
theorem bpeMergeSymbolsRanked_exact (hget : ∀ a b m r, get a b = some (m, r) → r < u32Max)
    {symbols : List TokenId} (hn : symbols.length ≤ usizeMax) :
    ∃ merged, bpeMergeSymbolsRanked get symbols = some merged ∧
      Steps (rankedTable get) symbols merged ∧ Final (rankedTable get) merged :=
  ⟨_, bpeMergeSymbolsRanked_eq hget hn, bpe_steps _ _, bpe_final _ _⟩

/-- Two pairs of one rank, whose products are lower than their parts. -/
def tiedGet : RankedGet := fun a b =>
  if a = 2 ∧ b = 1 then some (0, 7) else if a = 1 ∧ b = 1 then some (0, 7) else none

theorem bpeMergeSymbolsRanked_tiedGet : ∃ merged,
    bpeMergeSymbolsRanked tiedGet [2, 1, 1, 1] = some merged ∧
      Steps (rankedTable tiedGet) [2, 1, 1, 1] merged ∧ Final (rankedTable tiedGet) merged := by
  refine bpeMergeSymbolsRanked_exact (fun a b m r h => ?_) (by decide)
  rw [tiedGet] at h
  split_ifs at h <;> cases h <;> decide

end Hypertok
