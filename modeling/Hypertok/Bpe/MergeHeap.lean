import Hypertok.Bpe.MergeSmall
import Hypertok.Machine.MinHeap
import Hypertok.Machine.Pack

/-!
The merge loops of any length, `bpe_merge_symbols_by_rank` and
`bpe_merge_symbols_ranked`: a min-heap of entries, each a rank and a position, which
are checked when they are popped and dropped when they are stale, over a linked list
of indices.

The two share one body. `HeapKind` abstracts over how an entry is packed and how a
pair is looked up.

* `Heaped`: the invariant. Every adjacent pair that merges has its entry in the
  heap; the heap may hold others, and every cell off the list points to `NONE`.
* `Heaped.heapStep`: a turn of the loop drops a stale entry or takes a step of
  the reference algorithm.
* `mergeLoops_eq_bpe`: the id-ranked loops terminate and compute `bpe`.
-/

namespace Hypertok

open PairMerge Machine

/-- `pack_merge_entry`. -/
def packMergeEntry (merged : TokenId) (pos : ℕ) : ℕ := merged <<< 32 ||| pos

/-- How a heap merge packs its entries and looks its pairs up. -/
structure HeapKind (ε : Type) where
  /-- `NONE`, the pointer past the ends. -/
  nil : ℕ
  /-- The conversion of the length to the type of a pointer. -/
  cast : ℕ → ℕ
  /-- The entry of a rank and a position. -/
  entry : ℕ → ℕ → ε
  /-- The position of an entry. -/
  pos : ε → ℕ
  /-- The rank of an entry. -/
  rank : ε → ℕ
  /-- The rank under which a pair is pushed, if it merges. -/
  push : TokenId → TokenId → Option ℕ
  /-- The token that a popped pair merges to, if the rank is still that of the pair. -/
  check : TokenId → TokenId → ℕ → Option TokenId
  /-- Whether `prev` of an unlinked cell is cleared as well. -/
  clearPrev : Bool

/-- The entries of `bpe_merge_symbols_by_rank`: packed words, where the rank is the
merged token. -/
def idHeap (getRank : TokenId → TokenId → ℕ) : HeapKind ℕ where
  nil := u32Max
  cast n := n % 2 ^ 32
  entry := packMergeEntry
  pos entry := entry &&& u32Max
  rank entry := entry >>> 32
  push a b := let m := getRank a b; if m ≠ u32Max then some m else none
  check a b expectedMerged :=
    let merged := getRank a b
    if merged = expectedMerged then some merged else none
  clearPrev := false

variable {ε : Type} [LinearOrder ε]

/-- The arrays and the heap of the loop. -/
structure HeapState (ε : Type) [LinearOrder ε] where
  symbols : List TokenId
  next : List ℕ
  prev : List ℕ
  heap : MinHeap ε

/-- The push of the pair `a b` at position `pos`, if it merges. -/
def pushPair (K : HeapKind ε) (a b : TokenId) (pos : ℕ) (heap : MinHeap ε) : MinHeap ε :=
  match K.push a b with
  | some r => heap.push (K.entry r pos)
  | none => heap

/-- The push of the pair at `l` and `r`, of which `neighbor` is the cell that may be
missing. -/
def pushNeighbor (K : HeapKind ε) (symbols : List TokenId) (neighbor l r : ℕ)
    (heap : MinHeap ε) : Option (MinHeap ε) :=
  if neighbor ≠ K.nil then do
    some (pushPair K (← symbols[l]?) (← symbols[r]?) l heap)
  else some heap

/-- The arrays before the first merge, with every pair that merges in the heap. -/
def heapInit (K : HeapKind ε) (symbols : List TokenId) : HeapState ε :=
  let n := K.cast symbols.length
  let ranks := List.zipWith K.push symbols symbols.tail
  { symbols := symbols
    next := List.range' 1 (n - 1) ++ [K.nil]
    prev := K.nil :: List.range (n - 1)
    heap := .ofList (ranks.zipIdx.filterMap fun (m, i) => m.map fun r => K.entry r i) }

/-- The pointer back from `rightRight`, unless it is `NONE`. -/
def relinkHeap (K : HeapKind ε) (rightRight pos : ℕ) (prev : List ℕ) : Option (List ℕ) :=
  if rightRight ≠ K.nil then write prev rightRight pos else some prev

/-- `prev[right] = NONE`, where the loop clears it. -/
def clearPrev (K : HeapKind ε) (right : ℕ) (prev : List ℕ) : Option (List ℕ) :=
  if K.clearPrev then write prev right K.nil else some prev

/-- The merge at `pos` of the element at `right`: the list surgery, and the pushes
of the pairs with the left and the new right neighbour. -/
def heapMerge (K : HeapKind ε) (merged : TokenId) (pos right : ℕ) (st : HeapState ε) :
    Option (HeapState ε) := do
  let symbols ← write st.symbols pos merged
  let rightRight ← st.next[right]?
  let next ← write st.next pos rightRight
  let prev ← relinkHeap K rightRight pos st.prev
  let next ← write next right K.nil
  let prev ← clearPrev K right prev
  let left ← prev[pos]?
  let heap ← pushNeighbor K symbols left left pos st.heap
  let newRight ← next[pos]?
  let heap ← pushNeighbor K symbols newRight pos newRight heap
  some { symbols, next, prev, heap }

/-- One turn of the loop: pop an entry, check it against the current pair, and
merge or skip. -/
def heapStep (K : HeapKind ε) (st : HeapState ε) : Option (HeapState ε ⊕ HeapState ε) :=
  match st.heap.pop with
  | none => some (.inr st)
  | some (entry, heap) => do
      let pos := K.pos entry
      let st := { st with heap }
      let right ← st.next[pos]?
      if right = K.nil then some (.inl st)
      else do
        match K.check (← st.symbols[pos]?) (← st.symbols[right]?) (K.rank entry) with
        | some merged => (heapMerge K merged pos right st).map .inl
        | none => some (.inl st)

/-- One turn of the compaction: `symbols[write] = symbols[i]`, and on to `next[i]`
unless it is `NONE`. -/
def compactHeapStep (next : List ℕ) :
    List TokenId × ℕ × ℕ → Option ((List TokenId × ℕ × ℕ) ⊕ (List TokenId × ℕ))
  | (symbols, w, i) => do
      let symbols ← write symbols w (← symbols[i]?)
      let q ← next[i]?
      if q = u32Max then some (.inr (symbols, w + 1)) else some (.inl (symbols, w + 1, q))

/-- `bpe_merge_symbols_by_rank`. Fewer than `n` entries are in the heap at first, and
each of fewer than `n` merges pushes at most two. -/
def bpeMergeSymbolsByRank (getRank : TokenId → TokenId → ℕ) (symbols : List TokenId) :
    Option (List TokenId) :=
  let n := symbols.length
  if n < 2 then some symbols
  else if n ≤ smallMergeMax then bpeMergeSymbolsSmall getRank symbols
  else do
    let K := idHeap getRank
    let st ← loop (heapStep K) (3 * n) (heapInit K symbols)
    let (symbols, w) ← loop (compactHeapStep st.next) (n + 1) (st.symbols, 0, 0)
    some (symbols.take w)

/-! ### Lawful lookups -/

/-- The entries are ordered by rank and position, and the lookups read the table. -/
structure HeapKind.Lawful (K : HeapKind ε) (T : Table ℕ TokenId) (n : ℕ) : Prop where
  pos_entry : ∀ r p, p < n → K.pos (K.entry r p) = p
  rank_entry : ∀ r p, p < n → K.rank (K.entry r p) = r
  le_iff : ∀ r s p q, p < n → q < n → (K.entry r p ≤ K.entry s q ↔ r < s ∨ r = s ∧ p ≤ q)
  push_eq : ∀ a b, K.push a b = (T a b).map Prod.fst
  check_iff : ∀ a b r c, (∃ a' b' c', T a' b' = some (r, c')) →
    (K.check a b r = some c ↔ T a b = some (r, c))
  cast_eq : K.cast n = n
  le_nil : n ≤ K.nil

lemma rankTable_eq_some {getRank : TokenId → TokenId → ℕ} {a b : TokenId} {r c : ℕ} :
    rankTable getRank a b = some (r, c) ↔
      getRank a b ≠ u32Max ∧ r = getRank a b ∧ c = getRank a b := by
  simp only [rankTable, Option.ite_none_left_eq_some, Option.some.injEq, Prod.mk.injEq]
  exact and_congr_right fun _ => and_congr eq_comm eq_comm

/-- Packed entries are lawful for positions of 32 bits. -/
lemma idHeap_lawful (getRank : TokenId → TokenId → ℕ) {n : ℕ} (hn : n ≤ u32Max) :
    (idHeap getRank).Lawful (rankTable getRank) n := by
  have h32 : ∀ {p : ℕ}, p < n → p < 2 ^ 32 := fun hp => by
    simp only [u32Max] at hn
    omega
  refine ⟨fun r p hp => pack_and (h32 hp) r, fun r p hp => pack_shiftRight (h32 hp) r,
    fun r s p q hp hq => pack_le_iff (h32 hp) (h32 hq), fun a b => ?_, ?_, ?_, hn⟩
  · by_cases hab : getRank a b = u32Max <;> simp [idHeap, rankTable, hab]
  · rintro a b r c ⟨a', b', c', h⟩
    obtain ⟨hr, rfl, -⟩ := rankTable_eq_some.mp h
    rw [rankTable_eq_some]
    simp only [idHeap, Option.ite_none_right_eq_some, Option.some.injEq]
    constructor
    · rintro ⟨hab, rfl⟩
      exact ⟨hab ▸ hr, hab.symm, rfl⟩
    · rintro ⟨-, hab, rfl⟩
      exact ⟨hab.symm, rfl⟩
  · exact Nat.mod_eq_of_lt (by simp only [u32Max] at hn; omega)

section

variable {K : HeapKind ε} {T : Table ℕ TokenId} {n : ℕ} {st : HeapState ε}

lemma HeapKind.Lawful.entry_inj (hK : K.Lawful T n) {r s p q : ℕ} (hp : p < n) (hq : q < n)
    (h : K.entry r p = K.entry s q) : r = s ∧ p = q :=
  ⟨by rw [← hK.rank_entry r p hp, h, hK.rank_entry s q hq],
    by rw [← hK.pos_entry r p hp, h, hK.pos_entry s q hq]⟩

/-! ### Pushes -/

/-- A push keeps the entries, adds the entry of the pair if it merges, and adds no
other. -/
lemma pushNeighbor_spec (hK : K.Lawful T n) (symbols : List TokenId) (k l r : ℕ)
    (heap : MinHeap ε) (h : k ≠ K.nil → ∃ a b, symbols[l]? = some a ∧ symbols[r]? = some b) :
    ∃ heap', pushNeighbor K symbols k l r heap = some heap' ∧
      (∀ e ∈ heap, e ∈ heap') ∧
      (k ≠ K.nil → ∀ a b, symbols[l]? = some a → symbols[r]? = some b →
        ∀ q ∈ T a b, K.entry q.1 l ∈ heap') ∧
      (∀ e ∈ heap', e ∈ heap ∨ k ≠ K.nil ∧ ∃ a b, ∃ q ∈ T a b, e = K.entry q.1 l) ∧
      heap'.size ≤ heap.size + 1 := by
  by_cases hk : k = K.nil
  · exact ⟨heap, by simp [pushNeighbor, hk], by simp [hk]⟩
  · obtain ⟨a, b, ha, hb⟩ := h hk
    refine ⟨pushPair K a b l heap, by simp [pushNeighbor, hk, ha, hb], ?_⟩
    cases hab : T a b with
    | none => simp +contextual [pushPair, hK.push_eq, hab, ha, hb]
    | some q =>
        have hpush : pushPair K a b l heap = heap.push (K.entry q.1 l) := by
          simp only [pushPair, hK.push_eq, hab, Option.map_some]
        simp only [hpush, MinHeap.mem_push, MinHeap.size_push]
        refine ⟨fun e he => .inr he, ?_, ?_, le_rfl⟩
        · intro _ a' b' ha' hb' q' hq'
          cases ha.symm.trans ha'
          cases hb.symm.trans hb'
          cases hab.symm.trans hq'
          exact .inl rfl
        · rintro e (rfl | he)
          · exact .inr ⟨hk, a, b, q, hab, rfl⟩
          · exact .inl he

/-! ### The invariant -/

/-- The arrays hold the cells, and every pair that merges waits in the heap. -/
structure Heaped (K : HeapKind ε) (T : Table ℕ TokenId) (n : ℕ) (st : HeapState ε)
    (cells : List (ℕ × TokenId)) : Prop where
  linked : Linked st.next st.prev st.symbols K.nil K.nil cells
  head : headPos K.nil cells = 0
  size : st.next.length = n
  dead : ∀ p < n, p ∉ cells.map Prod.fst → st.next[p]? = some K.nil
  entry : ∀ e ∈ st.heap, ∃ a b, ∃ q ∈ T a b, ∃ p < n, e = K.entry q.1 p
  pending : ∀ us x y vs, cells = us ++ x :: y :: vs → ∀ q ∈ T x.2 y.2,
    K.entry q.1 x.1 ∈ st.heap

namespace Heaped

variable {us vs cells : List (ℕ × TokenId)} {i d : ℕ} {a b c : TokenId}

lemma lt (h : Heaped K T n st cells) {x : ℕ × TokenId} (hx : x ∈ cells) : x.1 < n := by
  obtain ⟨us, vs, hcells⟩ := List.append_of_mem hx
  exact h.size ▸ (List.getElem?_eq_some_iff.mp (h.linked.next us x vs hcells)).1

/-- A position that points to a cell starts a pair. -/
lemma exists_pair (h : Heaped K T n st cells) {p right : ℕ} (hp : p < n)
    (hright : st.next[p]? = some right) (hne : right ≠ K.nil) :
    ∃ us a b vs, cells = us ++ (p, a) :: (right, b) :: vs := by
  have hmem : p ∈ cells.map Prod.fst := by
    by_contra hp'
    rw [h.dead p hp hp', Option.some_inj] at hright
    exact hne hright.symm
  obtain ⟨⟨_, a⟩, hx, rfl⟩ := List.mem_map.mp hmem
  obtain ⟨us, vs, rfl⟩ := List.append_of_mem hx
  rw [h.linked.next us _ vs rfl, Option.some_inj] at hright
  cases vs with
  | nil => exact absurd hright.symm hne
  | cons y vs => exact ⟨us, a, y.2, vs, by simp [← hright]⟩

/-- A stale entry may be dropped. -/
lemma drop (h : Heaped K T n st cells) {heap : MinHeap ε} {e : ε}
    (hpop : ∀ y, y ∈ st.heap ↔ y = e ∨ y ∈ heap)
    (hstale : ∀ us x y vs, cells = us ++ x :: y :: vs → ∀ q ∈ T x.2 y.2,
      K.entry q.1 x.1 ≠ e) :
    Heaped K T n { st with heap } cells where
  linked := h.linked
  head := h.head
  size := h.size
  dead := h.dead
  entry e he := h.entry e ((hpop e).mpr (.inr he))
  pending us x y vs hx q hq :=
    ((hpop _).mp (h.pending us x y vs hx q hq)).resolve_left (hstale us x y vs hx q hq)

/-- The merge of a pair whose entry has been popped keeps the invariant, and leaves
at most two further entries. -/
theorem heapMerge (h : Heaped K T n st (us ++ (i, a) :: (d, b) :: vs)) (hK : K.Lawful T n)
    {heap : MinHeap ε} {e : ε} (hpop : ∀ y, y ∈ st.heap ↔ y = e ∨ y ∈ heap)
    (he : K.pos e = i) (c : TokenId) :
    ∃ st', heapMerge K c i d { st with heap } = some st' ∧
      Heaped K T n st' (us ++ (i, c) :: vs) ∧ st'.heap.size ≤ heap.size + 2 := by
  have hlt : ∀ x ∈ us ++ (i, a) :: (d, b) :: vs, x.1 < n := fun x => h.lt
  have hid : i ≠ d := (h.linked.lt_of_mem.2 (d, b) (by simp)).ne
  have hnexti : st.next[i]? = some d := h.linked.next us (i, a) _ rfl
  have hnextd : st.next[d]? = some (headPos K.nil vs) :=
    h.linked.next (us ++ [(i, a)]) (d, b) vs (by simp)
  have hprevd : st.prev[d]? = some i := by
    have := h.linked.prev (us ++ [(i, a)]) (d, b) vs (by simp)
    simpa using this
  have hsymi : i < st.symbols.length :=
    (List.getElem?_eq_some_iff.mp (h.linked.sym (i, a) (by simp))).1
  have hunlink := (h.linked.unlink c).set_next (h.linked.off_unlink c) K.nil
  obtain ⟨prev, hclear, hlink⟩ : ∃ prev, clearPrev K d (relink i vs st.prev) = some prev ∧
      Linked ((st.next.set i (headPos K.nil vs)).set d K.nil) prev (st.symbols.set i c)
        K.nil K.nil (us ++ (i, c) :: vs) := by
    by_cases hc : K.clearPrev = true
    · have hd : d < (relink i vs st.prev).length := by
        have := (List.getElem?_eq_some_iff.mp hprevd).1
        cases vs <;> simpa [relink] using this
      exact ⟨_, by rw [clearPrev, if_pos hc, write_of_lt hd],
        hunlink.set_prev (h.linked.off_unlink c) _⟩
    · exact ⟨_, by rw [clearPrev, if_neg hc], hunlink⟩
  have hprev : prev[i]? = some (lastPos K.nil us) := hlink.prev us (i, c) vs rfl
  have hnext : ((st.next.set i (headPos K.nil vs)).set d K.nil)[i]? = some (headPos K.nil vs) :=
    hlink.next us (i, c) vs rfl
  have hsym : (st.symbols.set i c)[i]? = some c := hlink.sym (i, c) (by simp)
  have hlast : ∀ x ∈ us.getLast?, (st.symbols.set i c)[x.1]? = some x.2 := fun x hx =>
    hlink.sym x (by simp [List.mem_of_getLast? hx])
  have hhead : ∀ x ∈ vs.head?, (st.symbols.set i c)[x.1]? = some x.2 := fun x hx =>
    hlink.sym x (by simp [List.mem_of_head? hx])
  obtain ⟨heap₁, hpush₁, hkeep₁, hnew₁, hold₁, hsize₁⟩ :=
    pushNeighbor_spec hK (st.symbols.set i c) (lastPos K.nil us) (lastPos K.nil us) i heap
      fun hk => by
        obtain ⟨x, hx, heq⟩ := exists_of_lastPos_ne hk
        exact ⟨x.2, c, heq ▸ hlast x hx, hsym⟩
  obtain ⟨heap₂, hpush₂, hkeep₂, hnew₂, hold₂, hsize₂⟩ :=
    pushNeighbor_spec hK (st.symbols.set i c) (headPos K.nil vs) i (headPos K.nil vs) heap₁
      fun hk => by
        obtain ⟨x, hx, heq⟩ := exists_of_headPos_ne hk
        exact ⟨c, x.2, hsym, heq ▸ hhead x hx⟩
  have hrelink : relinkHeap K (headPos K.nil vs) i st.prev = some (relink i vs st.prev) := by
    cases vs with
    | nil => simp [relinkHeap]
    | cons y vs =>
        have hy := h.linked.prev (us ++ [(i, a), (d, b)]) y vs (by simp)
        have hne : y.1 ≠ K.nil := ((hlt y (by simp)).trans_le hK.le_nil).ne
        simp [relinkHeap, hne, write_of_getElem? hy]
  refine ⟨⟨st.symbols.set i c, (st.next.set i (headPos K.nil vs)).set d K.nil, prev, heap₂⟩, ?_,
    ⟨hlink, ?_, ?_, ?_, ?_, ?_⟩, ?_⟩
  · have hd : write (st.next.set i (headPos K.nil vs)) d K.nil = some _ :=
      write_of_lt (by simpa using (List.getElem?_eq_some_iff.mp hnextd).1) _
    simp only [Hypertok.heapMerge, write_of_lt hsymi, hnextd, write_of_getElem? hnexti, hrelink,
      hd, hclear, hprev, hpush₁, hnext, hpush₂, Option.bind_eq_bind, Option.bind_some]
  · have := h.head
    cases us <;> simpa using this
  · simpa using h.size
  · intro p hp hoff
    simp only [List.map_append, List.map_cons, List.mem_append, List.mem_cons, not_or] at hoff
    by_cases hpd : p = d
    · subst hpd
      exact List.getElem?_set_self (by simpa using (List.getElem?_eq_some_iff.mp hnextd).1)
    · rw [List.getElem?_set_ne (Ne.symm hpd), List.getElem?_set_ne (Ne.symm hoff.2.1)]
      exact h.dead p hp (by simp [hoff, hpd])
  · intro e' he'
    obtain he' | ⟨-, a', b', q, hq, rfl⟩ := hold₂ e' he'
    · obtain he' | ⟨hk, a', b', q, hq, rfl⟩ := hold₁ e' he'
      · exact h.entry e' ((hpop e').mpr (.inr he'))
      · obtain ⟨x, hx, heq⟩ := exists_of_lastPos_ne hk
        exact ⟨a', b', q, hq, x.1, hlt x (by simp [List.mem_of_getLast? hx]), by rw [heq]⟩
    · exact ⟨a', b', q, hq, i, hlt (i, a) (by simp), rfl⟩
  · intro us' x y vs' hx q hq
    obtain ⟨hxl, rfl⟩ | ⟨rfl, hy⟩ | ⟨⟨hxi, -, -⟩, us'', vs'', hold⟩ := h.linked.pair_unlink hx
    · have hne : x.1 ≠ K.nil :=
        ((hlt x (by simp [List.mem_of_getLast? hxl])).trans_le hK.le_nil).ne
      rw [lastPos_of_getLast? hxl] at hnew₁
      exact hkeep₂ _ (hnew₁ hne x.2 c (hlast x hxl) hsym q hq)
    · have hne : y.1 ≠ K.nil := ((hlt y (by simp [List.mem_of_head? hy])).trans_le hK.le_nil).ne
      rw [headPos_of_head? hy] at hnew₂
      exact hnew₂ hne c y.2 hsym (hhead y hy) q hq
    · have hmem := h.pending us'' x y vs'' hold _ hq
      have hxn : x.1 < n := hlt x (by simp [hold])
      obtain heq | hmem := (hpop _).mp hmem
      · rw [← heq, hK.pos_entry _ _ hxn] at he
        exact absurd he hxi
      · exact hkeep₂ _ (hkeep₁ _ hmem)
  · simp only
    omega

/-- One turn of the loop ends at a final word, drops a stale entry, or takes a step
of the reference algorithm. -/
theorem heapStep (h : Heaped K T n st cells) (hK : K.Lawful T n) :
    (heapStep K st = some (.inr st) ∧ Final T (cells.map Prod.snd)) ∨
      ∃ st' cells', heapStep K st = some (.inl st') ∧ Heaped K T n st' cells' ∧
        (cells' = cells ∧ st'.heap.size < st.heap.size ∨
          Step T (cells.map Prod.snd) (cells'.map Prod.snd) ∧
            st'.heap.size ≤ st.heap.size + 1) := by
  cases hpop : st.heap.pop with
  | none =>
      refine .inl ⟨by simp only [Hypertok.heapStep, hpop], ?_⟩
      refine (List.isChain_map _).mpr (List.isChain_iff_forall_rel_of_append_cons_cons.mpr ?_)
      intro x y us vs hcells
      by_contra hne
      obtain ⟨q, hq⟩ := Option.ne_none_iff_exists'.mp hne
      exact MinHeap.pop_eq_none hpop _ (h.pending us x y vs hcells q hq)
  | some eh =>
      obtain ⟨e, heap⟩ := eh
      obtain ⟨hmem, hmin, hsize⟩ := MinHeap.pop_eq_some hpop
      obtain ⟨a', b', ⟨r, c'⟩, hr, p, hp, rfl⟩ := h.entry e ((hmem e).mpr (.inl rfl))
      have hpos := hK.pos_entry r p hp
      have hrank := hK.rank_entry r p hp
      obtain ⟨right, hright⟩ : ∃ right, st.next[p]? = some right :=
        ⟨_, List.getElem?_eq_getElem (h.size ▸ hp)⟩
      refine .inr ?_
      -- An entry is stale when the pair at its position has another rank.
      have hskip : (∀ us x y vs, cells = us ++ x :: y :: vs → x.1 = p →
            ∀ q ∈ T x.2 y.2, q.1 ≠ r) →
          Heaped K T n { st with heap } cells := fun hstale =>
        h.drop hmem fun us x y vs hx q hq heq => by
          obtain ⟨hqr, hxp⟩ := hK.entry_inj (h.lt (by simp [hx])) hp heq
          exact hstale us x y vs hx hxp q hq hqr
      by_cases hnone : right = K.nil
      · refine ⟨{ st with heap }, cells, ?_, hskip ?_, .inl ⟨rfl, by simp only; omega⟩⟩
        · simp [Hypertok.heapStep, hpop, hpos, hright, hnone]
        · rintro us x y vs hx rfl - -
          rw [h.linked.next us x (y :: vs) hx, Option.some_inj] at hright
          have := h.lt (x := y) (by simp [hx])
          have := hK.le_nil
          simp only [headPos_cons] at hright
          omega
      · obtain ⟨us, a, b, vs, rfl⟩ := h.exists_pair hp hright hnone
        have ha := h.linked.sym (p, a) (by simp)
        have hb := h.linked.sym (right, b) (by simp)
        have hcheck := fun c => hK.check_iff a b r c ⟨a', b', c', hr⟩
        cases hc : K.check a b r with
        | some c =>
            have hab := (hcheck c).mp hc
            obtain ⟨st', hst', hheaped, hsize'⟩ := h.heapMerge hK hmem hpos c
            refine ⟨st', _, ?_, hheaped, .inr ⟨?_, by omega⟩⟩
            · simp [Hypertok.heapStep, hpop, hpos, hrank, hright, hnone, ha, hb, hc, hst']
            · refine step_of_min (r := r) h.linked.increasing hab fun us' x y vs' hx q hq => ?_
              have hxn : x.1 < n := h.lt (by simp [hx])
              exact (hK.le_iff _ _ _ _ hp hxn).mp (hmin _ (h.pending us' x y vs' hx q hq))
        | none =>
            refine ⟨{ st with heap }, _, ?_, hskip ?_, .inl ⟨rfl, by simp only; omega⟩⟩
            · simp [Hypertok.heapStep, hpop, hpos, hrank, hright, hnone, ha, hb, hc]
            · rintro us' x y vs' hx hpx ⟨_, c⟩ hq rfl
              obtain ⟨-, rfl, htail⟩ := h.linked.eq_of_pos hx hpx
              obtain ⟨rfl, -⟩ := by simpa using htail
              cases hc.symm.trans ((hcheck c).mpr hq)

/-- The loop ends with the arrays holding `bpe` of the word. -/
lemma loop (h : Heaped K T n st cells) (hK : K.Lawful T n) {k : ℕ}
    (hk : st.heap.size + 2 * cells.length < k) :
    ∃ st', Machine.loop (Hypertok.heapStep K) k st = some st' ∧
      ∃ cells', Heaped K T n st' cells' ∧ cells'.map Prod.snd = bpe T (cells.map Prod.snd) := by
  refine loop_eq_some (I := fun m st' => ∃ cells', Heaped K T n st' cells' ∧
    st'.heap.size + 2 * cells'.length = m ∧
      Steps T (cells.map Prod.snd) (cells'.map Prod.snd)) ?_
    ⟨cells, h, rfl, .refl⟩ hk
  rintro m st' ⟨cells', h', rfl, hsteps⟩
  obtain ⟨hstop, hfinal⟩ | ⟨st'', cells'', hgo, h'', hmove⟩ := h'.heapStep hK
  · exact .inr ⟨st', hstop, cells', h', (eq_bpe hsteps hfinal).symm⟩
  · refine .inl ⟨st'', hgo, _, ?_, cells'', h'', rfl, ?_⟩
    · obtain ⟨rfl, hsize⟩ | ⟨hstep, hsize⟩ := hmove
      · omega
      · have := hstep.length_eq
        simp only [List.length_map] at this
        omega
    · obtain ⟨rfl, -⟩ | ⟨hstep, -⟩ := hmove
      · exact hsteps
      · exact hsteps.tail hstep

end Heaped

/-! ### The first merge -/

/-- The pairs seeded into the heap are the pairs of the word that merge. -/
lemma mem_heapInit (hK : K.Lawful T n) {symbols : List TokenId} {e : ε} :
    e ∈ (heapInit K symbols).heap ↔ ∃ i a b, symbols[i]? = some a ∧
      symbols[i + 1]? = some b ∧ ∃ q ∈ T a b, e = K.entry q.1 i := by
  simp only [heapInit, MinHeap.mem_ofList, List.mem_filterMap, Prod.exists,
    List.mem_zipIdx_iff_getElem?, List.getElem?_zipWith_eq_some, List.getElem?_tail,
    Option.map_eq_some_iff, hK.push_eq]
  constructor
  · rintro ⟨_, i, ⟨a, b, ha, hb, rfl⟩, r, hr, rfl⟩
    obtain ⟨q, hq, rfl⟩ := Option.map_eq_some_iff.mp hr
    exact ⟨i, a, b, ha, hb, q.1, q.2, hq, rfl⟩
  · rintro ⟨i, a, b, ha, hb, r, c, hq, rfl⟩
    exact ⟨_, i, ⟨a, b, ha, hb, rfl⟩, r, by rw [Option.mem_def.mp hq]; rfl, rfl⟩

lemma size_heapInit_lt (K : HeapKind ε) (symbols : List TokenId) (h : 0 < symbols.length) :
    (heapInit K symbols).heap.size < symbols.length := by
  refine (MinHeap.size_ofList _).trans_lt ((List.length_filterMap_le _ _).trans_lt ?_)
  rw [List.length_zipIdx, List.length_zipWith, List.length_tail]
  omega

/-- The arrays before the first merge hold each symbol at its own position. -/
lemma heaped_init {symbols : List TokenId} (hK : K.Lawful T symbols.length)
    (hpos : 0 < symbols.length) :
    Heaped K T symbols.length (heapInit K symbols) (initCells symbols) := by
  refine ⟨linked_initCells List.prefix_rfl ?_ ?_, headPos_initCells _ hpos, ?_, ?_, ?_, ?_⟩
  · intro i hi
    simp only [heapInit, hK.cast_eq]
    obtain h | h := lt_or_ge (i + 1) symbols.length
    · have hi' : i < symbols.length - 1 := by omega
      rw [if_pos h, List.getElem?_append_left (by simpa using hi')]
      simp [hi', Nat.add_comm]
    · have hi' : i = symbols.length - 1 := by omega
      rw [if_neg (by omega), List.getElem?_append_right (by simp [hi'])]
      simp [hi']
  · intro i hi
    simp only [heapInit, hK.cast_eq]
    cases i with
    | zero => rfl
    | succ i =>
        have hi' : i < symbols.length - 1 := by omega
        simp [hi']
  · simp only [heapInit, hK.cast_eq, List.length_append, List.length_range', List.length_singleton]
    omega
  · intro p hp hoff
    rw [map_fst_initCells, List.mem_range] at hoff
    exact absurd hp hoff
  · intro e he
    obtain ⟨i, a, b, -, hb, q, hq, rfl⟩ := (mem_heapInit hK).mp he
    have := (List.getElem?_eq_some_iff.mp hb).1
    exact ⟨a, b, q, hq, i, by omega, rfl⟩
  · intro us x y vs hcells q hq
    obtain ⟨hx, hx', hy'⟩ := initCells_pair hcells
    exact (mem_heapInit hK).mpr ⟨us.length, x.2, y.2, hx', hy', q, hq, by rw [hx]⟩

/-- The heap loop computes `bpe`. -/
theorem heapLoop_eq {symbols : List TokenId} (hK : K.Lawful T symbols.length)
    (hpos : 2 ≤ symbols.length) :
    ∃ st, loop (heapStep K) (3 * symbols.length) (heapInit K symbols) = some st ∧
      ∃ cells, Heaped K T symbols.length st cells ∧ cells ≠ [] ∧
        cells.length ≤ symbols.length ∧ cells.map Prod.snd = bpe T symbols := by
  have hsize := size_heapInit_lt K symbols (by omega)
  obtain ⟨st, hst, cells, hcells, hbpe⟩ :=
    (heaped_init hK (by omega)).loop hK (k := 3 * symbols.length)
      (by simp only [length_initCells]; omega)
  rw [map_snd_initCells] at hbpe
  have hlen := length_bpe_le T symbols
  rw [← hbpe, List.length_map] at hlen
  refine ⟨st, hst, cells, hcells, ?_, hlen, hbpe⟩
  rintro rfl
  have := hcells.head
  have := hK.le_nil
  simp only [headPos_nil] at *
  omega

end

/-! ### The id-ranked loop -/

/-- The second loop copies the symbols of the cells to the front. -/
lemma Heaped.compact {getRank : TokenId → TokenId → ℕ} {n : ℕ} {st : HeapState ℕ}
    {cells : List (ℕ × TokenId)} (h : Heaped (idHeap getRank) (rankTable getRank) n st cells)
    (hn : n ≤ u32Max) (hne : cells ≠ []) {k : ℕ} (hk : cells.length < k) :
    ∃ r, Machine.loop (compactHeapStep st.next) k (st.symbols, 0, 0) = some r ∧
      r.1.take r.2 = cells.map Prod.snd := by
  obtain ⟨x, vs, rfl⟩ := List.exists_cons_of_ne_nil hne
  refine loop_eq_some (I := fun m s => ∃ us y vs', x :: vs = us ++ y :: vs' ∧ vs'.length + 1 = m ∧
    Compacting s.1 (us.map Prod.snd) (y :: vs') ∧ s.2.1 = us.length ∧ s.2.2 = y.1) ?_
    ⟨[], x, vs, rfl, rfl, h.linked.compacting, rfl, h.head.symm⟩ hk
  rintro m ⟨syms, w, i⟩ ⟨us, y, vs', hcells, rfl, hcomp, rfl, rfl⟩
  have hnext := h.linked.next us y vs' hcells
  have hw : us.length < syms.length := by simpa using hcomp.length_lt
  have hcopy : Compacting (syms.set us.length y.2) ((us ++ [y]).map Prod.snd) vs' := by
    simpa using hcomp.copy
  cases vs' with
  | nil =>
      refine .inr ⟨(syms.set us.length y.2, us.length + 1), ?_, ?_⟩
      · simp [compactHeapStep, hcomp.sym y (by simp), write_of_lt hw, hnext, idHeap]
      · simpa [hcells] using hcopy.take_eq
  | cons z vs' =>
      refine .inl ⟨(syms.set us.length y.2, us.length + 1, z.1), ?_, vs'.length + 1, by simp,
        us ++ [y], z, vs', by simp [hcells], rfl, hcopy, by simp, rfl⟩
      have hz : z.1 ≠ u32Max := ((h.lt (by simp [hcells])).trans_le hn).ne
      simp [compactHeapStep, hcomp.sym y (by simp), write_of_lt hw, hnext, hz]

/-- No pair of fewer than two symbols merges. -/
lemma bpe_of_length_lt_two {T : Table ℕ TokenId} {symbols : List TokenId}
    (h : symbols.length < 2) : bpe T symbols = symbols := by
  match symbols, h with
  | [], _ => rfl
  | [_], _ => rfl

/-- `bpe_merge_symbols_by_rank` computes `bpe`. -/
theorem bpeMergeSymbolsByRank_eq {getRank : TokenId → TokenId → ℕ}
    (hget : ∀ a b, getRank a b ≤ u32Max) {symbols : List TokenId}
    (hn : symbols.length ≤ u32Max) :
    bpeMergeSymbolsByRank getRank symbols = some (bpe (rankTable getRank) symbols) := by
  obtain h2 | h2 := lt_or_ge symbols.length 2
  · simp [bpeMergeSymbolsByRank, h2, bpe_of_length_lt_two h2]
  obtain hsmall | hlarge := le_or_gt symbols.length smallMergeMax
  · simp only [bpeMergeSymbolsByRank, if_neg (not_lt.mpr h2), if_pos hsmall]
    exact bpeMergeSymbolsSmall_eq hget h2 hsmall
  · obtain ⟨st, hst, cells, hcells, hne, hlen, hbpe⟩ := heapLoop_eq (idHeap_lawful getRank hn) h2
    obtain ⟨r, hr, htake⟩ := hcells.compact hn hne (k := symbols.length + 1) (by omega)
    simp only [bpeMergeSymbolsByRank, if_neg (not_lt.mpr h2), if_neg (not_le.mpr hlarge), hst,
      hr, Option.bind_eq_bind, Option.bind_some, htake, hbpe]

/-- Each merge loop of the encoder terminates with the reference result: the loop
for words of any length, and the short one on the first `n` lanes of its stack
array. The table is arbitrary; a product may have a smaller id than its parts. -/
theorem mergeLoops_eq_bpe (getRank : TokenId → TokenId → ℕ)
    (hget : ∀ a b, getRank a b ≤ u32Max) :
    (∀ symbols : List TokenId, symbols.length < 2 ^ 32 - 1 →
      bpeMergeSymbolsByRank getRank symbols = some (bpe (rankTable getRank) symbols)) ∧
    ∀ (lanes : List TokenId) (n : ℕ), lanes.length = shortMergeMax → 2 ≤ n →
      n ≤ shortMergeMax - 1 → ∃ out w,
        bpeMergeSymbolsShortScalar getRank lanes n = some (out, w) ∧
          w = (bpe (rankTable getRank) (lanes.take n)).length ∧
            out.take w = bpe (rankTable getRank) (lanes.take n) := by
  refine ⟨fun symbols hn => bpeMergeSymbolsByRank_eq hget hn.le, fun lanes n hlen h2 hn => ?_⟩
  have hn' : n ≤ shortMergeMax := by omega
  obtain ⟨⟨out, w⟩, hr, hw, htake⟩ :=
    scanMerge_eq (S := idSlot) hget (.inr rfl) (by decide) h2 hn' (hlen ▸ hn')
  exact ⟨out, w, hr, hw, htake⟩

/-- A table whose products are smaller than their parts: `5 5` merges to `3`, and
`3 3` to `1`. -/
def descendingRank (a b : TokenId) : ℕ :=
  if a = 5 ∧ b = 5 then 3 else if a = 3 ∧ b = 3 then 1 else u32Max

/-- `mergeLoops_eq_bpe` on 33 symbols, which take the heap, and on five lanes. -/
theorem mergeLoops_descending :
    bpeMergeSymbolsByRank descendingRank (List.replicate 33 5) =
        some (List.replicate 8 1 ++ [5]) ∧
      ∃ out, bpeMergeSymbolsShortScalar descendingRank (List.replicate 16 5) 5 = some (out, 2) ∧
        out.take 2 = [1, 5] := by
  have hrank : ∀ a b, descendingRank a b ≤ u32Max := fun a b => by
    unfold descendingRank
    split_ifs <;> decide
  have h := mergeLoops_eq_bpe descendingRank hrank
  refine ⟨by rw [h.1 _ (by decide)]; decide, ?_⟩
  obtain ⟨out, w, hout, rfl, htake⟩ := h.2 (List.replicate 16 5) 5 rfl (by decide) (by decide)
  exact ⟨out, hout, htake.trans (by decide)⟩

end Hypertok
