import Hypertok.PairMerge.Linked

/-!
The merge loops that scan for the minimal rank: `bpe_merge_symbols_small`,
`bpe_merge_symbols_short_scalar` and `bpe_merge_symbols_ranked_slice`.

The three share one body. What they keep for the pair that starts at a position
is a slot: the rank alone, which is also the merged token, or the rank and the
token. `SlotKind` abstracts over the two.

* `Scanned`: the invariant. The slots of adjacent cells hold what `get` says,
  and every other slot has rank `u32::MAX`.
* `Scanned.mergeAt`: one merge, with its list surgery, keeps the invariant.
* `scanMerge_eq`: the loop terminates with `bpe` of the word.
-/

namespace Hypertok

open PairMerge Machine

/-- `TokenId(u32)`. -/
abbrev TokenId := ℕ

/-- `u32::MAX`, the rank of a pair that does not merge. -/
def u32Max : ℕ := 2 ^ 32 - 1

/-- The merge table of a pair-rank function, where the rank of a pair is also the
token it merges to. -/
def rankTable (getRank : TokenId → TokenId → ℕ) : Table ℕ TokenId := fun a b =>
  if getRank a b = u32Max then none else some (getRank a b, getRank a b)

/-- What a scan merge stores for the pair that starts at a position. -/
structure SlotKind (σ : Type) where
  /-- The priority; `u32::MAX` when there is no merge. -/
  rank : σ → ℕ
  /-- The token the pair merges to. -/
  token : σ → TokenId
  /-- The slot of a position without a pair. -/
  empty : σ
  /-- `ranks[i] = u32::MAX`. -/
  clear : σ → σ
  rank_empty : rank empty = u32Max
  rank_clear : ∀ s, rank (clear s) = u32Max

/-- The slots of the id-ranked loops: the rank, which is the merged token. -/
def idSlot : SlotKind ℕ where
  rank := id
  token := id
  empty := u32Max
  clear _ := u32Max
  rank_empty := rfl
  rank_clear _ := rfl

/-- The slots of the loops with explicit ranks: `merged[i]` and `ranks[i]`. -/
def rankedSlot : SlotKind (TokenId × ℕ) where
  rank := Prod.snd
  token := Prod.fst
  empty := (0, u32Max)
  clear s := (s.1, u32Max)
  rank_empty := rfl
  rank_clear _ := rfl

variable {σ : Type}

namespace SlotKind

/-- The merge table that a slot lookup stands for. -/
def table (S : SlotKind σ) (get : TokenId → TokenId → σ) : Table ℕ TokenId := fun a b =>
  if S.rank (get a b) = u32Max then none else some (S.rank (get a b), S.token (get a b))

lemma table_idSlot (getRank : TokenId → TokenId → ℕ) :
    idSlot.table getRank = rankTable getRank := rfl

end SlotKind

/-! ### The loops -/

/-- The stack arrays of a scan merge. -/
structure ScanState (σ : Type) where
  symbols : List TokenId
  next : List ℕ
  prev : List ℕ
  slots : List σ

/-- The scan for the minimal rank: the first position with a rank below all ranks
before it and below `best`. -/
def scanMin (best bestI : ℕ) : ℕ → List ℕ → ℕ × ℕ
  | _, [] => (best, bestI)
  | i, rank :: ranks =>
      if rank < best then scanMin rank i (i + 1) ranks else scanMin best bestI (i + 1) ranks

/-- The arrays before the first merge. The pointers are bytes: `next[last]` is `n`
and `prev[0]` wraps to 255. -/
def scanInit (S : SlotKind σ) (get : TokenId → TokenId → σ) (cap n : ℕ)
    (symbols : List TokenId) : ScanState σ where
  symbols := symbols
  next := (List.range cap).map fun i => if i < n then (i + 1) % 256 else 0
  prev := (List.range cap).map fun i => if i < n then (i + 255) % 256 else 0
  slots := List.zipWith get (symbols.take n) (symbols.take n).tail ++
    List.replicate (cap - (n - 1)) S.empty

/-- The refresh of the pair that starts at the merged position `i`, with the
pointer back from `newRight`. -/
def refreshRight (S : SlotKind σ) (get : TokenId → TokenId → σ) (n i newRight : ℕ)
    (symbols : List TokenId) (prev : List ℕ) (slots : List σ) : Option (List ℕ × List σ) :=
  if newRight < n then do
    let prev ← write prev newRight i
    let slots ← write slots i (get (← symbols[i]?) (← symbols[newRight]?))
    some (prev, slots)
  else do
    let slots ← write slots i (S.clear (← slots[i]?))
    some (prev, slots)

/-- The refresh of the pair that ends at the merged position `i`. -/
def refreshLeft (get : TokenId → TokenId → σ) (n i left : ℕ) (symbols : List TokenId)
    (slots : List σ) : Option (List σ) :=
  if left < n then do
    write slots left (get (← symbols[left]?) (← symbols[i]?))
  else some slots

/-- One merge at position `i`: write the token, unlink the right element, refresh
the two pairs that touch the merged symbol. -/
def mergeAt (S : SlotKind σ) (get : TokenId → TokenId → σ) (n i : ℕ) (st : ScanState σ) :
    Option (ScanState σ) := do
  let symbols ← write st.symbols i (S.token (← st.slots[i]?))
  let dead ← st.next[i]?
  let newRight ← st.next[dead]?
  let next ← write st.next i newRight
  let slots ← write st.slots dead (S.clear (← st.slots[dead]?))
  let (prev, slots) ← refreshRight S get n i newRight symbols st.prev slots
  let left ← prev[i]?
  let slots ← refreshLeft get n i left symbols slots
  some { symbols, next, prev, slots }

/-- `mergeAt` as the short merge writes it, with `left` read before the surgery. -/
def mergeAtShort (S : SlotKind σ) (get : TokenId → TokenId → σ) (n i : ℕ) (st : ScanState σ) :
    Option (ScanState σ) := do
  let dead ← st.next[i]?
  let newRight ← st.next[dead]?
  let left ← st.prev[i]?
  let symbols ← write st.symbols i (S.token (← st.slots[i]?))
  let next ← write st.next i newRight
  let slots ← write st.slots dead (S.clear (← st.slots[dead]?))
  let (prev, slots) ← refreshRight S get n i newRight symbols st.prev slots
  let slots ← refreshLeft get n i left symbols slots
  some { symbols, next, prev, slots }

/-- One turn of the loop: scan, and merge or stop. -/
def scanStep (S : SlotKind σ) (mergeAt : ℕ → ScanState σ → Option (ScanState σ)) (n : ℕ)
    (st : ScanState σ) : Option (ScanState σ ⊕ ScanState σ) :=
  let found := scanMin u32Max 0 0 ((st.slots.take (n - 1)).map S.rank)
  if found.1 = u32Max then some (.inr st) else (mergeAt found.2 st).map .inl

/-- One turn of the compaction: `symbols[write] = symbols[i]`, and on to `next[i]`. -/
def compactStep (n : ℕ) (next : List ℕ) :
    List TokenId × ℕ × ℕ → Option ((List TokenId × ℕ × ℕ) ⊕ (List TokenId × ℕ))
  | (symbols, w, i) =>
      if i < n then do
        let symbols ← write symbols w (← symbols[i]?)
        some (.inl (symbols, w + 1, ← next[i]?))
      else some (.inr (symbols, w))

/-- The merge of the first `n` symbols, on stack arrays of size `cap`: the array
and the number of symbols left. Each turn of the first loop removes a symbol, and
the second loop visits each position at most once. -/
def scanMerge (S : SlotKind σ) (get : TokenId → TokenId → σ)
    (mergeAt : ℕ → ScanState σ → Option (ScanState σ)) (cap : ℕ) (symbols : List TokenId)
    (n : ℕ) : Option (List TokenId × ℕ) := do
  guard (2 ≤ n ∧ n ≤ cap)
  let st ← loop (scanStep S mergeAt n) (n + 1) (scanInit S get cap n symbols)
  loop (compactStep n st.next) (n + 1) (st.symbols, 0, 0)

/-- `SMALL_MERGE_MAX`. -/
def smallMergeMax : ℕ := 32

/-- `SHORT_MERGE_MAX`. -/
def shortMergeMax : ℕ := 16

/-- `bpe_merge_symbols_small`: truncates to the symbols left. -/
def bpeMergeSymbolsSmall (getRank : TokenId → TokenId → ℕ) (symbols : List TokenId) :
    Option (List TokenId) := do
  let n := symbols.length
  let (symbols, w) ←
    scanMerge idSlot getRank (mergeAt idSlot getRank n) smallMergeMax symbols n
  some (symbols.take w)

/-- `bpe_merge_symbols_short_scalar`: the array, with the symbols left in front,
and their number. -/
def bpeMergeSymbolsShortScalar (getRank : TokenId → TokenId → ℕ) (symbols : List TokenId)
    (n : ℕ) : Option (List TokenId × ℕ) :=
  scanMerge idSlot getRank (mergeAtShort idSlot getRank n) shortMergeMax symbols n

/-- `bpe_merge_symbols_ranked_slice`, where `get` looks a pair up in the merge
map. -/
def bpeMergeSymbolsRankedSlice (get : TokenId → TokenId → TokenId × ℕ) (symbols : List TokenId) :
    Option (List TokenId × ℕ) :=
  let n := symbols.length
  scanMerge rankedSlot get (mergeAt rankedSlot get n) smallMergeMax symbols n

/-! ### The scan -/

/-- The scan finds the leftmost minimal rank below `best`, or nothing. -/
lemma scanMin_spec (ranks : List ℕ) (best bestI i : ℕ) :
    (scanMin best bestI i ranks = (best, bestI) ∧ ∀ r ∈ ranks, best ≤ r) ∨
      ∃ us r vs, ranks = us ++ r :: vs ∧ scanMin best bestI i ranks = (r, i + us.length) ∧
        r < best ∧ (∀ q ∈ us, r < q) ∧ ∀ q ∈ vs, r ≤ q := by
  induction ranks generalizing best bestI i with
  | nil => simp [scanMin]
  | cons rank ranks ih =>
      by_cases hlt : rank < best
      · simp only [scanMin, if_pos hlt]
        obtain ⟨heq, hle⟩ | ⟨us, r, vs, rfl, heq, hr, hus, hvs⟩ := ih rank i (i + 1)
        · exact .inr ⟨[], rank, ranks, rfl, heq, hlt, by simp, hle⟩
        · exact .inr ⟨rank :: us, r, vs, rfl, by rw [heq]; simp; omega, hr.trans hlt,
            by simpa using ⟨hr, hus⟩, hvs⟩
      · simp only [scanMin, if_neg hlt]
        obtain ⟨heq, hle⟩ | ⟨us, r, vs, rfl, heq, hr, hus, hvs⟩ := ih best bestI (i + 1)
        · exact .inl ⟨heq, by simpa using ⟨by omega, hle⟩⟩
        · exact .inr ⟨rank :: us, r, vs, rfl, by rw [heq]; simp; omega, hr,
            by simpa using ⟨by omega, hus⟩, hvs⟩

/-- The scan from position 0, in terms of positions. -/
lemma scanMin_zero (ranks : List ℕ) (best bestI : ℕ) :
    (scanMin best bestI 0 ranks = (best, bestI) ∧ ∀ r ∈ ranks, best ≤ r) ∨
      ∃ i r, scanMin best bestI 0 ranks = (r, i) ∧ r < best ∧ ranks[i]? = some r ∧
        ∀ j q, ranks[j]? = some q → r < q ∨ r = q ∧ i ≤ j := by
  obtain h | ⟨us, r, vs, rfl, heq, hr, hus, hvs⟩ := scanMin_spec ranks best bestI 0
  · exact .inl h
  · refine .inr ⟨us.length, r, by rw [heq]; simp, hr, by simp, fun j q hq => ?_⟩
    obtain hj | hj := lt_or_ge j us.length
    · rw [List.getElem?_append_left hj] at hq
      exact .inl (hus q (List.mem_of_getElem? hq))
    · rw [List.getElem?_append_right hj] at hq
      obtain rfl | hq := List.mem_cons.mp (List.mem_of_getElem? hq)
      · exact .inr ⟨rfl, hj⟩
      · exact (hvs q hq).lt_or_eq.imp_right fun h => ⟨h, hj⟩

/-! ### The invariant -/

variable {S : SlotKind σ} {get : TokenId → TokenId → σ} {n : ℕ} {st : ScanState σ}

/-- The arrays hold the cells, the slots of adjacent cells hold what `get` says of
their symbols, and no other slot holds a merge. -/
structure Scanned (S : SlotKind σ) (get : TokenId → TokenId → σ) (n : ℕ) (st : ScanState σ)
    (cells : List (ℕ × TokenId)) : Prop where
  linked : Linked st.next st.prev st.symbols 255 n cells
  lt : ∀ x ∈ cells, x.1 < n
  head : headPos n cells = 0
  size : n ≤ st.slots.length
  pair : ∀ us x y vs, cells = us ++ x :: y :: vs → st.slots[x.1]? = some (get x.2 y.2)
  idle : ∀ j s, st.slots[j]? = some s → S.rank s ≠ u32Max → j ∈ cells.dropLast.map Prod.fst

namespace Scanned

variable {us vs cells : List (ℕ × TokenId)} {i d a b : ℕ}

/-- What a merge at `i` does to the cells, given the slots it leaves. -/
lemma unlink (h : Scanned S get n st (us ++ (i, a) :: (d, b) :: vs)) (c : TokenId)
    {slots : List σ} (hsize : slots.length = st.slots.length)
    (hother : ∀ j, j ≠ i → j ≠ d → (∀ x ∈ us.getLast?, x.1 ≠ j) → slots[j]? = st.slots[j]?)
    (hdead : ∀ s, slots[d]? = some s → S.rank s = u32Max)
    (hleft : ∀ x ∈ us.getLast?, slots[x.1]? = some (get x.2 c))
    (hright : ∀ y ∈ vs.head?, slots[i]? = some (get c y.2))
    (hlast : vs = [] → ∀ s, slots[i]? = some s → S.rank s = u32Max) :
    Scanned S get n
      { symbols := st.symbols.set i c, next := st.next.set i (headPos n vs),
        prev := relink i vs st.prev, slots := slots } (us ++ (i, c) :: vs) := by
  refine ⟨h.linked.unlink c, ?_, ?_, hsize ▸ h.size, ?_, ?_⟩
  · intro x hx
    simp only [List.mem_append, List.mem_cons] at hx
    obtain hx | rfl | hx := hx
    · exact h.lt x (by simp [hx])
    · exact h.lt (i, a) (by simp)
    · exact h.lt x (by simp [hx])
  · have := h.head
    cases us <;> simpa using this
  · intro us' x y vs' hx
    obtain ⟨hxl, rfl⟩ | ⟨rfl, hy⟩ | ⟨⟨hxi, hxd, hxl⟩, us'', vs'', hold⟩ := h.linked.pair_unlink hx
    · exact hleft x hxl
    · exact hright y hy
    · rw [hother x.1 hxi hxd hxl]
      exact h.pair us'' x y vs'' hold
  · intro j s hs hrank
    by_cases hji : j = i
    · subst hji
      cases vs with
      | nil => exact absurd (hlast rfl s hs) hrank
      | cons y vs => simp
    by_cases hjd : j = d
    · exact absurd (hdead s (hjd ▸ hs)) hrank
    by_cases hjl : ∃ x ∈ us.getLast?, x.1 = j
    · obtain ⟨x, hx, rfl⟩ := hjl
      have := List.mem_of_getLast? hx
      simp only [List.dropLast_append_cons, List.map_append, List.mem_append]
      exact .inl (List.mem_map_of_mem this)
    · rw [hother j hji hjd fun x hx hxj => hjl ⟨x, hx, hxj⟩] at hs
      have := h.idle j s hs hrank
      cases vs <;> simp_all

end Scanned

/-! ### One merge -/

variable {us vs : List (ℕ × TokenId)} {i d : ℕ} {a b c : TokenId}

/-- The refresh on the right writes the slot of `i` only. -/
lemma refreshRight_spec (S : SlotKind σ) (get : TokenId → TokenId → σ) {symbols : List TokenId}
    {prev : List ℕ} {slots : List σ} (hi : i < slots.length) (hsym : symbols[i]? = some c)
    (hvs : ∀ y ∈ vs.head?, y.1 < n ∧ y.1 < prev.length ∧ symbols[y.1]? = some y.2) :
    ∃ slots', refreshRight S get n i (headPos n vs) symbols prev slots =
        some (relink i vs prev, slots') ∧ slots'.length = slots.length ∧
      (∀ j, j ≠ i → slots'[j]? = slots[j]?) ∧
      (∀ y ∈ vs.head?, slots'[i]? = some (get c y.2)) ∧
      (vs = [] → ∀ s, slots'[i]? = some s → S.rank s = u32Max) := by
  cases vs with
  | nil =>
      refine ⟨slots.set i (S.clear slots[i]), ?_, by simp, ?_, by simp, ?_⟩
      · simp [refreshRight, hi, write_of_lt]
      · exact fun j hj => List.getElem?_set_ne hj.symm
      · intro _ s hs
        rw [List.getElem?_set_self hi, Option.some_inj] at hs
        exact hs ▸ S.rank_clear _
  | cons y vs =>
      obtain ⟨hyn, hyp, hys⟩ := hvs y rfl
      refine ⟨slots.set i (get c y.2), ?_, by simp, ?_, ?_, by simp⟩
      · simp [refreshRight, hi, hyn, hyp, hys, hsym, write_of_lt]
      · exact fun j hj => List.getElem?_set_ne hj.symm
      · rintro _ ⟨⟩
        exact List.getElem?_set_self hi

/-- The refresh on the left writes the slot of the left neighbour only. -/
lemma refreshLeft_spec (get : TokenId → TokenId → σ) {symbols : List TokenId} {slots : List σ}
    (hn : n ≤ 255)
    (hsym : symbols[i]? = some c)
    (hus : ∀ x ∈ us.getLast?, x.1 < n ∧ x.1 < slots.length ∧ symbols[x.1]? = some x.2) :
    ∃ slots', refreshLeft get n i (lastPos 255 us) symbols slots = some slots' ∧
      slots'.length = slots.length ∧
      (∀ j, (∀ x ∈ us.getLast?, x.1 ≠ j) → slots'[j]? = slots[j]?) ∧
      ∀ x ∈ us.getLast?, slots'[x.1]? = some (get x.2 c) := by
  rcases List.eq_nil_or_concat us with rfl | ⟨us, x, rfl⟩
  · exact ⟨slots, by simp [refreshLeft, Nat.not_lt.mpr hn], rfl, fun _ _ => rfl, by simp⟩
  · obtain ⟨hxn, hxs, hx⟩ := hus x (by simp)
    refine ⟨slots.set x.1 (get x.2 c), ?_, by simp, ?_, ?_⟩
    · simp [refreshLeft, hxn, hxs, hx, hsym, write_of_lt]
    · exact fun j hj => List.getElem?_set_ne (hj x (by simp))
    · intro z hz
      obtain rfl : x = z := by simpa using hz
      exact List.getElem?_set_self hxs

/-- One merge keeps the invariant, and reading `left` early makes no difference. -/
theorem Scanned.mergeAt (h : Scanned S get n st (us ++ (i, a) :: (d, b) :: vs)) (hn : n ≤ 255) :
    ∃ st', mergeAt S get n i st = some st' ∧ mergeAtShort S get n i st = some st' ∧
      Scanned S get n st' (us ++ (i, S.token (get a b)) :: vs) := by
  set c := S.token (get a b)
  have hlink := h.linked.unlink c
  have hslot : st.slots[i]? = some (get a b) := h.pair us (i, a) (d, b) vs rfl
  have hi : st.next[i]? = some d := h.linked.next us (i, a) _ rfl
  have hd : st.next[d]? = some (headPos n vs) := h.linked.next (us ++ [(i, a)]) (d, b) vs (by simp)
  have hprev : st.prev[i]? = some (lastPos 255 us) := h.linked.prev us (i, a) _ rfl
  have hprev' : (relink i vs st.prev)[i]? = some (lastPos 255 us) := hlink.prev us (i, c) vs rfl
  have hsymi : i < st.symbols.length :=
    (List.getElem?_eq_some_iff.mp (h.linked.sym (i, a) (by simp))).1
  have hid : i ≠ d := (h.linked.lt_of_mem.2 (d, b) (by simp)).ne
  have hdlen : d < st.slots.length := (h.lt (d, b) (by simp)).trans_le h.size
  -- the three writes to the slots, in the order of the source
  let slots₁ := st.slots.set d (S.clear st.slots[d])
  have hslots₁ : slots₁.length = st.slots.length := List.length_set
  have hvs : ∀ y ∈ vs.head?, y.1 < n ∧ y.1 < st.prev.length ∧
      (st.symbols.set i c)[y.1]? = some y.2 := by
    intro y hy
    obtain ⟨vs, rfl⟩ := List.head?_eq_some_iff.mp hy
    have := h.linked.prev (us ++ [(i, a), (d, b)]) y vs (by simp)
    exact ⟨h.lt y (by simp), (List.getElem?_eq_some_iff.mp this).1, hlink.sym y (by simp)⟩
  obtain ⟨slots₂, hright, hlen₂, hother₂, hhead, hlast⟩ :=
    refreshRight_spec S get (hslots₁ ▸ (h.lt (i, a) (by simp)).trans_le h.size)
      (hlink.sym (i, c) (by simp)) hvs
  have hus : ∀ x ∈ us.getLast?, x.1 < n ∧ x.1 < slots₂.length ∧
      (st.symbols.set i c)[x.1]? = some x.2 := by
    intro x hx
    have hmem := List.mem_of_getLast? hx
    have hlt := h.lt x (by simp [hmem])
    exact ⟨hlt, by rw [hlen₂, hslots₁]; exact hlt.trans_le h.size, hlink.sym x (by simp [hmem])⟩
  obtain ⟨slots₃, hleft, hlen₃, hother₃, hpair⟩ :=
    refreshLeft_spec get hn (hlink.sym (i, c) (by simp)) hus
  have hne : ∀ x ∈ us.getLast?, x.1 ≠ i ∧ x.1 ≠ d := fun x hx => by
    have hxi := h.linked.lt_of_mem.1 x (List.mem_of_getLast? hx)
    have := h.linked.lt_of_mem.2 (d, b) (by simp)
    exact ⟨hxi.ne, (hxi.trans this).ne⟩
  refine ⟨_, ?_, ?_, h.unlink c ?_ ?_ ?_ hpair ?_ ?_⟩
  · simp [Hypertok.mergeAt, hslot, hi, hd, write_of_getElem? hi, write_of_lt hsymi,
      write_of_lt hdlen, hdlen, hright, hprev', hleft, slots₁, c]
  · simp [mergeAtShort, hslot, hi, hd, write_of_getElem? hi, write_of_lt hsymi,
      write_of_lt hdlen, hdlen, hright, hprev, hleft, slots₁, c]
  · simp [hlen₃, hlen₂, slots₁]
  · intro j hji hjd hj
    rw [hother₃ j hj, hother₂ j hji, List.getElem?_set_ne (Ne.symm hjd)]
  · intro s hs
    rw [hother₃ d fun x hx => (hne x hx).2, hother₂ d (Ne.symm hid),
      List.getElem?_set_self hdlen, Option.some_inj] at hs
    exact hs ▸ S.rank_clear _
  · intro y hy
    rw [hother₃ i fun x hx => (hne x hx).1]
    exact hhead y hy
  · intro hvs s hs
    rw [hother₃ i fun x hx => (hne x hx).1] at hs
    exact hlast hvs s hs

/-! ### The loop -/

variable {cells : List (ℕ × TokenId)}

/-- The rank of an adjacent pair is one of those scanned. -/
lemma Scanned.rank_getElem? (h : Scanned S get n st cells) {us vs : List (ℕ × TokenId)}
    {x y : ℕ × TokenId} (hcells : cells = us ++ x :: y :: vs) :
    ((st.slots.take (n - 1)).map S.rank)[x.1]? = some (S.rank (get x.2 y.2)) := by
  have hxy : x.1 < y.1 := (hcells ▸ h.linked).lt_of_mem.2 y (by simp)
  have hyn : y.1 < n := h.lt y (by simp [hcells])
  rw [List.getElem?_map, List.getElem?_take_of_lt (by omega), h.pair us x y vs hcells]
  rfl

/-- A position with a rank below `u32::MAX` starts a pair. -/
lemma Scanned.exists_pair (h : Scanned S get n st cells) {i r : ℕ}
    (hr : ((st.slots.take (n - 1)).map S.rank)[i]? = some r) (hmax : r ≠ u32Max) :
    ∃ us a d b vs, cells = us ++ (i, a) :: (d, b) :: vs ∧ r = S.rank (get a b) := by
  rw [List.getElem?_map, Option.map_eq_some_iff] at hr
  obtain ⟨s, hs, rfl⟩ := hr
  have hslot : st.slots[i]? = some s := by
    rw [List.getElem?_take] at hs
    exact (Option.ite_none_right_eq_some.mp hs).2
  obtain ⟨⟨_, a⟩, hx, rfl⟩ := List.mem_map.mp (h.idle i s hslot hmax)
  obtain ⟨us, ⟨d, b⟩, vs, hcells⟩ := exists_append_of_mem_dropLast hx
  refine ⟨us, a, d, b, vs, hcells, ?_⟩
  rw [h.pair us _ _ vs hcells, Option.some_inj] at hslot
  rw [← hslot]

/-- One turn of the loop stops at a final word or takes a step of the reference
algorithm. -/
theorem Scanned.scanStep (h : Scanned S get n st cells) (hn : n ≤ 255)
    (hget : ∀ a b, S.rank (get a b) ≤ u32Max) {merge : ℕ → ScanState σ → Option (ScanState σ)}
    (hmerge : merge = Hypertok.mergeAt S get n ∨ merge = mergeAtShort S get n) :
    (scanStep S merge n st = some (.inr st) ∧ Final (S.table get) (cells.map Prod.snd)) ∨
      ∃ st' cells', scanStep S merge n st = some (.inl st') ∧ Scanned S get n st' cells' ∧
        Step (S.table get) (cells.map Prod.snd) (cells'.map Prod.snd) := by
  obtain ⟨hfound, hall⟩ | ⟨i, r, hfound, hlt, hr, hmin⟩ :=
    scanMin_zero ((st.slots.take (n - 1)).map S.rank) u32Max 0
  · refine .inl ⟨by simp only [Hypertok.scanStep, hfound, if_true], ?_⟩
    refine (List.isChain_map _).mpr (List.isChain_iff_forall_rel_of_append_cons_cons.mpr ?_)
    intro x y us vs hcells
    have := hall _ (List.mem_of_getElem? (h.rank_getElem? hcells))
    simp [SlotKind.table, le_antisymm (hget x.2 y.2) this]
  · obtain ⟨us, a, d, b, vs, rfl, rfl⟩ := h.exists_pair hr hlt.ne
    obtain ⟨st', hst, hst', hscan⟩ := h.mergeAt hn
    refine .inr ⟨st', _, ?_, hscan, step_of_min (r := S.rank (get a b))
      h.linked.increasing ?_ fun us' x y vs' hx q hq => ?_⟩
    · obtain rfl | rfl := hmerge <;>
        simp only [Hypertok.scanStep, hfound, hlt.ne, hst, hst', if_false, Option.map_some]
    · simp [SlotKind.table, hlt.ne]
    · have hq' : q.1 = S.rank (get x.2 y.2) := by
        simp only [SlotKind.table, Option.mem_def, Option.ite_none_left_eq_some,
          Option.some.injEq] at hq
        simp [← hq.2]
      exact hmin x.1 q.1 (by rw [h.rank_getElem? hx, hq'])

/-- The first loop ends with the arrays holding `bpe` of the word. -/
lemma Scanned.loop (h : Scanned S get n st cells) (hn : n ≤ 255)
    (hget : ∀ a b, S.rank (get a b) ≤ u32Max) {merge : ℕ → ScanState σ → Option (ScanState σ)}
    (hmerge : merge = Hypertok.mergeAt S get n ∨ merge = mergeAtShort S get n) {k : ℕ}
    (hk : cells.length < k) :
    ∃ st', Machine.loop (Hypertok.scanStep S merge n) k st = some st' ∧
      ∃ cells', Scanned S get n st' cells' ∧
        cells'.map Prod.snd = bpe (S.table get) (cells.map Prod.snd) := by
  refine loop_eq_some (I := fun m st' => ∃ cells', Scanned S get n st' cells' ∧
    cells'.length = m ∧ Steps (S.table get) (cells.map Prod.snd) (cells'.map Prod.snd)) ?_
    ⟨cells, h, rfl, .refl⟩ hk
  rintro m st' ⟨cells', h', rfl, hsteps⟩
  obtain ⟨hstop, hfinal⟩ | ⟨st'', cells'', hgo, h'', hstep⟩ := h'.scanStep hn hget hmerge
  · exact .inr ⟨st', hstop, cells', h', (eq_bpe hsteps hfinal).symm⟩
  · have hlen := hstep.length_eq
    simp only [List.length_map] at hlen
    exact .inl ⟨st'', hgo, cells''.length, by omega, cells'', h'', rfl, hsteps.tail hstep⟩

/-- The arrays before the first merge hold each symbol at its own position. -/
lemma scanned_init {cap : ℕ} {symbols : List TokenId} (hpos : 0 < n) (hn : n ≤ symbols.length)
    (hcap : n ≤ cap) (hsmall : cap < 255) :
    Scanned S get n (scanInit S get cap n symbols) (initCells (symbols.take n)) := by
  have hlen : (symbols.take n).length = n := by simpa using hn
  have hzip : (List.zipWith get (symbols.take n) (symbols.take n).tail).length = n - 1 := by
    simp only [List.length_zipWith, List.length_tail, hlen]
    omega
  refine ⟨linked_initCells (List.take_prefix _ _) ?_ ?_, ?_, ?_, ?_, ?_, ?_⟩
  · intro i hi
    rw [hlen] at hi ⊢
    have : i < cap := by omega
    simp only [scanInit, List.getElem?_map, List.getElem?_range this, Option.map_some, if_pos hi]
    split <;> simp <;> omega
  · intro i hi
    rw [hlen] at hi
    have : i < cap := by omega
    simp only [scanInit, List.getElem?_map, List.getElem?_range this, Option.map_some, if_pos hi]
    split <;> simp <;> omega
  · intro x hx
    have := List.mem_map_of_mem (f := Prod.fst) hx
    rw [map_fst_initCells, hlen] at this
    exact List.mem_range.mp this
  · exact headPos_initCells n (by omega)
  · simp only [scanInit, List.length_append, List.length_replicate, hzip]
    omega
  · intro us x y vs h
    obtain ⟨hx, hx', hy'⟩ := initCells_pair h
    have hlt : us.length + 1 < n := hlen ▸ (List.getElem?_eq_some_iff.mp hy').1
    rw [hx, scanInit, List.getElem?_append_left (by omega), List.getElem?_zipWith, hx',
      List.getElem?_tail, hy']
  · intro j s hs hrank
    refine mem_dropLast_initCells ?_
    by_contra hj
    rw [scanInit, List.getElem?_append_right (by omega)] at hs
    exact hrank ((List.eq_of_mem_replicate (List.mem_of_getElem? hs)) ▸ S.rank_empty)

/-- The second loop copies the symbols of the cells to the front. -/
lemma compact_loop {next prev : List ℕ} {symbols : List TokenId}
    (h : Linked next prev symbols 255 n cells) (hlt : ∀ x ∈ cells, x.1 < n) {k : ℕ}
    (hk : cells.length < k) (hhead : headPos n cells = 0) :
    ∃ r, Machine.loop (compactStep n next) k (symbols, 0, 0) = some r ∧
      r.2 = cells.length ∧ r.1.take r.2 = cells.map Prod.snd := by
  refine loop_eq_some (I := fun m s => ∃ us vs, cells = us ++ vs ∧ vs.length = m ∧
    Compacting s.1 (us.map Prod.snd) vs ∧ s.2.1 = us.length ∧ s.2.2 = headPos n vs) ?_
    ⟨[], cells, rfl, rfl, h.compacting, rfl, hhead.symm⟩ hk
  rintro m ⟨syms, w, i⟩ ⟨us, vs, hcells, rfl, hcomp, rfl, rfl⟩
  cases vs with
  | nil =>
      refine .inr ⟨(syms, us.length), by simp [compactStep], by simp [hcells], ?_⟩
      simpa [hcells] using hcomp.take_eq
  | cons x vs =>
      have hnext := h.next us x vs hcells
      refine .inl ⟨(syms.set us.length x.2, us.length + 1, headPos n vs), ?_, vs.length, by simp,
        us ++ [x], vs, by simp [hcells], rfl, by simpa using hcomp.copy, by simp, rfl⟩
      have hw := hcomp.length_lt
      rw [List.length_map] at hw
      simp [compactStep, hlt x (by simp [hcells]), hcomp.sym x (by simp), write_of_lt hw, hnext]

/-- A scan merge terminates, and leaves `bpe` of the first `n` symbols in front. -/
theorem scanMerge_eq (hget : ∀ a b, S.rank (get a b) ≤ u32Max)
    {merge : ℕ → ScanState σ → Option (ScanState σ)}
    (hmerge : merge = Hypertok.mergeAt S get n ∨ merge = mergeAtShort S get n)
    {cap : ℕ} (hcap : cap < 255) {symbols : List TokenId} (h2 : 2 ≤ n) (hn : n ≤ cap)
    (hlen : n ≤ symbols.length) :
    ∃ r, scanMerge S get merge cap symbols n = some r ∧
      r.2 = (bpe (S.table get) (symbols.take n)).length ∧
      r.1.take r.2 = bpe (S.table get) (symbols.take n) := by
  have hinit : Scanned S get n (scanInit S get cap n symbols) (initCells (symbols.take n)) :=
    scanned_init (by omega) hlen hn hcap
  obtain ⟨st, hst, cells, hcells, hbpe⟩ := hinit.loop (by omega) hget hmerge (k := n + 1)
    (by simp)
  rw [map_snd_initCells] at hbpe
  have hlen' : cells.length ≤ n := by
    have := length_bpe_le (S.table get) (symbols.take n)
    rw [← hbpe, List.length_map, List.length_take] at this
    omega
  obtain ⟨r, hr, hr₂, hr₁⟩ := compact_loop hcells.linked hcells.lt (k := n + 1) (by omega)
    hcells.head
  refine ⟨r, ?_, by rw [hr₂, ← hbpe, List.length_map], hr₁.trans hbpe⟩
  have hguard : 2 ≤ n ∧ n ≤ cap := ⟨h2, hn⟩
  simp [scanMerge, hguard, hst, hr]

/-- `bpe_merge_symbols_small` computes `bpe`. -/
theorem bpeMergeSymbolsSmall_eq {getRank : TokenId → TokenId → ℕ}
    (hget : ∀ a b, getRank a b ≤ u32Max) {symbols : List TokenId} (h2 : 2 ≤ symbols.length)
    (hn : symbols.length ≤ smallMergeMax) :
    bpeMergeSymbolsSmall getRank symbols = some (bpe (rankTable getRank) symbols) := by
  obtain ⟨r, hr, -, htake⟩ :=
    scanMerge_eq (S := idSlot) hget (.inl rfl) (by decide) h2 hn le_rfl
  rw [List.take_length, SlotKind.table_idSlot] at htake
  simp [bpeMergeSymbolsSmall, hr, htake]

end Hypertok
