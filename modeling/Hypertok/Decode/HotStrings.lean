import Mathlib.Data.List.TakeWhile
import Hypertok.Machine.Loop
import Hypertok.Machine.Lossy

/-!
`createHotStringDecoder`: the strings of the most frequent tokens of the first list are kept, and
later lists are decoded in runs between them.

* `Sound`: the invariant. The cache has the text of a token, without a byte order mark in front.
* `Reached.sound`: it holds in every run, whichever tokens are selected.
* `assemble_eq_iff`: when the pieces are the text of the whole.
* `reached_decode_iff`: so `decode` is exact unless a cached token of the list starts with a byte
  order mark, or has no bytes and stands inside a character.
-/

namespace Hypertok

open Machine

/-- The core that a decoder is made with, over a vocabulary of token bytes; a call that throws has
no value. The number of tokens is not known to every core. -/
structure DecodeCore where
  vocabSize : Option ℕ
  tokenBytes : ℕ → Option (List UInt8)
  decode : List ℕ → Option (List Char)
  lt_vocabSize : ∀ id size, (tokenBytes id).isSome → vocabSize = some size → id < size
  /-- `decode` is the lossy decoding of the bytes of known tokens, byte order marks included. -/
  decode_eq : ∀ ids, (∀ id ∈ ids, (tokenBytes id).isSome) →
    decode ids = some (fromUtf8Lossy (ids.flatMap fun id => (tokenBytes id).getD []))

/-- The options of `createHotStringDecoder`. The comparison of a quotient with `minCoverage` is one
of floating point. -/
structure HotLimits where
  maxEntries : ℕ
  maxPayloadBytes : ℕ
  maxIndexBytes : ℕ
  covers : ℕ → ℕ → Bool
  maxEntries_pos : 0 < maxEntries

/-- The variables of `createHotStringDecoder`. -/
structure HotStrings where
  directIndex : Option (List ℕ)
  cachedStrings : List (List Char)
  sparseCache : ℕ → Option (List Char)
  initialized : Bool
  active : Bool
  observedTokens : ℕ
  observedDistinct : ℕ
  coveredTokens : ℕ
  payloadBytes : ℕ
  coveredDistinct : ℕ

namespace HotStrings

/-! ### The code -/

/-- The variables at first. -/
def new (core : DecodeCore) (limits : HotLimits) : HotStrings where
  directIndex := core.vocabSize.bind fun size =>
    if size * 4 ≤ limits.maxIndexBytes then some (List.replicate size 0) else none
  cachedStrings := []
  sparseCache _ := none
  initialized := false
  active := false
  observedTokens := 0
  observedDistinct := 0
  coveredTokens := 0
  payloadBytes := 0
  coveredDistinct := 0

/-- `cachedString`. -/
def cachedString (s : HotStrings) (id : ℕ) : Option (List Char) :=
  match s.directIndex with
  | none => s.sparseCache id
  | some index => index[id]?.bind fun slot => if slot = 0 then none else s.cachedStrings[slot - 1]?

/-- A text without a byte order mark in front. -/
def dropMark (text : List Char) : List Char :=
  if text.head? = some '\ufeff' then text.tail else text

/-- `fatalDecoder.decode`: no value for bytes that are not UTF-8. A byte order mark in front is
dropped, since `ignoreBOM` is not set. -/
def fatalDecode (bytes : List UInt8) : Option (List Char) := (fromUtf8 bytes).map dropMark

/-- `text.length`. -/
def codeUnits (text : List Char) : ℕ := (text.map fun c => if c.toNat < 0x10000 then 1 else 2).sum

/-- The loop that counts the ids, and the number of distinct ones; an id beyond the counts throws. -/
def countIds : List ℕ → List ℕ → ℕ → Except ℕ (List ℕ × ℕ)
  | [], counts, distinct => .ok (counts, distinct)
  | id :: ids, counts, distinct =>
      match counts[id]? with
      | none => .error distinct
      | some count =>
          countIds ids (counts.set id (count + 1)) (if count = 0 then distinct + 1 else distinct)

/-- `worse`, of a count with its id. -/
def worse (left right : ℕ × ℕ) : Bool :=
  left.1 < right.1 || left.1 == right.1 && left.2 > right.2

/-- `swap`. -/
def swap (heap : List (ℕ × ℕ)) (left right : ℕ) : Option (List (ℕ × ℕ)) := do
  let l ← heap[left]?
  let r ← heap[right]?
  write (← write heap left r) right l

/-- One turn of the loop of `push`. -/
def pushStep (st : List (ℕ × ℕ) × ℕ) :
    Option (List (ℕ × ℕ) × ℕ ⊕ List (ℕ × ℕ)) := do
  let (heap, index) := st
  if index = 0 then some (.inr heap)
  else
    let parent := (index - 1) / 2
    if worse (← heap[index]?) (← heap[parent]?) then
      some (.inl (← swap heap index parent, parent))
    else some (.inr heap)

/-- `push`, of a count with its id. -/
def push (heap : List (ℕ × ℕ)) (heapSize : ℕ) (entry : ℕ × ℕ) : Option (List (ℕ × ℕ)) := do
  loop pushStep (heapSize + 1) (← write heap heapSize entry, heapSize)

/-- The child that `replaceWorst` compares with. -/
def worstChild (heap : List (ℕ × ℕ)) (heapSize left : ℕ) : Option ℕ := do
  if left + 1 < heapSize then
    if worse (← heap[left + 1]?) (← heap[left]?) then some (left + 1) else some left
  else some left

/-- One turn of the loop of `replaceWorst`. -/
def replaceStep (heapSize : ℕ) (st : List (ℕ × ℕ) × ℕ) :
    Option (List (ℕ × ℕ) × ℕ ⊕ List (ℕ × ℕ)) := do
  let (heap, index) := st
  let left := index * 2 + 1
  if left ≥ heapSize then some (.inr heap)
  else
    let child ← worstChild heap heapSize left
    if worse (← heap[child]?) (← heap[index]?) then
      some (.inl (← swap heap index child, child))
    else some (.inr heap)

/-- `replaceWorst`. -/
def replaceWorst (heap : List (ℕ × ℕ)) (heapSize : ℕ) (entry : ℕ × ℕ) :
    Option (List (ℕ × ℕ)) := do
  loop (replaceStep heapSize) (heapSize + 1) (← write heap 0 entry, 0)

/-- The loop over the counts, from the id `id` on, with the two arrays of the heap as one of
pairs. -/
def fillHeap (capacity : ℕ) : List ℕ → ℕ → List (ℕ × ℕ) → ℕ → Option (List (ℕ × ℕ))
  | [], _, heap, _ => some heap
  | count :: counts, id, heap, heapSize =>
      if count = 0 then fillHeap capacity counts (id + 1) heap heapSize
      else if heapSize < capacity then do
        fillHeap capacity counts (id + 1) (← push heap heapSize (count, id)) (heapSize + 1)
      else do
        if worse (← heap[0]?) (count, id) then
          fillHeap capacity counts (id + 1) (← replaceWorst heap heapSize (count, id)) heapSize
        else fillHeap capacity counts (id + 1) heap heapSize

/-- The ids that the heap selects. -/
def selectDirect (capacity : ℕ) (counts : List ℕ) : Option (List ℕ) :=
  (fillHeap capacity counts 0 (List.replicate capacity (0, 0)) 0).map (·.map Prod.snd)

/-- The order of `selected.sort`. -/
def moreFrequent (ids : List ℕ) (left right : ℕ) : Prop :=
  ids.count right < ids.count left ∨ ids.count right = ids.count left ∧ left ≤ right

instance (ids : List ℕ) : DecidableRel (moreFrequent ids) := fun _ _ => inferInstanceAs (Decidable (_ ∨ _))

/-- The ids that the sort selects. -/
def selectSparse (maxEntries : ℕ) (ids : List ℕ) : List ℕ :=
  (ids.dedup.insertionSort (moreFrequent ids)).take maxEntries

/-- A string is kept. -/
def remember (s : HotStrings) (id : ℕ) (text : List Char) (frequency : ℕ) : HotStrings :=
  let s := match s.directIndex with
    | none => { s with sparseCache := Function.update s.sparseCache id (some text) }
    | some index => { s with
        cachedStrings := s.cachedStrings ++ [text]
        directIndex := some (index.set id (s.cachedStrings.length + 1)) }
  { s with
    coveredDistinct := s.coveredDistinct + 1
    payloadBytes := s.payloadBytes + codeUnits text * 2
    coveredTokens := s.coveredTokens + frequency }

/-- The loop over the selected ids; it throws when `tokenBytes` does. -/
def keepSelected (core : DecodeCore) (limits : HotLimits) (ids : List ℕ) :
    List ℕ → HotStrings → Except HotStrings HotStrings
  | [], s => .ok s
  | id :: selected, s =>
      if s.coveredDistinct = limits.maxEntries then .ok s
      else
        match core.tokenBytes id with
        | none => .error s
        | some bytes =>
            match fatalDecode bytes with
            | none => keepSelected core limits ids selected s
            | some text =>
                if s.payloadBytes + codeUnits text * 2 > limits.maxPayloadBytes then
                  keepSelected core limits ids selected s
                else keepSelected core limits ids selected (s.remember id text (ids.count id))

/-- The end of `initialize`: whether the cache is worth it. -/
def finish (limits : HotLimits) (s : HotStrings) : HotStrings :=
  let repeatedSingleUnits := 65536 ≤ s.observedTokens ∧ s.coveredTokens = s.observedTokens ∧
    s.observedDistinct ≤ 2 ∧ s.coveredDistinct ≠ 0 ∧ s.payloadBytes ≤ 2 * s.coveredDistinct
  if limits.covers s.coveredTokens s.observedTokens ∧ ¬ repeatedSingleUnits then
    { s with active := true, initialized := true }
  else
    { s with
      active := false
      cachedStrings := []
      sparseCache := fun _ => none
      directIndex := none
      coveredDistinct := 0
      payloadBytes := 0
      initialized := true }

/-- `initialize`, as far as the selection: the variables with the ids that are selected. -/
def select (limits : HotLimits) (s : HotStrings) (ids : List ℕ) :
    Except HotStrings (HotStrings × List ℕ) :=
  match s.directIndex with
  | some index =>
      match countIds ids (List.replicate index.length 0) s.observedDistinct with
      | .error distinct => .error { s with observedDistinct := distinct }
      | .ok (counts, distinct) =>
          match selectDirect (min limits.maxEntries distinct) counts with
          | none => .error { s with observedDistinct := distinct }
          | some selected => .ok ({ s with observedDistinct := distinct }, selected)
  | none => .ok ({ s with observedDistinct := ids.dedup.length }, selectSparse limits.maxEntries ids)

/-- `initialize`: the variables after it, also when it throws. -/
def initializeWith (core : DecodeCore) (limits : HotLimits) (s : HotStrings) (ids : List ℕ) :
    Except HotStrings HotStrings := do
  if s.initialized ∨ ids = [] then .ok s
  else
    let (s, selected) ← s.select limits ids
    let s ← keepSelected core limits ids selected { s with observedTokens := ids.length }
    .ok (s.finish limits)

/-- The loop of `decode`: cached strings, and the runs of ids between them. -/
def assemble (core : DecodeCore) (cached : ℕ → Option (List Char)) : List ℕ → Option (List Char)
  | [] => some []
  | id :: ids =>
      match cached id with
      | some text => (assemble core cached ids).map (text ++ ·)
      | none => do
          let run := ids.takeWhile fun id => (cached id).isNone
          let text ← core.decode (id :: run)
          let rest ← assemble core cached (ids.dropWhile fun id => (cached id).isNone)
          some (text ++ rest)
  termination_by ids => ids.length
  decreasing_by
    · exact Nat.lt_succ_self _
    · exact Nat.lt_succ_of_le (List.dropWhile_sublist _).length_le

/-- `decode`: the variables after it, and the text unless it throws. -/
def decode (core : DecodeCore) (limits : HotLimits) (s : HotStrings) (ids : List ℕ) :
    HotStrings × Option (List Char) :=
  if ids = [] then (s, core.decode ids)
  else
    match s.initializeWith core limits ids with
    | .error s => (s, none)
    | .ok s => (s, if s.active then assemble core s.cachedString ids else core.decode ids)

/-! ### The selection -/

section Heap

variable {heap : List (ℕ × ℕ)} {P : ℕ × ℕ → Prop} {n index : ℕ}

/-- The first `n` entries of an array meet `P`. -/
def All (n : ℕ) (P : ℕ × ℕ → Prop) (heap : List (ℕ × ℕ)) : Prop :=
  ∀ j < n, ∃ e, heap[j]? = some e ∧ P e

lemma All.write (h : All n P heap) (hlt : index < heap.length) {e : ℕ × ℕ} (he : P e) :
    ∃ heap', Machine.write heap index e = some heap' ∧ heap'.length = heap.length ∧ All n P heap' ∧
      (index = n → All (n + 1) P heap') := by
  have hset : ∀ j, j ≠ index → (heap.set index e)[j]? = heap[j]? :=
    fun j hj => List.getElem?_set_ne hj.symm
  have hself : (heap.set index e)[index]? = some e := List.getElem?_set_self hlt
  refine ⟨_, write_of_lt hlt e, List.length_set, fun j hj => ?_, ?_⟩
  · by_cases heq : j = index
    · exact ⟨e, heq ▸ hself, he⟩
    · rw [hset j heq]
      exact h j hj
  · rintro rfl j hj
    by_cases heq : j = index
    · exact ⟨e, heq ▸ hself, he⟩
    · rw [hset j heq]
      exact h j (by omega)

lemma All.swap (h : All n P heap) {l r : ℕ} (hl : l < n) (hr : r < n) :
    ∃ heap', HotStrings.swap heap l r = some heap' ∧ heap'.length = heap.length ∧ All n P heap' := by
  obtain ⟨a, ha, hPa⟩ := h l hl
  obtain ⟨b, hb, hPb⟩ := h r hr
  obtain ⟨heap₁, hrun₁, hlen₁, h₁, -⟩ := h.write (List.getElem?_eq_some_iff.mp ha).1 hPb
  obtain ⟨heap₂, hrun₂, hlen₂, h₂, -⟩ :=
    h₁.write (hlen₁ ▸ (List.getElem?_eq_some_iff.mp hb).1) hPa
  refine ⟨heap₂, ?_, hlen₂.trans hlen₁, h₂⟩
  rw [HotStrings.swap, ha, hb]
  simp only [Option.bind_eq_bind, Option.bind_some, hrun₁, hrun₂]

lemma All.pushStep (h : All n P heap) (hindex : index < n) :
    (index ≠ 0 ∧ ∃ heap', HotStrings.pushStep (heap, index) = some (.inl (heap', (index - 1) / 2)) ∧
      heap'.length = heap.length ∧ All n P heap') ∨
    HotStrings.pushStep (heap, index) = some (.inr heap) := by
  by_cases hzero : index = 0
  · exact .inr (by simp [HotStrings.pushStep, hzero])
  · obtain ⟨a, ha, -⟩ := h index hindex
    obtain ⟨b, hb, -⟩ := h ((index - 1) / 2) (by omega)
    obtain ⟨heap', hswap, hlen, hall⟩ := h.swap hindex (r := (index - 1) / 2) (by omega)
    simp only [HotStrings.pushStep, if_neg hzero, ha, hb, hswap, Option.bind_eq_bind,
      Option.bind_some]
    split_ifs
    · exact .inl ⟨hzero, heap', rfl, hlen, hall⟩
    · exact .inr rfl

lemma All.push (h : All n P heap) (hlt : n < heap.length) {e : ℕ × ℕ} (he : P e) :
    ∃ heap', HotStrings.push heap n e = some heap' ∧ heap'.length = heap.length ∧
      All (n + 1) P heap' := by
  obtain ⟨heap₁, hrun, hlen, -, h₁⟩ := h.write hlt he
  have hloop : ∃ heap', loop HotStrings.pushStep (n + 1) (heap₁, n) = some heap' ∧
      heap'.length = heap.length ∧ All (n + 1) P heap' := by
    refine loop_eq_some (m := n)
      (I := fun m st => st.2 ≤ m ∧ st.2 ≤ n ∧ st.1.length = heap.length ∧ All (n + 1) P st.1)
      (fun m st hI => ?_) ⟨le_rfl, le_rfl, hlen, h₁ rfl⟩ (Nat.lt_succ_self n)
    obtain ⟨heap₂, index⟩ := st
    obtain ⟨hm, hindex, hlen₂, h₂⟩ := hI
    dsimp only at hm hindex hlen₂ h₂
    obtain ⟨hzero, heap₃, hstep, hlen₃, h₃⟩ | hstep := h₂.pushStep (Nat.lt_succ_of_le hindex)
    · exact .inl ⟨_, hstep, (index - 1) / 2, by omega, le_rfl, by dsimp only; omega,
        hlen₃.trans hlen₂, h₃⟩
    · exact .inr ⟨heap₂, hstep, hlen₂, h₂⟩
  obtain ⟨heap', hloop, hlen', h'⟩ := hloop
  exact ⟨heap', by rw [HotStrings.push, hrun]; exact hloop, hlen', h'⟩

lemma All.replaceStep (h : All n P heap) (hindex : index < n) :
    (∃ heap' child, HotStrings.replaceStep n (heap, index) = some (.inl (heap', child)) ∧
      index < child ∧ child < n ∧ heap'.length = heap.length ∧ All n P heap') ∨
    HotStrings.replaceStep n (heap, index) = some (.inr heap) := by
  by_cases hleft : index * 2 + 1 ≥ n
  · exact .inr (by simp [HotStrings.replaceStep, hleft])
  · obtain ⟨child, hchild, hlt, hgt⟩ : ∃ child, worstChild heap n (index * 2 + 1) = some child ∧
        child < n ∧ index < child := by
      obtain ⟨l, hl, -⟩ := h (index * 2 + 1) (Nat.lt_of_not_le hleft)
      rw [worstChild]
      split_ifs with hright
      · obtain ⟨r, hr, -⟩ := h (index * 2 + 1 + 1) hright
        simp only [hl, hr, Option.bind_eq_bind, Option.bind_some]
        split_ifs
        · exact ⟨_, rfl, hright, by omega⟩
        · exact ⟨_, rfl, by omega, by omega⟩
      · exact ⟨_, rfl, by omega, by omega⟩
    obtain ⟨a, ha, -⟩ := h index hindex
    obtain ⟨b, hb, -⟩ := h child hlt
    obtain ⟨heap', hswap, hlen, hall⟩ := h.swap hindex hlt
    simp only [HotStrings.replaceStep, if_neg hleft, hchild, ha, hb, hswap, Option.bind_eq_bind,
      Option.bind_some]
    split_ifs
    · exact .inl ⟨heap', child, rfl, hgt, hlt, hlen, hall⟩
    · exact .inr rfl

lemma All.replaceWorst (h : All n P heap) (hpos : 0 < n) {e : ℕ × ℕ} (he : P e) :
    ∃ heap', HotStrings.replaceWorst heap n e = some heap' ∧ heap'.length = heap.length ∧
      All n P heap' := by
  obtain ⟨_, h₀, -⟩ := h 0 hpos
  obtain ⟨heap₁, hrun, hlen, h₁, -⟩ := h.write (List.getElem?_eq_some_iff.mp h₀).1 he
  have hloop : ∃ heap', loop (HotStrings.replaceStep n) (n + 1) (heap₁, 0) = some heap' ∧
      heap'.length = heap.length ∧ All n P heap' := by
    refine loop_eq_some (m := n)
      (I := fun m st => n ≤ m + st.2 ∧ st.2 < n ∧ st.1.length = heap.length ∧ All n P st.1)
      (fun m st hI => ?_) ⟨le_rfl, hpos, hlen, h₁⟩ (Nat.lt_succ_self n)
    obtain ⟨heap₂, index⟩ := st
    obtain ⟨hm, hindex, hlen₂, h₂⟩ := hI
    dsimp only at hm hindex hlen₂ h₂
    obtain ⟨heap₃, child, hstep, hgt, hlt, hlen₃, h₃⟩ | hstep := h₂.replaceStep hindex
    · exact .inl ⟨_, hstep, n - child, by omega, by dsimp only; omega, hlt, hlen₃.trans hlen₂, h₃⟩
    · exact .inr ⟨heap₂, hstep, hlen₂, h₂⟩
  obtain ⟨heap', hloop, hlen', h'⟩ := hloop
  exact ⟨heap', by rw [HotStrings.replaceWorst, hrun]; exact hloop, hlen', h'⟩

/-- The heap takes ids with counts only, and is full when there are enough of them. -/
lemma All.fillHeap {capacity id : ℕ} {counts : List ℕ} (hcapacity : 0 < capacity)
    (hlen : heap.length = capacity) (hn : n ≤ capacity) (h : All n P heap)
    (hP : ∀ (i count : ℕ), counts[i]? = some count → count ≠ 0 → P (count, id + i)) :
    ∃ heap', HotStrings.fillHeap capacity counts id heap n = some heap' ∧
      heap'.length = capacity ∧ All (min capacity (n + counts.countP (· ≠ 0))) P heap' := by
  induction counts generalizing id heap n with
  | nil => exact ⟨heap, rfl, hlen, by simpa [Nat.min_eq_right hn] using h⟩
  | cons count counts ih =>
      have hP' : ∀ (i c : ℕ), counts[i]? = some c → c ≠ 0 → P (c, id + 1 + i) := by
        intro i c hc hne
        rw [Nat.add_right_comm, Nat.add_assoc]
        exact hP (i + 1) c hc hne
      rw [HotStrings.fillHeap, List.countP_cons]
      by_cases hzero : count = 0
      · have hcount : (if decide (count ≠ 0) = true then 1 else 0) = 0 := by simp [hzero]
        rw [if_pos hzero, hcount, Nat.add_zero]
        exact ih hlen hn h hP'
      · have hnew : P (count, id) := hP 0 count rfl hzero
        have hcount : (if decide (count ≠ 0) = true then 1 else 0) = 1 := by simp [hzero]
        rw [if_neg hzero, hcount]
        by_cases hroom : n < capacity
        · obtain ⟨heap₁, hrun, hlen₁, h₁⟩ := h.push (hlen.symm ▸ hroom) hnew
          rw [if_pos hroom, hrun, Nat.add_comm (counts.countP _) 1, ← Nat.add_assoc]
          exact ih (hlen₁.trans hlen) hroom h₁ hP'
        · obtain rfl : n = capacity := by omega
          obtain ⟨first, h₀, -⟩ := h 0 hcapacity
          have hmin : ∀ k, min n (n + k) = n := fun k => Nat.min_eq_left (Nat.le_add_right n k)
          have hrest := fun heap (hlen : heap.length = n) (h : All n P heap) => ih hlen hn h hP'
          rw [if_neg hroom, h₀, hmin]
          simp only [hmin] at hrest
          simp only [Option.bind_eq_bind, Option.bind_some]
          split_ifs
          · obtain ⟨heap₁, hrun, hlen₁, h₁⟩ := h.replaceWorst hcapacity hnew
            rw [hrun]
            exact hrest heap₁ (hlen₁.trans hlen) h₁
          · exact hrest heap hlen h

end Heap

/-- The ids are counted, as long as there are counts for them. -/
lemma countIds_ok {ids counts : List ℕ} (h : ∀ id ∈ ids, id < counts.length) :
    ∃ counts', countIds ids counts (counts.countP (· ≠ 0)) =
        .ok (counts', counts'.countP (· ≠ 0)) ∧
      counts.countP (· ≠ 0) ≤ counts'.countP (· ≠ 0) ∧ (ids ≠ [] → 0 < counts'.countP (· ≠ 0)) ∧
      ∀ (id count : ℕ), counts'[id]? = some count → count ≠ 0 →
        id ∈ ids ∨ ∃ count₀, counts[id]? = some count₀ ∧ count₀ ≠ 0 := by
  induction ids generalizing counts with
  | nil => exact ⟨counts, rfl, le_rfl, fun hne => absurd rfl hne, fun id c hc hne => .inr ⟨c, hc, hne⟩⟩
  | cons id ids ih =>
      obtain ⟨hid, hids⟩ := List.forall_mem_cons.mp h
      obtain ⟨count, hcount⟩ : ∃ count, counts[id]? = some count := ⟨_, List.getElem?_eq_getElem hid⟩
      have hset : (counts.set id (count + 1)).countP (· ≠ 0) =
          if count = 0 then counts.countP (· ≠ 0) + 1 else counts.countP (· ≠ 0) := by
        obtain ⟨_, hget⟩ := List.getElem?_eq_some_iff.mp hcount
        have hpos : count ≠ 0 → 0 < counts.countP (· ≠ 0) := fun hne =>
          List.countP_pos_iff.mpr ⟨count, List.mem_of_getElem? hcount, by simpa using hne⟩
        rw [List.countP_set hid, hget]
        by_cases hzero : count = 0
        · simp [hzero]
        · have := hpos hzero
          simp only [hzero, ne_eq, not_false_eq_true, decide_true, if_true, if_false,
            Nat.succ_ne_zero] at this ⊢
          omega
      obtain ⟨counts', hrun, hle, hpos, hmem⟩ :=
        @ih (counts.set id (count + 1)) fun id' hid' => by simpa using hids id' hid'
      have hone : 0 < (counts.set id (count + 1)).countP (· ≠ 0) :=
        List.countP_pos_iff.mpr ⟨count + 1, List.mem_set hid _, by simp⟩
      refine ⟨counts', ?_, le_trans (by rw [hset]; split_ifs <;> omega) hle, fun _ => hone.trans_le hle,
        fun id' c hc hne => ?_⟩
      · rw [countIds, hcount]
        dsimp only
        rw [← hset, hrun]
      · obtain hid' | ⟨c₀, hc₀, hne₀⟩ := hmem id' c hc hne
        · exact .inl (.tail _ hid')
        · by_cases heq : id' = id
          · exact .inl (heq ▸ List.mem_cons_self)
          · rw [List.getElem?_set_ne (Ne.symm heq)] at hc₀
            exact .inr ⟨c₀, hc₀, hne₀⟩

/-- The heap selects ids that have counts. -/
lemma selectDirect_mem {capacity : ℕ} {counts ids : List ℕ} (hpos : 0 < capacity)
    (hle : capacity ≤ counts.countP (· ≠ 0))
    (h : ∀ (id count : ℕ), counts[id]? = some count → count ≠ 0 → id ∈ ids) :
    ∃ selected, selectDirect capacity counts = some selected ∧ ∀ id ∈ selected, id ∈ ids := by
  have hnone : All 0 (fun e => e.2 ∈ ids) (List.replicate capacity (0, 0)) :=
    fun j hj => absurd hj (Nat.not_lt_zero j)
  have hmem : ∀ (i count : ℕ), counts[i]? = some count → count ≠ 0 → 0 + i ∈ ids := by
    intro i count hc hne
    rw [Nat.zero_add]
    exact h i count hc hne
  obtain ⟨heap, hrun, hlen, hall⟩ :=
    hnone.fillHeap hpos List.length_replicate (Nat.zero_le _) hmem
  refine ⟨heap.map Prod.snd, by rw [selectDirect, hrun, Option.map_some], fun id hid => ?_⟩
  obtain ⟨e, he, rfl⟩ := List.mem_map.mp hid
  obtain ⟨j, hj⟩ := List.getElem?_of_mem he
  have hlt := (List.getElem?_eq_some_iff.mp hj).1
  obtain ⟨e', hj', he'⟩ := hall j (by omega)
  exact Option.some_inj.mp (hj.symm.trans hj') ▸ he'

/-! ### The invariant -/

/-- The cache has texts of tokens, without a byte order mark in front. -/
structure Sound (core : DecodeCore) (s : HotStrings) : Prop where
  cached : ∀ id text, s.cachedString id = some text →
    ∃ t, core.tokenBytes id = some (textBytes t) ∧ text = dropMark t
  bounded : ∀ index, s.directIndex = some index → ∀ slot ∈ index, slot ≤ s.cachedStrings.length

variable {core : DecodeCore} {limits : HotLimits} {s s' : HotStrings} {ids : List ℕ}

/-- The other variables do not matter. -/
lemma Sound.of_eq (h : Sound core s) (hindex : s'.directIndex = s.directIndex)
    (hstrings : s'.cachedStrings = s.cachedStrings) (hsparse : s'.sparseCache = s.sparseCache) :
    Sound core s' := by
  have hcached : s'.cachedString = s.cachedString := by
    funext id
    rw [cachedString, cachedString, hindex, hstrings, hsparse]
  exact ⟨hcached ▸ h.cached, by rw [hindex, hstrings]; exact h.bounded⟩

lemma fatalDecode_eq_some {bytes : List UInt8} {text : List Char}
    (h : fatalDecode bytes = some text) : ∃ t, bytes = textBytes t ∧ text = dropMark t := by
  obtain ⟨t, ht, rfl⟩ := Option.map_eq_some_iff.mp h
  exact ⟨t, (textBytes_of_fromUtf8 ht).symm, rfl⟩

lemma sound_new (core : DecodeCore) (limits : HotLimits) : Sound core (new core limits) := by
  have hzero : ∀ index, (new core limits).directIndex = some index → ∀ slot ∈ index, slot = 0 := by
    intro index hindex slot hslot
    obtain ⟨size, -, hsize⟩ := Option.bind_eq_some_iff.mp hindex
    split_ifs at hsize
    obtain rfl := Option.some_inj.mp hsize
    exact List.eq_of_mem_replicate hslot
  refine ⟨fun id text h => ?_, fun index hindex slot hslot => (hzero index hindex slot hslot).le⟩
  rw [cachedString] at h
  cases hindex : (new core limits).directIndex with
  | none =>
      rw [hindex] at h
      cases h
  | some index =>
      rw [hindex] at h
      obtain ⟨slot, hslot, h⟩ := Option.bind_eq_some_iff.mp h
      rw [if_pos (hzero index hindex slot (List.mem_of_getElem? hslot))] at h
      cases h

/-- One more string is kept. -/
lemma Sound.remember (h : Sound core s) {id frequency : ℕ} {text t : List Char}
    (ht : core.tokenBytes id = some (textBytes t)) (htext : text = dropMark t) :
    Sound core (s.remember id text frequency) := by
  cases hindex : s.directIndex with
  | none =>
      have hcached : ∀ id', (s.remember id text frequency).cachedString id' =
          if id' = id then some text else s.cachedString id' := by
        intro id'
        simp only [HotStrings.remember, cachedString, hindex, Function.update_apply]
      refine ⟨fun id' text' h' => ?_, fun index hindex' => ?_⟩
      · rw [hcached] at h'
        split_ifs at h' with heq
        · obtain rfl := Option.some_inj.mp h'
          exact ⟨t, heq ▸ ht, htext⟩
        · exact h.cached id' text' h'
      · simp [HotStrings.remember, hindex] at hindex'
  | some index =>
      have hcached : ∀ id', (s.remember id text frequency).cachedString id' =
          (index.set id (s.cachedStrings.length + 1))[id']?.bind fun slot =>
            if slot = 0 then none else (s.cachedStrings ++ [text])[slot - 1]? := by
        intro id'
        simp only [HotStrings.remember, cachedString, hindex]
      refine ⟨fun id' text' h' => ?_, fun index' hindex' slot hslot => ?_⟩
      · rw [hcached] at h'
        obtain ⟨slot, hslot, h'⟩ := Option.bind_eq_some_iff.mp h'
        by_cases heq : id' = id
        · subst heq
          have hlt := (List.getElem?_eq_some_iff.mp hslot).1
          rw [List.length_set] at hlt
          rw [List.getElem?_set_self hlt, Option.some_inj] at hslot
          subst hslot
          rw [if_neg (Nat.succ_ne_zero _), Nat.add_sub_cancel, List.getElem?_append_right le_rfl,
            Nat.sub_self] at h'
          exact ⟨t, ht, (Option.some_inj.mp h').symm.trans htext⟩
        · rw [List.getElem?_set_ne (Ne.symm heq)] at hslot
          have hle := h.bounded index hindex slot (List.mem_of_getElem? hslot)
          split_ifs at h' with hzero
          rw [List.getElem?_append_left (by omega)] at h'
          refine h.cached id' text' ?_
          rw [cachedString, hindex]
          exact Option.bind_eq_some_iff.mpr ⟨slot, hslot, by rw [if_neg hzero, h']⟩
      · simp only [HotStrings.remember, hindex, Option.some_inj] at hindex' ⊢
        subst hindex'
        rw [List.length_append, List.length_singleton]
        obtain hslot | rfl := List.mem_or_eq_of_mem_set hslot
        · exact (h.bounded index hindex slot hslot).trans (Nat.le_succ _)
        · exact le_rfl

lemma Sound.keepSelected {selected : List ℕ} (h : Sound core s)
    (hknown : ∀ id ∈ selected, (core.tokenBytes id).isSome) :
    ∃ s', HotStrings.keepSelected core limits ids selected s = .ok s' ∧ Sound core s' := by
  induction selected generalizing s with
  | nil => exact ⟨s, rfl, h⟩
  | cons id selected ih =>
      obtain ⟨hid, hrest⟩ := List.forall_mem_cons.mp hknown
      obtain ⟨bytes, hbytes⟩ := Option.isSome_iff_exists.mp hid
      rw [HotStrings.keepSelected]
      by_cases hfull : s.coveredDistinct = limits.maxEntries
      · rw [if_pos hfull]
        exact ⟨s, rfl, h⟩
      · rw [if_neg hfull, hbytes]
        dsimp only
        cases hdecode : fatalDecode bytes with
        | none => exact ih h hrest
        | some text =>
            obtain ⟨t, rfl, htext⟩ := fatalDecode_eq_some hdecode
            dsimp only
            split_ifs
            · exact ih h hrest
            · exact ih (h.remember hbytes htext) hrest

lemma Sound.finish (h : Sound core s) : Sound core (s.finish limits) := by
  rw [HotStrings.finish]
  split_ifs
  · exact h.of_eq rfl rfl rfl
  · exact ⟨fun _ _ h => (Option.some_ne_none _ h.symm).elim, fun _ h => (Option.some_ne_none _ h.symm).elim⟩

/-- Ids of the vocabulary. -/
def Known (core : DecodeCore) (ids : List ℕ) : Prop := ∀ id ∈ ids, (core.tokenBytes id).isSome

/-- The first list selects some of its ids. -/
lemma select_new (hknown : Known core ids) (hne : ids ≠ []) : ∃ s selected,
    (new core limits).select limits ids = .ok (s, selected) ∧ Sound core s ∧
      ∀ id ∈ selected, id ∈ ids := by
  have hsound := sound_new core limits
  rw [select]
  cases hindex : (new core limits).directIndex with
  | none =>
      refine ⟨_, _, rfl, hsound.of_eq hindex.symm rfl rfl, fun id hid => ?_⟩
      have hsort := List.mem_of_mem_take hid
      rwa [List.mem_insertionSort, List.mem_dedup] at hsort
  | some index =>
      have hlen : ∀ id ∈ ids, id < (List.replicate index.length 0).length := by
        intro id hid
        obtain ⟨size, hsize, hrep⟩ := Option.bind_eq_some_iff.mp hindex
        split_ifs at hrep
        obtain rfl := Option.some_inj.mp hrep
        rw [List.length_replicate, List.length_replicate]
        exact core.lt_vocabSize id size (hknown id hid) hsize
      obtain ⟨counts, hcount, -, hpos, hmem⟩ := countIds_ok hlen
      have hzero : (List.replicate index.length 0).countP (· ≠ 0) = 0 := by
        simp [List.countP_replicate]
      have hids : ∀ (id count : ℕ), counts[id]? = some count → count ≠ 0 → id ∈ ids := by
        intro id count hc hne
        obtain hid | ⟨c₀, hc₀, hne₀⟩ := hmem id count hc hne
        · exact hid
        · exact absurd (List.eq_of_mem_replicate (List.mem_of_getElem? hc₀)) hne₀
      obtain ⟨selected, hselected, hsub⟩ := selectDirect_mem
        (Nat.lt_min.mpr ⟨limits.maxEntries_pos, hpos hne⟩) (Nat.min_le_right _ _) hids
      rw [hzero] at hcount
      have hdistinct : (new core limits).observedDistinct = 0 := rfl
      dsimp only
      rw [hdistinct, hcount]
      dsimp only
      rw [hselected]
      exact ⟨_, _, rfl, hsound.of_eq hindex.symm rfl rfl, hsub⟩

/-- A list of known ids does not throw, and makes a sound cache. -/
lemma initializeWith_new (hknown : Known core ids) (hne : ids ≠ []) :
    ∃ s, (new core limits).initializeWith core limits ids = .ok s ∧ Sound core s ∧
      s.initialized = true := by
  obtain ⟨s₁, selected, hselect, hsound₁, hsub⟩ := @select_new _ limits _ hknown hne
  have hobserved : Sound core { s₁ with observedTokens := ids.length } :=
    hsound₁.of_eq rfl rfl rfl
  obtain ⟨s₂, hkeep, hsound₂⟩ :=
    @Sound.keepSelected _ limits _ ids _ hobserved fun id hid => hknown id (hsub id hid)
  refine ⟨s₂.finish limits, ?_, hsound₂.finish, ?_⟩
  · have hfirst : ¬ ((new core limits).initialized ∨ ids = []) := by simp [new, hne]
    rw [initializeWith, if_neg hfirst, hselect, ok_bind]
    dsimp only
    rw [hkeep, ok_bind]
  · rw [finish]
    split_ifs <;> rfl

/-- The variables that a run of calls on lists of known ids reaches. -/
inductive Reached (core : DecodeCore) (limits : HotLimits) : HotStrings → Prop
  | new : Reached core limits (new core limits)
  | decode {s : HotStrings} {ids : List ℕ} (h : Reached core limits s) (hknown : Known core ids) :
      Reached core limits (s.decode core limits ids).1

/-- What a call has for a cache. -/
lemma initializeWith_ok (hs : s = new core limits ∨ s.initialized = true ∧ Sound core s)
    (hknown : Known core ids) (hne : ids ≠ []) :
    ∃ s', s.initializeWith core limits ids = .ok s' ∧ Sound core s' ∧ s'.initialized = true := by
  obtain rfl | ⟨hinit, hsound⟩ := hs
  · exact initializeWith_new hknown hne
  · exact ⟨s, by rw [initializeWith, if_pos (.inl hinit)], hsound, hinit⟩

lemma Reached.sound (h : Reached core limits s) :
    s = HotStrings.new core limits ∨ s.initialized = true ∧ Sound core s := by
  induction h with
  | new => exact .inl rfl
  | @decode s ids h hknown ih =>
      rw [HotStrings.decode]
      by_cases hnil : ids = []
      · rwa [if_pos hnil]
      · obtain ⟨s', hrun, hsound, hinit⟩ := initializeWith_ok ih hknown hnil
        rw [if_neg hnil, hrun]
        exact .inr ⟨hinit, hsound⟩

/-! ### The pieces -/

/-- The bytes of a token. -/
def bytesAt (core : DecodeCore) (id : ℕ) : List UInt8 := (core.tokenBytes id).getD []

/-- The concatenated bytes of tokens. -/
def bytesOf (core : DecodeCore) (ids : List ℕ) : List UInt8 := ids.flatMap (bytesAt core)

lemma bytesOf_append (pre post : List ℕ) :
    bytesOf core (pre ++ post) = bytesOf core pre ++ bytesOf core post := List.flatMap_append

lemma bytesOf_cons (id : ℕ) (ids : List ℕ) :
    bytesOf core (id :: ids) = bytesAt core id ++ bytesOf core ids := List.flatMap_cons

variable {cached : ℕ → Option (List Char)} {id : ℕ} {text : List Char}

/-- Induction along the loop of `decode`: a cached id, or a run up to the next one. -/
lemma runs_induction (cached : ℕ → Option (List Char)) {P : List ℕ → Prop} (nil : P [])
    (single : ∀ id ids text, cached id = some text → P ids → P (id :: ids))
    (run : ∀ run rest, run ≠ [] → (∀ id ∈ run, cached id = none) →
      (∀ id ∈ rest.head?, (cached id).isSome) → P rest → P (run ++ rest)) (ids : List ℕ) : P ids := by
  induction hn : ids.length using Nat.strong_induction_on generalizing ids with
  | _ n ih =>
      cases ids with
      | nil => exact nil
      | cons id ids =>
          cases hid : cached id with
          | some text => exact single id ids text hid (ih _ (by simp [← hn]) ids rfl)
          | none =>
              have hsplit : id :: ids = (id :: ids.takeWhile fun id => (cached id).isNone) ++
                  ids.dropWhile fun id => (cached id).isNone := by
                rw [List.cons_append, List.takeWhile_append_dropWhile]
              have hlen := (List.dropWhile_sublist (l := ids) fun id => (cached id).isNone).length_le
              rw [hsplit]
              refine run _ _ (List.cons_ne_nil _ _) (fun id' hid' => ?_) (fun id' hid' => ?_)
                (ih _ (by rw [← hn, List.length_cons]; omega) _ rfl)
              · obtain rfl | hid' := List.mem_cons.mp hid'
                · exact hid
                · have hnone := List.mem_takeWhile_imp (p := fun id => (cached id).isNone) hid'
                  exact Option.isNone_iff_eq_none.mp hnone
              · have := List.head?_dropWhile_not (fun id => (cached id).isNone) ids
                rw [Option.mem_def.mp hid'] at this
                simpa using this

lemma assemble_single (h : cached id = some text) :
    assemble core cached (id :: ids) = (assemble core cached ids).map (text ++ ·) := by
  rw [assemble, h]

lemma assemble_run {run rest : List ℕ} (hne : run ≠ []) (hrun : ∀ id ∈ run, cached id = none)
    (hrest : ∀ id ∈ rest.head?, (cached id).isSome) : assemble core cached (run ++ rest) =
      (core.decode run).bind fun text => (assemble core cached rest).map (text ++ ·) := by
  obtain ⟨id, run, rfl⟩ := List.exists_cons_of_ne_nil hne
  obtain ⟨hid, hrun⟩ := List.forall_mem_cons.mp hrun
  have hpos : ∀ id ∈ run, (cached id).isNone = true := fun id hid =>
    Option.isNone_iff_eq_none.mpr (hrun id hid)
  have hstop : rest.takeWhile (fun id => (cached id).isNone) = [] ∧
      rest.dropWhile (fun id => (cached id).isNone) = rest := by
    cases rest with
    | nil => exact ⟨rfl, rfl⟩
    | cons id' rest =>
        have hsome : (cached id').isNone = false := by simpa using hrest id' rfl
        exact ⟨List.takeWhile_cons_of_neg (by simp [hsome]), List.dropWhile_cons_of_neg (by simp [hsome])⟩
  rw [List.cons_append, assemble, hid]
  simp only [List.takeWhile_append_of_pos hpos, List.dropWhile_append_of_pos hpos, hstop.1,
    hstop.2, List.append_nil, Option.bind_eq_bind, Option.map_eq_bind]
  rfl

/-- A token with a byte order mark in front loses it in the cache. -/
def Marked (core : DecodeCore) (cached : ℕ → Option (List Char)) (id : ℕ) : Prop :=
  (cached id).isSome ∧ [0xEF, 0xBB, 0xBF] <+: bytesAt core id

/-- The bytes of a byte order mark. -/
lemma mark_prefix_iff (t : List Char) :
    [0xEF, 0xBB, 0xBF] <+: textBytes t ↔ t.head? = some '\ufeff' := by
  have hmark : String.utf8EncodeChar '\ufeff' = [0xEF, 0xBB, 0xBF] := by decide
  cases t with
  | nil => simp
  | cons c t =>
      rw [List.head?_cons, Option.some_inj, textBytes_cons, ← hmark]
      constructor
      · rintro ⟨rest, hrest⟩
        have hfirst := charAt_utf8EncodeChar '\ufeff' rest
        rw [hrest] at hfirst
        have hlen := hfirst.unique (charAt_utf8EncodeChar c (textBytes t))
        have henc := (List.append_inj hrest hlen).1
        have htext : textBytes ['\ufeff'] = textBytes [c] := by
          rw [textBytes_cons, textBytes_cons, henc]
        exact (List.cons_eq_cons.mp (textBytes_inj htext)).1.symm
      · rintro rfl
        exact List.prefix_append _ _

/-- The texts of a cache. -/
def Texts (core : DecodeCore) (cached : ℕ → Option (List Char)) : Prop :=
  ∀ id text, cached id = some text →
    ∃ t, core.tokenBytes id = some (textBytes t) ∧ text = dropMark t

lemma bytesAt_eq {t : List Char} (h : core.tokenBytes id = some (textBytes t)) :
    bytesAt core id = textBytes t := by rw [bytesAt, h, Option.getD_some]

/-- The text of a token, with a byte order mark or without. -/
lemma dropMark_cases (t : List Char) :
    t.head? = some '\ufeff' ∧ t = '\ufeff' :: dropMark t ∨
      t.head? ≠ some '\ufeff' ∧ t = dropMark t := by
  rw [dropMark]
  split_ifs with hhead
  · refine .inl ⟨hhead, ?_⟩
    cases t with
    | nil => cases hhead
    | cons c t => rw [Option.some_inj.mp hhead, List.tail_cons]
  · exact .inr ⟨hhead, rfl⟩

/-- What the pieces may differ in: fewer byte order marks, and more characters. -/
lemma assemble_bounds (htexts : Texts core cached) (ids : List ℕ) (hknown : Known core ids) :
    ∃ out, assemble core cached ids = some out ∧
      out.count '\ufeff' ≤ (fromUtf8Lossy (bytesOf core ids)).count '\ufeff' ∧
      ((∃ id ∈ ids, Marked core cached id) →
        out.count '\ufeff' < (fromUtf8Lossy (bytesOf core ids)).count '\ufeff') ∧
      ((∀ id ∈ ids, ¬ Marked core cached id) →
        (fromUtf8Lossy (bytesOf core ids)).length ≤ out.length) := by
  induction ids using runs_induction cached with
  | nil => exact ⟨[], by rw [assemble], le_rfl, by simp, fun _ => le_rfl⟩
  | single id ids text hid ih =>
      obtain ⟨out, hout, hle, hlt, hlen⟩ := ih fun id' hid' => hknown id' (.tail _ hid')
      obtain ⟨t, ht, rfl⟩ := htexts id text hid
      have hmark : Marked core cached id ↔ t.head? = some '\ufeff' := by
        rw [Marked, bytesAt_eq ht, mark_prefix_iff, hid]
        simp
      refine ⟨dropMark t ++ out, by rw [assemble_single hid, hout, Option.map_some], ?_⟩
      rw [bytesOf_cons, bytesAt_eq ht, fromUtf8Lossy_append_of_text]
      simp only [List.count_append, List.length_append, List.mem_cons, forall_eq_or_imp,
        exists_eq_or_imp, hmark]
      obtain ⟨hhead, heq⟩ | ⟨hhead, heq⟩ := dropMark_cases t
      · have hcount : t.count '\ufeff' = (dropMark t).count '\ufeff' + 1 := by
          conv_lhs => rw [heq]
          exact List.count_cons_self
        exact ⟨by omega, fun _ => by omega, fun h => absurd hhead h.1⟩
      · rw [← heq]
        refine ⟨by omega, fun h => ?_, fun h => ?_⟩
        · have := hlt (h.resolve_left hhead)
          omega
        · have := hlen h.2
          omega
  | run run rest hne hrun hrest ih =>
      obtain ⟨out, hout, hle, hlt, hlen⟩ := ih fun id hid => hknown id (List.mem_append_right _ hid)
      have hdecode := core.decode_eq run fun id hid => hknown id (List.mem_append_left _ hid)
      have hcount := count_fromUtf8Lossy_append_le (bytesOf core run) (bytesOf core rest)
        (c := '\ufeff') (by decide)
      have hlength := length_fromUtf8Lossy_append_le (bytesOf core run) (bytesOf core rest)
      refine ⟨fromUtf8Lossy (bytesOf core run) ++ out, ?_, ?_⟩
      · rw [assemble_run hne hrun hrest, hdecode, Option.bind_some, hout, Option.map_some]
        rfl
      · rw [bytesOf_append]
        simp only [List.count_append, List.length_append, List.mem_append]
        refine ⟨by omega, ?_, fun h => ?_⟩
        · rintro ⟨id, hid | hid, hmark⟩
          · rw [Marked, hrun id hid] at hmark
            simp at hmark
          · have := hlt ⟨id, hid, hmark⟩
            omega
        · have := hlen fun id hid => h id (.inr hid)
          omega

/-- The pieces end in front of a cached id. -/
lemma assemble_append (hid : (cached id).isSome) (pre post : List ℕ) :
    assemble core cached (pre ++ id :: post) = (assemble core cached pre).bind fun text =>
      (assemble core cached (id :: post)).map (text ++ ·) := by
  induction pre using runs_induction cached with
  | nil => simp [assemble.eq_1]
  | single id' pre text hid' ih =>
      rw [List.cons_append, assemble_single hid', assemble_single hid', ih]
      simp [Option.map_bind, Option.bind_map, Function.comp_def]
  | run run rest hne hrun hrest ih =>
      have hrest' : ∀ id' ∈ (rest ++ id :: post).head?, (cached id').isSome := by
        cases rest with
        | nil =>
            rintro id' ⟨⟩
            exact hid
        | cons id' rest => exact hrest
      rw [List.append_assoc, assemble_run hne hrun hrest', assemble_run hne hrun hrest, ih]
      simp [Option.map_bind, Option.bind_map, Option.bind_assoc, Function.comp_def]

/-- A cached token of the list changes the text: it starts with a byte order mark, or it has no
bytes and stands inside a character. -/
def Mangles (core : DecodeCore) (cached : ℕ → Option (List Char)) (ids : List ℕ) : Prop :=
  ∃ pre id post, ids = pre ++ id :: post ∧ (cached id).isSome ∧
    ([0xEF, 0xBB, 0xBF] <+: bytesAt core id ∨
      bytesAt core id = [] ∧ ¬ ChunkCut (bytesOf core pre) (bytesOf core post))

/-- The cut in front of a cached token is between the chunks. -/
lemma chunkCut_cached {pre post : List ℕ} (htexts : Texts core cached) (hid : (cached id).isSome)
    (hempty : bytesAt core id = [] → ChunkCut (bytesOf core pre) (bytesOf core post)) :
    ChunkCut (bytesOf core pre) (bytesOf core (id :: post)) := by
  obtain ⟨text, htext⟩ := Option.isSome_iff_exists.mp hid
  obtain ⟨t, ht, -⟩ := htexts id text htext
  rw [bytesOf_cons]
  by_cases hnil : bytesAt core id = []
  · rw [hnil]
    exact hempty hnil
  · obtain ⟨b, bytes, hbytes⟩ := List.exists_cons_of_ne_nil hnil
    rw [hbytes]
    refine chunkCut_of_head _ fun b' hb' => ?_
    obtain rfl := Option.some_inj.mp hb'
    exact isContinuation_textBytes (bytesAt_eq ht ▸ hbytes)

/-- Pieces without such tokens are the text of the whole. -/
lemma assemble_exact (htexts : Texts core cached) (ids : List ℕ) (hknown : Known core ids)
    (hexact : ¬ Mangles core cached ids) :
    assemble core cached ids = some (fromUtf8Lossy (bytesOf core ids)) := by
  induction ids using runs_induction cached with
  | nil => rw [assemble]; rfl
  | single id ids text hid ih =>
      obtain ⟨t, ht, rfl⟩ := htexts id text hid
      have hsome : (cached id).isSome := by rw [hid]; rfl
      have hrest : ¬ Mangles core cached ids := by
        rintro ⟨pre, id', post, rfl, hid', hmangled⟩
        refine hexact ⟨id :: pre, id', post, rfl, hid', hmangled.imp_right fun h => ⟨h.1, fun hcut => h.2 ?_⟩⟩
        rw [bytesOf_cons, bytesAt_eq ht] at hcut
        exact (chunkCut_of_text t _).of_append hcut
      have htext : t = dropMark t := by
        obtain ⟨hhead, -⟩ | ⟨-, heq⟩ := dropMark_cases t
        · refine absurd ⟨[], id, ids, rfl, hsome, .inl ?_⟩ hexact
          rwa [bytesAt_eq ht, mark_prefix_iff]
        · exact heq
      rw [assemble_single hid, ih (fun id' hid' => hknown id' (.tail _ hid')) hrest, Option.map_some,
        bytesOf_cons, bytesAt_eq ht, fromUtf8Lossy_append_of_text, ← htext]
  | run run rest hne hrun hrest ih =>
      have hcut : ChunkCut (bytesOf core run) (bytesOf core rest) := by
        cases rest with
        | nil => exact chunkCut_of_head _ fun b hb => absurd hb (by simp [bytesOf])
        | cons id post =>
            refine chunkCut_cached htexts (hrest id rfl) fun hnil => ?_
            by_contra hcut
            exact hexact ⟨run, id, post, rfl, hrest id rfl, .inr ⟨hnil, hcut⟩⟩
      have hrest' : ¬ Mangles core cached rest := by
        rintro ⟨pre, id', post, rfl, hid', hmangled⟩
        refine hexact ⟨run ++ pre, id', post, (List.append_assoc _ _ _).symm, hid',
          hmangled.imp_right fun h => ⟨h.1, fun hcut' => h.2 ?_⟩⟩
        rw [bytesOf_append, bytesOf_cons, h.1, List.nil_append] at hcut
        rw [bytesOf_append] at hcut'
        exact hcut.of_append hcut'
      have hdecode := core.decode_eq run fun id hid => hknown id (List.mem_append_left _ hid)
      rw [assemble_run hne hrun hrest, hdecode, Option.bind_some,
        ih (fun id hid => hknown id (List.mem_append_right _ hid)) hrest', Option.map_some,
        bytesOf_append, hcut.fromUtf8Lossy_append]
      rfl

/-- The pieces are the text of the whole exactly when no cached token changes it. -/
theorem assemble_eq_iff (htexts : Texts core cached) (hknown : Known core ids) :
    assemble core cached ids = some (fromUtf8Lossy (bytesOf core ids)) ↔
      ¬ Mangles core cached ids := by
  refine ⟨?_, assemble_exact htexts ids hknown⟩
  rintro hall ⟨pre, id, post, rfl, hid, hmangled⟩
  obtain ⟨out, hout, -, hlt, -⟩ := assemble_bounds htexts _ hknown
  obtain rfl := Option.some_inj.mp (hout.symm.trans hall)
  have hunmarked : ∀ id' ∈ pre ++ id :: post, ¬ Marked core cached id' := fun id' hid' hmark =>
    absurd (hlt ⟨id', hid', hmark⟩) (Nat.lt_irrefl _)
  obtain hmark | ⟨hnil, hcut⟩ := hmangled
  · exact hunmarked id (by simp) ⟨hid, hmark⟩
  · -- the pieces on both sides have more characters than the whole
    obtain ⟨left, hleft, -, -, hleftLen⟩ := assemble_bounds htexts pre fun id' hid' =>
      hknown id' (List.mem_append_left _ hid')
    obtain ⟨right, hright, -, -, hrightLen⟩ := assemble_bounds htexts (id :: post) fun id' hid' =>
      hknown id' (List.mem_append_right _ hid')
    have hleftLe := hleftLen fun id' hid' => hunmarked id' (List.mem_append_left _ hid')
    have hrightLe := hrightLen fun id' hid' => hunmarked id' (List.mem_append_right _ hid')
    rw [assemble_append hid, hleft, Option.bind_some, hright, Option.map_some] at hout
    obtain hcut' | ⟨-, hstrict, -⟩ := chunkCut_or (bytesOf core pre) (bytesOf core post)
    · exact hcut hcut'
    · have hlen := congrArg List.length (Option.some_inj.mp hout)
      rw [bytesOf_append, bytesOf_cons, hnil, List.nil_append, List.length_append] at hlen
      rw [bytesOf_cons, hnil, List.nil_append] at hrightLe
      omega

lemma not_mangles_nil : ¬ Mangles core cached [] := by
  rintro ⟨pre, id, post, heq, -⟩
  exact absurd heq.symm (List.append_ne_nil_of_right_ne_nil _ (List.cons_ne_nil _ _))

/-- In every run of calls, `decode` is the text of the whole list, unless the cache is active and
one of its tokens changes the text. -/
theorem reached_decode_iff (h : Reached core limits s) (hknown : Known core ids) :
    (s.decode core limits ids).2 = some (fromUtf8Lossy (bytesOf core ids)) ↔
      ¬ ∃ s', s.initializeWith core limits ids = .ok s' ∧ s'.active = true ∧
        Mangles core s'.cachedString ids := by
  have hwhole : core.decode ids = some (fromUtf8Lossy (bytesOf core ids)) :=
    core.decode_eq ids hknown
  by_cases hnil : ids = []
  · subst hnil
    rw [HotStrings.decode, if_pos rfl, hwhole]
    exact iff_of_true rfl fun ⟨_, _, _, hmangles⟩ => not_mangles_nil hmangles
  · obtain ⟨s', hrun, hsound, -⟩ := initializeWith_ok h.sound hknown hnil
    have hcond : (∃ s'', s.initializeWith core limits ids = .ok s'' ∧ s''.active = true ∧
        Mangles core s''.cachedString ids) ↔ s'.active = true ∧ Mangles core s'.cachedString ids := by
      rw [hrun]
      exact ⟨fun ⟨_, heq, h⟩ => Except.ok.inj heq ▸ h, fun h => ⟨s', rfl, h⟩⟩
    rw [hcond, HotStrings.decode, if_neg hnil, hrun]
    dsimp only
    by_cases hactive : s'.active = true
    · rw [if_pos hactive, assemble_eq_iff hsound.cached hknown, and_iff_right hactive]
    · rw [if_neg hactive, hwhole]
      exact iff_of_true rfl fun h => hactive h.1

/-- The core over a list of tokens. -/
def listCore (tokens : List (List UInt8)) : DecodeCore where
  vocabSize := some tokens.length
  tokenBytes id := tokens[id]?
  decode ids :=
    if ∀ id ∈ ids, (tokens[id]?).isSome then
      some (fromUtf8Lossy (ids.flatMap fun id => (tokens[id]?).getD []))
    else none
  lt_vocabSize id size h heq := by
    rw [← Option.some_inj.mp heq]
    exact (List.getElem?_eq_some_iff.mp (Option.eq_some_of_isSome h)).1
  decode_eq ids h := if_pos h

/-- Limits that keep a few strings, when they cover half of the first list. -/
def halfLimits : HotLimits where
  maxEntries := 4
  maxPayloadBytes := 64
  maxIndexBytes := 64
  covers covered observed := observed ≤ 2 * covered
  maxEntries_pos := Nat.succ_pos 3

theorem reached_decode_iff_ab : ((new (listCore [[0x61], [0xC3]]) halfLimits).decode
      (listCore [[0x61], [0xC3]]) halfLimits [0, 1, 0]).2 =
        some (fromUtf8Lossy (bytesOf (listCore [[0x61], [0xC3]]) [0, 1, 0])) ↔
    ¬ ∃ s', (new (listCore [[0x61], [0xC3]]) halfLimits).initializeWith (listCore [[0x61], [0xC3]])
        halfLimits [0, 1, 0] = .ok s' ∧ s'.active = true ∧
      Mangles (listCore [[0x61], [0xC3]]) s'.cachedString [0, 1, 0] :=
  reached_decode_iff .new (by unfold Known; decide)

/-- A byte order mark that is a token is lost. -/
theorem decode_mark_lost : Known (listCore [[0xEF, 0xBB, 0xBF]]) [0] ∧
    ((new (listCore [[0xEF, 0xBB, 0xBF]]) halfLimits).decode (listCore [[0xEF, 0xBB, 0xBF]])
      halfLimits [0]).2 = some [] ∧
    fromUtf8Lossy (bytesOf (listCore [[0xEF, 0xBB, 0xBF]]) [0]) = ['\ufeff'] := by
  refine ⟨by unfold Known; decide, ?_, by decide⟩
  rw [HotStrings.decode, if_neg (by decide)]
  have hrun : ∃ s', (new (listCore [[0xEF, 0xBB, 0xBF]]) halfLimits).initializeWith
      (listCore [[0xEF, 0xBB, 0xBF]]) halfLimits [0] = .ok s' ∧ s'.active = true ∧
        s'.cachedString 0 = some [] := ⟨_, rfl, by decide, by decide⟩
  obtain ⟨s', hrun, hactive, hcached⟩ := hrun
  rw [hrun]
  dsimp only
  rw [if_pos hactive, assemble_single hcached, assemble]
  rfl

end HotStrings

end Hypertok
