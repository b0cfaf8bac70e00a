import Hypertok.Bpe.ByteTable
import Hypertok.Machine.Utf8

/-!
Encoding of one long pretoken in overlapping chunks: `encode_overlap` and
`encode_overlap_batched`.

The chunks are encoded on their own. From left to right, two neighbours are
spliced where their token boundaries agree over the whole overlap; where they do
not, the two are encoded again as one enlarged chunk.

* `chunkRanges_chained`: the ranges cover the pretoken and overlap in `omega` bytes.
* `Exact`: a chunk that holds the reference encoding of its range. `Exact.splice` is
  the step: two exact chunks whose boundaries agree splice to an exact chunk.
* `encodeOverlapBatched_exact`, `encodeOverlap_exact`: the ids are those of the whole
  pretoken.
-/

namespace Hypertok

open PairMerge Machine

/-! ### The data -/

/-- `DEFAULT_CHUNK_MULTIPLIER`. -/
def defaultChunkMultiplier : ℕ := 32

/-- `ChunkConfig`. -/
structure ChunkConfig where
  chunkSize : Option ℕ

/-- `Range<usize>`. -/
structure ByteRange where
  start : ℕ
  stop : ℕ
  deriving DecidableEq, Repr

/-- `range.len()`. -/
def ByteRange.len (r : ByteRange) : ℕ := r.stop - r.start

/-- `&bytes[range]`. -/
def ByteRange.slice {α : Type} (r : ByteRange) (bytes : List α) : List α :=
  (bytes.take r.stop).drop r.start

/-- `ChunkedEncoding`. -/
structure ChunkedEncoding where
  ids : List TokenId
  initialChunks : ℕ
  enlargements : ℕ
  largestEncodedSpan : ℕ
  deriving DecidableEq, Repr

/-- `ChunkError`. -/
inductive ChunkError
  | invalidOmega
  | chunkSizeOverflow
  | chunkTooSmall (chunkSize minimum : ℕ)
  | invalidUtf8Pretoken
  | invalidGeometry
  | encodeResultCount (expected actual : ℕ)
  | encoderUnavailable
  | unknownTokenId (id : TokenId)
  | tokenCoverage (rangeStart rangeEnd coveredEnd : ℕ)
  deriving DecidableEq, Repr

/-- How a call fails to return `Ok`: with an error, or because it panics or has spent
its fuel. -/
inductive ChunkFailure
  | error (e : ChunkError)
  | stuck
  deriving DecidableEq, Repr

/-- `EncodedChunk`. -/
structure EncodedChunk where
  range : ByteRange
  ids : List TokenId
  boundaries : List ℕ
  deriving DecidableEq, Repr

/-- `OverlapReconciliation`. -/
structure OverlapReconciliation where
  left : Option EncodedChunk
  right : List EncodedChunk
  pendingRange : Option ByteRange
  initialChunks : ℕ
  enlargements : ℕ
  largestEncodedSpan : ℕ
  deriving DecidableEq, Repr

/-! ### The ranges -/

/-- `while end < len && !text.is_char_boundary(end) { end += 1 }`, at most `n` times. -/
def growToBoundary (pretoken : List UInt8) : ℕ → ℕ → ℕ
  | 0, stop => stop
  | n + 1, stop =>
      if stop < pretoken.length ∧ ¬ isCharBoundary pretoken stop then
        growToBoundary pretoken n (stop + 1)
      else stop

/-- `while next > start && !text.is_char_boundary(next) { next -= 1 }`. -/
def shrinkToBoundary (pretoken : List UInt8) (start : ℕ) : ℕ → ℕ
  | 0 => 0
  | next + 1 =>
      if start < next + 1 ∧ ¬ isCharBoundary pretoken (next + 1) then
        shrinkToBoundary pretoken start next
      else next + 1

/-- The loop of `chunk_ranges` from `start`, for at most `n` ranges. The largest `usize`
is `usizeMax`. -/
def chunkRangesFrom (usizeMax : ℕ) (pretoken : List UInt8) (chunkSize omega : ℕ)
    (codepointEdges : Bool) : ℕ → ℕ → Except ChunkFailure (List ByteRange)
  | 0, _ => .error .stuck
  | n + 1, start =>
      if start < pretoken.length then
        let stop := min (min (start + chunkSize) usizeMax) pretoken.length
        let stop := if codepointEdges then growToBoundary pretoken pretoken.length stop else stop
        if stop = pretoken.length then .ok [⟨start, stop⟩]
        else
          let next := stop - omega
          let next := if codepointEdges then shrinkToBoundary pretoken start next else next
          if next ≤ start then .error (.error .invalidGeometry)
          else (chunkRangesFrom usizeMax pretoken chunkSize omega codepointEdges n next).map
            (⟨start, stop⟩ :: ·)
      else .ok []

/-- `chunk_ranges`. -/
def chunkRanges (usizeMax : ℕ) (pretoken : List UInt8) (chunkSize omega : ℕ)
    (codepointEdges : Bool) : Except ChunkFailure (List ByteRange) :=
  if pretoken.length ≤ chunkSize then .ok [⟨0, pretoken.length⟩]
  else chunkRangesFrom usizeMax pretoken chunkSize omega codepointEdges (pretoken.length + 1) 0

/-- `usize::checked_mul`, with the error of its callers here. -/
def checkedMul (usizeMax a b : ℕ) : Except ChunkFailure ℕ :=
  if a * b ≤ usizeMax then .ok (a * b) else .error (.error .chunkSizeOverflow)

/-- `overlap_ranges`. -/
def overlapRanges (usizeMax : ℕ) (pretoken : List UInt8) (omega : ℕ) (config : ChunkConfig)
    (codepointEdges : Bool) : Except ChunkFailure (List ByteRange) := do
  if usizeMax < omega then throw (.error .chunkSizeOverflow)
  if omega = 0 then throw (.error .invalidOmega)
  if codepointEdges ∧ ¬ isUtf8 pretoken then throw (.error .invalidUtf8Pretoken)
  let minimum ← checkedMul usizeMax omega 2
  let chunkSize ←
    match config.chunkSize with
    | some value => pure value
    | none => checkedMul usizeMax omega defaultChunkMultiplier
  if chunkSize < minimum then throw (.error (.chunkTooSmall chunkSize minimum))
  chunkRanges usizeMax pretoken chunkSize omega codepointEdges

/-! ### Reconciliation -/

section Reconciliation

variable (usizeMax : ℕ) (tokenLen : TokenId → Option ℕ)

/-- One turn of the loop of `encoded_chunk`: the cursor moves over the token `id`. -/
def coverToken (range : ByteRange) : ℕ × List ℕ → TokenId → Except ChunkFailure (ℕ × List ℕ)
  | (cursor, boundaries), id =>
      match tokenLen id with
      | none => .error (.error (.unknownTokenId id))
      | some length =>
          if usizeMax < cursor + length then
            .error (.error (.tokenCoverage range.start range.stop usizeMax))
          else if range.stop < cursor + length then
            .error (.error (.tokenCoverage range.start range.stop (cursor + length)))
          else .ok (cursor + length, boundaries ++ [cursor + length])

/-- `encoded_chunk`: the token boundaries, with the check that the tokens cover the
range. -/
def encodedChunk (range : ByteRange) (ids : List TokenId) : Except ChunkFailure EncodedChunk := do
  let (cursor, boundaries) ←
    ids.foldlM (coverToken usizeMax tokenLen range) (range.start, [range.start])
  if cursor ≠ range.stop then
    throw (.error (.tokenCoverage range.start range.stop cursor))
  return { range, ids, boundaries }

/-- `encoded_chunks`. -/
def encodedChunks (ranges : List ByteRange) (encoded : List (List TokenId)) :
    Except ChunkFailure (List EncodedChunk) := do
  if encoded.length ≠ ranges.length then
    throw (.error (.encodeResultCount ranges.length encoded.length))
  (ranges.zip encoded).mapM fun (range, ids) => encodedChunk usizeMax tokenLen range ids

/-- `boundaries_in`. -/
def boundariesIn (chunk : EncodedChunk) (start stop : ℕ) : List ℕ :=
  chunk.boundaries.filter fun position => start ≤ position ∧ position ≤ stop

/-- `splice`: the ids of `left` before the boundary and those of `right` after it. -/
def splice (left right : EncodedChunk) (boundary : ℕ) : Except ChunkFailure EncodedChunk :=
  match left.boundaries.idxOf? boundary, right.boundaries.idxOf? boundary with
  | some leftIndex, some rightIndex =>
      encodedChunk usizeMax tokenLen ⟨left.range.start, right.range.stop⟩
        (left.ids.take leftIndex ++ right.ids.drop rightIndex)
  | _, _ => .error .stuck

/-- The loop of `advance` over the chunks on the right. -/
def advanceOver : List EncodedChunk → OverlapReconciliation →
    Except ChunkFailure OverlapReconciliation
  | [], st => .ok { st with right := [] }
  | right :: rest, st =>
      let st := { st with
        right := rest
        largestEncodedSpan := max st.largestEncodedSpan right.range.len }
      match st.left with
      | none => .error (.error .invalidGeometry)
      | some left =>
          let overlapStart := right.range.start
          let overlapEnd := min left.range.stop right.range.stop
          let leftOverlap := boundariesIn left overlapStart overlapEnd
          let rightOverlap := boundariesIn right overlapStart overlapEnd
          match leftOverlap with
          | boundary :: _ =>
              if leftOverlap = rightOverlap then do
                let left ← splice usizeMax tokenLen left right boundary
                advanceOver rest { st with left := some left }
              else .ok { st with
                left := none
                pendingRange := some ⟨left.range.start, max right.range.stop left.range.stop⟩
                enlargements := st.enlargements + 1 }
          | [] => .ok { st with
              left := none
              pendingRange := some ⟨left.range.start, max right.range.stop left.range.stop⟩
              enlargements := st.enlargements + 1 }

/-- `OverlapReconciliation::advance`. -/
def OverlapReconciliation.advance (st : OverlapReconciliation) :
    Except ChunkFailure OverlapReconciliation :=
  advanceOver usizeMax tokenLen st.right st

/-- `OverlapReconciliation::new`. -/
def OverlapReconciliation.new (ranges : List ByteRange) (encoded : List (List TokenId)) :
    Except ChunkFailure OverlapReconciliation := do
  match ← encodedChunks usizeMax tokenLen ranges encoded with
  | [] => throw .stuck
  | left :: right =>
      OverlapReconciliation.advance usizeMax tokenLen
        { left := some left
          right := right
          pendingRange := none
          initialChunks := ranges.length
          enlargements := 0
          largestEncodedSpan := left.range.len }

/-- `OverlapReconciliation::accept_enlargement`. -/
def OverlapReconciliation.acceptEnlargement (st : OverlapReconciliation) (ids : List TokenId) :
    Except ChunkFailure OverlapReconciliation := do
  match st.pendingRange with
  | none => throw (.error .invalidGeometry)
  | some range =>
      let chunk ← encodedChunk usizeMax tokenLen range ids
      OverlapReconciliation.advance usizeMax tokenLen
        { st with
          pendingRange := none
          largestEncodedSpan := max st.largestEncodedSpan chunk.range.len
          left := some chunk }

/-- `OverlapReconciliation::finish`. -/
def OverlapReconciliation.finish (st : OverlapReconciliation) :
    Except ChunkFailure ChunkedEncoding :=
  if st.pendingRange.isSome ∨ st.right ≠ [] then .error (.error .invalidGeometry)
  else
    match st.left with
    | none => .error (.error .invalidGeometry)
    | some left =>
        .ok { ids := left.ids
              initialChunks := st.initialChunks
              enlargements := st.enlargements
              largestEncodedSpan := st.largestEncodedSpan }

/-- The loop of `encode_overlap_batched`: encode the requested range, at most `n` times. -/
def reconcile (encodeMany : List ByteRange → Except ChunkFailure (List (List TokenId))) :
    ℕ → OverlapReconciliation → Except ChunkFailure ChunkedEncoding
  | 0, _ => .error .stuck
  | n + 1, st =>
      match st.pendingRange with
      | none => st.finish
      | some range => do
          match ← encodeMany [range] with
          | [ids] => reconcile encodeMany n (← st.acceptEnlargement usizeMax tokenLen ids)
          | encoded => throw (.error (.encodeResultCount 1 encoded.length))

end Reconciliation

/-- `encode_overlap_batched`. Every turn of its loop uses up a chunk on the right. -/
def encodeOverlapBatched (usizeMax : ℕ) (pretoken : List UInt8) (omega : ℕ) (config : ChunkConfig)
    (codepointEdges : Bool)
    (encodeMany : List ByteRange → Except ChunkFailure (List (List TokenId)))
    (tokenLen : TokenId → Option ℕ) : Except ChunkFailure ChunkedEncoding := do
  let ranges ← overlapRanges usizeMax pretoken omega config codepointEdges
  let initialIds ← encodeMany ranges
  let st ← OverlapReconciliation.new usizeMax tokenLen ranges initialIds
  reconcile usizeMax tokenLen encodeMany (ranges.length + 1) st

/-- `encode_overlap`. -/
def encodeOverlap (usizeMax : ℕ) (pretoken : List UInt8) (omega : ℕ) (config : ChunkConfig)
    (codepointEdges : Bool) (encode : List UInt8 → Except ChunkFailure (List TokenId))
    (tokenLen : TokenId → Option ℕ) : Except ChunkFailure ChunkedEncoding :=
  encodeOverlapBatched usizeMax pretoken omega config codepointEdges
    (fun ranges => ranges.mapM fun range => encode (range.slice pretoken)) tokenLen

/-! ### The ranges cover the pretoken -/

/-- After a chunk that ends at `stop`, each range starts before the end of its left
neighbour and ends behind it, and the last one ends at `n`. -/
def Chained (n : ℕ) : ℕ → List ByteRange → Prop
  | stop, [] => stop = n
  | stop, r :: rs => r.start < stop ∧ stop ≤ r.stop ∧ r.stop ≤ n ∧ Chained n r.stop rs

variable {usizeMax omega chunkSize : ℕ} {pretoken : List UInt8}

/-- The loop of `chunk_ranges` covers what is left of the pretoken. -/
lemma chunkRangesFrom_chained (h0 : 0 < omega) (hchunk : omega * 2 ≤ chunkSize)
    (hlen : pretoken.length ≤ usizeMax) {k : ℕ} (start : ℕ) (hstart : start < pretoken.length)
    (hk : pretoken.length - start ≤ k) :
    ∃ stop rest, chunkRangesFrom usizeMax pretoken chunkSize omega false k start =
        .ok (⟨start, stop⟩ :: rest) ∧ min (start + chunkSize) pretoken.length ≤ stop ∧
      stop ≤ pretoken.length ∧ Chained pretoken.length stop rest := by
  induction k generalizing start with
  | zero => omega
  | succ k ih =>
      simp only [chunkRangesFrom, if_pos hstart, Bool.false_eq_true, if_false]
      have hstop : min (min (start + chunkSize) usizeMax) pretoken.length =
          min (start + chunkSize) pretoken.length := by omega
      rw [hstop]
      by_cases hend : min (start + chunkSize) pretoken.length = pretoken.length
      · exact ⟨_, [], by simp only [if_pos hend], le_rfl, by omega, by simp only [Chained]; omega⟩
      · have hnext : ¬ min (start + chunkSize) pretoken.length - omega ≤ start := by omega
        obtain ⟨stop, rest, hrest, hge, hle, hchain⟩ :=
          ih (min (start + chunkSize) pretoken.length - omega) (by omega) (by omega)
        refine ⟨_, _, by simp only [if_neg hend, if_neg hnext, hrest]; rfl, le_rfl, by omega, ?_⟩
        exact ⟨by simp only; omega, by simp only; omega, hle, hchain⟩

/-- The ranges of a pretoken start at 0 and are chained. -/
theorem overlapRanges_chained (pretoken : List UInt8) {config : ChunkConfig} (h0 : 0 < omega)
    (hchunk : omega * 2 ≤ config.chunkSize.getD (omega * defaultChunkMultiplier))
    (hmax : config.chunkSize.getD (omega * defaultChunkMultiplier) ≤ usizeMax)
    (hlen : pretoken.length ≤ usizeMax) :
    ∃ stop rest, overlapRanges usizeMax pretoken omega config false = .ok (⟨0, stop⟩ :: rest) ∧
      stop ≤ pretoken.length ∧ Chained pretoken.length stop rest := by
  have hchunks : ∃ stop rest, chunkRanges usizeMax pretoken
      (config.chunkSize.getD (omega * defaultChunkMultiplier)) omega false =
        .ok (⟨0, stop⟩ :: rest) ∧
      stop ≤ pretoken.length ∧ Chained pretoken.length stop rest := by
    by_cases hsmall :
        pretoken.length ≤ config.chunkSize.getD (omega * defaultChunkMultiplier)
    · exact ⟨_, [], by simp only [chunkRanges, if_pos hsmall], le_rfl, rfl⟩
    · simp only [chunkRanges, if_neg hsmall]
      obtain ⟨stop, rest, hrest, -, hle, hchain⟩ := chunkRangesFrom_chained h0 hchunk hlen
        (k := pretoken.length + 1) 0 (by omega) (by omega)
      exact ⟨stop, rest, hrest, hle, hchain⟩
  have h1 : ¬ usizeMax < omega := by omega
  have h2 : omega * 2 ≤ usizeMax := by omega
  have h3 : ¬ config.chunkSize.getD (omega * defaultChunkMultiplier) < omega * 2 := by omega
  obtain ⟨_ | value⟩ := config
  · simp only [Option.getD_none] at hchunks hmax h3
    simpa [overlapRanges, checkedMul, h1, h2, h0.ne', hmax, h3] using hchunks
  · simp only [Option.getD_some] at hchunks h3
    simpa [overlapRanges, checkedMul, h1, h2, h0.ne', h3] using hchunks

/-! ### Exact chunks -/

namespace ByteRange

variable {α : Type} {start mid stop : ℕ} {bytes : List α}

lemma length_slice {r : ByteRange} (h : r.stop ≤ bytes.length) :
    (r.slice bytes).length = r.stop - r.start := by
  simp [slice, h]

/-- Neighbouring slices join. -/
lemma slice_append (h₁ : start ≤ mid) (h₂ : mid ≤ stop) :
    (⟨start, mid⟩ : ByteRange).slice bytes ++ (⟨mid, stop⟩ : ByteRange).slice bytes =
      (⟨start, stop⟩ : ByteRange).slice bytes := by
  have hstop : stop - start = (mid - start) + (stop - mid) := by omega
  have hdrop : bytes.drop mid = (bytes.drop start).drop (mid - start) := by
    rw [List.drop_drop, Nat.add_sub_cancel' h₁]
  simp only [slice, List.drop_take, hstop, List.take_add, hdrop]

lemma slice_all (bytes : List α) : (⟨0, bytes.length⟩ : ByteRange).slice bytes = bytes := by
  simp [slice]

end ByteRange

/-- The token boundaries of a sequence of tokens that starts at the cursor. -/
def boundariesFrom (w : TokenId → ℕ) : ℕ → List TokenId → List ℕ
  | cursor, [] => [cursor]
  | cursor, id :: ids => cursor :: boundariesFrom w (cursor + w id) ids

/-- The `k`-th boundary lies behind the first `k` tokens. -/
lemma boundariesFrom_getElem? {w : TokenId → ℕ} {cursor k p : ℕ} {ids : List TokenId} :
    (boundariesFrom w cursor ids)[k]? = some p ↔
      k ≤ ids.length ∧ p = cursor + weight w (ids.take k) := by
  induction ids generalizing cursor k with
  | nil => cases k <;> simp [boundariesFrom, eq_comm]
  | cons id ids ih =>
      cases k with
      | zero => simp [boundariesFrom, eq_comm]
      | succ k => simp [boundariesFrom, ih, Nat.add_assoc]

variable {T : ByteTable} {range : ByteRange}

/-- The loop of `encoded_chunk` over known tokens that fit into the range. -/
lemma foldlM_coverToken {ids : List TokenId} (hids : ∀ id ∈ ids, T.Known id) (cursor : ℕ)
    (seen : List ℕ) (hfit : cursor + weight T.len ids ≤ range.stop)
    (hmax : range.stop ≤ usizeMax) :
    ids.foldlM (coverToken usizeMax T.tokenLen range) (cursor, seen ++ [cursor]) =
      .ok (cursor + weight T.len ids, seen ++ boundariesFrom T.len cursor ids) := by
  induction ids generalizing cursor seen with
  | nil => rfl
  | cons id ids ih =>
      simp only [List.mem_cons, forall_eq_or_imp] at hids
      simp only [weight_cons] at hfit
      have h1 : ¬ usizeMax < cursor + T.len id := by omega
      have h2 : ¬ range.stop < cursor + T.len id := by omega
      simp only [List.foldlM_cons, coverToken, hids.1.tokenLen, if_neg h1, if_neg h2, ok_bind]
      rw [ih hids.2 _ _ (by omega), weight_cons, Nat.add_assoc, List.append_assoc]
      rfl

/-- A chunk that holds the reference encoding of its range. -/
structure Exact (T : ByteTable) (pretoken : List UInt8) (chunk : EncodedChunk) : Prop where
  le : chunk.range.start ≤ chunk.range.stop
  stop_le : chunk.range.stop ≤ pretoken.length
  ids : chunk.ids = T.encode (chunk.range.slice pretoken)
  boundaries : chunk.boundaries = boundariesFrom T.len chunk.range.start chunk.ids

/-- The exact chunk of a range. -/
def exactChunk (T : ByteTable) (pretoken : List UInt8) (range : ByteRange) : EncodedChunk :=
  { range := range
    ids := T.encode (range.slice pretoken)
    boundaries := boundariesFrom T.len range.start (T.encode (range.slice pretoken)) }

lemma exactChunk_exact (range : ByteRange) (hle : range.start ≤ range.stop)
    (hstop : range.stop ≤ pretoken.length) : Exact T pretoken (exactChunk T pretoken range) := ⟨hle, hstop, rfl, rfl⟩

/-- The encoding of a range is accepted as a chunk. -/
lemma encodedChunk_encode (range : ByteRange) (hle : range.start ≤ range.stop)
    (hstop : range.stop ≤ pretoken.length) (hmax : pretoken.length ≤ usizeMax) :
    encodedChunk usizeMax T.tokenLen range (T.encode (range.slice pretoken)) =
      .ok (exactChunk T pretoken range) := by
  obtain ⟨hknown, hweight⟩ := T.encode_known (range.slice pretoken)
  rw [ByteRange.length_slice hstop] at hweight
  have hfold := foldlM_coverToken hknown range.start [] (by omega) (hstop.trans hmax)
  have hend : range.start + weight T.len (T.encode (range.slice pretoken)) = range.stop := by omega
  simp only [List.nil_append, hend] at hfold
  simp [encodedChunk, hfold]
  rfl

/-! ### Splicing -/

variable {left right : EncodedChunk}

lemma mem_boundariesIn {chunk : EncodedChunk} {start stop p : ℕ} :
    p ∈ boundariesIn chunk start stop ↔ p ∈ chunk.boundaries ∧ start ≤ p ∧ p ≤ stop := by
  simp [boundariesIn]

/-- A boundary splits the tokens of an exact chunk, at the weight it lies behind the
start. -/
lemma Exact.boundary {chunk : EncodedChunk} (h : Exact T pretoken chunk) {p : ℕ}
    (hp : p ∈ chunk.boundaries) :
    ∃ k, chunk.boundaries.idxOf? p = some k ∧
      chunk.range.start + weight T.len (chunk.ids.take k) = p := by
  obtain ⟨k, hk⟩ := Option.isSome_iff_exists.mp (List.isSome_idxOf?.mpr hp)
  obtain ⟨hlt, hget, -⟩ := List.idxOf?_eq_some_iff.mp hk
  have hsome : chunk.boundaries[k]? = some p := hget ▸ List.getElem?_eq_getElem hlt
  rw [h.boundaries] at hsome
  exact ⟨k, hk, (boundariesFrom_getElem?.mp hsome).2.symm⟩

/-- The boundary at the end of an exact chunk. -/
lemma Exact.stop_mem {chunk : EncodedChunk} (h : Exact T pretoken chunk) :
    chunk.range.stop ∈ chunk.boundaries := by
  have hweight := (T.encode_known (chunk.range.slice pretoken)).2
  rw [← h.ids, ByteRange.length_slice h.stop_le] at hweight
  rw [h.boundaries]
  refine List.mem_of_getElem? (boundariesFrom_getElem?.mpr ⟨le_refl chunk.ids.length, ?_⟩)
  rw [List.take_length, hweight]
  have := h.le
  omega

/-- The boundary at the start of an exact chunk is the first one. -/
lemma Exact.boundaries_eq_cons {chunk : EncodedChunk} (h : Exact T pretoken chunk) :
    ∃ rest, chunk.boundaries = chunk.range.start :: rest := by
  rw [h.boundaries]
  cases chunk.ids <;> simp [boundariesFrom]

/-- Two exact chunks whose boundaries agree in the overlap splice to an exact chunk. -/
theorem Exact.splice (hleft : Exact T pretoken left) (hright : Exact T pretoken right)
    (hmax : pretoken.length ≤ usizeMax) (h₁ : left.range.start ≤ right.range.start)
    (h₂ : right.range.start < left.range.stop) (h₃ : left.range.stop ≤ right.range.stop)
    {boundary : ℕ} {rest : List ℕ}
    (hagree : boundariesIn left right.range.start left.range.stop = boundary :: rest)
    (hagree' : boundariesIn right right.range.start left.range.stop = boundary :: rest) :
    ∃ chunk, splice usizeMax T.tokenLen left right boundary = .ok chunk ∧
      chunk.range = ⟨left.range.start, right.range.stop⟩ ∧ Exact T pretoken chunk := by
  -- the first common boundary is the start of the overlap
  obtain ⟨tail, htail⟩ := hright.boundaries_eq_cons
  have hstart : boundary = right.range.start := by
    simp [boundariesIn, htail, h₂.le] at hagree'
    exact hagree'.1.symm
  subst hstart
  have hmem : right.range.start ∈ left.boundaries :=
    (mem_boundariesIn.mp (by rw [hagree]; simp)).1
  obtain ⟨leftIndex, hindex, hX⟩ := hleft.boundary hmem
  -- and its end is a boundary on the right as well
  have hend : left.range.stop ∈ right.boundaries := by
    have hin : left.range.stop ∈ boundariesIn left right.range.start left.range.stop :=
      mem_boundariesIn.mpr ⟨hleft.stop_mem, h₂.le, le_rfl⟩
    rw [hagree, ← hagree'] at hin
    exact (mem_boundariesIn.mp hin).1
  obtain ⟨rightIndex, -, hO⟩ := hright.boundary hend
  have hids : left.ids.take leftIndex ++ right.ids =
      T.encode ((⟨left.range.start, right.range.stop⟩ : ByteRange).slice pretoken) := by
    let x := (⟨left.range.start, right.range.start⟩ : ByteRange).slice pretoken
    let o := (⟨right.range.start, left.range.stop⟩ : ByteRange).slice pretoken
    let z := (⟨left.range.stop, right.range.stop⟩ : ByteRange).slice pretoken
    have hxlen : x.length = right.range.start - left.range.start :=
      ByteRange.length_slice (h₂.le.trans hleft.stop_le)
    have holen : o.length = left.range.stop - right.range.start :=
      ByteRange.length_slice hleft.stop_le
    have hxo : left.ids = bpe T.table (x.map T.base ++ o.map T.base) := by
      rw [← List.map_append, ByteRange.slice_append h₁ h₂.le]
      exact hleft.ids
    have hoz : right.ids = bpe T.table (o.map T.base ++ z.map T.base) := by
      rw [← List.map_append, ByteRange.slice_append h₂.le h₃]
      exact hright.ids
    have hne : o.map T.base ≠ [] := by
      intro h
      have := congrArg List.length h
      simp only [List.length_map, List.length_nil] at this
      omega
    have hknown : ∀ id ∈ x.map T.base ++ o.map T.base ++ z.map T.base, T.Known id := by
      simp only [List.mem_append, List.mem_map]
      rintro _ ((⟨b, -, rfl⟩ | ⟨b, -, rfl⟩) | ⟨b, -, rfl⟩) <;> exact ByteTable.Known.base b
    have hfront : bpe T.table (x.map T.base ++ o.map T.base) =
        left.ids.take leftIndex ++ left.ids.drop leftIndex := by
      rw [← hxo, List.take_append_drop]
    have hback : bpe T.table (o.map T.base ++ z.map T.base) =
        right.ids.take rightIndex ++ right.ids.drop rightIndex := by
      rw [← hoz, List.take_append_drop]
    have hsplice := bpe_splice T.weighted hknown hne hfront
      (by rw [ByteTable.weight_map_base]; omega) hback (by rw [ByteTable.weight_map_base]; omega)
    rw [← hoz, ← List.map_append, ← List.map_append, ByteRange.slice_append h₁ h₂.le,
      ByteRange.slice_append (h₁.trans h₂.le) h₃] at hsplice
    exact hsplice.symm
  have hle : left.range.start ≤ right.range.stop := h₁.trans hright.le
  refine ⟨exactChunk T pretoken ⟨left.range.start, right.range.stop⟩, ?_, rfl,
    exactChunk_exact _ hle hright.stop_le⟩
  have hchunk := encodedChunk_encode (T := T) ⟨left.range.start, right.range.stop⟩ hle
    hright.stop_le hmax
  rw [← hids] at hchunk
  simp [Hypertok.splice, hindex, htail, List.idxOf?_cons, hchunk]

/-! ### The loop -/

/-- The state between two encodings: all is done, or an enlarged range that starts at
0 is to be encoded, with at most `m` exact chunks on its right. -/
inductive Settled (T : ByteTable) (pretoken : List UInt8) (m : ℕ) (st : OverlapReconciliation) :
    Prop
  | done (left : EncodedChunk) (hpending : st.pendingRange = none) (hright : st.right = [])
      (hleft : st.left = some left) (hexact : Exact T pretoken left)
      (hrange : left.range = ⟨0, pretoken.length⟩)
  | pending (stop : ℕ) (hpending : st.pendingRange = some ⟨0, stop⟩) (hstop : stop ≤ pretoken.length)
      (hright : ∀ chunk ∈ st.right, Exact T pretoken chunk)
      (hchain : Chained pretoken.length stop (st.right.map EncodedChunk.range))
      (hcount : st.right.length < m)

/-- The loop of `advance` splices chunks until it is done or asks for an enlargement. -/
lemma advanceOver_settled (hmax : pretoken.length ≤ usizeMax) (rest : List EncodedChunk)
    (st : OverlapReconciliation) (left : EncodedChunk) (hst : st.left = some left)
    (hpending : st.pendingRange = none) (hleft : Exact T pretoken left)
    (hzero : left.range.start = 0) (hrest : ∀ chunk ∈ rest, Exact T pretoken chunk)
    (hchain : Chained pretoken.length left.range.stop (rest.map EncodedChunk.range)) :
    ∃ st', advanceOver usizeMax T.tokenLen rest st = .ok st' ∧
      Settled T pretoken rest.length st' := by
  induction rest generalizing st left with
  | nil =>
      refine ⟨_, rfl, .done left hpending rfl hst hleft ?_⟩
      cases hr : left.range
      simp_all [Chained]
  | cons right rest ih =>
      simp only [List.map_cons, Chained] at hchain
      obtain ⟨h₁, h₂, h₃, hchain⟩ := hchain
      simp only [List.mem_cons, forall_eq_or_imp] at hrest
      have hmin : min left.range.stop right.range.stop = left.range.stop := min_eq_left h₂
      have henlarge : max right.range.stop left.range.stop = right.range.stop := max_eq_left h₂
      simp only [advanceOver, hst, hmin, henlarge, hzero]
      split
      · rename_i boundary tail hagree
        split
        · rename_i hsame
          obtain ⟨chunk, hchunk, hrange, hexact⟩ := hleft.splice hrest.1 hmax
            (by omega) h₁ h₂ hagree (hsame ▸ hagree)
          simp only [hchunk, ok_bind]
          obtain ⟨st', hst', hsettled⟩ := ih { st with
            left := some chunk
            right := rest
            largestEncodedSpan := max st.largestEncodedSpan right.range.len } chunk rfl hpending
            hexact (by rw [hrange]; exact hzero) hrest.2 (by rw [hrange]; exact hchain)
          refine ⟨st', hst', ?_⟩
          cases hsettled with
          | done left' hp hr hl he hg => exact .done left' hp hr hl he hg
          | pending stop hp hs hr hc hn => exact .pending stop hp hs hr hc (by simp; omega)
        · exact ⟨_, rfl, .pending right.range.stop rfl h₃ hrest.2 hchain (by simp)⟩
      · exact ⟨_, rfl, .pending right.range.stop rfl h₃ hrest.2 hchain (by simp)⟩

/-- The encodings that the loop asks for. -/
def encodeRanges (T : ByteTable) (pretoken : List UInt8) (ranges : List ByteRange) :
    Except ChunkFailure (List (List TokenId)) :=
  .ok (ranges.map fun range => T.encode (range.slice pretoken))

/-- From a settled state the loop ends with the encoding of the whole pretoken. -/
lemma reconcile_exact (hmax : pretoken.length ≤ usizeMax) {m n : ℕ} (hn : m < n)
    {st : OverlapReconciliation} (h : Settled T pretoken m st) :
    ∃ enc, reconcile usizeMax T.tokenLen (encodeRanges T pretoken) n st = .ok enc ∧
      enc.ids = T.encode pretoken := by
  induction n generalizing m st with
  | zero => omega
  | succ n ih =>
      cases h with
      | done left hpending hright hleft hexact hrange =>
          have hids := hexact.ids
          rw [hrange, ByteRange.slice_all] at hids
          exact ⟨_, by simp only [reconcile, hpending]; simp [OverlapReconciliation.finish,
            hpending, hright, hleft]; rfl, hids⟩
      | pending stop hpending hstop hright hchain hcount =>
          have hchunk := encodedChunk_encode (T := T) ⟨0, stop⟩ (Nat.zero_le _) hstop hmax
          obtain ⟨st', hst', hsettled⟩ := advanceOver_settled hmax st.right
            { st with
              pendingRange := none
              largestEncodedSpan := max st.largestEncodedSpan stop
              left := some (exactChunk T pretoken ⟨0, stop⟩) } _ rfl rfl
            (exactChunk_exact _ (Nat.zero_le _) hstop) rfl hright hchain
          obtain ⟨enc, henc, hids⟩ := ih (by omega) hsettled
          refine ⟨enc, ?_, hids⟩
          simp only [reconcile, hpending, encodeRanges, List.map_cons, List.map_nil, ok_bind,
            OverlapReconciliation.acceptEnlargement, hchunk]
          exact (congrArg (· >>= reconcile usizeMax T.tokenLen (encodeRanges T pretoken) n)
            hst').trans henc

/-- The initial chunks are exact. -/
lemma encodedChunks_encode (hmax : pretoken.length ≤ usizeMax) {ranges : List ByteRange}
    (hranges : ∀ r ∈ ranges, r.start ≤ r.stop ∧ r.stop ≤ pretoken.length) :
    encodedChunks usizeMax T.tokenLen ranges
        (ranges.map fun range => T.encode (range.slice pretoken)) =
      .ok (ranges.map (exactChunk T pretoken)) := by
  have hzip : ranges.zip (ranges.map fun range => T.encode (range.slice pretoken)) =
      ranges.map fun range => (range, T.encode (range.slice pretoken)) := by
    simpa using List.zip_map' (f := id) (g := fun range => T.encode (range.slice pretoken))
      (l := ranges)
  have hall : ∀ p ∈ ranges.map fun range => (range, T.encode (range.slice pretoken)),
      encodedChunk usizeMax T.tokenLen p.1 p.2 = .ok (exactChunk T pretoken p.1) := by
    simp only [List.mem_map]
    rintro _ ⟨r, hr, rfl⟩
    exact encodedChunk_encode r (hranges r hr).1 (hranges r hr).2 hmax
  simp [encodedChunks, hzip, mapM_eq_ok hall]

lemma Chained.valid {n stop : ℕ} {ranges : List ByteRange} (h : Chained n stop ranges) :
    ∀ r ∈ ranges, r.start ≤ r.stop ∧ r.stop ≤ n := by
  induction ranges generalizing stop with
  | nil => simp
  | cons r rs ih =>
      obtain ⟨h₁, h₂, h₃, h⟩ := h
      simp only [List.mem_cons, forall_eq_or_imp]
      exact ⟨⟨(h₁.trans_le h₂).le, h₃⟩, ih h⟩

/-- Overlap chunking is exact: with `omega` positive and a chunk size of at least
`2 * omega`, given or by default, both functions return the encoding of the whole
pretoken. `codepoint_edges` is off, as it is for every tokenizer over bytes. -/
theorem encodeOverlap_exact (T : ByteTable) (usizeMax : ℕ) (pretoken : List UInt8)
    (hlen : pretoken.length ≤ usizeMax) (omega : ℕ) (homega : 0 < omega) (config : ChunkConfig)
    (hchunk : omega * 2 ≤ config.chunkSize.getD (omega * defaultChunkMultiplier))
    (hmax : config.chunkSize.getD (omega * defaultChunkMultiplier) ≤ usizeMax) :
    (∃ enc, encodeOverlapBatched usizeMax pretoken omega config false
        (fun ranges => .ok (ranges.map fun range => T.encode (range.slice pretoken)))
        T.tokenLen = .ok enc ∧ enc.ids = T.encode pretoken) ∧
      ∃ enc, encodeOverlap usizeMax pretoken omega config false (fun bytes => .ok (T.encode bytes))
        T.tokenLen = .ok enc ∧ enc.ids = T.encode pretoken := by
  obtain ⟨stop, rest, hranges, hstop, hchain⟩ :=
    overlapRanges_chained pretoken homega hchunk hmax hlen
  have hchunks : encodedChunks usizeMax T.tokenLen (⟨0, stop⟩ :: rest)
      ((⟨0, stop⟩ :: rest).map fun range => T.encode (range.slice pretoken)) =
        .ok ((⟨0, stop⟩ :: rest).map (exactChunk T pretoken)) :=
    encodedChunks_encode hlen (by
      simp only [List.mem_cons, forall_eq_or_imp]
      exact ⟨⟨Nat.zero_le _, hstop⟩, hchain.valid⟩)
  obtain ⟨st, hst, hsettled⟩ := advanceOver_settled hlen (rest.map (exactChunk T pretoken))
    { left := some (exactChunk T pretoken ⟨0, stop⟩)
      right := rest.map (exactChunk T pretoken)
      pendingRange := none
      initialChunks := rest.length + 1
      enlargements := 0
      largestEncodedSpan := stop } _ rfl rfl (exactChunk_exact _ (Nat.zero_le _) hstop) rfl
    (by
      simp only [List.mem_map]
      rintro _ ⟨r, hr, rfl⟩
      exact exactChunk_exact r (hchain.valid r hr).1 (hchain.valid r hr).2)
    (by simpa [Function.comp_def, exactChunk] using hchain)
  obtain ⟨enc, henc, hids⟩ := reconcile_exact hlen (n := rest.length + 2) (by simp) hsettled
  have hnew : OverlapReconciliation.new usizeMax T.tokenLen (⟨0, stop⟩ :: rest)
      ((⟨0, stop⟩ :: rest).map fun range => T.encode (range.slice pretoken)) = .ok st := by
    rw [OverlapReconciliation.new, hchunks]
    exact hst
  have hbatched : encodeOverlapBatched usizeMax pretoken omega config false
      (encodeRanges T pretoken) T.tokenLen = .ok enc := by
    simp only [encodeOverlapBatched, hranges, ok_bind, encodeRanges, hnew]
    exact henc
  refine ⟨⟨enc, hbatched, hids⟩, enc, ?_, hids⟩
  have hmany : (fun ranges : List ByteRange => ranges.mapM fun range =>
      (.ok (T.encode (range.slice pretoken)) : Except ChunkFailure (List TokenId))) =
        encodeRanges T pretoken :=
    funext fun ranges => mapM_eq_ok fun _ _ => rfl
  rw [encodeOverlap, hmany]
  exact hbatched

/-- `encodeOverlap_exact` on `ababababab` in chunks of four bytes: the boundaries of the
first two chunks disagree, and they are enlarged. -/
theorem encodeOverlap_ababababab :
    ∃ enc, encodeOverlap (2 ^ 32 - 1) [97, 98, 97, 98, 97, 98, 97, 98, 97, 98] 2 ⟨some 4⟩ false
      (fun bytes => .ok (ByteTable.abTable.encode bytes)) ByteTable.abTable.tokenLen = .ok enc ∧
        enc.ids = [257, 257, 256] := by
  obtain ⟨-, enc, henc, hids⟩ := encodeOverlap_exact ByteTable.abTable (2 ^ 32 - 1)
    [97, 98, 97, 98, 97, 98, 97, 98, 97, 98] (by decide) 2 (by decide) ⟨some 4⟩ (by decide)
    (by decide)
  exact ⟨enc, henc, hids.trans (by decide)⟩

end Hypertok
