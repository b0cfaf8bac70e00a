import Hypertok.Load.Chunk

/-!
`encode_overlap` with an encoder that keeps a state from call to call.

* `encodeOverlapOn`: the function, with the state of the encoder made explicit.
* `Encodes`: an encoder that returns reference encodings, as long as its state is good.
* `Framed`: what the loop keeps whatever the encoder returns.
* `Encodes.encodeOverlapOn_spec`: the run returns, and with the encoding of the pretoken if the
  state is good in the end.
-/

namespace Hypertok

open PairMerge Machine

/-! ### The code -/

/-- The result of a function that does not panic. -/
def outcome {α : Type} : Except ChunkFailure α → Option (Except ChunkError α)
  | .ok a => some (.ok a)
  | .error (.error e) => some (.error e)
  | .error .stuck => none

section Code

variable {σ : Type} (usizeMax : ℕ) (tokenLen : TokenId → Option ℕ)
  (encode : σ → List UInt8 → Option (σ × List TokenId)) (pretoken : List UInt8)

/-- The `encode_many` of `encode_overlap`, for an encoder without errors. -/
def encodeManyOn : List ByteRange → σ → Option (σ × List (List TokenId))
  | [], s => some (s, [])
  | range :: ranges, s => do
      let (s, ids) ← encode s (range.slice pretoken)
      let (s, encoded) ← encodeManyOn ranges s
      some (s, ids :: encoded)

/-- The loop of `encode_overlap_batched`, at most `n` times. -/
def reconcileOn : ℕ → σ → OverlapReconciliation → Option (σ × Except ChunkError ChunkedEncoding)
  | 0, _, _ => none
  | n + 1, s, st =>
      match st.pendingRange with
      | none => (outcome st.finish).map fun r => (s, r)
      | some range => do
          let (s, encoded) ← encodeManyOn encode pretoken [range] s
          match encoded with
          | [ids] =>
              match ← outcome (st.acceptEnlargement usizeMax tokenLen ids) with
              | .ok st => reconcileOn n s st
              | .error e => some (s, .error e)
          | encoded => some (s, .error (.encodeResultCount 1 encoded.length))

/-- `encode_overlap`. -/
def encodeOverlapOn (omega : ℕ) (config : ChunkConfig) (codepointEdges : Bool) (s : σ) :
    Option (σ × Except ChunkError ChunkedEncoding) := do
  match ← outcome (overlapRanges usizeMax pretoken omega config codepointEdges) with
  | .error e => some (s, .error e)
  | .ok ranges =>
      let (s, initialIds) ← encodeManyOn encode pretoken ranges s
      match ← outcome (OverlapReconciliation.new usizeMax tokenLen ranges initialIds) with
      | .error e => some (s, .error e)
      | .ok st => reconcileOn usizeMax tokenLen encode pretoken (ranges.length + 1) s st

end Code

/-! ### The windows -/

variable {usizeMax omega chunkSize : ℕ} {pretoken : List UInt8}

/-- Each range is longer than `omega`, and they are no more than the bytes. -/
lemma chunkRangesFrom_wide (h0 : 0 < omega) (hchunk : omega * 2 ≤ chunkSize)
    (hlen : pretoken.length ≤ usizeMax) {k start : ℕ} (hstart : start + omega < pretoken.length)
    {ranges : List ByteRange}
    (h : chunkRangesFrom usizeMax pretoken chunkSize omega false k start = .ok ranges) :
    (∀ r ∈ ranges, omega < r.stop - r.start) ∧ ranges.length ≤ pretoken.length - start := by
  induction k generalizing start ranges with
  | zero => cases h
  | succ k ih =>
      have hstop : min (min (start + chunkSize) usizeMax) pretoken.length =
          min (start + chunkSize) pretoken.length := by omega
      rw [chunkRangesFrom, if_pos (by omega : start < pretoken.length)] at h
      simp only [Bool.false_eq_true, if_false, hstop] at h
      by_cases hend : min (start + chunkSize) pretoken.length = pretoken.length
      · rw [if_pos hend, Except.ok.injEq] at h
        subst h
        simp only [List.mem_singleton, forall_eq, List.length_singleton]
        omega
      · rw [if_neg hend, if_neg (by omega), map_eq_ok_iff] at h
        obtain ⟨rest, hrest, rfl⟩ := h
        obtain ⟨hwide, hcount⟩ := ih (by omega) hrest
        simp only [List.mem_cons, forall_eq_or_imp, List.length_cons]
        exact ⟨⟨by omega, hwide⟩, by omega⟩

/-- The ranges of a long pretoken. -/
structure Windows (omega : ℕ) (pretoken : List UInt8) (stop : ℕ) (rest : List ByteRange) :
    Prop where
  lt_stop : omega < stop
  stop_le : stop ≤ pretoken.length
  chained : Chained pretoken.length stop rest
  wide : ∀ r ∈ rest, omega < r.stop - r.start
  count : rest.length < pretoken.length

lemma exists_windows (pretoken : List UInt8) {config : ChunkConfig} (h0 : 0 < omega)
    (hchunk : omega * 2 ≤ config.chunkSize.getD (omega * defaultChunkMultiplier))
    (hmax : config.chunkSize.getD (omega * defaultChunkMultiplier) ≤ usizeMax)
    (hlen : pretoken.length ≤ usizeMax)
    (hlong : config.chunkSize.getD (omega * defaultChunkMultiplier) < pretoken.length) :
    ∃ stop rest, overlapRanges usizeMax pretoken omega config false = .ok (⟨0, stop⟩ :: rest) ∧
      Windows omega pretoken stop rest := by
  obtain ⟨stop, rest, hranges, hstop, hchain⟩ :=
    overlapRanges_chained pretoken h0 hchunk hmax hlen
  have hfrom : chunkRangesFrom usizeMax pretoken
      (config.chunkSize.getD (omega * defaultChunkMultiplier)) omega false (pretoken.length + 1) 0 =
        .ok (⟨0, stop⟩ :: rest) := by
    have h1 : ¬ usizeMax < omega := by omega
    have h2 : omega * 2 ≤ usizeMax := by omega
    have h3 : ¬ config.chunkSize.getD (omega * defaultChunkMultiplier) < omega * 2 := by omega
    rw [← hranges]
    obtain ⟨_ | value⟩ := config
    · simp only [Option.getD_none] at hmax h3 hlong ⊢
      simp [overlapRanges, checkedMul, h1, h2, h0.ne', hmax, h3, chunkRanges, hlong.not_ge]
    · simp only [Option.getD_some] at h3 hlong ⊢
      simp [overlapRanges, checkedMul, h1, h2, h0.ne', h3, chunkRanges, hlong.not_ge]
  obtain ⟨hwide, hcount⟩ := chunkRangesFrom_wide h0 hchunk hlen (by omega) hfrom
  obtain ⟨hfirst, hwide⟩ := List.forall_mem_cons.mp hwide
  rw [List.length_cons] at hcount
  dsimp only at hfirst
  exact ⟨stop, rest, hranges, by omega, hstop, hchain, hwide, by omega⟩

/-! ### Any replies -/

variable {tokenLen : TokenId → Option ℕ}

lemma coverToken_ne_stuck (range : ByteRange) (p : ℕ × List ℕ) (id : TokenId) :
    coverToken usizeMax tokenLen range p id ≠ .error .stuck := by
  rw [coverToken]
  split
  · simp
  · split_ifs <;> simp

lemma foldlM_coverToken_ne_stuck (range : ByteRange) (ids : List TokenId) (p : ℕ × List ℕ) :
    ids.foldlM (coverToken usizeMax tokenLen range) p ≠ .error .stuck := by
  induction ids generalizing p with
  | nil => simp [pure, Except.pure]
  | cons id ids ih =>
      rw [List.foldlM_cons]
      cases h : coverToken usizeMax tokenLen range p id with
      | error e =>
          rintro he
          cases he
          exact coverToken_ne_stuck range p id h
      | ok q => exact ih q

section Cases

variable (usizeMax tokenLen)

/-- A chunk of the range, or an error. -/
lemma encodedChunk_cases (range : ByteRange) (ids : List TokenId) :
    (∃ e, encodedChunk usizeMax tokenLen range ids = .error (.error e)) ∨
      ∃ chunk, encodedChunk usizeMax tokenLen range ids = .ok chunk ∧ chunk.range = range := by
  rw [encodedChunk]
  cases h : ids.foldlM (coverToken usizeMax tokenLen range) (range.start, [range.start]) with
  | error e =>
      cases e with
      | error e => exact .inl ⟨e, rfl⟩
      | stuck => exact absurd h (foldlM_coverToken_ne_stuck range ids _)
  | ok p =>
      by_cases hp : p.1 = range.stop
      · exact .inr ⟨⟨range, ids, p.2⟩, by simp [hp]; rfl, rfl⟩
      · exact .inl ⟨_, by simp [hp]; rfl⟩

lemma mem_of_boundariesIn {chunk : EncodedChunk} {start stop boundary : ℕ} {rest : List ℕ}
    (h : boundariesIn chunk start stop = boundary :: rest) : boundary ∈ chunk.boundaries := by
  have hmem : boundary ∈ boundariesIn chunk start stop := h ▸ List.mem_cons_self
  exact (mem_boundariesIn.mp hmem).1

/-- Two chunks with a common boundary. -/
lemma splice_cases {left right : EncodedChunk} {boundary : ℕ}
    (hleft : boundary ∈ left.boundaries) (hright : boundary ∈ right.boundaries) :
    (∃ e, splice usizeMax tokenLen left right boundary = .error (.error e)) ∨
      ∃ chunk, splice usizeMax tokenLen left right boundary = .ok chunk ∧
        chunk.range = ⟨left.range.start, right.range.stop⟩ := by
  obtain ⟨i, hi⟩ := Option.isSome_iff_exists.mp (List.isSome_idxOf?.mpr hleft)
  obtain ⟨j, hj⟩ := Option.isSome_iff_exists.mp (List.isSome_idxOf?.mpr hright)
  simp only [splice, hi, hj]
  exact encodedChunk_cases usizeMax tokenLen _ _

lemma mapM_encodedChunk_cases (l : List (ByteRange × List TokenId)) :
    (∃ e, l.mapM (fun p => encodedChunk usizeMax tokenLen p.1 p.2) = .error (.error e)) ∨
      ∃ chunks, l.mapM (fun p => encodedChunk usizeMax tokenLen p.1 p.2) = .ok chunks ∧
        chunks.map EncodedChunk.range = l.map Prod.fst := by
  induction l with
  | nil => exact .inr ⟨[], rfl, rfl⟩
  | cons p l ih =>
      rw [List.mapM_cons]
      obtain ⟨e, he⟩ | ⟨chunk, hchunk, hrange⟩ := encodedChunk_cases usizeMax tokenLen p.1 p.2
      · exact .inl ⟨e, by rw [he]; rfl⟩
      · rw [hchunk, ok_bind]
        obtain ⟨e, he⟩ | ⟨chunks, hchunks, hranges⟩ := ih
        · exact .inl ⟨e, by rw [he]; rfl⟩
        · exact .inr ⟨chunk :: chunks, by rw [hchunks]; rfl, by simp [hrange, hranges]⟩

/-- The chunks of the ranges, or an error. -/
lemma encodedChunks_cases {ranges : List ByteRange} {encoded : List (List TokenId)}
    (hlen : encoded.length = ranges.length) :
    (∃ e, encodedChunks usizeMax tokenLen ranges encoded = .error (.error e)) ∨
      ∃ chunks, encodedChunks usizeMax tokenLen ranges encoded = .ok chunks ∧
        chunks.map EncodedChunk.range = ranges := by
  have hrun : encodedChunks usizeMax tokenLen ranges encoded =
      (ranges.zip encoded).mapM fun p => encodedChunk usizeMax tokenLen p.1 p.2 := by
    rw [encodedChunks, if_neg (not_not.mpr hlen)]
  have hcases := mapM_encodedChunk_cases usizeMax tokenLen (ranges.zip encoded)
  rwa [List.map_fst_zip hlen.ge, ← hrun] at hcases

/-- What the loop keeps between two encodings, for `k` chunks at first: the geometry of the
ranges, and the counters. -/
structure Framed (n omega k : ℕ) (st : OverlapReconciliation) : Prop where
  initialChunks : st.initialChunks = k
  enlargements : st.enlargements + st.right.length ≤ k
  phase : (st.pendingRange = none ∧ st.right = [] ∧ st.left.isSome) ∨
    ∃ stop, st.pendingRange = some ⟨0, stop⟩ ∧ omega < stop ∧ stop ≤ n ∧
      Chained n stop (st.right.map EncodedChunk.range)

/-- A run of `advance` ends with an error, or with fewer chunks on the right unless it is done. -/
def Advanced (n omega k m : ℕ) (r : Except ChunkFailure OverlapReconciliation) : Prop :=
  (∃ e, r = .error (.error e)) ∨
    ∃ st, r = .ok st ∧ Framed n omega k st ∧ (st.pendingRange ≠ none → st.right.length < m)

lemma Advanced.mono {n k m m' : ℕ} {r : Except ChunkFailure OverlapReconciliation}
    (h : Advanced n omega k m r) (hle : m ≤ m') : Advanced n omega k m' r :=
  h.imp_right fun ⟨st, hst, hframed, hlt⟩ => ⟨st, hst, hframed, fun hp => (hlt hp).trans_le hle⟩

lemma advanceOver_framed {n k : ℕ} (rest : List EncodedChunk) (st : OverlapReconciliation)
    (left : EncodedChunk) (hst : st.left = some left) (hpending : st.pendingRange = none)
    (hk : st.initialChunks = k) (henl : st.enlargements + rest.length ≤ k)
    (hzero : left.range.start = 0) (hwide : omega < left.range.stop)
    (hchain : Chained n left.range.stop (rest.map EncodedChunk.range)) :
    Advanced n omega k rest.length (advanceOver usizeMax tokenLen rest st) := by
  induction rest generalizing st left with
  | nil =>
      refine .inr ⟨_, rfl, ⟨hk, henl, .inl ⟨hpending, rfl, ?_⟩⟩, fun h => absurd hpending h⟩
      rw [Option.isSome_iff_exists]
      exact ⟨left, hst⟩
  | cons right rest ih =>
      simp only [List.map_cons, Chained] at hchain
      obtain ⟨h₁, h₂, h₃, hchain⟩ := hchain
      rw [List.length_cons] at henl
      have henlarge : max right.range.stop left.range.stop = right.range.stop := max_eq_left h₂
      have hpend : Advanced n omega k (rest.length + 1) (.ok
          { st with
            left := none
            right := rest
            pendingRange := some ⟨0, right.range.stop⟩
            enlargements := st.enlargements + 1
            largestEncodedSpan := max st.largestEncodedSpan right.range.len }) :=
        .inr ⟨_, rfl, ⟨hk, by simp only; omega,
          .inr ⟨_, rfl, hwide.trans_le h₂, h₃, hchain⟩⟩, fun _ => Nat.lt_succ_self _⟩
      simp only [advanceOver, hst, henlarge, hzero]
      split
      · rename_i boundary tail hagree
        split
        · rename_i hsame
          obtain ⟨e, he⟩ | ⟨chunk, hchunk, hrange⟩ := splice_cases usizeMax tokenLen
            (mem_of_boundariesIn hagree) (mem_of_boundariesIn (hsame ▸ hagree))
          · exact .inl ⟨e, by rw [he]; rfl⟩
          · rw [hchunk, ok_bind]
            refine (ih { st with
              left := some chunk
              right := rest
              largestEncodedSpan := max st.largestEncodedSpan right.range.len } chunk rfl hpending
              hk (by simp only; omega) ?_ ?_ ?_).mono (Nat.le_succ _)
            · rw [hrange]
              exact hzero
            · rw [hrange]
              exact hwide.trans_le h₂
            · rw [hrange]
              exact hchain
        · exact hpend
      · exact hpend

end Cases

/-- The state after the initial chunks. -/
lemma new_framed {stop : ℕ} {rest : List ByteRange} (h : Windows omega pretoken stop rest)
    {encoded : List (List TokenId)} (hlen : encoded.length = rest.length + 1) :
    Advanced pretoken.length omega (rest.length + 1) rest.length
      (OverlapReconciliation.new usizeMax tokenLen (⟨0, stop⟩ :: rest) encoded) := by
  rw [OverlapReconciliation.new]
  rw [← List.length_cons] at hlen
  obtain ⟨e, he⟩ | ⟨chunks, hchunks, hranges⟩ := encodedChunks_cases usizeMax tokenLen hlen
  · exact .inl ⟨e, by rw [he]; rfl⟩
  · cases chunks with
    | nil => cases hranges
    | cons left right =>
        obtain ⟨hleft, hright⟩ := List.cons.inj hranges
        have hcount : right.length = rest.length := by rw [← hright, List.length_map]
        have hadvance := advanceOver_framed usizeMax tokenLen right
          { left := some left
            right := right
            pendingRange := none
            initialChunks := rest.length + 1
            enlargements := 0
            largestEncodedSpan := left.range.len } left rfl rfl rfl (by simp only; omega)
          (by rw [hleft]) (by rw [hleft]; exact h.lt_stop) (by rw [hleft, hright]; exact h.chained)
        rw [hcount] at hadvance
        rw [hchunks, ok_bind]
        exact hadvance

/-- The state after an enlargement. -/
lemma acceptEnlargement_framed {n k stop : ℕ} {st : OverlapReconciliation}
    (h : Framed n omega k st) (hpending : st.pendingRange = some ⟨0, stop⟩)
    (ids : List TokenId) :
    Advanced n omega k st.right.length (st.acceptEnlargement usizeMax tokenLen ids) := by
  obtain ⟨hk, henl, ⟨hnone, -⟩ | ⟨stop', hstop', hlt, hle, hchain⟩⟩ := h
  · cases hnone.symm.trans hpending
  · cases hstop'.symm.trans hpending
    rw [OverlapReconciliation.acceptEnlargement, hpending]
    dsimp only
    obtain ⟨e, he⟩ | ⟨chunk, hchunk, hrange⟩ :=
      encodedChunk_cases usizeMax tokenLen ⟨0, stop⟩ ids
    · exact .inl ⟨e, by rw [he]; rfl⟩
    · rw [hchunk, ok_bind]
      exact advanceOver_framed usizeMax tokenLen st.right
        { st with
          pendingRange := none
          largestEncodedSpan := max st.largestEncodedSpan chunk.range.len
          left := some chunk } chunk rfl rfl hk henl (by rw [hrange]) (by rw [hrange]; exact hlt)
        (by rw [hrange]; exact hchain)

/-! ### Exact replies -/

variable {T : ByteTable}

/-- Exact initial chunks are spliced as far as they agree. -/
lemma new_settled (hmax : pretoken.length ≤ usizeMax) {stop : ℕ} {rest : List ByteRange}
    (hstop : stop ≤ pretoken.length) (hchain : Chained pretoken.length stop rest) :
    ∃ st m, OverlapReconciliation.new usizeMax T.tokenLen (⟨0, stop⟩ :: rest)
        ((⟨0, stop⟩ :: rest).map fun range => T.encode (range.slice pretoken)) = .ok st ∧
      Settled T pretoken m st := by
  have hvalid := hchain.valid
  have hchunks : encodedChunks usizeMax T.tokenLen (⟨0, stop⟩ :: rest)
      ((⟨0, stop⟩ :: rest).map fun range => T.encode (range.slice pretoken)) =
        .ok ((⟨0, stop⟩ :: rest).map (exactChunk T pretoken)) :=
    encodedChunks_encode hmax (List.forall_mem_cons.mpr ⟨⟨Nat.zero_le _, hstop⟩, hvalid⟩)
  have hexact : ∀ chunk ∈ rest.map (exactChunk T pretoken), Exact T pretoken chunk := by
    intro chunk hchunk
    obtain ⟨r, hr, rfl⟩ := List.mem_map.mp hchunk
    exact exactChunk_exact r (hvalid r hr).1 (hvalid r hr).2
  obtain ⟨st, hst, hsettled⟩ := advanceOver_settled hmax (rest.map (exactChunk T pretoken))
    { left := some (exactChunk T pretoken ⟨0, stop⟩)
      right := rest.map (exactChunk T pretoken)
      pendingRange := none
      initialChunks := rest.length + 1
      enlargements := 0
      largestEncodedSpan := stop } _ rfl rfl (exactChunk_exact _ (Nat.zero_le _) hstop) rfl
    hexact (by simpa [Function.comp_def, exactChunk] using hchain)
  refine ⟨st, _, ?_, hsettled⟩
  rw [OverlapReconciliation.new, hchunks]
  exact hst

/-- An exact enlargement keeps the reconciliation. -/
lemma acceptEnlargement_settled (hmax : pretoken.length ≤ usizeMax) {m : ℕ}
    {st : OverlapReconciliation} (h : Settled T pretoken m st) {request : ByteRange}
    (hrequest : st.pendingRange = some request) :
    ∃ st' m', st.acceptEnlargement usizeMax T.tokenLen (T.encode (request.slice pretoken)) =
        .ok st' ∧ Settled T pretoken m' st' := by
  cases h with
  | done left hnone => cases hnone.symm.trans hrequest
  | pending stop hstop hle hright hchain hcount =>
      obtain rfl := Option.some.inj (hstop.symm.trans hrequest)
      have hchunk := @encodedChunk_encode _ _ T ⟨0, stop⟩ (Nat.zero_le _) hle hmax
      obtain ⟨st', hst', hsettled⟩ := advanceOver_settled hmax st.right
        { st with
          pendingRange := none
          largestEncodedSpan := max st.largestEncodedSpan stop
          left := some (exactChunk T pretoken ⟨0, stop⟩) } _ rfl rfl
        (exactChunk_exact _ (Nat.zero_le _) hle) rfl hright hchain
      refine ⟨st', _, ?_, hsettled⟩
      simp only [OverlapReconciliation.acceptEnlargement, hstop, hchunk, ok_bind]
      exact hst'

/-! ### The run -/

/-- An encoder that returns the reference encoding of each window, as long as its state is good,
which it was before if it is later. The size of the state grows by the length of the window. -/
structure Encodes {σ : Type} (T : ByteTable) (Window : List UInt8 → Prop)
    (encode : σ → List UInt8 → Option (σ × List TokenId)) (Inv : σ → Prop) (Later : σ → σ → Prop)
    (Good : σ → Prop) (size : σ → ℕ) : Prop where
  refl : ∀ s, Later s s
  trans : ∀ {s s' s''}, Later s s' → Later s' s'' → Later s s''
  good : ∀ {s s'}, Later s s' → Good s' → Good s
  run : ∀ s bytes, Inv s → Window bytes → ∃ s' ids, encode s bytes = some (s', ids) ∧
    Inv s' ∧ Later s s' ∧ size s' ≤ size s + bytes.length ∧ (Good s' → ids = T.encode bytes)

lemma length_slice_le (r : ByteRange) (bytes : List UInt8) :
    (r.slice bytes).length ≤ bytes.length := by
  rw [ByteRange.slice, List.length_drop]
  exact (Nat.sub_le _ _).trans (List.length_take_le' _ _)

namespace Encodes

variable {σ : Type} {Window : List UInt8 → Prop}
  {encode : σ → List UInt8 → Option (σ × List TokenId)} {Inv : σ → Prop} {Later : σ → σ → Prop}
  {Good : σ → Prop} {size : σ → ℕ}

/-- The windows of a list, one after another. -/
lemma encodeManyOn_spec (h : Encodes T Window encode Inv Later Good size) {ranges : List ByteRange}
    (hranges : ∀ r ∈ ranges, Window (r.slice pretoken)) {s : σ} (hs : Inv s) :
    ∃ s' encoded, encodeManyOn encode pretoken ranges s = some (s', encoded) ∧ Inv s' ∧
      Later s s' ∧ size s' ≤ size s + ranges.length * pretoken.length ∧
      encoded.length = ranges.length ∧
      (Good s' → encoded = ranges.map fun range => T.encode (range.slice pretoken)) := by
  induction ranges generalizing s with
  | nil => exact ⟨s, [], rfl, hs, h.refl s, Nat.le_add_right _ _, rfl, fun _ => rfl⟩
  | cons r ranges ih =>
      obtain ⟨hr, hranges⟩ := List.forall_mem_cons.mp hranges
      obtain ⟨s₁, ids, hone, hs₁, hlater₁, hsize₁, hids⟩ := h.run s _ hs hr
      obtain ⟨s', encoded, hrest, hs', hlater, hsize, hlen, hencoded⟩ := ih hranges hs₁
      have hslice := length_slice_le r pretoken
      refine ⟨s', ids :: encoded, ?_, hs', h.trans hlater₁ hlater, ?_, ?_, fun hgood => ?_⟩
      · simp only [encodeManyOn, hone, hrest, Option.bind_eq_bind, Option.bind_some]
      · rw [List.length_cons, Nat.succ_mul]
        omega
      · rw [List.length_cons, hlen, List.length_cons]
      · rw [hids (h.good hlater hgood), hencoded hgood, List.map_cons]

/-- What the whole run returns from good to good. -/
structure Reconciled (T : ByteTable) (pretoken : List UInt8) (k : ℕ)
    (r : Except ChunkError ChunkedEncoding) : Prop where
  eq_ok : ∃ enc, r = .ok enc ∧ enc.ids = T.encode pretoken ∧ enc.initialChunks = k ∧
    enc.enlargements ≤ k

/-- The loop returns, and with the encoding if the state is good in the end. -/
lemma reconcileOn_spec (h : Encodes T Window encode Inv Later Good size)
    (hwindow : ∀ r : ByteRange, omega < r.stop - r.start → r.stop ≤ pretoken.length →
      Window (r.slice pretoken)) (hmax : pretoken.length ≤ usizeMax) {n k : ℕ} {s : σ}
    {st : OverlapReconciliation} (hs : Inv s) (hframed : Framed pretoken.length omega k st)
    (hn : 0 < n) (hpending : st.pendingRange ≠ none → st.right.length + 1 < n)
    (hsettled : Good s → ∃ m, Settled T pretoken m st) :
    ∃ s' r, reconcileOn usizeMax T.tokenLen encode pretoken n s st = some (s', r) ∧ Inv s' ∧
      Later s s' ∧ size s' ≤ size s + n * pretoken.length ∧
      (Good s' → Reconciled T pretoken k r) := by
  induction n generalizing s st with
  | zero => omega
  | succ n ih =>
      obtain ⟨hk, henl, ⟨hnone, hright, hleft⟩ | ⟨stop, hstop, hlt, hle, hchain⟩⟩ := hframed
      · obtain ⟨left, hleft⟩ := Option.isSome_iff_exists.mp hleft
        have hfinish : st.finish = .ok
            { ids := left.ids
              initialChunks := st.initialChunks
              enlargements := st.enlargements
              largestEncodedSpan := st.largestEncodedSpan } := by
          simp [OverlapReconciliation.finish, hnone, hright, hleft]
        refine ⟨s, _, by rw [reconcileOn, hnone]; simp only [hfinish]; rfl, hs, h.refl s,
          Nat.le_add_right _ _, fun hgood => ⟨_, rfl, ?_, hk, by simp only; omega⟩⟩
        obtain ⟨m, hm⟩ := hsettled hgood
        cases hm with
        | done left' _ _ hleft' hexact hrange =>
            cases hleft.symm.trans hleft'
            have hids := hexact.ids
            rwa [hrange, ByteRange.slice_all] at hids
        | pending stop hstop => cases hnone.symm.trans hstop
      · have hfuel := hpending (by rw [hstop]; exact Option.some_ne_none _)
        obtain ⟨s₁, ids, hone, hs₁, hlater₁, hsize₁, hids⟩ :=
          h.run s _ hs (hwindow ⟨0, stop⟩ (by simpa using hlt) hle)
        have hslice := length_slice_le ⟨0, stop⟩ pretoken
        rw [Nat.succ_mul]
        have hmany : encodeManyOn encode pretoken [⟨0, stop⟩] s = some (s₁, [ids]) := by
          simp only [encodeManyOn, hone, Option.bind_eq_bind, Option.bind_some]
        have hagree : Good s₁ → ∃ st' m, st.acceptEnlargement usizeMax T.tokenLen ids = .ok st' ∧
            Settled T pretoken m st' := by
          intro hgood
          obtain ⟨m, hm⟩ := hsettled (h.good hlater₁ hgood)
          rw [hids hgood]
          exact acceptEnlargement_settled hmax hm hstop
        rw [reconcileOn, hstop]
        simp only [hmany, Option.bind_eq_bind, Option.bind_some]
        obtain ⟨e, he⟩ | ⟨st', hst', hframed', hlt'⟩ :=
          acceptEnlargement_framed ⟨hk, henl, .inr ⟨stop, hstop, hlt, hle, hchain⟩⟩ hstop ids
        · refine ⟨s₁, .error e, by rw [he]; rfl, hs₁, hlater₁, by omega, fun hgood => ?_⟩
          obtain ⟨st', _, hst', -⟩ := hagree hgood
          cases he.symm.trans hst'
        · rw [hst']
          have hsettled' : Good s₁ → ∃ m, Settled T pretoken m st' := by
            intro hgood
            obtain ⟨st'', m, hst'', hm⟩ := hagree hgood
            cases hst'.symm.trans hst''
            exact ⟨m, hm⟩
          obtain ⟨s', r, hrun, hs', hlater, hsize, hr⟩ := ih hs₁ hframed' (by omega)
            (fun hp => (Nat.succ_lt_succ (hlt' hp)).trans_le (Nat.lt_succ_iff.mp hfuel)) hsettled'
          exact ⟨s', r, hrun, hs', h.trans hlater₁ hlater, by omega, hr⟩

/-- Overlap chunking with an encoder that keeps a state: a pretoken longer than a chunk is cut and
put together again, and the state is one that the encoder leaves. -/
theorem encodeOverlapOn_spec (h : Encodes T Window encode Inv Later Good size)
    (config : ChunkConfig) (h0 : 0 < omega)
    (hchunk : omega * 2 ≤ config.chunkSize.getD (omega * defaultChunkMultiplier))
    (hsize : config.chunkSize.getD (omega * defaultChunkMultiplier) ≤ usizeMax)
    (hmax : pretoken.length ≤ usizeMax)
    (hlong : config.chunkSize.getD (omega * defaultChunkMultiplier) < pretoken.length)
    (hwindow : ∀ r : ByteRange, omega < r.stop - r.start → r.stop ≤ pretoken.length →
      Window (r.slice pretoken)) {s : σ} (hs : Inv s) :
    ∃ s' r k, encodeOverlapOn usizeMax T.tokenLen encode pretoken omega config false s =
        some (s', r) ∧ Inv s' ∧ Later s s' ∧
          size s' ≤ size s + (2 * pretoken.length + 1) * pretoken.length ∧
          k ≤ pretoken.length ∧ (Good s' → Reconciled T pretoken k r) := by
  obtain ⟨stop, rest, hranges, hwin⟩ := exists_windows pretoken h0 hchunk hsize hmax hlong
  obtain ⟨s₁, encoded, hmany, hs₁, hlater₁, hsize₁, hlen, hencoded⟩ :=
    h.encodeManyOn_spec (List.forall_mem_cons.mpr ⟨hwindow ⟨0, stop⟩ (by simpa using hwin.lt_stop)
      hwin.stop_le, fun r hr => hwindow r (hwin.wide r hr) (hwin.chained.valid r hr).2⟩) hs
  have hagree : Good s₁ → ∃ st m, OverlapReconciliation.new usizeMax T.tokenLen
      (⟨0, stop⟩ :: rest) encoded = .ok st ∧ Settled T pretoken m st := by
    intro hgood
    rw [hencoded hgood]
    exact new_settled hmax hwin.stop_le hwin.chained
  have hcost : (rest.length + 1) * pretoken.length + (rest.length + 2) * pretoken.length ≤
      (2 * pretoken.length + 1) * pretoken.length := by
    rw [← Nat.add_mul]
    have hcount := hwin.count
    exact Nat.mul_le_mul_right _ (by omega)
  rw [List.length_cons] at hsize₁
  rw [encodeOverlapOn, hranges]
  simp only [outcome, hmany, Option.bind_eq_bind, Option.bind_some]
  obtain ⟨e, he⟩ | ⟨st, hst, hframed, hlt⟩ := new_framed hwin hlen
  · refine ⟨s₁, .error e, rest.length + 1, by rw [he]; rfl, hs₁, hlater₁, by omega, hwin.count,
      fun hgood => ?_⟩
    obtain ⟨st, _, hst, -⟩ := hagree hgood
    cases he.symm.trans hst
  · rw [hst]
    have hsettled : Good s₁ → ∃ m, Settled T pretoken m st := by
      intro hgood
      obtain ⟨st', m, hst', hm⟩ := hagree hgood
      cases hst.symm.trans hst'
      exact ⟨m, hm⟩
    obtain ⟨s', r, hrun, hs', hlater, hsize, hr⟩ := h.reconcileOn_spec hwindow hmax hs₁ hframed
      (show 0 < rest.length + 2 by omega) (fun hp => Nat.add_lt_add_right ((hlt hp).trans
        (Nat.lt_succ_self _)) 1) hsettled
    exact ⟨s', r, rest.length + 1, hrun, hs', h.trans hlater₁ hlater, by omega, hwin.count, hr⟩

end Encodes

end Hypertok
