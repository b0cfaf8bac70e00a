import Hypertok.Load.Chunk

/-!
Long pretokens in the worker tier: the resident tokenizer plans overlapping ranges, the
workers encode them, and the resident tokenizer reconciles the replies.

The planner cuts at bytes, and a worker takes its slice for UTF-8 only.

* `beginOverlap`, `acceptInitial`, `acceptEnlargement`: `WasmOverlapReconciler`.
* `Requested`: the ranges that `encodeLongPretoken` sends to the workers.
* `requested_accepted_iff`: all of them are accepted exactly if every cut of the plan falls
  between two characters.
-/

namespace Hypertok

open Machine

/-! ### The code -/

/-- `JsError`: a fixed text, the refusal of a slice by `str::from_utf8`, or an error of the
chunk encoder. -/
inductive JsError
  | message (text : String)
  | invalidUtf8
  | chunk (e : ChunkFailure)
  deriving DecidableEq, Repr

/-- The fields of `WasmTokenizer` that plan with. -/
structure OverlapPlanner where
  omega : ℕ
  chunkingAvailable : Bool
  tokenLengths : TokenId → Option ℕ

/-- `WasmOverlapReconciler`, without the token lengths that it shares with the planner. -/
structure WasmOverlapReconciler where
  ranges : List ByteRange
  state : Option OverlapReconciliation

/-- The error of a call into the chunk encoder. -/
def jsError {α : Type} (x : Except ChunkFailure α) : Except JsError α := x.mapError .chunk

/-- `begin_overlap`. In WebAssembly `usize` has 32 bits, so that the ranges are handed to
JavaScript as they are. -/
def beginOverlap (planner : OverlapPlanner) (pretoken : List UInt8) (chunkSize : ℕ) :
    Except JsError WasmOverlapReconciler := do
  if ¬ isUtf8 pretoken then throw .invalidUtf8
  if ¬ planner.chunkingAvailable then
    throw (.message
      "overlap planning is available only for rank-file tokenizers without reserved tokens")
  let ranges ← jsError (overlapRanges u32Max pretoken planner.omega ⟨some chunkSize⟩ false)
  return { ranges := ranges, state := none }

/-- The loop of `split_encoded_results`. -/
def splitResultsFrom (flatIds : List TokenId) : ℕ → List ℕ → Except JsError (List (List TokenId))
  | offset, [] =>
      if offset ≠ flatIds.length then
        .error (.message "encoded range lengths do not consume the id buffer")
      else .ok []
  | offset, length :: lengths =>
      if flatIds.length < offset + length then
        .error (.message "encoded range lengths exceed the id buffer")
      else (splitResultsFrom flatIds (offset + length) lengths).map
        ((⟨offset, offset + length⟩ : ByteRange).slice flatIds :: ·)

/-- `split_encoded_results`. -/
def splitEncodedResults (flatIds : List TokenId) (lengths : List ℕ) (expected : ℕ) :
    Except JsError (List (List TokenId)) :=
  if lengths.length ≠ expected then
    .error (.message s!"received {lengths.length} encoded ranges, expected {expected}")
  else splitResultsFrom flatIds 0 lengths

namespace WasmOverlapReconciler

/-- `accept_initial`, with the range that it asks for. -/
def acceptInitial (planner : OverlapPlanner) (r : WasmOverlapReconciler) (flatIds : List TokenId)
    (lengths : List ℕ) : Except JsError (WasmOverlapReconciler × Option ByteRange) := do
  if r.state.isSome then throw (.message "initial overlap results were already accepted")
  let encoded ← splitEncodedResults flatIds lengths r.ranges.length
  let state ← jsError (OverlapReconciliation.new u32Max planner.tokenLengths r.ranges encoded)
  return ({ r with state := some state }, state.pendingRange)

/-- `accept_enlargement`, with the range that it asks for. -/
def acceptEnlargement (planner : OverlapPlanner) (r : WasmOverlapReconciler) (ids : List TokenId) :
    Except JsError (WasmOverlapReconciler × Option ByteRange) := do
  match r.state with
  | none => throw (.message "initial overlap results are missing")
  | some state =>
      let state ← jsError (state.acceptEnlargement u32Max planner.tokenLengths ids)
      return ({ r with state := some state }, state.pendingRange)

/-- `take_ids`. -/
def takeIds (r : WasmOverlapReconciler) : Except JsError (List TokenId) :=
  match r.state with
  | none => .error (.message "initial overlap results are missing")
  | some state => jsError (state.finish.map ChunkedEncoding.ids)

end WasmOverlapReconciler

/-- `worker_input_supported`: no content of a special token occurs in the input. -/
def workerInputSupported (workerModel : Bool) (workerUnsupportedPatterns : List (List UInt8))
    (input : List UInt8) : Bool :=
  workerModel && !workerUnsupportedPatterns.any fun pattern => decide (pattern <:+: input)

/-- `WasmTransferredTokenizer::encode_pretoken`, over the encoder of the worker. -/
def encodePretoken (encode : List UInt8 → List TokenId) (input : List UInt8) :
    Except JsError (List TokenId) :=
  if isUtf8 input then .ok (encode input) else .error .invalidUtf8

/-- `encodeLongPretoken` as a conversation: the reconciler after some replies, with the range
that it asks for. -/
inductive Conversation (planner : OverlapPlanner)
    (worker : List UInt8 → Except JsError (List TokenId)) (pretoken : List UInt8) (chunkSize : ℕ) :
    WasmOverlapReconciler → Option ByteRange → Prop
  | initial {r r' : WasmOverlapReconciler} {encoded : List (List TokenId)}
      {request : Option ByteRange} (hbegin : beginOverlap planner pretoken chunkSize = .ok r)
      (hreply : (r.ranges.mapM fun range => worker (range.slice pretoken)) = .ok encoded)
      (haccept : r.acceptInitial planner encoded.flatten (encoded.map List.length) =
        .ok (r', request)) :
      Conversation planner worker pretoken chunkSize r' request
  | enlargement {r r' : WasmOverlapReconciler} {range : ByteRange} {ids : List TokenId}
      {request : Option ByteRange}
      (hconv : Conversation planner worker pretoken chunkSize r (some range))
      (hreply : worker (range.slice pretoken) = .ok ids)
      (haccept : r.acceptEnlargement planner ids = .ok (r', request)) :
      Conversation planner worker pretoken chunkSize r' request

/-- The ranges that are sent to the workers. -/
inductive Requested (planner : OverlapPlanner)
    (worker : List UInt8 → Except JsError (List TokenId)) (pretoken : List UInt8) (chunkSize : ℕ) :
    ByteRange → Prop
  | initial {r : WasmOverlapReconciler} {range : ByteRange}
      (hbegin : beginOverlap planner pretoken chunkSize = .ok r) (hrange : range ∈ r.ranges) :
      Requested planner worker pretoken chunkSize range
  | enlargement {r : WasmOverlapReconciler} {range : ByteRange}
      (hconv : Conversation planner worker pretoken chunkSize r (some range)) :
      Requested planner worker pretoken chunkSize range

/-! ### Slices of a text -/

lemma isCharBoundary_le {s : List UInt8} {i : ℕ} (h : isCharBoundary s i = true) : i ≤ s.length := by
  simp only [isCharBoundary, Bool.or_eq_true, decide_eq_true_eq] at h
  rcases h with (rfl | rfl) | h
  · exact Nat.zero_le _
  · exact le_rfl
  · cases hget : s[i]? with
    | none => simp [hget] at h
    | some b => exact (List.getElem?_eq_some_iff.mp hget).1.le

/-- A slice of a text is a text if it is cut out at character boundaries. -/
lemma isUtf8_slice {s : List UInt8} (hs : isUtf8 s = true) {r : ByteRange}
    (hstart : isCharBoundary s r.start = true) (hstop : isCharBoundary s r.stop = true) :
    isUtf8 (r.slice s) = true := by
  rcases Nat.lt_or_ge r.stop r.start with hlt | hle
  · have hnil : r.slice s = [] := List.drop_eq_nil_of_le (by simp; omega)
    rw [hnil]
    rfl
  · have hsplit : s.take r.stop = s.take r.start ++ r.slice s := by
      rw [ByteRange.slice, List.drop_take, ← List.take_add, Nat.add_sub_cancel' hle]
    have htake := (isUtf8_take hs (isCharBoundary_le hstop)).mpr hstop
    rwa [hsplit, isUtf8_append ((isUtf8_take hs (isCharBoundary_le hstart)).mpr hstart)] at htake

/-- A slice of a text that is a text is empty or cut out at character boundaries. -/
lemma isCharBoundary_of_slice {s : List UInt8} (hs : isUtf8 s = true) {r : ByteRange}
    (hlt : r.start < r.stop) (hle : r.stop ≤ s.length) (h : isUtf8 (r.slice s) = true) :
    isCharBoundary s r.start = true ∧ isCharBoundary s r.stop = true := by
  have hsplit : s.take r.stop = s.take r.start ++ r.slice s := by
    rw [ByteRange.slice, List.drop_take, ← List.take_add, Nat.add_sub_cancel' hlt.le]
  have hstart : isCharBoundary s r.start = true := by
    have hlen : r.start < (s.take r.stop).length := by rw [List.length_take]; omega
    have hcons : r.slice s = (s.take r.stop)[r.start] :: (s.take r.stop).drop (r.start + 1) :=
      List.drop_eq_getElem_cons hlen
    rw [hcons, List.getElem_take] at h
    have hget : s[r.start]? = some s[r.start] := List.getElem?_eq_getElem (by omega)
    simp [isCharBoundary, hget, isContinuation_head h]
  refine ⟨hstart, (isUtf8_take hs hle).mp ?_⟩
  rwa [hsplit, isUtf8_append ((isUtf8_take hs (hlt.le.trans hle)).mpr hstart)]

/-! ### The cuts of the plan -/

/-- The `k`-th cut: the chunk `k` ends and the chunk `k + 1` starts between two
characters. -/
def CutsCharacters (pretoken : List UInt8) (omega chunkSize k : ℕ) : Prop :=
  isCharBoundary pretoken (k * (chunkSize - omega) + chunkSize) = true ∧
    isCharBoundary pretoken ((k + 1) * (chunkSize - omega)) = true

variable {pretoken : List UInt8} {omega chunkSize : ℕ}

/-- The ranges of the planner from the one with index `j`: one behind each cut. -/
lemma chunkRangesFrom_mem {usizeMax n j : ℕ} {ranges : List ByteRange} (h0 : 0 < omega)
    (hchunk : omega < chunkSize) (hlen : pretoken.length ≤ usizeMax)
    (h : chunkRangesFrom usizeMax pretoken chunkSize omega false n (j * (chunkSize - omega)) =
      .ok ranges) (hj : j * (chunkSize - omega) < pretoken.length) (r : ByteRange) :
    r ∈ ranges ↔ ∃ k, j ≤ k ∧
      (∀ i, j ≤ i → i < k → i * (chunkSize - omega) + chunkSize < pretoken.length) ∧
      r = ⟨k * (chunkSize - omega),
        min (k * (chunkSize - omega) + chunkSize) pretoken.length⟩ := by
  induction n generalizing j ranges with
  | zero => simp [chunkRangesFrom] at h
  | succ n ih =>
      have hstop : min (min (j * (chunkSize - omega) + chunkSize) usizeMax) pretoken.length =
          min (j * (chunkSize - omega) + chunkSize) pretoken.length := by omega
      simp only [chunkRangesFrom, if_pos hj, Bool.false_eq_true, if_false, hstop] at h
      by_cases hend : min (j * (chunkSize - omega) + chunkSize) pretoken.length = pretoken.length
      · rw [if_pos hend] at h
        cases h
        rw [List.mem_singleton]
        constructor
        · rintro rfl
          exact ⟨j, le_rfl, fun i hi hij => absurd hi (by omega), rfl⟩
        · rintro ⟨k, hk, hcut, rfl⟩
          obtain rfl | hlt := hk.eq_or_lt
          · rfl
          · exact absurd (hcut j le_rfl hlt) (by omega)
      · rw [if_neg hend] at h
        have hnext : min (j * (chunkSize - omega) + chunkSize) pretoken.length - omega =
            (j + 1) * (chunkSize - omega) := by
          rw [Nat.add_mul, Nat.one_mul]
          omega
        have hsucc : (j + 1) * (chunkSize - omega) = j * (chunkSize - omega) + (chunkSize - omega) := by
          rw [Nat.add_mul, Nat.one_mul]
        rw [hnext, if_neg (by omega)] at h
        obtain ⟨rest, hrest, rfl⟩ := map_eq_ok_iff.mp h
        rw [List.mem_cons, ih hrest (by omega)]
        constructor
        · rintro (rfl | ⟨k, hk, hcut, rfl⟩)
          · exact ⟨j, le_rfl, fun i hi hij => absurd hi (by omega), rfl⟩
          · refine ⟨k, by omega, fun i hi hik => ?_, rfl⟩
            obtain rfl | hlt := hi.eq_or_lt
            · omega
            · exact hcut i hlt hik
        · rintro ⟨k, hk, hcut, rfl⟩
          obtain rfl | hlt := hk.eq_or_lt
          · exact .inl rfl
          · exact .inr ⟨k, hlt, fun i hi hik => hcut i (by omega) hik, rfl⟩

/-! ### What is requested -/

/-- A chunk that ends where chunks of the plan start and end. -/
def AtCuts (cut : ℕ → Prop) (r : ByteRange) : Prop := cut r.start ∧ cut r.stop

/-- The chunks of a reconciliation, and the range that it asks for, are made of whole
chunks of the plan. -/
structure Planned (cut : ℕ → Prop) (st : OverlapReconciliation) : Prop where
  left : ∀ c ∈ st.left, AtCuts cut c.range
  right : ∀ c ∈ st.right, AtCuts cut c.range
  pending : ∀ r ∈ st.pendingRange, AtCuts cut r

section Planned

variable {cut : ℕ → Prop} {usizeMax : ℕ} {tokenLen : TokenId → Option ℕ}

lemma encodedChunk_range {range : ByteRange} {ids : List TokenId} {chunk : EncodedChunk}
    (h : encodedChunk usizeMax tokenLen range ids = .ok chunk) : chunk.range = range := by
  rw [encodedChunk] at h
  obtain ⟨⟨cursor, boundaries⟩, -, h⟩ := bind_eq_ok_iff.mp h
  by_cases hcursor : cursor = range.stop
  · simp only [hcursor, ne_eq, not_true_eq_false, if_false] at h
    cases h
    rfl
  · simp only [ne_eq, hcursor, not_false_eq_true, if_true] at h
    cases h

lemma splice_range {left right chunk : EncodedChunk} {boundary : ℕ}
    (h : splice usizeMax tokenLen left right boundary = .ok chunk) :
    chunk.range = ⟨left.range.start, right.range.stop⟩ := by
  rw [splice] at h
  split at h
  case h_1 => exact encodedChunk_range h
  case h_2 => cases h

/-- The step: a splice and a request are made of whole chunks. -/
lemma advanceOver_planned {rest : List EncodedChunk} {st st' : OverlapReconciliation}
    (hleft : ∀ c ∈ st.left, AtCuts cut c.range) (hright : ∀ c ∈ rest, AtCuts cut c.range)
    (hpending : st.pendingRange = none)
    (h : advanceOver usizeMax tokenLen rest st = .ok st') : Planned cut st' := by
  induction rest generalizing st with
  | nil =>
      cases h
      exact ⟨hleft, by simp, by simp [hpending]⟩
  | cons right rest ih =>
      simp only [List.mem_cons, forall_eq_or_imp] at hright
      rw [advanceOver] at h
      dsimp only at h
      cases hl : st.left with
      | none => simp [hl] at h
      | some left =>
          have hcut := hleft left (by rw [hl]; rfl)
          have hmax : cut (max right.range.stop left.range.stop) := by
            rcases max_choice right.range.stop left.range.stop with heq | heq
            · rw [heq]
              exact hright.1.2
            · rw [heq]
              exact hcut.2
          -- a request stops the loop
          have hrequest : ∀ {l : Option EncodedChunk} {n m : ℕ}, l = none →
              Planned cut { st with
                left := l
                right := rest
                largestEncodedSpan := n
                pendingRange := some ⟨left.range.start, max right.range.stop left.range.stop⟩
                enlargements := m } := by
            rintro _ n m rfl
            exact ⟨by simp, hright.2, by simpa using ⟨hcut.1, hmax⟩⟩
          simp only [hl] at h
          split at h
          case h_1 boundary tail hoverlap =>
              split_ifs at h with heq
              · obtain ⟨chunk, hsplice, h⟩ := bind_eq_ok_iff.mp h
                refine ih ?_ hright.2 (by simpa using hpending) h
                rintro c ⟨⟩
                rw [splice_range hsplice]
                exact ⟨hcut.1, hright.1.2⟩
              · cases h
                exact hrequest rfl
          case h_2 =>
              cases h
              exact hrequest rfl

lemma encodedChunks_range {ranges : List ByteRange} {encoded : List (List TokenId)}
    {chunks : List EncodedChunk} (h : encodedChunks usizeMax tokenLen ranges encoded = .ok chunks) :
    ∀ c ∈ chunks, c.range ∈ ranges := by
  rw [encodedChunks] at h
  by_cases hlen : encoded.length = ranges.length
  · simp only [hlen, ne_eq, not_true_eq_false, if_false] at h
    intro c hc
    obtain ⟨x, hx, hchunk⟩ := exists_of_mapM_ok h hc
    rw [encodedChunk_range hchunk]
    exact (List.of_mem_zip hx).1
  · simp only [hlen, ne_eq, not_false_eq_true, if_true] at h
    cases h

/-- The chunks that a reconciliation starts with are those of the plan. -/
lemma new_planned {ranges : List ByteRange} {encoded : List (List TokenId)}
    {st : OverlapReconciliation} (hranges : ∀ r ∈ ranges, AtCuts cut r)
    (h : OverlapReconciliation.new usizeMax tokenLen ranges encoded = .ok st) : Planned cut st := by
  rw [OverlapReconciliation.new] at h
  obtain ⟨chunks, hchunks, h⟩ := bind_eq_ok_iff.mp h
  have hcut : ∀ c ∈ chunks, AtCuts cut c.range := fun c hc =>
    hranges _ (encodedChunks_range hchunks c hc)
  cases chunks with
  | nil => cases h
  | cons left right =>
      refine advanceOver_planned ?_ (fun c hc => hcut c (List.mem_cons_of_mem _ hc)) rfl h
      rintro c ⟨⟩
      exact hcut _ List.mem_cons_self

lemma acceptEnlargement_planned {st st' : OverlapReconciliation} {ids : List TokenId}
    (h : Planned cut st) (haccept : st.acceptEnlargement usizeMax tokenLen ids = .ok st') :
    Planned cut st' := by
  rw [OverlapReconciliation.acceptEnlargement] at haccept
  cases hp : st.pendingRange with
  | none => simp [hp] at haccept
  | some range =>
      simp only [hp] at haccept
      obtain ⟨chunk, hchunk, haccept⟩ := bind_eq_ok_iff.mp haccept
      refine advanceOver_planned ?_ h.right rfl haccept
      rintro c ⟨⟩
      rw [encodedChunk_range hchunk]
      exact h.pending range (by rw [hp]; rfl)

end Planned

/-- The reconciler only ever asks for whole chunks of its plan. -/
lemma Conversation.planned {planner : OverlapPlanner}
    {worker : List UInt8 → Except JsError (List TokenId)} {cut : ℕ → Prop}
    (hranges : ∀ r, beginOverlap planner pretoken chunkSize = .ok r → ∀ x ∈ r.ranges, AtCuts cut x)
    {r : WasmOverlapReconciler} {request : Option ByteRange}
    (h : Conversation planner worker pretoken chunkSize r request) :
    (∀ st ∈ r.state, Planned cut st) ∧ ∀ x ∈ request, AtCuts cut x := by
  induction h with
  | @initial r r' encoded request hbegin _ haccept =>
      rw [WasmOverlapReconciler.acceptInitial] at haccept
      by_cases hstate : r.state.isSome = true
      · rw [if_pos hstate] at haccept
        cases haccept
      · rw [if_neg hstate] at haccept
        dsimp only at haccept
        obtain ⟨split, -, haccept⟩ := bind_eq_ok_iff.mp haccept
        obtain ⟨st, hnew, haccept⟩ := bind_eq_ok_iff.mp haccept
        cases haccept
        have hplanned := new_planned (hranges r hbegin) (mapError_eq_ok.mp hnew)
        refine ⟨?_, hplanned.pending⟩
        rintro _ ⟨⟩
        exact hplanned
  | @enlargement r r' range ids request _ _ haccept ih =>
      rw [WasmOverlapReconciler.acceptEnlargement] at haccept
      cases hst : r.state with
      | none => simp [hst] at haccept
      | some st =>
          simp only [hst] at haccept
          obtain ⟨st', hst', haccept⟩ := bind_eq_ok_iff.mp haccept
          cases haccept
          have hplanned := acceptEnlargement_planned (ih.1 st hst) (mapError_eq_ok.mp hst')
          refine ⟨?_, hplanned.pending⟩
          rintro _ ⟨⟩
          exact hplanned

lemma overlapRanges_ok {usizeMax : ℕ} {ranges : List ByteRange}
    (h : overlapRanges usizeMax pretoken omega ⟨some chunkSize⟩ false = .ok ranges) :
    0 < omega ∧ omega * 2 ≤ chunkSize ∧
      chunkRanges usizeMax pretoken chunkSize omega false = .ok ranges := by
  rw [overlapRanges] at h
  by_cases hbig : usizeMax < omega
  · rw [if_pos hbig] at h
    cases h
  by_cases h0 : omega = 0
  · rw [if_neg hbig, if_pos h0] at h
    cases h
  simp only [hbig, h0, if_false, Bool.false_eq_true, false_and] at h
  obtain ⟨minimum, hmin, h⟩ := bind_eq_ok_iff.mp h
  rw [checkedMul] at hmin
  split_ifs at hmin
  cases hmin
  obtain ⟨size, ⟨⟩, h⟩ := bind_eq_ok_iff.mp h
  by_cases hsmall : chunkSize < omega * 2
  · rw [if_pos hsmall] at h
    cases h
  · rw [if_neg hsmall] at h
    exact ⟨Nat.pos_of_ne_zero h0, by omega, h⟩

/-- The ranges of a plan: one behind each cut. -/
lemma mem_ranges {planner : OverlapPlanner} {r : WasmOverlapReconciler}
    (hlen : pretoken.length ≤ u32Max) (h : beginOverlap planner pretoken chunkSize = .ok r) :
    isUtf8 pretoken = true ∧ 0 < planner.omega ∧ planner.omega * 2 ≤ chunkSize ∧
      ∀ x, x ∈ r.ranges ↔ ∃ k,
        (∀ i < k, i * (chunkSize - planner.omega) + chunkSize < pretoken.length) ∧
        x = ⟨k * (chunkSize - planner.omega),
          min (k * (chunkSize - planner.omega) + chunkSize) pretoken.length⟩ := by
  rw [beginOverlap] at h
  by_cases hutf8 : isUtf8 pretoken = true
  · by_cases havail : planner.chunkingAvailable = true
    · simp only [hutf8, havail, not_true_eq_false, if_false] at h
      obtain ⟨ranges, hranges, h⟩ := bind_eq_ok_iff.mp h
      cases h
      obtain ⟨h0, hchunk, hranges⟩ := overlapRanges_ok (mapError_eq_ok.mp hranges)
      refine ⟨hutf8, h0, hchunk, fun x => ?_⟩
      rw [chunkRanges] at hranges
      split_ifs at hranges with hsmall
      · cases hranges
        rw [List.mem_singleton]
        constructor
        · rintro rfl
          exact ⟨0, by simp, by simp [hsmall]⟩
        · rintro ⟨k, hcut, rfl⟩
          obtain rfl | hpos := Nat.eq_zero_or_pos k
          · simp [hsmall]
          · exact absurd (hcut 0 hpos) (by omega)
      · have hzero : 0 * (chunkSize - planner.omega) = 0 := Nat.zero_mul _
        rw [← hzero] at hranges
        rw [chunkRangesFrom_mem h0 (by omega) hlen hranges (by omega)]
        simp
    · simp [hutf8, havail] at h
      cases h
  · simp [hutf8] at h
    cases h

/-- Each range that is sent to a worker is accepted, exactly if the plan cuts the pretoken
between characters only. -/
theorem requested_accepted_iff (planner : OverlapPlanner) (pretoken : List UInt8) (chunkSize : ℕ)
    (encode : List UInt8 → List TokenId) (hlen : pretoken.length ≤ u32Max)
    (hbegin : ∃ r, beginOverlap planner pretoken chunkSize = .ok r) :
    (∀ range, Requested planner (encodePretoken encode) pretoken chunkSize range →
        ∃ ids, encodePretoken encode (range.slice pretoken) = .ok ids) ↔
      ∀ k, k * (chunkSize - planner.omega) + chunkSize < pretoken.length →
        CutsCharacters pretoken planner.omega chunkSize k := by
  obtain ⟨r, hr⟩ := hbegin
  obtain ⟨hutf8, h0, hchunk, hmem⟩ := mem_ranges hlen hr
  have haccepted : ∀ range : ByteRange,
      (∃ ids, encodePretoken encode (range.slice pretoken) = .ok ids) ↔
        isUtf8 (range.slice pretoken) = true := by
    intro range
    rw [encodePretoken]
    split_ifs with h <;> simp [h]
  constructor
  · intro hall k hk
    have hslice : ∀ i, i ≤ k + 1 → isUtf8 ((⟨i * (chunkSize - planner.omega),
        min (i * (chunkSize - planner.omega) + chunkSize) pretoken.length⟩ : ByteRange).slice
          pretoken) = true := by
      intro i hi
      refine (haccepted _).mp (hall _ (.initial hr ((hmem _).mpr ⟨i, fun i' hi' => ?_, rfl⟩)))
      have hmono := Nat.mul_le_mul_right (chunkSize - planner.omega) (show i' ≤ k by omega)
      omega
    have hsucc : (k + 1) * (chunkSize - planner.omega) =
        k * (chunkSize - planner.omega) + (chunkSize - planner.omega) := by
      rw [Nat.add_mul, Nat.one_mul]
    have hk' := hslice k (Nat.le_succ k)
    rw [Nat.min_eq_left hk.le] at hk'
    refine ⟨(isCharBoundary_of_slice hutf8 ?_ ?_ hk').2,
      (isCharBoundary_of_slice hutf8 ?_ ?_ (hslice (k + 1) le_rfl)).1⟩ <;> dsimp only <;> omega
  · intro hcuts range hrange
    have hstart : ∀ x ∈ r.ranges, AtCuts (fun i => isCharBoundary pretoken i = true) x := by
      intro x hx
      obtain ⟨k, hk, rfl⟩ := (hmem x).mp hx
      constructor
      · cases k with
        | zero => simp [isCharBoundary]
        | succ k => exact (hcuts k (hk k (Nat.lt_succ_self k))).2
      · rcases Nat.lt_or_ge (k * (chunkSize - planner.omega) + chunkSize) pretoken.length with hlt | hge
        · simpa [Nat.min_eq_left hlt.le] using (hcuts k hlt).1
        · simp [Nat.min_eq_right hge, isCharBoundary]
    have hplan : ∀ r', beginOverlap planner pretoken chunkSize = .ok r' →
        ∀ x ∈ r'.ranges, AtCuts (fun i => isCharBoundary pretoken i = true) x := by
      intro r' hr'
      cases hr.symm.trans hr'
      exact hstart
    rw [haccepted]
    cases hrange with
    | initial hr' hx =>
        have hcut := hplan _ hr' range hx
        exact isUtf8_slice hutf8 hcut.1 hcut.2
    | enlargement hconv =>
        have hcut := (hconv.planned hplan).2 range rfl
        exact isUtf8_slice hutf8 hcut.1 hcut.2

/-- Seventeen times `é`, in bytes. -/
def eText : List UInt8 := (List.replicate 17 [0xC3, 0xA9]).flatten

/-- `requested_accepted_iff` on a pretoken whose one cut falls between two characters: every
range is accepted. -/
theorem requested_accepted_eText : ∃ r, beginOverlap ⟨2, true, fun _ => some 1⟩ eText 32 = .ok r ∧
    ∀ range, Requested ⟨2, true, fun _ => some 1⟩ (encodePretoken fun s => s.map UInt8.toNat) eText
        32 range →
      ∃ ids, encodePretoken (fun s => s.map UInt8.toNat) (range.slice eText) = .ok ids := by
  obtain ⟨r, hr, -⟩ := eq_ok_of_toOption (f := fun _ => ()) (b := ())
    (x := beginOverlap ⟨2, true, fun _ => some 1⟩ eText 32) (by decide +kernel)
  refine ⟨r, hr,
    (requested_accepted_iff _ eText 32 (fun s => s.map UInt8.toNat) (by decide) ⟨r, hr⟩).mpr ?_⟩
  intro k hk
  obtain rfl : k = 0 := by
    have hlen : eText.length = 34 := by decide
    simp only [hlen] at hk
    omega
  exact ⟨by decide +kernel, by decide +kernel⟩

/-- With tokens of one byte and the default chunk size the second chunk of `eText` starts
inside of a character, and no worker accepts it. -/
theorem requested_refused :
    workerInputSupported true [] eText = true ∧ isUtf8 eText = true ∧
      Requested ⟨1, true, fun _ => some 1⟩ (encodePretoken fun s => s.map UInt8.toNat) eText 32
        ⟨31, 34⟩ ∧
      encodePretoken (fun s => s.map UInt8.toNat) ((⟨31, 34⟩ : ByteRange).slice eText) =
        .error .invalidUtf8 := by
  obtain ⟨r, hr, hranges⟩ := eq_ok_of_toOption (f := WasmOverlapReconciler.ranges)
    (b := [⟨0, 32⟩, ⟨31, 34⟩]) (x := beginOverlap ⟨1, true, fun _ => some 1⟩ eText 32)
    (by decide +kernel)
  refine ⟨rfl, by decide +kernel, .initial hr ?_, by decide +kernel⟩
  rw [hranges]
  decide

end Hypertok
