import Hypertok.Encode.SafeSplit
import Hypertok.Load.ChunkRun
import Hypertok.Machine.Rpc
import Hypertok.Machine.Text
import Hypertok.Tier.Reconciler

/-!
The worker tier: `encodeForTier` over the pool of `IndependentWorkerPool`.

A call cuts its input into batches of short pretokens and into long pretokens, which the workers
encode side by side, with the calls of others in between. What fails is encoded by the resident
tokenizer.

* `planTasks`: the batches and the long pretokens of `encodeWithWorkers`.
* `TierTask.job`: `encodeBatch` and `encodeLongPretoken`, from reply to reply.
* `Resident.client`: `encodeForTier`.
* `Resident.encodeForTier_exact`: in all runs, a call gets the tokens of the resident tokenizer.
-/

namespace Hypertok

open Machine

/-! ### The code -/

/-- What a worker or its pool fails with. -/
inductive TierError
  | js (e : JsError)
  | message (text : String)
  deriving DecidableEq, Repr

/-- The request `encodePretokens`. -/
structure EncodePretokens where
  input : List UInt8
  ranges : List ℕ

/-- Its reply. -/
structure EncodedPretokens where
  flatIds : List TokenId
  lengths : List ℕ

/-- The ranges of pieces that follow each other. -/
def rangesFrom : ℕ → List (List UInt8) → List ByteRange
  | _, [] => []
  | offset, bytes :: rest =>
      ⟨offset, offset + bytes.length⟩ :: rangesFrom (offset + bytes.length) rest

/-- A flat list of ranges, in pairs. -/
def pairs : List ℕ → List ByteRange
  | start :: stop :: rest => ⟨start, stop⟩ :: pairs rest
  | _ => []

/-- The handler of `encodePretokens` in a worker. -/
def handleEncodePretokens (encode : List UInt8 → List TokenId) (q : EncodePretokens) :
    Except TierError EncodedPretokens := do
  if q.ranges.length % 2 ≠ 0 then throw (.message "worker pretoken ranges are not paired")
  let encoded ← ((pairs q.ranges).mapM fun range =>
    encodePretoken encode (range.slice q.input)).mapError .js
  return { flatIds := encoded.flatten, lengths := encoded.map List.length }

/-- What `encodeBatch` posts. -/
def batchRequest (entries : List (List UInt8)) : EncodePretokens where
  input := entries.flatten
  ranges := (rangesFrom 0 entries).flatMap fun range => [range.start, range.stop]

/-- The loop over the lengths in `encodeBatch`, with the offset behind it. -/
def sliceLengths (flatIds : List TokenId) : ℕ → List ℕ → List (List TokenId) × ℕ
  | offset, [] => ([], offset)
  | offset, length :: lengths =>
      let (encoded, stop) := sliceLengths flatIds (offset + length) lengths
      ((⟨offset, offset + length⟩ : ByteRange).slice flatIds :: encoded, stop)

/-- What `encodeBatch` makes of the reply. -/
def batchResult (count : ℕ) (reply : EncodedPretokens) :
    Except TierError (List (List TokenId)) :=
  let (encoded, offset) := sliceLengths reply.flatIds 0 reply.lengths
  if offset ≠ reply.flatIds.length ∨ encoded.length ≠ count then
    .error (.message "worker result lengths do not match the encoded batch")
  else .ok encoded

/-- `encode` of the pool: a batch of one. -/
def singleResult (reply : EncodedPretokens) : Except TierError (List TokenId) :=
  (batchResult 1 reply).map fun encoded => encoded.headD []

/-- What `encodeWithWorkers` waits for: a batch, or a long pretoken before and after its first
replies. -/
inductive TierTask
  | batch (entries : List (List UInt8))
  | initial (pretoken : List UInt8) (r : WasmOverlapReconciler)
  | enlarging (pretoken : List UInt8) (r : WasmOverlapReconciler) (request : ByteRange)
  | done (x : Except TierError (List (List TokenId)))

namespace TierTask

/-- The next requests. -/
def next : TierTask → Rpc.Await EncodePretokens TierError (List (List TokenId))
  | batch entries => .calls [batchRequest entries]
  | initial pretoken r => .calls (r.ranges.map fun range => batchRequest [range.slice pretoken])
  | enlarging pretoken _ request => .calls [batchRequest [request.slice pretoken]]
  | done x => .done x

/-- The turn of the loop of `encodeLongPretoken`, or its end. -/
def advance (pretoken : List UInt8) :
    Except JsError (WasmOverlapReconciler × Option ByteRange) → TierTask
  | .error e => done (.error (.js e))
  | .ok (r, some request) => enlarging pretoken r request
  | .ok (r, none) => done ((r.takeIds.mapError .js).map fun ids => [ids])

/-- What follows the replies. -/
def resume (planner : OverlapPlanner) :
    TierTask → Except TierError (List EncodedPretokens) → TierTask
  | done x, _ => done x
  | _, .error e => done (.error e)
  | batch entries, .ok replies =>
      done ((replies.mapM (batchResult entries.length)).map List.flatten)
  | initial pretoken r, .ok replies =>
      match replies.mapM singleResult with
      | .error e => done (.error e)
      | .ok encoded =>
          advance pretoken (r.acceptInitial planner encoded.flatten (encoded.map List.length))
  | enlarging pretoken r _, .ok replies =>
      match replies.mapM singleResult with
      | .error e => done (.error e)
      | .ok encoded => advance pretoken (r.acceptEnlargement planner encoded.flatten)

/-- The tasks as a coroutine. -/
def job (planner : OverlapPlanner) :
    Rpc.Job TierTask EncodePretokens EncodedPretokens TierError (List (List TokenId)) where
  next := next
  resume := resume planner

end TierTask

/-- How many short pretokens a batch has at most. -/
def shortBatchLimit : ℕ := 1024

/-- `flushShortBatch`. -/
def flushShortBatch (shortBatch : List (List UInt8)) : List TierTask :=
  if shortBatch.length = 0 then [] else [.batch shortBatch]

/-- `encodeLongPretoken`, up to its first requests. -/
def beginLongPretoken (planner : OverlapPlanner) (chunkSize : ℕ) (pretoken : List UInt8) :
    TierTask :=
  match beginOverlap planner pretoken chunkSize with
  | .error e => .done (.error (.js e))
  | .ok r => .initial pretoken r

/-- The loop over the pretokens in `encodeWithWorkers`. -/
def planTasks (planner : OverlapPlanner) (chunkSize : ℕ) :
    List (List UInt8) → List (List UInt8) → List TierTask
  | shortBatch, [] => flushShortBatch shortBatch
  | shortBatch, pretoken :: rest =>
      if chunkSize < pretoken.length then
        flushShortBatch shortBatch ++
          beginLongPretoken planner chunkSize pretoken :: planTasks planner chunkSize [] rest
      else if (shortBatch ++ [pretoken]).length = shortBatchLimit then
        flushShortBatch (shortBatch ++ [pretoken]) ++ planTasks planner chunkSize [] rest
      else planTasks planner chunkSize (shortBatch ++ [pretoken]) rest

/-- The formats that a worker can be initialized with. -/
inductive VocabularyFormat
  | tiktoken
  | htk
  deriving DecidableEq, Repr

/-- The resident tokenizer. One that can hand inputs to workers has neither normalization nor a
prefix, and the contents of its added tokens are among the patterns that keep an input from the
workers. -/
structure Resident where
  model : ByteTable
  tables : UnicodeTables
  scheme : PretokenizerType
  data : NfcData
  pipeline : Pipeline
  omega : ℕ
  chunkingAvailable : Bool
  format : VocabularyFormat
  workerModel : Bool
  workerUnsupportedPatterns : List (List UInt8)
  spelled : pipeline.Spelled
  transferable : (format = .htk → workerModel = true) → pipeline.Plain ∧
    ∀ t ∈ pipeline.addedTokens, t.content ∈ workerUnsupportedPatterns
  untransferred : format = .tiktoken → workerUnsupportedPatterns = []

namespace Resident

variable (R : Resident)

/-- The part that plans with. -/
def planner : OverlapPlanner := ⟨R.omega, R.chunkingAvailable, R.model.tokenLen⟩

/-- `encode`, by `encode_with_added_tokens_flat`. -/
def encode (input : List UInt8) : Except TierError (List TokenId) :=
  if ¬ isUtf8 input then .error (.js .invalidUtf8)
  else
    match R.pipeline.found R.tables R.scheme R.data input with
    | none => .error (.js (.chunk .stuck))
    | some found => .ok (found.flatMap fun
        | .pretoken _ bytes => R.model.encode bytes
        | .added id _ _ => [id])

/-- `pretoken_ranges`. -/
def pretokenRanges (input : List UInt8) : Except TierError (List ByteRange) :=
  if ¬ isUtf8 input then .error (.js .invalidUtf8)
  else
    match R.scheme.pretokenize R.tables input with
    | none => .error (.js (.chunk .stuck))
    | some tokens =>
        let ranges := rangesFrom 0 tokens
        if ranges.any fun range => u32Max < range.stop then
          .error (.js (.message "pretoken range exceeds WebAssembly memory"))
        else .ok ranges

/-- `default_chunk_size`. -/
def defaultChunkSize : Except TierError ℕ :=
  if u32Max < R.omega * 32 then .error (.js (.message "default chunk size exceeds u32"))
  else .ok (R.omega * 32)

/-- `encodeWithWorkers`, up to its first requests. -/
def encodeWithWorkers (input : List UInt8) : Except TierError (List TierTask) := do
  let ranges ← R.pretokenRanges input
  let chunkSize ← R.defaultChunkSize
  return planTasks R.planner chunkSize [] (ranges.map fun range => range.slice input)

/-- `encodeForTier`, for the worker tier. -/
def client : Rpc.Client TierTask EncodePretokens EncodedPretokens TierError (List UInt8)
    (List (List TokenId)) (List TokenId) where
  toJob := TierTask.job R.planner
  plan input :=
    if R.format = .htk ∧
        ¬ workerInputSupported R.workerModel R.workerUnsupportedPatterns input then none
    else some (R.encodeWithWorkers input)
  collect parts := parts.flatten.flatten
  alone := R.encode
  closed := .message "execution-tier session is closed"

end Resident

/-! ### Requests and replies -/

section Batches

variable {encode : List UInt8 → List TokenId} {entries : List (List UInt8)}
  {reply : EncodedPretokens}

lemma pairs_flatMap (ranges : List ByteRange) :
    pairs (ranges.flatMap fun range => [range.start, range.stop]) = ranges := by
  induction ranges with
  | nil => rfl
  | cons range ranges ih =>
      rw [List.flatMap_cons, List.cons_append, List.cons_append, List.nil_append, pairs, ih]

/-- The ranges cut the input of a batch into its entries. -/
lemma map_slice_rangesFrom (front : List UInt8) (entries : List (List UInt8)) :
    ((rangesFrom front.length entries).map fun range => range.slice (front ++ entries.flatten)) =
      entries := by
  induction entries generalizing front with
  | nil => rfl
  | cons bytes rest ih =>
      have hslice : (⟨front.length, front.length + bytes.length⟩ : ByteRange).slice
          (front ++ (bytes ++ rest.flatten)) = bytes := by
        rw [ByteRange.slice, List.drop_take, List.drop_left, Nat.add_sub_cancel_left,
          List.take_left]
      have hrest := ih (front ++ bytes)
      rw [List.length_append, List.append_assoc] at hrest
      rw [rangesFrom, List.map_cons, List.flatten_cons, hslice, hrest]

lemma slices_batch (entries : List (List UInt8)) :
    ((pairs (batchRequest entries).ranges).map fun range =>
      range.slice (batchRequest entries).input) = entries := by
  rw [batchRequest, pairs_flatMap]
  exact map_slice_rangesFrom [] entries

lemma eq_map_of_mapM_ok {ε γ δ : Type} {f : γ → Except ε δ} {g : γ → δ}
    (hfg : ∀ x y, f x = .ok y → y = g x) {xs : List γ} {ys : List δ} (h : xs.mapM f = .ok ys) :
    ys = xs.map g := by
  have hall := mapM_ok_iff.mp h
  clear h
  induction hall with
  | nil => rfl
  | cons hxy _ ih => rw [List.map_cons, ← hfg _ _ hxy, ih]

/-- A worker that answers has encoded all entries. -/
lemma handle_batch (h : handleEncodePretokens encode (batchRequest entries) = .ok reply) :
    reply = ⟨(entries.map encode).flatten, (entries.map encode).map List.length⟩ := by
  rw [handleEncodePretokens] at h
  by_cases hodd : (batchRequest entries).ranges.length % 2 ≠ 0
  · rw [if_pos hodd] at h
    cases h
  rw [if_neg hodd] at h
  obtain ⟨encoded, hencoded, h⟩ := bind_eq_ok_iff.mp h
  have hencode : ∀ (range : ByteRange) (ids : List TokenId),
      encodePretoken encode (range.slice (batchRequest entries).input) = .ok ids →
        ids = encode (range.slice (batchRequest entries).input) := by
    intro range ids hids
    rw [encodePretoken] at hids
    split_ifs at hids
    exact (Except.ok.inj hids).symm
  have hslices : encoded = entries.map encode := by
    conv_rhs => rw [← slices_batch entries, List.map_map]
    exact eq_map_of_mapM_ok hencode (mapError_eq_ok.mp hencoded)
  rw [← hslices]
  exact (Except.ok.inj h).symm

/-- The lengths of a list of lists cut its concatenation. -/
lemma sliceLengths_flatten (front : List TokenId) (encoded : List (List TokenId)) :
    sliceLengths (front ++ encoded.flatten) front.length (encoded.map List.length) =
      (encoded, (front ++ encoded.flatten).length) := by
  induction encoded generalizing front with
  | nil => simp [sliceLengths]
  | cons ids rest ih =>
      have hslice : (⟨front.length, front.length + ids.length⟩ : ByteRange).slice
          (front ++ (ids ++ rest.flatten)) = ids := by
        rw [ByteRange.slice, List.drop_take, List.drop_left, Nat.add_sub_cancel_left,
          List.take_left]
      have hrest := ih (front ++ ids)
      rw [List.length_append, List.append_assoc] at hrest
      rw [List.map_cons, List.flatten_cons, sliceLengths, hrest, hslice]

lemma batchResult_handle
    (h : handleEncodePretokens encode (batchRequest entries) = .ok reply) :
    batchResult entries.length reply = .ok (entries.map encode) := by
  obtain rfl := handle_batch h
  have hslices := sliceLengths_flatten [] (entries.map encode)
  rw [List.nil_append, List.length_nil] at hslices
  rw [batchResult, hslices]
  simp

lemma singleResult_handle {bytes : List UInt8}
    (h : handleEncodePretokens encode (batchRequest [bytes]) = .ok reply) :
    singleResult reply = .ok (encode bytes) := by
  have hbatch := batchResult_handle h
  rw [List.length_singleton] at hbatch
  rw [singleResult, hbatch]
  rfl

end Batches

/-! ### What a task returns -/

section Tasks

variable {T : ByteTable} {planner : OverlapPlanner} {pretoken : List UInt8}

/-- The first replies of a plan make a reconciliation. -/
lemma new_overlapRanges {ranges : List ByteRange} {chunkSize : ℕ} (hlen : pretoken.length ≤ u32Max)
    (hmax : chunkSize ≤ u32Max) {omega : ℕ}
    (h : overlapRanges u32Max pretoken omega ⟨some chunkSize⟩ false = .ok ranges) :
    ∃ st m, OverlapReconciliation.new u32Max T.tokenLen ranges
        (ranges.map fun range => T.encode (range.slice pretoken)) = .ok st ∧
      Settled T pretoken m st := by
  obtain ⟨h0, hchunk, -⟩ := overlapRanges_ok h
  obtain ⟨stop, rest, hranges, hstop, hchain⟩ :
      ∃ stop rest, overlapRanges u32Max pretoken omega ⟨some chunkSize⟩ false =
        .ok (⟨0, stop⟩ :: rest) ∧ stop ≤ pretoken.length ∧ Chained pretoken.length stop rest :=
    overlapRanges_chained pretoken h0 hchunk hmax hlen
  obtain rfl := Except.ok.inj (h.symm.trans hranges)
  exact new_settled hlen hstop hchain

/-- A reconciliation that asks for nothing has all tokens. -/
lemma takeIds_settled {r : WasmOverlapReconciler} {st : OverlapReconciliation} {m : ℕ}
    (hstate : r.state = some st) (h : Settled T pretoken m st) (hnone : st.pendingRange = none) :
    r.takeIds = .ok (T.encode pretoken) := by
  cases h with
  | pending _ hpending => cases hpending.symm.trans hnone
  | done left hpending hright hleft hexact hrange =>
      have hids := hexact.ids
      rw [hrange, ByteRange.slice_all] at hids
      rw [WasmOverlapReconciler.takeIds, hstate, ← hids]
      simp [OverlapReconciliation.finish, hpending, hright, hleft, jsError, Except.map,
        Except.mapError]

/-- The lengths of the first replies cut them out of the buffer. -/
lemma splitResultsFrom_flatten (front : List TokenId) (encoded : List (List TokenId)) :
    splitResultsFrom (front ++ encoded.flatten) front.length (encoded.map List.length) =
      .ok encoded := by
  induction encoded generalizing front with
  | nil => simp [splitResultsFrom]
  | cons ids rest ih =>
      have hslice : (⟨front.length, front.length + ids.length⟩ : ByteRange).slice
          (front ++ (ids ++ rest.flatten)) = ids := by
        rw [ByteRange.slice, List.drop_take, List.drop_left, Nat.add_sub_cancel_left,
          List.take_left]
      have hle : ¬ (front ++ (ids ++ rest.flatten)).length < front.length + ids.length := by
        simp only [List.length_append]
        omega
      have hrest := ih (front ++ ids)
      rw [List.length_append, List.append_assoc] at hrest
      rw [List.map_cons, List.flatten_cons, splitResultsFrom, if_neg hle, hrest, hslice]
      rfl

/-- What `begin_overlap` returns. -/
lemma beginOverlap_ok {r : WasmOverlapReconciler} {chunkSize : ℕ}
    (h : beginOverlap planner pretoken chunkSize = .ok r) :
    overlapRanges u32Max pretoken planner.omega ⟨some chunkSize⟩ false = .ok r.ranges ∧
      r.state = none := by
  rw [beginOverlap] at h
  by_cases hutf8 : isUtf8 pretoken = true
  · by_cases havail : planner.chunkingAvailable = true
    · simp only [hutf8, havail, not_true_eq_false, if_false] at h
      obtain ⟨ranges, hranges, h⟩ := bind_eq_ok_iff.mp h
      cases h
      exact ⟨mapError_eq_ok.mp hranges, rfl⟩
    · simp [hutf8, havail] at h
      cases h
  · simp [hutf8] at h
    cases h

/-- What a task returns, if it does. -/
inductive TierTask.Returns (planner : OverlapPlanner) (T : ByteTable) :
    TierTask → List (List TokenId) → Prop
  | batch (entries : List (List UInt8)) :
      Returns planner T (.batch entries) (entries.map T.encode)
  | initial {pretoken : List UInt8} {r : WasmOverlapReconciler} {chunkSize : ℕ}
      (hlen : pretoken.length ≤ u32Max) (hmax : chunkSize ≤ u32Max)
      (hbegin : beginOverlap planner pretoken chunkSize = .ok r) :
      Returns planner T (.initial pretoken r) [T.encode pretoken]
  | enlarging {pretoken : List UInt8} {r : WasmOverlapReconciler} {request : ByteRange}
      {st : OverlapReconciliation} {m : ℕ} (hlen : pretoken.length ≤ u32Max)
      (hstate : r.state = some st) (hsettled : Settled T pretoken m st)
      (hrequest : st.pendingRange = some request) :
      Returns planner T (.enlarging pretoken r request) [T.encode pretoken]
  | returned (v : List (List TokenId)) : Returns planner T (.done (.ok v)) v
  | failed (e : TierError) (v : List (List TokenId)) : Returns planner T (.done (.error e)) v

/-- The loop goes on, or it ends with the tokens of the pretoken. -/
lemma TierTask.returns_advance (hlen : pretoken.length ≤ u32Max) {r : WasmOverlapReconciler}
    {st : OverlapReconciliation} {m : ℕ} (hstate : r.state = some st)
    (h : Settled T pretoken m st) :
    (TierTask.advance pretoken (.ok (r, st.pendingRange))).Returns planner T
      [T.encode pretoken] := by
  cases hrequest : st.pendingRange with
  | some request => exact .enlarging hlen hstate h hrequest
  | none =>
      rw [TierTask.advance, takeIds_settled hstate h hrequest]
      exact .returned _

/-- The replies to single ranges. -/
lemma mapM_singleResult {ranges : List ByteRange} {replies : List EncodedPretokens}
    (h : List.Forall₂ (fun q reply => handleEncodePretokens T.encode q = .ok reply)
      (ranges.map fun range => batchRequest [range.slice pretoken]) replies) :
    replies.mapM singleResult = .ok (ranges.map fun range => T.encode (range.slice pretoken)) := by
  rw [mapM_ok_iff]
  rw [List.forall₂_map_left_iff] at h
  rw [List.forall₂_map_right_iff]
  exact (h.imp fun range reply hreply => singleResult_handle hreply).flip

lemma acceptInitial_ok (hplanner : planner.tokenLengths = T.tokenLen) {r : WasmOverlapReconciler}
    (hstate : r.state = none) {encoded : List (List TokenId)} {st : OverlapReconciliation}
    (hcount : encoded.length = r.ranges.length)
    (hnew : OverlapReconciliation.new u32Max T.tokenLen r.ranges encoded = .ok st) :
    r.acceptInitial planner encoded.flatten (encoded.map List.length) =
      .ok ({ r with state := some st }, st.pendingRange) := by
  have hsplit : splitEncodedResults encoded.flatten (encoded.map List.length) r.ranges.length =
      .ok encoded := by
    have hcount' : (encoded.map List.length).length = r.ranges.length := by
      rw [List.length_map, hcount]
    rw [splitEncodedResults, if_neg (not_not.mpr hcount')]
    exact splitResultsFrom_flatten [] encoded
  simp [WasmOverlapReconciler.acceptInitial, hstate, hsplit, hplanner, hnew, jsError,
    Except.mapError, pure, Except.pure]

lemma TierTask.resume_initial {r : WasmOverlapReconciler} {replies : List EncodedPretokens}
    {encoded : List (List TokenId)} (h : replies.mapM singleResult = .ok encoded) :
    (TierTask.job planner).resume (.initial pretoken r) (.ok replies) =
      TierTask.advance pretoken
        (r.acceptInitial planner encoded.flatten (encoded.map List.length)) := by
  simp only [TierTask.job, TierTask.resume, h]

lemma TierTask.resume_enlarging {r : WasmOverlapReconciler} {request : ByteRange}
    {replies : List EncodedPretokens} {encoded : List (List TokenId)}
    (h : replies.mapM singleResult = .ok encoded) :
    (TierTask.job planner).resume (.enlarging pretoken r request) (.ok replies) =
      TierTask.advance pretoken (r.acceptEnlargement planner encoded.flatten) := by
  simp only [TierTask.job, TierTask.resume, h]

/-- What the workers answer leads to the tokens of the resident tokenizer. -/
theorem TierTask.keeps (hplanner : planner.tokenLengths = T.tokenLen) :
    (TierTask.job planner).Keeps (handleEncodePretokens T.encode)
      (TierTask.Returns planner T) where
  done h hnext := by
    cases h with
    | returned => exact (Except.ok.inj (Rpc.Await.done.inj hnext)).symm
    | failed => cases hnext
    | batch => cases hnext
    | initial => cases hnext
    | enlarging => cases hnext
  error e h hnext := by
    cases h with
    | returned => cases hnext
    | failed => cases hnext
    | batch => exact .failed e _
    | initial => exact .failed e _
    | enlarging => exact .failed e _
  resume h hnext hreplies := by
    cases h with
    | returned => cases hnext
    | failed => cases hnext
    | batch entries =>
        obtain rfl := Rpc.Await.calls.inj hnext
        obtain ⟨reply, _, hreply, hrest, rfl⟩ := List.forall₂_cons_left_iff.mp hreplies
        cases hrest
        have hresume : (TierTask.job planner).resume (.batch entries) (.ok [reply]) =
            .done (.ok (entries.map T.encode)) := by
          simp [TierTask.job, TierTask.resume, batchResult_handle hreply, pure, Except.pure,
            Except.map]
        rw [hresume]
        exact .returned _
    | @initial pretoken r chunkSize hlen hmax hbegin =>
        obtain rfl := Rpc.Await.calls.inj hnext
        obtain ⟨hranges, hstate⟩ := beginOverlap_ok hbegin
        obtain ⟨st, m, hnew, hsettled⟩ := new_overlapRanges (T := T) hlen hmax hranges
        rw [TierTask.resume_initial (mapM_singleResult hreplies),
          acceptInitial_ok hplanner hstate (List.length_map _) hnew]
        exact TierTask.returns_advance hlen rfl hsettled
    | @enlarging pretoken r request st m hlen hstate hsettled hrequest =>
        obtain rfl := Rpc.Await.calls.inj hnext
        obtain ⟨st', m', haccept', hsettled'⟩ := acceptEnlargement_settled hlen hsettled hrequest
        have haccept : r.acceptEnlargement planner (T.encode (request.slice pretoken)) =
            .ok ({ r with state := some st' }, st'.pendingRange) := by
          simp [WasmOverlapReconciler.acceptEnlargement, hstate, hplanner, haccept', jsError,
            Except.mapError, pure, Except.pure]
        have hsingle := @mapM_singleResult T pretoken [request] _ hreplies
        rw [List.map_singleton] at hsingle
        rw [TierTask.resume_enlarging hsingle, List.flatten_singleton, haccept]
        exact TierTask.returns_advance hlen rfl hsettled'

/-! ### What a call is cut into -/

/-- The first state of a long pretoken. -/
lemma returns_beginLongPretoken {chunkSize : ℕ} (hmax : chunkSize ≤ u32Max)
    (hlen : pretoken.length ≤ u32Max) :
    (beginLongPretoken planner chunkSize pretoken).Returns planner T [T.encode pretoken] := by
  rw [beginLongPretoken]
  cases hbegin : beginOverlap planner pretoken chunkSize with
  | error e => exact .failed _ _
  | ok r => exact .initial hlen hmax hbegin

variable (T planner) in
lemma returns_flushShortBatch (shortBatch : List (List UInt8)) :
    ∃ vs, List.Forall₂ (TierTask.Returns planner T) (flushShortBatch shortBatch) vs ∧
      vs.flatten = shortBatch.map T.encode := by
  rw [flushShortBatch]
  split_ifs with hnil
  · rw [List.length_eq_zero_iff.mp hnil]
    exact ⟨[], .nil, rfl⟩
  · exact ⟨[_], .cons (.batch shortBatch) .nil, List.flatten_singleton⟩

variable (T planner) in
/-- The tasks return the tokens of all pretokens, in order. -/
lemma returns_planTasks {chunkSize : ℕ} (hmax : chunkSize ≤ u32Max)
    {pretokens : List (List UInt8)} (hlen : ∀ p ∈ pretokens, p.length ≤ u32Max)
    (shortBatch : List (List UInt8)) :
    ∃ vs, List.Forall₂ (TierTask.Returns planner T)
        (planTasks planner chunkSize shortBatch pretokens) vs ∧
      vs.flatten = (shortBatch ++ pretokens).map T.encode := by
  induction pretokens generalizing shortBatch with
  | nil =>
      rw [planTasks, List.append_nil]
      exact returns_flushShortBatch T planner shortBatch
  | cons pretoken rest ih =>
      have hrest := ih fun p hp => hlen p (List.mem_cons_of_mem _ hp)
      rw [planTasks]
      split_ifs with hlong hfull
      · obtain ⟨vs, hvs, hflush⟩ := returns_flushShortBatch T planner shortBatch
        obtain ⟨ws, hws, hflat⟩ := hrest []
        refine ⟨vs ++ [T.encode pretoken] :: ws, List.rel_append hvs (.cons
          (returns_beginLongPretoken hmax (hlen pretoken List.mem_cons_self)) hws), ?_⟩
        rw [List.flatten_append, List.flatten_cons, hflush, hflat, List.nil_append,
          List.map_append, List.map_cons]
        rfl
      · obtain ⟨vs, hvs, hflush⟩ :=
          returns_flushShortBatch T planner (shortBatch ++ [pretoken])
        obtain ⟨ws, hws, hflat⟩ := hrest []
        refine ⟨vs ++ ws, List.rel_append hvs hws, ?_⟩
        rw [List.flatten_append, hflush, hflat, List.nil_append, ← List.map_append,
          List.append_assoc]
        rfl
      · obtain ⟨ws, hws, hflat⟩ := hrest (shortBatch ++ [pretoken])
        exact ⟨ws, hws, by rw [hflat, List.append_assoc]; rfl⟩

end Tasks

/-! ### The tokens of the resident tokenizer -/

lemma exists_range_of_mem {tokens : List (List UInt8)} {bytes : List UInt8} (h : bytes ∈ tokens)
    (offset : ℕ) : ∃ range ∈ rangesFrom offset tokens, bytes.length ≤ range.stop := by
  induction tokens generalizing offset with
  | nil => exact absurd h List.not_mem_nil
  | cons token rest ih =>
      rw [rangesFrom]
      obtain rfl | h := List.mem_cons.mp h
      · exact ⟨_, List.mem_cons_self, Nat.le_add_left _ _⟩
      · obtain ⟨range, hmem, hle⟩ := ih h (offset + token.length)
        exact ⟨range, List.mem_cons_of_mem _ hmem, hle⟩

lemma flatMap_locate (encode : List UInt8 → List TokenId) (start : ℕ)
    (tokens : List (List UInt8)) :
    ((Found.locate start tokens).flatMap fun
      | .pretoken _ bytes => encode bytes
      | .added id _ _ => [id]) = tokens.flatMap encode := by
  induction tokens generalizing start with
  | nil => rfl
  | cons token rest ih => rw [Found.locate, List.flatMap_cons, List.flatMap_cons, ih]

namespace Resident

variable {R : Resident} {x : List Char}

/-- Without an added token in a text all of it is pretokenized. -/
lemma encode_text (hplain : R.pipeline.Plain)
    (hnone : ∀ t ∈ R.pipeline.addedTokens, ¬ t.content <:+: textBytes x) :
    R.encode (textBytes x) =
      .ok (((R.scheme.pieces R.tables x).map textBytes).flatMap R.model.encode) := by
  have hfind : R.pipeline.find x = none := by
    cases hfind : R.pipeline.find x with
    | none => rfl
    | some found =>
        obtain ⟨gap, t, rest⟩ := found
        obtain ⟨ht, happend⟩ := findFirst_eq_append hfind
        exact absurd ⟨gap, rest, by rw [happend, List.append_assoc]⟩ (hnone t ht)
  obtain ⟨ps, hpass, hfound⟩ := Pipeline.found_text R.spelled hplain R.tables R.scheme R.data x
  have hlocate : ps.flatMap (Pipeline.TextPiece.found R.tables R.scheme) =
      Found.locate 0 ((R.scheme.pieces R.tables x).map textBytes) := by
    cases hpass with
    | nil => rw [PretokenizerType.pieces_nil]; rfl
    | last => rw [List.flatMap_singleton]; rfl
    | next _ _ _ hfind' => cases hfind.symm.trans hfind'
  rw [encode, if_neg (not_not.mpr (isUtf8_iff.mpr ⟨x, rfl⟩)), hfound, hlocate]
  exact congrArg Except.ok (flatMap_locate R.model.encode 0 _)

/-- The pretokens that are cut out of a text. -/
lemma pretokenRanges_text {ranges : List ByteRange}
    (h : R.pretokenRanges (textBytes x) = .ok ranges) :
    (ranges.map fun range => range.slice (textBytes x)) =
        (R.scheme.pieces R.tables x).map textBytes ∧
      ∀ p ∈ (R.scheme.pieces R.tables x).map textBytes, p.length ≤ u32Max := by
  rw [pretokenRanges, if_neg (not_not.mpr (isUtf8_iff.mpr ⟨x, rfl⟩)),
    PretokenizerType.pretokenize_eq] at h
  dsimp only at h
  split_ifs at h with hbig
  obtain rfl := Except.ok.inj h
  constructor
  · have hcut := map_slice_rangesFrom [] ((R.scheme.pieces R.tables x).map textBytes)
    rwa [List.nil_append, ← textBytes_flatten, R.scheme.flatten_pieces] at hcut
  · intro p hp
    obtain ⟨range, hmem, hle⟩ := exists_range_of_mem hp 0
    by_contra hlong
    refine hbig (List.any_eq_true.mpr ⟨range, hmem, decide_eq_true ?_⟩)
    omega

/-- The tasks of a call return the tokens of the resident tokenizer. -/
lemma client_plans (R : Resident) : R.client.Plans (TierTask.Returns R.planner R.model) := by
  intro input tasks hplan
  rw [client] at hplan
  dsimp only at hplan
  split_ifs at hplan with hkept
  have hplan := Option.some.inj hplan
  rw [encodeWithWorkers] at hplan
  obtain ⟨ranges, hranges, hplan⟩ := bind_eq_ok_iff.mp hplan
  obtain ⟨chunkSize, hchunk, hplan⟩ := bind_eq_ok_iff.mp hplan
  obtain rfl := Except.ok.inj hplan
  -- the input is a text, and none of the added tokens is in it
  have hutf8 : isUtf8 input = true := by
    by_contra hutf8
    rw [pretokenRanges, if_pos hutf8] at hranges
    cases hranges
  obtain ⟨x, rfl⟩ := isUtf8_iff.mp hutf8
  have hsupported : R.format = .htk →
      workerInputSupported R.workerModel R.workerUnsupportedPatterns (textBytes x) = true :=
    fun hhtk => by simpa [hhtk] using hkept
  obtain ⟨hplain, hcontents⟩ := R.transferable fun hhtk => by
    have := hsupported hhtk
    rw [workerInputSupported, Bool.and_eq_true] at this
    exact this.1
  have hnone : ∀ t ∈ R.pipeline.addedTokens, ¬ t.content <:+: textBytes x := by
    intro t ht hinfix
    cases hformat : R.format with
    | tiktoken =>
        have hmem := hcontents t ht
        rw [R.untransferred hformat] at hmem
        exact List.not_mem_nil hmem
    | htk =>
        have := hsupported hformat
        rw [workerInputSupported, Bool.and_eq_true, Bool.not_eq_true'] at this
        refine absurd (List.any_eq_true.mpr ⟨t.content, hcontents t ht, ?_⟩)
          (Bool.eq_false_iff.mp this.2)
        exact decide_eq_true hinfix
  have hmax : chunkSize ≤ u32Max := by
    rw [defaultChunkSize] at hchunk
    split_ifs at hchunk with hbig
    obtain rfl := Except.ok.inj hchunk
    exact Nat.le_of_not_lt hbig
  obtain ⟨hslices, hlen⟩ := pretokenRanges_text hranges
  rw [hslices]
  obtain ⟨vs, hvs, hflat⟩ := returns_planTasks R.model R.planner hmax hlen []
  refine ⟨vs, hvs, ?_⟩
  change R.encode (textBytes x) = .ok vs.flatten.flatten
  rw [encode_text hplain hnone, hflat, List.nil_append, List.flatMap]

end Resident

/-! ### Enlargements end -/

section Bounded

variable {planner : OverlapPlanner} {usizeMax : ℕ} {tokenLen : TokenId → Option ℕ}

/-- A request uses up a chunk on the right. -/
lemma advanceOver_request {rest : List EncodedChunk} {st st' : OverlapReconciliation}
    (h : advanceOver usizeMax tokenLen rest st = .ok st') (hnone : st.pendingRange = none)
    (hsome : st'.pendingRange ≠ none) : st'.right.length < rest.length := by
  induction rest generalizing st with
  | nil =>
      cases h
      exact absurd hnone hsome
  | cons right rest ih =>
      rw [advanceOver] at h
      dsimp only at h
      cases hleft : st.left with
      | none => simp [hleft] at h
      | some left =>
          simp only [hleft] at h
          split at h
          case h_1 boundary tail hoverlap =>
              split_ifs at h with heq
              · obtain ⟨chunk, -, h⟩ := bind_eq_ok_iff.mp h
                exact (ih h hnone).trans (Nat.lt_succ_self _)
              · cases h
                exact Nat.lt_succ_self _
          case h_2 =>
              cases h
              exact Nat.lt_succ_self _

lemma new_request {ranges : List ByteRange} {encoded : List (List TokenId)}
    {st : OverlapReconciliation} (h : OverlapReconciliation.new usizeMax tokenLen ranges encoded =
      .ok st) (hsome : st.pendingRange ≠ none) : st.right.length < ranges.length := by
  rw [OverlapReconciliation.new] at h
  obtain ⟨chunks, hchunks, h⟩ := bind_eq_ok_iff.mp h
  have hlength : chunks.length = ranges.length := by
    rw [encodedChunks] at hchunks
    by_cases hcount : encoded.length ≠ ranges.length
    · rw [if_pos hcount] at hchunks
      cases hchunks
    · rw [if_neg hcount] at hchunks
      rw [← (mapM_ok_iff.mp hchunks).length_eq, List.length_zip, not_not.mp hcount, Nat.min_self]
  cases chunks with
  | nil => cases h
  | cons left right =>
      have hlt := advanceOver_request h rfl hsome
      rw [← hlength]
      exact hlt.trans (Nat.lt_succ_self _)

lemma acceptEnlargement_request {st st' : OverlapReconciliation} {ids : List TokenId}
    (h : st.acceptEnlargement usizeMax tokenLen ids = .ok st') (hsome : st'.pendingRange ≠ none) :
    st'.right.length < st.right.length := by
  rw [OverlapReconciliation.acceptEnlargement] at h
  cases hrange : st.pendingRange with
  | none => simp [hrange] at h
  | some range =>
      simp only [hrange] at h
      obtain ⟨chunk, -, h⟩ := bind_eq_ok_iff.mp h
      exact advanceOver_request h rfl hsome

/-- How often the loop of `encodeLongPretoken` can still ask. -/
def TierTask.rank : TierTask → ℕ
  | .batch _ => 1
  | .initial _ r => r.ranges.length + 1
  | .enlarging _ r _ => (r.state.map fun st => st.right.length + 1).getD 0
  | .done _ => 0

/-- The loop goes on only with a request. -/
lemma TierTask.advance_calls {pretoken : List UInt8}
    {x : Except JsError (WasmOverlapReconciler × Option ByteRange)} {qs : List EncodePretokens}
    (h : (TierTask.advance pretoken x).next = .calls qs) :
    ∃ r request, x = .ok (r, some request) ∧
      TierTask.advance pretoken x = .enlarging pretoken r request := by
  cases x with
  | error e => cases h
  | ok y =>
      obtain ⟨r, request⟩ := y
      cases request with
      | none => cases h
      | some request => exact ⟨r, request, rfl, rfl⟩

/-- What `accept_initial` asks for. -/
lemma acceptInitial_request {r r' : WasmOverlapReconciler} {flatIds : List TokenId}
    {lengths : List ℕ} {request : ByteRange}
    (h : r.acceptInitial planner flatIds lengths = .ok (r', some request)) :
    ∃ st, r'.state = some st ∧ st.right.length < r.ranges.length := by
  rw [WasmOverlapReconciler.acceptInitial] at h
  by_cases hstate : r.state.isSome = true
  · rw [if_pos hstate] at h
    cases h
  · rw [if_neg hstate] at h
    dsimp only at h
    obtain ⟨split, -, h⟩ := bind_eq_ok_iff.mp h
    obtain ⟨st, hnew, h⟩ := bind_eq_ok_iff.mp h
    obtain ⟨rfl, hrequest⟩ := Prod.mk.inj (Except.ok.inj h)
    exact ⟨st, rfl, new_request (mapError_eq_ok.mp hnew) (by rw [hrequest]; exact Option.some_ne_none request)⟩

/-- What `accept_enlargement` asks for. -/
lemma acceptEnlargement_rank {r r' : WasmOverlapReconciler} {ids : List TokenId}
    {request : ByteRange} (h : r.acceptEnlargement planner ids = .ok (r', some request)) :
    ∃ st st', r.state = some st ∧ r'.state = some st' ∧ st'.right.length < st.right.length := by
  rw [WasmOverlapReconciler.acceptEnlargement] at h
  cases hstate : r.state with
  | none => simp [hstate] at h
  | some st =>
      simp only [hstate] at h
      obtain ⟨st', hst', h⟩ := bind_eq_ok_iff.mp h
      obtain ⟨rfl, hrequest⟩ := Prod.mk.inj (Except.ok.inj h)
      exact ⟨st, st', rfl, rfl, acceptEnlargement_request (mapError_eq_ok.mp hst')
        (by rw [hrequest]; exact Option.some_ne_none request)⟩

/-- Each turn of the loop leaves fewer. -/
lemma TierTask.bounded (planner : OverlapPlanner) :
    (TierTask.job planner).Bounded TierTask.rank := by
  intro s x qs h
  cases s with
  | done y => cases h
  | batch entries => cases x <;> cases h
  | initial pretoken r =>
      cases x with
      | error e => cases h
      | ok replies =>
          cases hencoded : replies.mapM singleResult with
          | error e => simp [TierTask.job, TierTask.resume, hencoded, TierTask.next] at h
          | ok encoded =>
              rw [TierTask.resume_initial hencoded] at h ⊢
              obtain ⟨r', request, haccept, hadvance⟩ := TierTask.advance_calls h
              obtain ⟨st, hst, hlt⟩ := acceptInitial_request haccept
              rw [hadvance, TierTask.rank, TierTask.rank, hst]
              exact Nat.succ_lt_succ hlt
  | enlarging pretoken r request =>
      cases x with
      | error e => cases h
      | ok replies =>
          cases hencoded : replies.mapM singleResult with
          | error e => simp [TierTask.job, TierTask.resume, hencoded, TierTask.next] at h
          | ok encoded =>
              rw [TierTask.resume_enlarging hencoded] at h ⊢
              obtain ⟨r', request', haccept, hadvance⟩ := TierTask.advance_calls h
              obtain ⟨st, st', hst, hst', hlt⟩ := acceptEnlargement_rank haccept
              rw [hadvance, TierTask.rank, TierTask.rank, hst, hst']
              exact Nat.succ_lt_succ hlt

end Bounded

/-! ### All runs -/

/-- The states of the worker tier with `n + 1` workers. -/
abbrev TierState (n : ℕ) : Type :=
  Rpc.State n TierTask EncodePretokens EncodedPretokens TierError (List UInt8)
    (List (List TokenId)) (List TokenId)

/-- A tokenizer of a rank file with the merges of `abTable`. -/
def abResident : Resident where
  model := ByteTable.abTable
  tables := asciiTables
  scheme := .gpt2
  data := Nfc.acuteData
  pipeline := ⟨[], false, false, nofun⟩
  omega := 4
  chunkingAvailable := true
  format := .tiktoken
  workerModel := false
  workerUnsupportedPatterns := []
  spelled := nofun
  transferable _ := ⟨⟨rfl, rfl⟩, nofun⟩
  untransferred _ := rfl

/-- The call of `abResident` for `ab ab`, with one worker. -/
def abCall : TierState 0 := .start abResident.client .init [97, 98, 32, 97, 98]

end Hypertok
