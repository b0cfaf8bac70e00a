import Hypertok.Cache.ForceSplit
import Hypertok.Encode.RoundTrip
import Hypertok.Load.ChunkRun

/-!
`encode_chunked_streaming`: an input is encoded with its long pretokens cut into overlapping chunks.
The chunks and the short pretokens go through the caches of the tokenizer.

* `encodeChunkedStreaming`: the function, with the segments read in batches or one pretoken after
  another.
* `Streams`: what a part of a run appends, and what it adds to the counters.
* `Faithful.byteTable`: the merge table that a chunk is encoded with.
* `encodeChunkedStreaming_exact`: in all runs the ids are those of `encode_with_added_tokens_flat`.
-/

namespace Hypertok

open PairMerge Machine Relation

/-! ### The code -/

/-- `ChunkStreamTelemetry`. -/
structure ChunkStreamTelemetry where
  pretokens : ℕ
  engagedPretokens : ℕ
  initialChunks : ℕ
  enlargements : ℕ
  deriving DecidableEq

/-- `ChunkStreamError`. -/
inductive ChunkStreamError
  | chunk (e : ChunkError)
  | counterOverflow
  deriving DecidableEq

/-- `checked_add`. -/
def checkedAdd (usizeMax left right : ℕ) : Except ChunkStreamError ℕ :=
  if left + right ≤ usizeMax then .ok (left + right) else .error .counterOverflow

/-- `to_u32`. -/
def toU32 (value : ℕ) : Except ChunkStreamError ℕ :=
  if value ≤ u32Max then .ok value else .error .counterOverflow

namespace ChunkStreamTelemetry

/-- `as_u32`. -/
def asU32 (tel : ChunkStreamTelemetry) (chunkSize : ℕ) : Except ChunkStreamError (List ℕ) :=
  [tel.pretokens, tel.engagedPretokens, tel.initialChunks, tel.enlargements, chunkSize].mapM toU32

variable (usizeMax : ℕ)

/-- `telemetry.pretokens = checked_add(telemetry.pretokens, count)?`. -/
def addPretokens (count : ℕ) (tel : ChunkStreamTelemetry) :
    Except ChunkStreamError ChunkStreamTelemetry := do
  return { tel with pretokens := ← checkedAdd usizeMax tel.pretokens count }

/-- `telemetry.initial_chunks = checked_add(telemetry.initial_chunks, count)?`. -/
def addChunks (count : ℕ) (tel : ChunkStreamTelemetry) :
    Except ChunkStreamError ChunkStreamTelemetry := do
  return { tel with initialChunks := ← checkedAdd usizeMax tel.initialChunks count }

/-- The counters after a long pretoken. -/
def addEncoding (encoded : ChunkedEncoding) (tel : ChunkStreamTelemetry) :
    Except ChunkStreamError ChunkStreamTelemetry := do
  let engagedPretokens ←
    checkedAdd usizeMax tel.engagedPretokens (if 1 < encoded.initialChunks then 1 else 0)
  let initialChunks ← checkedAdd usizeMax tel.initialChunks encoded.initialChunks
  let enlargements ← checkedAdd usizeMax tel.enlargements encoded.enlargements
  return { tel with engagedPretokens, initialChunks, enlargements }

end ChunkStreamTelemetry

/-- The tokenizer and the output after a part of a run, with the counters unless it failed. -/
abbrev Streamed : Type :=
  Tokenizer × OutVec × Except ChunkStreamError ChunkStreamTelemetry

/-- `?`: what follows a part of a run, unless it failed. -/
def Streamed.andThen (r : Streamed)
    (f : Tokenizer → OutVec → ChunkStreamTelemetry → Option Streamed) : Option Streamed :=
  match r.2.2 with
  | .ok tel => f r.1 r.2.1 tel
  | .error _ => some r

@[simp] lemma Streamed.andThen_ok (t : Tokenizer) (out : OutVec) (tel : ChunkStreamTelemetry)
    (f : Tokenizer → OutVec → ChunkStreamTelemetry → Option Streamed) :
    Streamed.andThen (t, out, .ok tel) f = f t out tel := rfl

namespace Tokenizer

section Code

variable (hash : ℕ → ℕ) (usizeMax : ℕ) (tokenLength : TokenId → Option ℕ) (omega chunkSize : ℕ)

/-- The closure for `encode_overlap`. -/
def encodeChunk (t : Tokenizer) (chunk : List UInt8) : Option (Tokenizer × List TokenId) :=
  (t.memoizedEncodeFlat hash [chunk] ⟨[], 0⟩).map fun r => (r.1, r.2.ids)

/-- The pretoken of `encode_segment` that is longer than a chunk. -/
def encodeLong (pretoken : List UInt8) (t : Tokenizer) (out : OutVec)
    (tel : ChunkStreamTelemetry) : Option Streamed := do
  let (t, r) ← encodeOverlapOn usizeMax tokenLength (encodeChunk hash) pretoken omega
    ⟨some chunkSize⟩ false t
  match r with
  | .error e => some (t, out, .error (.chunk e))
  | .ok encoded =>
      Streamed.andThen (t, out, tel.addEncoding usizeMax encoded) fun t out tel =>
        some (t, out.extend encoded.ids, .ok tel)

/-- `memoized_encode_flat`, which leaves the counters as they are. -/
def encodeShort (pretokens : List (List UInt8)) (t : Tokenizer) (out : OutVec)
    (tel : ChunkStreamTelemetry) : Option Streamed :=
  (t.memoizedEncodeFlat hash pretokens out).map fun r => (r.1, r.2, .ok tel)

/-- `emit_chunk_stream_batch`. -/
def emitChunkStreamBatch (batch : List BatchEntry) (t : Tokenizer) (out : OutVec)
    (tel : ChunkStreamTelemetry) : Option Streamed :=
  (t.probeEmitChunk hash batch out).map fun r => (r.1, r.2.1, .ok tel)

/-- A pretoken of a batch with a long one. -/
def encodeEntry (pretoken : List UInt8) (t : Tokenizer) (out : OutVec)
    (tel : ChunkStreamTelemetry) : Option Streamed :=
  if pretoken.length ≤ chunkSize then
    Streamed.andThen (t, out, tel.addChunks usizeMax 1) (encodeShort hash [pretoken])
  else encodeLong hash usizeMax tokenLength omega chunkSize pretoken t out tel

/-- A batch with a long pretoken. -/
def encodeEntries : List BatchEntry → Tokenizer → OutVec → ChunkStreamTelemetry → Option Streamed
  | [], t, out, tel => some (t, out, .ok tel)
  | e :: entries, t, out, tel => do
      let pretoken ← e.span
      let r ← encodeEntry hash usizeMax tokenLength omega chunkSize pretoken t out tel
      r.andThen (encodeEntries entries)

/-- A batch that was filled. -/
def encodeBatch (batch : List BatchEntry) (t : Tokenizer) (out : OutVec)
    (tel : ChunkStreamTelemetry) : Option Streamed :=
  Streamed.andThen (t, out, tel.addPretokens usizeMax batch.length) fun t out tel =>
    if batch.any fun e => chunkSize < e.spanLen then
      encodeEntries hash usizeMax tokenLength omega chunkSize batch t out tel
    else
      Streamed.andThen (t, out, tel.addChunks usizeMax batch.length)
        (emitChunkStreamBatch hash batch)

/-- One turn of the loop of `encode_segment`, for the batches of `opt-scan-two-phase`. -/
def encodeSegmentStep : Tokenizer × List (List UInt8) × OutVec × ChunkStreamTelemetry →
    Option ((Tokenizer × List (List UInt8) × OutVec × ChunkStreamTelemetry) ⊕ Streamed)
  | (t, pretokens, out, tel) =>
      let (batch, rest) := fillSpansKeyed hash pretokens
      if batch.length = 0 then some (.inr (t, out, .ok tel))
      else do
        let (t, out, r) ← encodeBatch hash usizeMax tokenLength omega chunkSize batch t out tel
        match r with
        | .error e => some (.inr (t, out, .error e))
        | .ok tel =>
            if batch.length < pretokenChunk then some (.inr (t, out, .ok tel))
            else some (.inl (t, rest, out, tel))

/-- `encode_segment`, for the batches of `opt-scan-two-phase`. -/
def encodeSegmentBatches (pretokens : List (List UInt8)) (t : Tokenizer) (out : OutVec)
    (tel : ChunkStreamTelemetry) : Option Streamed :=
  loop (encodeSegmentStep hash usizeMax tokenLength omega chunkSize) (pretokens.length + 1)
    (t, pretokens, out, tel)

/-- The count and the call of `flush_short`. -/
def flushShort (short : List (List UInt8)) (t : Tokenizer) (out : OutVec)
    (tel : ChunkStreamTelemetry) : Option Streamed :=
  Streamed.andThen (t, out, tel.addChunks usizeMax short.length) (encodeShort hash short)

/-- What is flushed before a long pretoken and at the end. -/
def flushRest (short : List (List UInt8)) (t : Tokenizer) (out : OutVec)
    (tel : ChunkStreamTelemetry) : Option Streamed :=
  if short.length ≠ 0 then flushShort hash usizeMax short t out tel else some (t, out, .ok tel)

/-- `encode_segment` without `opt-scan-two-phase`, which collects short pretokens. -/
def encodeSegmentSpans (short : List (List UInt8)) : List (List UInt8) → Tokenizer → OutVec →
    ChunkStreamTelemetry → Option Streamed
  | [], t, out, tel => flushRest hash usizeMax short t out tel
  | pretoken :: pretokens, t, out, tel =>
      Streamed.andThen (t, out, tel.addPretokens usizeMax 1) fun t out tel =>
        if pretoken.length ≤ chunkSize then
          if short.length + 1 = pretokenChunk then do
            let r ← flushShort hash usizeMax (short ++ [pretoken]) t out tel
            r.andThen (encodeSegmentSpans [] pretokens)
          else encodeSegmentSpans (short ++ [pretoken]) pretokens t out tel
        else do
          let r ← flushRest hash usizeMax short t out tel
          let r ← r.andThen (encodeLong hash usizeMax tokenLength omega chunkSize pretoken)
          r.andThen (encodeSegmentSpans [] pretokens)

/-- `encode_segment`. -/
def encodeSegment (twoPhase : Bool) (pretokens : List (List UInt8)) :
    Tokenizer → OutVec → ChunkStreamTelemetry → Option Streamed :=
  if twoPhase then encodeSegmentBatches hash usizeMax tokenLength omega chunkSize pretokens
  else encodeSegmentSpans hash usizeMax tokenLength omega chunkSize [] pretokens

/-- The pieces of `try_for_each_added_piece`. -/
def streamPieces (twoPhase : Bool) (tables : UnicodeTables) (scheme : PretokenizerType) :
    List Piece → Tokenizer → OutVec → ChunkStreamTelemetry → Option Streamed
  | [], t, out, tel => some (t, out, .ok tel)
  | .segment encoded _ _ :: pieces, t, out, tel => do
      let pretokens ← scheme.pretokenize tables encoded
      let r ← encodeSegment hash usizeMax tokenLength omega chunkSize twoPhase pretokens t out tel
      r.andThen (streamPieces twoPhase tables scheme pieces)
  | .added id _ _ :: pieces, t, out, tel =>
      streamPieces twoPhase tables scheme pieces t (out.extend [id]) tel

/-- `encode_chunked_streaming`. -/
def encodeChunkedStreaming (twoPhase : Bool) (tables : UnicodeTables) (scheme : PretokenizerType)
    (p : Pipeline) (data : NfcData) (t : Tokenizer) (bytes : List UInt8) (out : OutVec) :
    Option Streamed := do
  streamPieces hash usizeMax tokenLength omega chunkSize twoPhase tables scheme
    (← p.pieces data bytes) t out ⟨0, 0, 0, 0⟩

end Code

end Tokenizer

/-! ### Counters -/

namespace ChunkStreamTelemetry

variable {usizeMax a b k : ℕ} {tel : ChunkStreamTelemetry}

/-- The bounds of the counters. -/
structure Within (a b : ℕ) (tel : ChunkStreamTelemetry) : Prop where
  pretokens : tel.pretokens ≤ a
  engagedPretokens : tel.engagedPretokens ≤ b
  initialChunks : tel.initialChunks ≤ b
  enlargements : tel.enlargements ≤ b

lemma Within.mono {a' b' : ℕ} (h : tel.Within a b) (ha : a ≤ a') (hb : b ≤ b') :
    tel.Within a' b' :=
  ⟨h.pretokens.trans ha, h.engagedPretokens.trans hb, h.initialChunks.trans hb,
    h.enlargements.trans hb⟩

lemma checkedAdd_of_le {left right : ℕ} (h : left + right ≤ usizeMax) :
    checkedAdd usizeMax left right = .ok (left + right) := if_pos h

lemma Within.addPretokens (h : tel.Within a b) (hmax : a + k ≤ usizeMax) :
    ∃ tel', tel.addPretokens usizeMax k = .ok tel' ∧ tel'.Within (a + k) b := by
  have hle := Nat.add_le_add_right h.pretokens k
  refine ⟨_, by rw [ChunkStreamTelemetry.addPretokens, checkedAdd_of_le (hle.trans hmax)]; rfl, ?_⟩
  exact ⟨hle, h.engagedPretokens, h.initialChunks, h.enlargements⟩

lemma Within.addChunks (h : tel.Within a b) (hmax : b + k ≤ usizeMax) :
    ∃ tel', tel.addChunks usizeMax k = .ok tel' ∧ tel'.Within a (b + k) := by
  have hle := Nat.add_le_add_right h.initialChunks k
  refine ⟨_, by rw [ChunkStreamTelemetry.addChunks, checkedAdd_of_le (hle.trans hmax)]; rfl, ?_⟩
  exact ⟨h.pretokens, h.engagedPretokens.trans (Nat.le_add_right b k), hle,
    h.enlargements.trans (Nat.le_add_right b k)⟩

lemma Within.addEncoding (h : tel.Within a b) (hmax : b + k ≤ usizeMax)
    {encoded : ChunkedEncoding} (hk : encoded.initialChunks = k) (henl : encoded.enlargements ≤ k) :
    ∃ tel', tel.addEncoding usizeMax encoded = .ok tel' ∧ tel'.Within a (b + k) := by
  have h₁ : tel.engagedPretokens + (if 1 < encoded.initialChunks then 1 else 0) ≤ b + k := by
    have hle := h.engagedPretokens
    split_ifs <;> omega
  have h₂ : tel.initialChunks + encoded.initialChunks ≤ b + k := by
    rw [hk]
    exact Nat.add_le_add_right h.initialChunks k
  have h₃ := Nat.add_le_add h.enlargements henl
  refine ⟨⟨tel.pretokens, tel.engagedPretokens + (if 1 < encoded.initialChunks then 1 else 0),
    tel.initialChunks + encoded.initialChunks, tel.enlargements + encoded.enlargements⟩, ?_,
    h.pretokens, h₁, h₂, h₃⟩
  rw [ChunkStreamTelemetry.addEncoding, checkedAdd_of_le (h₁.trans hmax), ok_bind,
    checkedAdd_of_le (h₂.trans hmax), ok_bind, checkedAdd_of_le (h₃.trans hmax)]
  rfl

/-- The counters fit in 32 bits. -/
lemma Within.asU32 (h : tel.Within a b) (ha : a ≤ u32Max) (hb : b ≤ u32Max) {chunkSize : ℕ}
    (hsize : chunkSize ≤ u32Max) : tel.asU32 chunkSize = .ok
      [tel.pretokens, tel.engagedPretokens, tel.initialChunks, tel.enlargements, chunkSize] := by
  rw [ChunkStreamTelemetry.asU32, mapM_eq_ok (g := id) ?_, List.map_id]
  simp only [List.mem_cons, List.not_mem_nil, or_false, forall_eq_or_imp, forall_eq]
  exact ⟨if_pos (h.pretokens.trans ha), if_pos (h.engagedPretokens.trans hb),
    if_pos (h.initialChunks.trans hb), if_pos (h.enlargements.trans hb), if_pos hsize⟩

end ChunkStreamTelemetry

namespace Tokenizer

variable {hash : ℕ → ℕ} {coldDiet : Bool} {usizeMax omega chunkSize : ℕ} {t₀ t t' : Tokenizer}
  {out : OutVec} {tel : ChunkStreamTelemetry}

/-! ### Parts of a run -/

/-- The encodings of pretokens. -/
def pretokenIds (t : Tokenizer) (pretokens : List (List UInt8)) : List TokenId :=
  pretokens.flatMap fun p => (t.uncachedEncode p).getD []

lemma pretokenIds_append (t : Tokenizer) (ps ps' : List (List UInt8)) :
    t.pretokenIds (ps ++ ps') = t.pretokenIds ps ++ t.pretokenIds ps' := List.flatMap_append

lemma pretokenIds_of_some {ps : List (List UInt8)} {outs : List (List TokenId)}
    (h : outs.map some = ps.map t.uncachedEncode) : t.pretokenIds ps = outs.flatten := by
  have hmap : (ps.map t.uncachedEncode).map (fun o => o.getD []) = outs := by
    rw [← h, List.map_map]
    exact List.map_id outs
  rw [pretokenIds, List.flatMap_def, ← hmap, List.map_map]
  rfl

/-- A part of a run from `t`, `out` and `tel`. Unless the arena gets too large, it appends the ids
and adds at most `da` to the number of pretokens, and `db` to each of the other counters. The arena
grows by `dc`. -/
structure Streams (hash : ℕ → ℕ) (coldDiet : Bool) (usizeMax : ℕ) (t : Tokenizer) (out : OutVec)
    (tel : ChunkStreamTelemetry) (ids : List TokenId) (da db dc : ℕ) (r : Streamed) : Prop where
  uses : ReflTransGen (Use hash coldDiet) t r.1
  later : Later t r.1
  arena_le : r.1.tokenArena.length ≤ t.tokenArena.length + dc
  exact : r.1.tokenArena.length < 2 ^ 32 → ∀ a b, tel.Within a b → a + da ≤ usizeMax →
    b + db ≤ usizeMax → ∃ tel', r.2.2 = .ok tel' ∧ tel'.Within (a + da) (b + db) ∧
      r.2.1.ids = out.ids ++ ids

section Streams

variable {ids ids' : List TokenId} {da db dc da' db' dc' : ℕ} {r : Streamed}

lemma Streams.nil (hash : ℕ → ℕ) (coldDiet : Bool) (usizeMax : ℕ) (t : Tokenizer) (out : OutVec)
    (tel : ChunkStreamTelemetry) :
    Streams hash coldDiet usizeMax t out tel [] 0 0 0 (t, out, .ok tel) :=
  ⟨.refl, .rfl, le_rfl, fun _ _ _ h _ _ => ⟨tel, rfl, h, (List.append_nil _).symm⟩⟩

/-- A change of the counters. -/
lemma Streams.count {x : Except ChunkStreamError ChunkStreamTelemetry}
    (hx : ∀ a b, tel.Within a b → a + da ≤ usizeMax → b + db ≤ usizeMax →
      ∃ tel', x = .ok tel' ∧ tel'.Within (a + da) (b + db)) :
    Streams hash coldDiet usizeMax t out tel [] da db 0 (t, out, x) := by
  refine ⟨.refl, .rfl, le_rfl, fun _ a b h ha hb => ?_⟩
  obtain ⟨tel', htel', hwithin⟩ := hx a b h ha hb
  exact ⟨tel', htel', hwithin, (List.append_nil _).symm⟩

lemma Streams.addPretokens (k : ℕ) : Streams hash coldDiet usizeMax t out tel [] k 0 0
    (t, out, tel.addPretokens usizeMax k) :=
  .count fun _ _ h ha _ => h.addPretokens ha

lemma Streams.addChunks (k : ℕ) : Streams hash coldDiet usizeMax t out tel [] 0 k 0
    (t, out, tel.addChunks usizeMax k) :=
  .count fun _ _ h _ hb => h.addChunks hb

lemma Streams.mono (h : Streams hash coldDiet usizeMax t out tel ids da db dc r) (ha : da ≤ da')
    (hb : db ≤ db') (hc : dc ≤ dc') :
    Streams hash coldDiet usizeMax t out tel ids da' db' dc' r := by
  refine ⟨h.uses, h.later, h.arena_le.trans (Nat.add_le_add_left hc _),
    fun harena a b hwithin hamax hbmax => ?_⟩
  obtain ⟨tel', htel', hwithin', hids⟩ := h.exact harena a b hwithin (by omega) (by omega)
  exact ⟨tel', htel', hwithin'.mono (by omega) (by omega), hids⟩

/-- One part after another. -/
lemma Streams.trans {out' : OutVec} {tel' : ChunkStreamTelemetry} {r' : Streamed}
    (h : Streams hash coldDiet usizeMax t out tel ids da db dc (t', out', .ok tel'))
    (h' : Streams hash coldDiet usizeMax t' out' tel' ids' da' db' dc' r') :
    Streams hash coldDiet usizeMax t out tel (ids ++ ids') (da + da') (db + db') (dc + dc') r' := by
  have hle : r'.1.tokenArena.length ≤ t.tokenArena.length + (dc + dc') := by
    rw [← Nat.add_assoc]
    exact h'.arena_le.trans (Nat.add_le_add_right h.arena_le dc')
  refine ⟨h.uses.trans h'.uses, h.later.trans h'.later, hle, fun harena a b hwithin ha hb => ?_⟩
  obtain ⟨tel₁, htel₁, hwithin₁, hids⟩ := h.exact (h'.later.arena.length_le.trans_lt harena) a b
    hwithin (by omega) (by omega)
  cases htel₁
  obtain ⟨tel₂, htel₂, hwithin₂, hids'⟩ := h'.exact harena _ _ hwithin₁ (by omega) (by omega)
  refine ⟨tel₂, htel₂, hwithin₂.mono (by omega) (by omega), ?_⟩
  rw [hids', hids, List.append_assoc]

/-- A part that failed is the end of the run. -/
lemma Streams.failed {out' : OutVec} {e : ChunkStreamError}
    (h : Streams hash coldDiet usizeMax t out tel ids da db dc (t', out', .error e)) (ha : da ≤ da')
    (hb : db ≤ db') (hc : dc ≤ dc') (ids' : List TokenId) :
    Streams hash coldDiet usizeMax t out tel ids' da' db' dc' (t', out', .error e) := by
  refine ⟨h.uses, h.later, h.arena_le.trans (Nat.add_le_add_left hc _),
    fun harena a b hwithin hamax hbmax => ?_⟩
  obtain ⟨tel', htel', -⟩ := h.exact harena a b hwithin (by omega) (by omega)
  cases htel'

/-- The rest of a function, after a part of it. -/
lemma Streams.andThen (h : Streams hash coldDiet usizeMax t out tel ids da db dc r)
    {f : Tokenizer → OutVec → ChunkStreamTelemetry → Option Streamed}
    (hf : ∀ tel', ReflTransGen (Use hash coldDiet) t r.1 → ∃ r', f r.1 r.2.1 tel' = some r' ∧
      Streams hash coldDiet usizeMax r.1 r.2.1 tel' ids' da' db' dc' r') :
    ∃ r', r.andThen f = some r' ∧ Streams hash coldDiet usizeMax t out tel (ids ++ ids') (da + da')
      (db + db') (dc + dc') r' := by
  obtain ⟨t₁, out₁, e | tel₁⟩ := r
  · exact ⟨_, rfl, h.failed (Nat.le_add_right _ _) (Nat.le_add_right _ _) (Nat.le_add_right _ _) _⟩
  · obtain ⟨r', hrun, hr'⟩ := hf tel₁ h.uses
    exact ⟨r', hrun, h.trans hr'⟩

end Streams

/-! ### The chunks of a pretoken -/

/-- The symbol of a byte stands for it. -/
lemma Faithful.decode_byteSymbol (h : t.Faithful) (b : UInt8) :
    decodeTokenBytes t.vocab (t.tables.byteSymbol b) = some [b] := by
  have hspell : spell (decodeTokenBytes t.vocab) [t.tables.byteSymbol b] = some [b] :=
    h.tables.spell_bytes [b]
  obtain ⟨token, htoken⟩ := exists_of_mem_spell hspell (List.mem_singleton_self _)
  rwa [spell_singleton htoken, ← htoken] at hspell

/-- The merge table of the tokenizer, without explicit ranks. -/
def Faithful.byteTable (h : t.Faithful) : ByteTable where
  getRank := t.tables.getRank
  base := t.tables.byteSymbol
  bytes := decodeTokenBytes t.vocab
  bytes_base := h.decode_byteSymbol
  bytes_merge a b p q ha hb hrank := by
    have hmem : (t.tables.getRank a b, t.tables.getRank a b) ∈ rankTable t.tables.getRank a b := by
      rw [rankTable, if_neg hrank]
      rfl
    exact h.tables.joins a b p q ha hb _ hmem

/-- A chunk that is longer than each token is merged. -/
lemma Faithful.uncachedEncode_of_wide (h : t.Faithful) (hranked : t.tables.rankedMerges = none)
    (homega : ∀ token ∈ t.vocab, token.length ≤ omega) {bytes : List UInt8}
    (hwide : omega < bytes.length) (hlen : bytes.length ≤ u32Max) :
    t.uncachedEncode bytes = some (h.byteTable.encode bytes) := by
  have hne : bytes ≠ [] := List.ne_nil_of_length_pos (Nat.zero_lt_of_lt hwide)
  have hinv : t.vocabInv.lookup bytes = none := by
    cases hid : t.vocabInv.lookup bytes with
    | none => rfl
    | some id =>
        have hget := (decodeTokenBytes_eq_some.mp (h.resolves bytes hne id hid)).1
        exact absurd (homega bytes (List.mem_of_getElem? hget)) hwide.not_ge
  have hwhole : MergeTables.wholeId t.ignoreMerges t.vocabInv bytes = none := by
    rw [MergeTables.wholeId, hinv, ite_self]
  have hshort : t.tables.shortIds t.ignoreMerges t.vocabInv bytes = h.byteTable.encode bytes := by
    rw [MergeTables.shortIds, hwhole, MergeTables.shortTable, hranked]
    rfl
  have hover : t.overwrittenId bytes = none := by rw [overwrittenId, hinv, ite_self]
  rw [uncachedEncode_eq hlen (by rw [hranked]; simp), shortEncoding, hover, hshort, ite_self]

/-- The lengths of the tokens are those of the table. -/
lemma Faithful.tokenLen_byteTable (h : t.Faithful) : h.byteTable.tokenLen = t.tokenLength := by
  funext id
  rw [tokenLength, List.getElem?_map]
  change (decodeTokenBytes t.vocab id).map List.length = _
  rw [decodeTokenBytes]
  cases t.vocab[id]? with
  | none => rfl
  | some token => cases token <;> rfl

/-- The tokenizers that runs of `t₀` leave. -/
structure Live (hash : ℕ → ℕ) (coldDiet : Bool) (t₀ t : Tokenizer) : Prop where
  sound : ∃ stage, Sound hash coldDiet stage t
  same : SameModel t₀ t

lemma Live.of_uses (h : Live hash coldDiet t₀ t) (huses : ReflTransGen (Use hash coldDiet) t t') :
    Live hash coldDiet t₀ t' := by
  obtain ⟨_, hsound⟩ := h.sound
  obtain ⟨hsame, hsound'⟩ := keeps_of_uses huses hsound
  exact ⟨hsound', h.same.trans hsame⟩

lemma Live.uncachedEncode (h : Live hash coldDiet t₀ t) (bytes : List UInt8) :
    t.uncachedEncode bytes = t₀.uncachedEncode bytes := by
  obtain ⟨_, _, rfl⟩ := h.same
  rfl

/-- A call for pretokens that are no longer than the pointers of the merge loops reach. -/
lemma Live.memoizedEncodeFlat (h : Live hash coldDiet t₀ t) (h₀ : t₀.Faithful)
    {ps : List (List UInt8)} (hps : ∀ p ∈ ps, p ≠ [] ∧ p.length ≤ u32Max) (out : OutVec) :
    ∃ t' out', t.memoizedEncodeFlat hash ps out = some (t', out') ∧ Later t t' ∧
      t'.tokenArena.length ≤ t.tokenArena.length + ps.flatten.length ∧
      (t'.tokenArena.length < 2 ^ 32 → out'.ids = out.ids ++ t₀.pretokenIds ps) := by
  obtain ⟨_, hsound⟩ := h.sound
  have ht : t.Faithful := h₀.of_sameModel h.same
  obtain ⟨t', out', hrun, -, -, hle, -⟩ := hsound.memoizedEncodeFlat_spell ht hps out
  obtain ⟨outs, hall, hout'⟩ := hsound.memoizedEncodeFlat hrun
  refine ⟨t', out', hrun, hall.later, hle, fun harena => ?_⟩
  rw [hout', pretokenIds_of_some ((hall.outs_eq harena).trans
    (List.map_congr_left fun p _ => h.uncachedEncode p))]

/-- The chunk encoder returns the encodings of the table. -/
lemma encodes_encodeChunk (h₀ : t₀.Faithful) (hranked : t₀.tables.rankedMerges = none)
    (homega : ∀ token ∈ t₀.vocab, token.length ≤ omega) :
    Encodes h₀.byteTable (fun bytes => omega < bytes.length ∧ bytes.length ≤ u32Max)
      (encodeChunk hash) (Live hash coldDiet t₀)
      (fun t t' => ReflTransGen (Use hash coldDiet) t t' ∧ Later t t')
      (fun t => t.tokenArena.length < 2 ^ 32) (fun t => t.tokenArena.length) where
  refl _ := ⟨.refl, .rfl⟩
  trans h h' := ⟨h.1.trans h'.1, h.2.trans h'.2⟩
  good h harena := h.2.arena.length_le.trans_lt harena
  run t bytes ht hbytes := by
    obtain ⟨t', out', hrun, hlater, hle, hids⟩ := ht.memoizedEncodeFlat h₀
      (List.forall_mem_singleton.mpr
        ⟨List.ne_nil_of_length_pos (Nat.zero_lt_of_lt hbytes.1), hbytes.2⟩) ⟨[], 0⟩
    have huses : ReflTransGen (Use hash coldDiet) t t' := .single (.memoizedEncodeFlat hrun)
    rw [List.flatten_singleton] at hle
    refine ⟨t', out'.ids, by rw [encodeChunk, hrun]; rfl, ht.of_uses huses, ⟨huses, hlater⟩, hle,
      fun harena => ?_⟩
    rw [hids harena, List.nil_append, pretokenIds, List.flatMap_singleton,
      h₀.uncachedEncode_of_wide hranked homega hbytes.1 hbytes.2, Option.getD_some]

/-! ### A segment -/

section Segment

variable {ps : List (List UInt8)} {r : Streamed}

/-- A batch is a call of `memoized_encode_flat` of its own. -/
lemma memoizedEncodeFlat_of_le (hne : ps ≠ []) (hle : ps.length ≤ pretokenChunk) :
    t.memoizedEncodeFlat hash ps out =
      (t.probeEmitChunk hash (ps.map (batchEntry hash)) out).map fun r => (r.1, r.2.1) := by
  have hpos : 0 < ps.length := List.length_pos_iff.mpr hne
  have hbatch : (fillSpansKeyed hash ps).1 = ps.map (batchEntry hash) := by
    rw [fillSpansKeyed, List.take_of_length_le hle]
  have hrest : (fillSpansKeyed hash ps).2 = [] := by
    rw [fillSpansKeyed, List.drop_eq_nil_of_le hle]
  have hlast : ∀ n t out, loop (memoizedEncodeFlatStep hash) (n + 1) (t, [], out) =
      some (t, out) := fun _ _ _ => rfl
  obtain ⟨n, hn⟩ := Nat.exists_eq_add_one.mpr hpos
  rw [Tokenizer.memoizedEncodeFlat, hn, loop, memoizedEncodeFlatStep]
  simp only [hbatch, hrest, List.length_map, hpos.ne', if_false]
  cases t.probeEmitChunk hash (ps.map (batchEntry hash)) out with
  | none => rfl
  | some r =>
      simp only [Option.bind_eq_bind, Option.bind_some, Option.map_some]
      by_cases hlt : ps.length < pretokenChunk
      · rw [if_pos hlt]
      · rw [if_neg hlt]
        exact hlast n r.1 r.2.1

lemma span_batchEntry (hash : ℕ → ℕ) (bytes : List UInt8) :
    (batchEntry hash bytes).span = some bytes := by
  by_cases h : Short bytes
  · exact (batchEntry_of_short hash h (packPretokenKey_of_short h)).2
  · exact (batchEntry_of_long hash h).2

/-- What holds of each pretoken of a segment. -/
def Fitting (usizeMax : ℕ) (p : List UInt8) : Prop :=
  p ≠ [] ∧ p.length ≤ u32Max ∧ p.length ≤ usizeMax

lemma length_le_flatten (h : ∀ p ∈ ps, Fitting usizeMax p) : ps.length ≤ ps.flatten.length := by
  induction ps with
  | nil => exact le_rfl
  | cons p ps ih =>
      obtain ⟨hp, hps⟩ := List.forall_mem_cons.mp h
      have hpos := List.length_pos_iff.mpr hp.1
      have hrest := ih hps
      rw [List.length_cons, List.flatten_cons, List.length_append]
      omega

/-- What the arena grows by, at most, for so many bytes. -/
def growth (n : ℕ) : ℕ := (2 * n + 1) * n

lemma le_growth (n : ℕ) : n ≤ growth n := Nat.le_mul_of_pos_left n (Nat.succ_pos _)

lemma growth_add_le (m n : ℕ) : growth m + growth n ≤ growth (m + n) := by
  rw [growth, growth, growth, Nat.mul_add (2 * (m + n) + 1)]
  exact Nat.add_le_add (Nat.mul_le_mul_right m (by omega)) (Nat.mul_le_mul_right n (by omega))

lemma growth_mono {m n : ℕ} (h : m ≤ n) : growth m ≤ growth n :=
  Nat.mul_le_mul (by omega) h

lemma encodeShort_streams (h : Live hash coldDiet t₀ t) (h₀ : t₀.Faithful)
    (hps : ∀ p ∈ ps, Fitting usizeMax p) (out : OutVec) (tel : ChunkStreamTelemetry) :
    ∃ r, encodeShort hash ps t out tel = some r ∧
      Streams hash coldDiet usizeMax t out tel (t₀.pretokenIds ps) 0 0 (growth ps.flatten.length)
        r := by
  obtain ⟨t', out', hrun, hlater, hle, hids⟩ :=
    h.memoizedEncodeFlat h₀ (fun p hp => ⟨(hps p hp).1, (hps p hp).2.1⟩) out
  refine ⟨(t', out', .ok tel), by rw [encodeShort, hrun]; rfl, .single (.memoizedEncodeFlat hrun),
    hlater, hle.trans (Nat.add_le_add_left (le_growth _) _),
    fun harena a b hwithin _ _ => ⟨tel, rfl, hwithin, hids harena⟩⟩

lemma flushShort_streams (h : Live hash coldDiet t₀ t) (h₀ : t₀.Faithful)
    (hps : ∀ p ∈ ps, Fitting usizeMax p) (out : OutVec) (tel : ChunkStreamTelemetry) :
    ∃ r, flushShort hash usizeMax ps t out tel = some r ∧
      Streams hash coldDiet usizeMax t out tel (t₀.pretokenIds ps) 0 ps.length
        (growth ps.flatten.length) r := by
  obtain ⟨r, hr, hstreams⟩ := (Streams.addChunks ps.length).andThen fun tel' _ =>
    encodeShort_streams h h₀ hps out tel'
  exact ⟨r, hr, hstreams.mono le_rfl le_rfl (Nat.zero_add _).le⟩

lemma flushRest_streams (h : Live hash coldDiet t₀ t) (h₀ : t₀.Faithful)
    (hps : ∀ p ∈ ps, Fitting usizeMax p) (out : OutVec) (tel : ChunkStreamTelemetry) :
    ∃ r, flushRest hash usizeMax ps t out tel = some r ∧
      Streams hash coldDiet usizeMax t out tel (t₀.pretokenIds ps) 0 ps.flatten.length
        (growth ps.flatten.length) r := by
  rw [flushRest]
  by_cases hzero : ps.length ≠ 0
  · rw [if_pos hzero]
    obtain ⟨r, hr, hstreams⟩ := flushShort_streams h h₀ hps out tel
    exact ⟨r, hr, hstreams.mono le_rfl (length_le_flatten hps) le_rfl⟩
  · obtain rfl := List.length_eq_zero_iff.mp (not_not.mp hzero)
    exact ⟨_, if_neg hzero, .nil hash coldDiet usizeMax t out tel⟩

/-- The tokenizers that chunks can be encoded with. -/
structure Chunkable (omega : ℕ) (t₀ : Tokenizer) : Prop where
  faithful : t₀.Faithful
  ranked : t₀.tables.rankedMerges = none
  omega_pos : 0 < omega
  length_le : ∀ token ∈ t₀.vocab, token.length ≤ omega

variable (h₀ : Chunkable omega t₀) (hchunk : omega * 2 ≤ chunkSize) (hsize : chunkSize ≤ usizeMax)
include h₀ hchunk hsize

/-- A pretoken that is longer than a chunk. -/
lemma encodeLong_streams (h : Live hash coldDiet t₀ t) {pretoken : List UInt8}
    (hfit : Fitting usizeMax pretoken) (hlong : chunkSize < pretoken.length) (out : OutVec)
    (tel : ChunkStreamTelemetry) :
    ∃ r, encodeLong hash usizeMax t₀.tokenLength omega chunkSize pretoken t out tel = some r ∧
      Streams hash coldDiet usizeMax t out tel (t₀.pretokenIds [pretoken]) 0 pretoken.length
        (growth pretoken.length) r := by
  have hwindow : ∀ range : ByteRange, omega < range.stop - range.start →
      range.stop ≤ pretoken.length → omega < (range.slice pretoken).length ∧
        (range.slice pretoken).length ≤ u32Max := by
    intro range hwide hle
    rw [ByteRange.length_slice hle]
    exact ⟨hwide, ((Nat.sub_le _ _).trans hle).trans hfit.2.1⟩
  obtain ⟨t', r, k, hrun, ht', ⟨huses, hlater⟩, hle, hk, hr⟩ :=
    (encodes_encodeChunk h₀.faithful h₀.ranked h₀.length_le).encodeOverlapOn_spec
      ⟨some chunkSize⟩ h₀.omega_pos hchunk hsize hfit.2.2 hlong hwindow h
  rw [h₀.faithful.tokenLen_byteTable] at hrun
  have hids : t₀.pretokenIds [pretoken] = h₀.faithful.byteTable.encode pretoken := by
    rw [pretokenIds, List.flatMap_singleton, h₀.faithful.uncachedEncode_of_wide h₀.ranked
      h₀.length_le (by omega) hfit.2.1, Option.getD_some]
  rw [encodeLong, hrun, Option.bind_eq_bind, Option.bind_some]
  cases r with
  | error e =>
      refine ⟨_, rfl, huses, hlater, hle, fun harena => ?_⟩
      obtain ⟨enc, henc, -⟩ := (hr harena).eq_ok
      cases henc
  | ok encoded =>
      have hcount : Streams hash coldDiet usizeMax t out tel [] 0 pretoken.length
          (growth pretoken.length) (t', out, tel.addEncoding usizeMax encoded) := by
        refine ⟨huses, hlater, hle, fun harena a b hwithin _ hb => ?_⟩
        obtain ⟨enc, henc, -, hinitial, henl⟩ := (hr harena).eq_ok
        cases henc
        have hbound := Nat.add_le_add_left hk b
        obtain ⟨tel', htel', hwithin'⟩ := hwithin.addEncoding (hbound.trans hb) hinitial henl
        exact ⟨tel', htel', hwithin'.mono le_rfl hbound, (List.append_nil _).symm⟩
      have hextend : ∀ tel' : ChunkStreamTelemetry, Streams hash coldDiet usizeMax t' out tel'
          (t₀.pretokenIds [pretoken]) 0 0 0 (t', out.extend encoded.ids, .ok tel') := by
        refine fun tel' => ⟨.refl, .rfl, le_rfl, fun harena a b hwithin _ _ =>
          ⟨tel', rfl, hwithin, ?_⟩⟩
        obtain ⟨enc, henc, hencoded, -⟩ := (hr harena).eq_ok
        cases henc
        rw [OutVec.extend, hencoded, hids]
      obtain ⟨r', hr', hstreams⟩ := hcount.andThen
        (f := fun t out tel => some (t, out.extend encoded.ids, .ok tel))
        fun tel' _ => ⟨_, rfl, hextend tel'⟩
      exact ⟨r', hr', by simpa using hstreams⟩

/-- A pretoken of either kind. -/
lemma encodeEntry_streams (h : Live hash coldDiet t₀ t) {pretoken : List UInt8}
    (hfit : Fitting usizeMax pretoken) (out : OutVec) (tel : ChunkStreamTelemetry) :
    ∃ r, encodeEntry hash usizeMax t₀.tokenLength omega chunkSize pretoken t out tel = some r ∧
      Streams hash coldDiet usizeMax t out tel (t₀.pretokenIds [pretoken]) 0 pretoken.length
        (growth pretoken.length) r := by
  rw [encodeEntry]
  by_cases hshort : pretoken.length ≤ chunkSize
  · rw [if_pos hshort]
    obtain ⟨r, hr, hstreams⟩ :=
      flushShort_streams h h₀.faithful (List.forall_mem_singleton.mpr hfit) out tel
    rw [List.flatten_singleton] at hstreams
    exact ⟨r, hr, hstreams.mono le_rfl (List.length_pos_iff.mpr hfit.1) le_rfl⟩
  · rw [if_neg hshort]
    exact encodeLong_streams h₀ hchunk hsize h hfit (not_le.mp hshort) out tel

/-- The entries of a batch, one after another. -/
lemma encodeEntries_streams (h : Live hash coldDiet t₀ t) (hps : ∀ p ∈ ps, Fitting usizeMax p)
    (out : OutVec) (tel : ChunkStreamTelemetry) :
    ∃ r, encodeEntries hash usizeMax t₀.tokenLength omega chunkSize (ps.map (batchEntry hash)) t out
        tel = some r ∧
      Streams hash coldDiet usizeMax t out tel (t₀.pretokenIds ps) 0 ps.flatten.length
        (growth ps.flatten.length) r := by
  induction ps generalizing t out tel with
  | nil => exact ⟨_, rfl, .nil hash coldDiet usizeMax t out tel⟩
  | cons p ps ih =>
      obtain ⟨hp, hps⟩ := List.forall_mem_cons.mp hps
      obtain ⟨r, hr, hstreams⟩ := encodeEntry_streams h₀ hchunk hsize h hp out tel
      obtain ⟨r', hr', hstreams'⟩ := hstreams.andThen fun tel' huses =>
        ih (h.of_uses huses) hps r.2.1 tel'
      refine ⟨r', ?_, ?_⟩
      · rw [List.map_cons, encodeEntries, span_batchEntry, Option.bind_eq_bind, Option.bind_some,
          hr]
        exact hr'
      · rw [List.flatten_cons, List.length_append]
        exact pretokenIds_append t₀ [p] ps ▸ hstreams'.mono le_rfl le_rfl (growth_add_le _ _)

/-- A batch is counted and emitted. -/
lemma encodeBatch_streams (h : Live hash coldDiet t₀ t) (hps : ∀ p ∈ ps, Fitting usizeMax p)
    (hne : ps ≠ []) (hle : ps.length ≤ pretokenChunk) (out : OutVec)
    (tel : ChunkStreamTelemetry) :
    ∃ r, encodeBatch hash usizeMax t₀.tokenLength omega chunkSize (ps.map (batchEntry hash)) t out
        tel = some r ∧
      Streams hash coldDiet usizeMax t out tel (t₀.pretokenIds ps) ps.length ps.flatten.length
        (growth ps.flatten.length) r := by
  have hemit : emitChunkStreamBatch hash (ps.map (batchEntry hash)) = encodeShort hash ps := by
    funext t out tel
    rw [emitChunkStreamBatch, encodeShort, memoizedEncodeFlat_of_le hne hle, Option.map_map]
    rfl
  rw [encodeBatch, List.length_map, hemit]
  obtain ⟨r, hr, hstreams⟩ := (Streams.addPretokens ps.length).andThen
    (f := fun t out tel =>
      if (ps.map (batchEntry hash)).any fun e => chunkSize < e.spanLen then
        encodeEntries hash usizeMax t₀.tokenLength omega chunkSize (ps.map (batchEntry hash)) t out
          tel
      else Streamed.andThen (t, out, tel.addChunks usizeMax ps.length) (encodeShort hash ps))
    fun tel' _ => by
      split_ifs
      · exact encodeEntries_streams h₀ hchunk hsize h hps out tel'
      · obtain ⟨r, hr, hstreams⟩ := flushShort_streams h h₀.faithful hps out tel'
        exact ⟨r, hr, hstreams.mono le_rfl (length_le_flatten hps) le_rfl⟩
  exact ⟨r, hr, by simpa using hstreams⟩

/-- A segment in batches. -/
lemma encodeSegmentBatches_streams (h : Live hash coldDiet t₀ t)
    (hps : ∀ p ∈ ps, Fitting usizeMax p) (out : OutVec) (tel : ChunkStreamTelemetry) :
    ∃ r, encodeSegmentBatches hash usizeMax t₀.tokenLength omega chunkSize ps t out tel = some r ∧
      Streams hash coldDiet usizeMax t out tel (t₀.pretokenIds ps) ps.length ps.flatten.length
        (growth ps.flatten.length) r := by
  refine loop_eq_some (I := fun (m : ℕ)
      (s : Tokenizer × List (List UInt8) × OutVec × ChunkStreamTelemetry) =>
    m = s.2.1.length ∧ ∃ done, ps = done ++ s.2.1 ∧ Streams hash coldDiet usizeMax t out tel
      (t₀.pretokenIds done) done.length done.flatten.length (growth done.flatten.length)
      (s.1, s.2.2.1, .ok s.2.2.2)) ?_
    ⟨rfl, [], rfl, .nil hash coldDiet usizeMax t out tel⟩ (Nat.lt_succ_self _)
  rintro m ⟨t₁, ps₁, out₁, tel₁⟩ ⟨rfl, done, rfl, hdone⟩
  have hps₁ : ∀ p ∈ ps₁.take pretokenChunk, Fitting usizeMax p := fun p hp =>
    hps p (List.mem_append_right done (List.mem_of_mem_take hp))
  dsimp only at hdone ⊢
  simp only [encodeSegmentStep, fillSpansKeyed, List.length_map]
  by_cases hzero : (ps₁.take pretokenChunk).length = 0
  · have hnil : ps₁ = [] := by
      rw [List.length_take, pretokenChunk] at hzero
      exact List.length_eq_zero_iff.mp (by omega)
    subst hnil
    exact .inr ⟨_, by rw [if_pos hzero], by rwa [List.append_nil]⟩
  · obtain ⟨⟨t₂, out₂, r⟩, hrun, hbatch⟩ := encodeBatch_streams h₀ hchunk hsize
      (h.of_uses hdone.uses) hps₁ (fun hnil => hzero (by rw [hnil]; rfl)) (by simp) out₁ tel₁
    have hboth := (hdone.trans hbatch).mono le_rfl le_rfl (growth_add_le _ _)
    rw [← pretokenIds_append, ← List.length_append, ← List.length_append, ← List.flatten_append]
      at hboth
    simp only [if_neg hzero, hrun, Option.bind_eq_bind, Option.bind_some]
    cases r with
    | error e =>
        have hle : (done ++ ps₁.take pretokenChunk).flatten.length ≤
            (done ++ ps₁).flatten.length := by
          simp only [List.flatten_append, List.length_append]
          exact Nat.add_le_add_left ((List.take_sublist _ _).flatten.length_le) _
        exact .inr ⟨_, rfl, hboth.failed (by simp) hle (growth_mono hle) _⟩
    | ok tel₂ =>
        dsimp only
        by_cases hlt : (ps₁.take pretokenChunk).length < pretokenChunk
        · have htake : ps₁.take pretokenChunk = ps₁ := by
            refine List.take_of_length_le ?_
            rw [List.length_take] at hlt
            omega
          rw [htake] at hboth
          exact .inr ⟨_, by rw [if_pos hlt], hboth⟩
        · refine .inl ⟨_, by rw [if_neg hlt], _, ?_, rfl, done ++ ps₁.take pretokenChunk, ?_, hboth⟩
          · rw [List.length_take, pretokenChunk] at hzero
            rw [List.length_drop, pretokenChunk]
            omega
          · rw [List.append_assoc, List.take_append_drop]

/-- A segment, one pretoken after another. -/
lemma encodeSegmentSpans_streams (h : Live hash coldDiet t₀ t) {short : List (List UInt8)}
    (hshort : ∀ p ∈ short, Fitting usizeMax p) (hps : ∀ p ∈ ps, Fitting usizeMax p)
    (out : OutVec) (tel : ChunkStreamTelemetry) :
    ∃ r, encodeSegmentSpans hash usizeMax t₀.tokenLength omega chunkSize short ps t out tel =
        some r ∧
      Streams hash coldDiet usizeMax t out tel (t₀.pretokenIds (short ++ ps)) ps.length
        (short ++ ps).flatten.length (growth (short ++ ps).flatten.length) r := by
  induction ps generalizing short t out tel with
  | nil =>
      rw [List.append_nil]
      exact flushRest_streams h h₀.faithful hshort out tel
  | cons p ps ih =>
      obtain ⟨hp, hps⟩ := List.forall_mem_cons.mp hps
      have hmore : ∀ q ∈ short ++ [p], Fitting usizeMax q :=
        List.forall_mem_append.mpr ⟨hshort, List.forall_mem_singleton.mpr hp⟩
      have hlen := length_le_flatten hmore
      have hcount : Streams hash coldDiet usizeMax t out tel [] 1 0 0
          (t, out, tel.addPretokens usizeMax 1) := .addPretokens 1
      have hsplit : short ++ p :: ps = short ++ [p] ++ ps := List.append_cons short p ps
      have hcons : (p :: ps).length = 1 + ps.length := Nat.add_comm ps.length 1
      rw [encodeSegmentSpans, hsplit, hcons, pretokenIds_append, List.flatten_append,
        List.length_append]
      cases hx : tel.addPretokens usizeMax 1 with
      | error e =>
          rw [hx] at hcount
          exact ⟨_, rfl, hcount.failed (Nat.le_add_right _ _) (Nat.zero_le _) (Nat.zero_le _) _⟩
      | ok tel₁ =>
          rw [hx] at hcount
          rw [Streamed.andThen_ok]
          by_cases hle : p.length ≤ chunkSize
          · rw [if_pos hle]
            by_cases hfull : short.length + 1 = pretokenChunk
            · rw [if_pos hfull]
              obtain ⟨r, hr, hstreams⟩ := flushShort_streams h h₀.faithful hmore out tel₁
              obtain ⟨r', hr', hstreams'⟩ := hstreams.andThen fun tel₂ huses =>
                ih (h.of_uses huses) (List.forall_mem_nil _) hps r.2.1 tel₂
              refine ⟨r', ?_, (hcount.trans hstreams').mono ?_ ?_ ?_⟩
              · rw [hr]
                exact hr'
              · rw [Nat.zero_add]
              · rw [Nat.zero_add]
                exact Nat.add_le_add_right hlen _
              · rw [Nat.zero_add]
                exact growth_add_le _ _
            · rw [if_neg hfull]
              obtain ⟨r, hr, hstreams⟩ := ih h hmore hps out tel₁
              rw [pretokenIds_append, List.flatten_append, List.length_append] at hstreams
              exact ⟨r, hr, (hcount.trans hstreams).mono le_rfl (Nat.zero_add _).le
                (Nat.zero_add _).le⟩
          · rw [if_neg hle]
            obtain ⟨r, hr, hstreams⟩ := flushRest_streams h h₀.faithful hshort out tel₁
            obtain ⟨r₂, hr₂, hstreams₂⟩ := hstreams.andThen fun tel₂ huses =>
              encodeLong_streams h₀ hchunk hsize (h.of_uses huses) hp (not_le.mp hle) r.2.1 tel₂
            obtain ⟨r', hr', hstreams'⟩ := hstreams₂.andThen fun tel₃ huses =>
              ih (h.of_uses huses) (List.forall_mem_nil _) hps r₂.2.1 tel₃
            rw [← pretokenIds_append] at hstreams'
            refine ⟨r', ?_, (hcount.trans hstreams').mono ?_ ?_ ?_⟩
            · rw [hr, Option.bind_eq_bind, Option.bind_some, hr₂]
              exact hr'
            · rw [Nat.zero_add]
            · simp [Nat.add_assoc]
            · have hflat : (short ++ [p]).flatten.length = short.flatten.length + p.length := by
                rw [List.flatten_append, List.length_append, List.flatten_singleton]
              rw [Nat.zero_add, hflat]
              calc growth short.flatten.length + growth p.length + growth ps.flatten.length
                  ≤ growth (short.flatten.length + p.length) + growth ps.flatten.length :=
                    Nat.add_le_add_right (growth_add_le _ _) _
                _ ≤ growth (short.flatten.length + p.length + ps.flatten.length) :=
                    growth_add_le _ _

/-- A segment in either way. -/
lemma encodeSegment_streams (twoPhase : Bool) (h : Live hash coldDiet t₀ t)
    (hps : ∀ p ∈ ps, Fitting usizeMax p) (out : OutVec) (tel : ChunkStreamTelemetry) :
    ∃ r, encodeSegment hash usizeMax t₀.tokenLength omega chunkSize twoPhase ps t out tel = some r ∧
      Streams hash coldDiet usizeMax t out tel (t₀.pretokenIds ps) ps.length ps.flatten.length
        (growth ps.flatten.length) r := by
  cases twoPhase with
  | true => exact encodeSegmentBatches_streams h₀ hchunk hsize h hps out tel
  | false => exact encodeSegmentSpans_streams h₀ hchunk hsize h (List.forall_mem_nil _) hps out tel

end Segment

/-! ### The pieces -/

/-- What a piece is encoded to. -/
def pieceIds (t : Tokenizer) (tables : UnicodeTables) (scheme : PretokenizerType) :
    Piece → List TokenId
  | .segment encoded _ _ => t.pretokenIds ((scheme.pretokenize tables encoded).getD [])
  | .added id _ _ => [id]

end Tokenizer

/-- The number of bytes that a piece hands to the pretokenizer. -/
def Piece.size : Piece → ℕ
  | segment encoded _ _ => encoded.length
  | added _ _ _ => 0

namespace Tokenizer

variable {hash : ℕ → ℕ} {coldDiet : Bool} {usizeMax omega chunkSize : ℕ} {t₀ t : Tokenizer}

/-- The walk of `encode_with_added_tokens_flat` appends the ids of the pieces. -/
lemma Live.encodePieces (h : Live hash coldDiet t₀ t) (h₀ : t₀.Faithful) (tables : UnicodeTables)
    (scheme : PretokenizerType) {vocab : List (List UInt8)} {input : List UInt8}
    {pieces : List Piece} (hpieces : ∀ piece ∈ pieces, piece.Spellable vocab input)
    (out : OutVec) :
    ∃ t' out', encodePieces hash tables scheme pieces t out = some (t', out') ∧ Later t t' ∧
      t'.tokenArena.length ≤ t.tokenArena.length + (pieces.map Piece.size).sum ∧
      (t'.tokenArena.length < 2 ^ 32 →
        out'.ids = out.ids ++ pieces.flatMap (t₀.pieceIds tables scheme)) := by
  induction pieces generalizing t out with
  | nil => exact ⟨t, out, rfl, .rfl, le_rfl, fun _ => (List.append_nil _).symm⟩
  | cons piece pieces ih =>
      obtain ⟨hpiece, hrest⟩ := List.forall_mem_cons.mp hpieces
      clear hpieces
      cases piece with
      | segment encoded source start =>
          obtain ⟨⟨y, rfl⟩, hlen⟩ := hpiece
          obtain ⟨pretokens, hpre, hflatten, hmem⟩ := scheme.pretokenize_spell tables y
          obtain ⟨t₁, out₁, hrun, hlater, hle, hids⟩ := h.memoizedEncodeFlat h₀
            (fun p hp => ⟨(hmem p hp).1, (hmem p hp).2.trans hlen⟩) out
          obtain ⟨t', out', hrun', hlater', hle', hids'⟩ :=
            ih (h.of_uses (.single (.memoizedEncodeFlat hrun))) hrest out₁
          rw [hflatten] at hle
          refine ⟨t', out', ?_, hlater.trans hlater', ?_, fun harena => ?_⟩
          · rw [Tokenizer.encodePieces, hpre, Option.bind_eq_bind, Option.bind_some, hrun,
              Option.bind_eq_bind, Option.bind_some]
            exact hrun'
          · rw [List.map_cons, List.sum_cons, ← Nat.add_assoc]
            exact hle'.trans (Nat.add_le_add_right hle _)
          · rw [hids' harena, hids (hlater'.arena.length_le.trans_lt harena), List.flatMap_cons,
              pieceIds, hpre, Option.getD_some, List.append_assoc]
      | added id start stop =>
          obtain ⟨t', out', hrun, hlater, hle, hids⟩ := ih h hrest (out.extend [id])
          refine ⟨t', out', hrun, hlater, ?_, fun harena => ?_⟩
          · rwa [List.map_cons, List.sum_cons, Piece.size, Nat.zero_add]
          rw [hids harena, OutVec.extend, List.append_assoc]
          rfl

/-- The walk of `encode_chunked_streaming` appends them, too. -/
theorem streamPieces_streams (h₀ : Chunkable omega t₀) (hchunk : omega * 2 ≤ chunkSize)
    (hsize : chunkSize ≤ usizeMax) (twoPhase : Bool) (h : Live hash coldDiet t₀ t)
    (tables : UnicodeTables) (scheme : PretokenizerType) {vocab : List (List UInt8)}
    {input : List UInt8} {pieces : List Piece}
    (hpieces : ∀ piece ∈ pieces, piece.Spellable vocab input)
    (hsum : (pieces.map Piece.size).sum ≤ usizeMax) (out : OutVec) (tel : ChunkStreamTelemetry) :
    ∃ r, streamPieces hash usizeMax t₀.tokenLength omega chunkSize twoPhase tables scheme pieces t
        out tel = some r ∧
      Streams hash coldDiet usizeMax t out tel (pieces.flatMap (t₀.pieceIds tables scheme))
        (pieces.map Piece.size).sum (pieces.map Piece.size).sum
        (growth (pieces.map Piece.size).sum) r := by
  induction pieces generalizing t out tel with
  | nil => exact ⟨_, rfl, .nil hash coldDiet usizeMax t out tel⟩
  | cons piece pieces ih =>
      obtain ⟨hpiece, hrest⟩ := List.forall_mem_cons.mp hpieces
      clear hpieces
      rw [List.map_cons, List.sum_cons] at hsum ⊢
      rw [List.flatMap_cons]
      cases piece with
      | segment encoded source start =>
          obtain ⟨⟨y, rfl⟩, hlen⟩ := hpiece
          obtain ⟨pretokens, hpre, hflatten, hmem⟩ := scheme.pretokenize_spell tables y
          rw [Piece.size] at hsum ⊢
          have hfits : ∀ p ∈ pretokens, Fitting usizeMax p := fun p hp =>
            ⟨(hmem p hp).1, (hmem p hp).2.trans hlen, (hmem p hp).2.trans (by omega)⟩
          obtain ⟨r, hr, hstreams⟩ :=
            encodeSegment_streams h₀ hchunk hsize twoPhase h hfits out tel
          have hcount := length_le_flatten hfits
          rw [hflatten] at hstreams hcount
          obtain ⟨r', hr', hstreams'⟩ := (hstreams.mono hcount le_rfl le_rfl).andThen
            fun tel' huses => ih (h.of_uses huses) hrest (by omega) r.2.1 tel'
          refine ⟨r', ?_, ?_⟩
          · rw [streamPieces, hpre, Option.bind_eq_bind, Option.bind_some, hr]
            exact hr'
          · rw [pieceIds, hpre, Option.getD_some]
            exact hstreams'.mono le_rfl le_rfl (growth_add_le _ _)
      | added id start stop =>
          have hadded : Streams hash coldDiet usizeMax t out tel [id] 0 0 0
              (t, out.extend [id], .ok tel) :=
            ⟨.refl, .rfl, le_rfl, fun _ _ _ hwithin _ _ => ⟨tel, rfl, hwithin, rfl⟩⟩
          rw [Piece.size] at hsum ⊢
          obtain ⟨r, hr, hstreams⟩ := ih h hrest (by omega) (out.extend [id]) tel
          refine ⟨r, hr, (hadded.trans hstreams).mono le_rfl le_rfl ?_⟩
          rw [Nat.zero_add, Nat.zero_add]

end Tokenizer

/-! ### Files -/

namespace ByteBpeFile

variable {file : ByteBpeFile} {hash : ℕ → ℕ} {coldDiet compact : Bool}
  {prebuilt : Option PrebuiltPairData}

/-- A file without PRIORITY has no explicit ranks. -/
lemma idRanked_of_buildByteModel (hprio : file.priorities = none)
    {model : LoadedMerges × (UInt8 → TokenId)}
    (h : buildByteModel file.toByteFile compact prebuilt = .ok model) :
    ∃ m, model.1 = .idRanked m := by
  simp only [buildByteModel, bind_eq_ok_iff] at h
  obtain ⟨⟨⟩, -, ⟨⟩, -, merges, hmerges, base, -, h⟩ := h
  cases h
  have hprio' : file.toByteFile.priorities = none := hprio
  cases prebuilt with
  | none =>
      simp only [buildByteMerges, buildByteBpe, hprio', bind_eq_ok_iff] at hmerges
      obtain ⟨⟨⟩, -, ⟨⟩, -, hmerges⟩ := hmerges
      split_ifs at hmerges
      obtain ⟨m, -, hmerges⟩ := bind_eq_ok_iff.mp hmerges
      cases hmerges
      exact ⟨m, rfl⟩
  | some data =>
      rw [buildByteMerges, hprio'] at hmerges
      simp only [Option.isSome_none, Bool.false_eq_true, if_false] at hmerges
      split_ifs at hmerges
      obtain ⟨t, -, rfl⟩ := map_eq_ok_iff.mp hmerges
      exact ⟨_, rfl⟩

/-- Nor has its tokenizer. -/
lemma rankedMerges_of_buildTokenizer (hprio : file.priorities = none) {t : Tokenizer}
    (h : file.buildTokenizer hash coldDiet compact prebuilt = .ok (some t)) :
    t.tables.rankedMerges = none := by
  unfold buildTokenizer at h
  split at h
  · cases h
  · rename_i model hmodel
    rw [Except.ok.injEq] at h
    simp only [Option.bind_eq_bind, Option.bind_eq_some_iff] at h
    obtain ⟨t₁, hrun, t₂, hignore, hadded⟩ := h
    obtain ⟨t₁', hrun', hnew⟩ := model.1.exists_tokenizer hash coldDiet file.vocab
      (model.1.tables compact ⟨model.2, buildByteModel_lt file.prioritiesFit hmodel⟩
        (buildByteModel_words file.prioritiesFit hmodel).1)
    cases hrun.symm.trans hrun'
    rw [(Tokenizer.setAddedTokens_model hadded).1, (Tokenizer.setIgnoreMerges_model hignore).1,
      hnew.tables_eq]
    obtain ⟨merges, base⟩ := model
    obtain ⟨m, rfl⟩ := idRanked_of_buildByteModel hprio hmodel
    cases m <;> rfl

/-- Ten letters, which are one pretoken. -/
def abText : List UInt8 := textBytes ['a', 'b', 'a', 'b', 'a', 'b', 'a', 'b', 'a', 'b']

lemma pieces_abText :
    abFile.pipeline.pieces Nfc.acuteData abText = some [.segment abText abText 0] := by
  decide +kernel

end ByteBpeFile

end Hypertok
