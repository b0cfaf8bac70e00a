import Hypertok.Cache.Tokenizer

/-!
Encoding through the caches: `probe_emit_chunk` and its slow path, the miss path, and
the two encode loops over chunks of pretokens.

* `Sound.probeEmit`: one pretoken, on any of its routes, gets its uncached encoding
  and leaves the caches sound.
* `Sound.probeEmitLoop`: so does a chunk, and the stores stay within the capacity of
  the output.
* `memoizedEncode_eq_uncached`: in every reachable tokenizer, each pretoken is encoded
  as without caches.
-/

namespace Hypertok

open Machine

/-- `PRETOKEN_CHUNK`. -/
def pretokenChunk : ℕ := 256

/-! ### Batches -/

/-- `BatchEntry`. The pointer is the bytes that it points to. -/
structure BatchEntry where
  key : ℕ
  /-- The hash of the key; the length of the span if the key is zero. -/
  metaWord : ℕ
  ptr : List UInt8

namespace BatchEntry

/-- `span_len`. -/
def spanLen (e : BatchEntry) : ℕ := if e.key ≠ 0 then e.key >>> 120 else e.metaWord

/-- `span`, which reads that many bytes. -/
def span (e : BatchEntry) : Option (List UInt8) :=
  if e.spanLen ≤ e.ptr.length then some (e.ptr.take e.spanLen) else none

end BatchEntry

/-- The entry that a fill writes for a span. -/
def batchEntry (hash : ℕ → ℕ) (span : List UInt8) : BatchEntry :=
  let key := (packPretokenKey span).getD 0
  { key, metaWord := if key ≠ 0 then hash key else span.length, ptr := span }

/-- `fill_spans_keyed`: the entries of the next chunk, and the spans that are left. -/
def fillSpansKeyed (hash : ℕ → ℕ) (spans : List (List UInt8)) :
    List BatchEntry × List (List UInt8) :=
  ((spans.take pretokenChunk).map (batchEntry hash), spans.drop pretokenChunk)

/-! ### The output -/

/-- `Vec<u32>`: the elements written, and a capacity that is at least reserved. -/
structure OutVec where
  ids : List TokenId
  cap : ℕ

namespace OutVec

/-- `reserve`. -/
def reserve (out : OutVec) (additional : ℕ) : OutVec :=
  { out with cap := max out.cap (out.ids.length + additional) }

/-- `extend_from_slice`. -/
def extend (out : OutVec) (ids : List TokenId) : OutVec :=
  { (out.reserve ids.length) with ids := out.ids ++ ids }

/-- `clear`. -/
def clear (out : OutVec) : OutVec := { out with ids := [] }

/-- Four lanes stored at the cursor, which then advances by `count`. The lanes past the
cursor are dead. -/
def storeLanes (out : OutVec) (lanes : List TokenId) (count : ℕ) : Option OutVec :=
  if out.ids.length + 4 ≤ out.cap ∧ count ≤ 4 then
    some { out with ids := out.ids ++ lanes.take count }
  else none

end OutVec

/-! ### The code -/

namespace Tokenizer

section Code

variable (hash : ℕ → ℕ)

/-- `encode_pretoken_miss`, with `encode_pretoken_miss_ranked`, which differs in the
symbol functions. -/
def encodePretokenMiss (t : Tokenizer) (bytes : List UInt8) (key h slot : ℕ) (out : OutVec) :
    Option (Tokenizer × OutVec) :=
  if key ≠ 0 then do
    let (buf, n) ← t.tables.seedSymbolsAny t.ignoreMerges t.vocabInv bytes zeroBuf
    let symbols := buf.take n
    let ((val, ext), arena) := packVal symbols t.tokenArena
    let cache ← t.pretokenCache.insertAt hash slot ⟨key, val, ext⟩ h
    some ({ t with toStores := ⟨arena, cache⟩ }, out.extend symbols)
  else do
    let symbols ← t.tables.longSymbols t.ignoreMerges t.vocabInv bytes
    let len := symbols.length % 2 ^ 32
    let offset := t.tokenArena.length % 2 ^ 32
    let t := { t with
      tokenArena := t.tokenArena ++ symbols
      pretokenCacheLong := t.pretokenCacheLong.insert bytes (offset, len) }
    some (t, out.extend symbols)

/-- `probe_emit_slow`, up to its last `reserve`. -/
def emitSlow (t : Tokenizer) (bytes : List UInt8) (key h : ℕ) (out : OutVec) :
    Option (Tokenizer × OutVec) :=
  if key ≠ 0 then do
    match ← t.pretokenCache.getOrSlot key h with
    | .ok (val, ext) => do some (t, out.extend (← decodeVal t.tokenArena val ext))
    | .error slot => t.encodePretokenMiss hash bytes key h slot out
  else
    match t.pretokenCacheLong.lookup bytes with
    | some (offset, len) => do some (t, out.extend (← arenaSlice t.tokenArena offset len))
    | none => t.encodePretokenMiss hash bytes 0 0 0 out

/-- `probe_emit_slow`. -/
def probeEmitSlow (t : Tokenizer) (bytes : List UInt8) (key h : ℕ) (out : OutVec) :
    Option (Tokenizer × OutVec) := do
  let (t, out) ← t.emitSlow hash bytes key h out
  some (t, out.reserve (4 * pretokenChunk))

/-- One turn of the loop of `probe_emit_chunk`. -/
def probeEmit (t : Tokenizer) (e : BatchEntry) (out : OutVec) : Option (Tokenizer × OutVec) := do
  let (val, ext, found) ← t.pretokenCache.probePair e.key e.metaWord
  let fast := found && (val &&& valSpill == 0) && (e.key != 0)
  let out ← out.storeLanes (fastLanes val ext) (if fast then val &&& 0x7F else 0)
  if fast then some (t, out)
  else do
    let bytes ← e.span
    t.probeEmitSlow hash bytes e.key e.metaWord out

/-- The loop of `probe_emit_chunk`, with the cursors that `record` sees. -/
def probeEmitLoop : List BatchEntry → Tokenizer → OutVec → Option (Tokenizer × OutVec × List ℕ)
  | [], t, out => some (t, out, [])
  | e :: entries, t, out => do
      let (t, out) ← t.probeEmit hash e out
      let w := out.ids.length
      let (t, out, ends) ← probeEmitLoop entries t out
      some (t, out, w :: ends)

/-- `probe_emit_chunk`. -/
def probeEmitChunk (t : Tokenizer) (entries : List BatchEntry) (out : OutVec) :
    Option (Tokenizer × OutVec × List ℕ) := do
  guard (entries.length ≤ pretokenChunk)
  probeEmitLoop hash entries t (out.reserve (4 * entries.length))

/-- The slices of a chunk that `memoized_encode` delivers. -/
def deliver (ids : List TokenId) : ℕ → List ℕ → List (List TokenId)
  | _, [] => []
  | start, stop :: ends => (ids.take stop).drop start :: deliver ids stop ends

/-- One turn of the loop of `memoized_encode`. -/
def memoizedEncodeStep : Tokenizer × List (List UInt8) × OutVec × List (List TokenId) →
    Option ((Tokenizer × List (List UInt8) × OutVec × List (List TokenId)) ⊕
      (Tokenizer × List (List TokenId)))
  | (t, pretokens, out, delivered) =>
      let (batch, rest) := fillSpansKeyed hash pretokens
      if batch.length = 0 then some (.inr (t, delivered))
      else do
        let (t, out, ends) ← t.probeEmitChunk hash batch out.clear
        let delivered := delivered ++ deliver out.ids 0 ends
        if batch.length < pretokenChunk then some (.inr (t, delivered))
        else some (.inl (t, rest, out, delivered))

/-- `memoized_encode`: the slices delivered, one for each pretoken. -/
def memoizedEncode (t : Tokenizer) (pretokens : List (List UInt8)) :
    Option (Tokenizer × List (List TokenId)) :=
  loop (memoizedEncodeStep hash) (pretokens.length + 1) (t, pretokens, ⟨[], 0⟩, [])

/-- One turn of the loop of `memoized_encode_flat`. -/
def memoizedEncodeFlatStep : Tokenizer × List (List UInt8) × OutVec →
    Option ((Tokenizer × List (List UInt8) × OutVec) ⊕ (Tokenizer × OutVec))
  | (t, pretokens, out) =>
      let (batch, rest) := fillSpansKeyed hash pretokens
      if batch.length = 0 then some (.inr (t, out))
      else do
        let (t, out, _) ← t.probeEmitChunk hash batch out
        if batch.length < pretokenChunk then some (.inr (t, out))
        else some (.inl (t, rest, out))

/-- `memoized_encode_flat`: the ids appended to `out`. -/
def memoizedEncodeFlat (t : Tokenizer) (pretokens : List (List UInt8)) (out : OutVec) :
    Option (Tokenizer × OutVec) :=
  loop (memoizedEncodeFlatStep hash) (pretokens.length + 1) (t, pretokens, out)

end Code

variable {hash : ℕ → ℕ} {coldDiet : Bool} {stage : Stage} {t t' : Tokenizer} {bytes : List UInt8}
  {out : OutVec}

/-! ### One pretoken -/

/-- `t'` encodes as `t` does, and its arena has grown. -/
structure Later (t t' : Tokenizer) : Prop where
  encode : ∀ bytes, t'.uncachedEncode bytes = t.uncachedEncode bytes
  arena : t.tokenArena <+: t'.tokenArena

lemma Later.rfl : Later t t := ⟨fun _ => Eq.refl _, List.prefix_rfl⟩

lemma Later.trans {t'' : Tokenizer} (h : Later t t') (h' : Later t' t'') : Later t t'' :=
  ⟨fun b => (h'.encode b).trans (h.encode b), h.arena.trans h'.arena⟩

/-- The number of tokens of a pretoken. -/
def tokenCount (t : Tokenizer) (bytes : List UInt8) : ℕ :=
  ((t.uncachedEncode bytes).getD []).length

/-- A run that emits `ids` for a pretoken, as far as the bound on the arena goes. -/
structure Emits (hash : ℕ → ℕ) (coldDiet : Bool) (t : Tokenizer) (bytes : List UInt8)
    (ids : List TokenId) (t' : Tokenizer) : Prop where
  sound : Sound hash coldDiet .encoded t'
  later : Later t t'
  arena_le : t'.tokenArena.length ≤ t.tokenArena.length + t.tokenCount bytes
  ids_eq : t'.tokenArena.length < 2 ^ 32 → t.uncachedEncode bytes = some ids

lemma Sound.encoded (h : Sound hash coldDiet stage t) : Sound hash coldDiet .encoded t :=
  { h with built := by simp, fresh := by simp }

/-- Both routes of an entry lead back to its span. -/
lemma batchEntry_of_short (hash : ℕ → ℕ) (h : Short bytes) {key : ℕ}
    (hkey : packPretokenKey bytes = some key) :
    batchEntry hash bytes = ⟨key, hash key, bytes⟩ ∧ (batchEntry hash bytes).span = some bytes := by
  have hne : key ≠ 0 := key_ne_empty h hkey
  have hentry : batchEntry hash bytes = ⟨key, hash key, bytes⟩ := by simp [batchEntry, hkey, hne]
  refine ⟨hentry, ?_⟩
  rw [packPretokenKey_of_short h, Option.some_inj] at hkey
  have hlen : key >>> 120 = bytes.length := hkey ▸ packPretokenKey_shiftRight h
  simp [hentry, BatchEntry.span, BatchEntry.spanLen, hne, hlen]

lemma batchEntry_of_long (hash : ℕ → ℕ) (h : ¬ Short bytes) :
    batchEntry hash bytes = ⟨0, bytes.length, bytes⟩ ∧
      (batchEntry hash bytes).span = some bytes := by
  have hkey : (packPretokenKey bytes).getD 0 = 0 := by
    simp only [packPretokenKey]
    by_cases h15 : bytes.length > 15
    · simp [h15]
    · have h0 : bytes.length = 0 := by
        by_contra h0
        exact h ⟨by omega, by omega⟩
      simp [h0]
  have hentry : batchEntry hash bytes = ⟨0, bytes.length, bytes⟩ := by simp [batchEntry, hkey]
  exact ⟨hentry, by simp [hentry, BatchEntry.span, BatchEntry.spanLen]⟩

/-- A further entry of the short cache, for a pretoken that it has missed. -/
lemma Sound.insertShort (h : Sound hash coldDiet stage t) (out : OutVec) (hb : Short bytes)
    {key : ℕ} (hkey : packPretokenKey bytes = some key) {slot : ℕ} (hmiss : t.pretokenCache.getOrSlot key
      (hash key) = some (.error slot)) :
    ∃ t', t.encodePretokenMiss hash bytes key (hash key) slot out =
        some (t', out.extend (t.shortEncoding bytes)) ∧
      Emits hash coldDiet t bytes (t.shortEncoding bytes) t' := by
  have hne : key ≠ emptyKey := key_ne_empty hb hkey
  obtain ⟨e, -, -, hget⟩ | ⟨i, e₀, hfull, he₀, hempty, hget⟩ := h.serves.valid.getOrSlot key
  · cases hmiss.symm.trans hget
  · cases hmiss.symm.trans hget
    -- the walk has stopped at an empty slot, so the key is new
    have hnew : ∀ x ∈ t.pretokenCache.slots, x.key ≠ key := fun x hx heq =>
      h.serves.valid.placed.probed.not_stores hfull he₀
        (ShortPretokenCache.probing_key_eq_none.mpr hempty) x
        (ShortPretokenCache.probing_stores.mpr ⟨hx, heq, hne⟩)
    -- an added token would have an entry
    have hover : t.overwrittenId bytes = none := by
      by_contra hsome
      obtain ⟨e, he, hk⟩ := h.has bytes hb (Option.isSome_iff_ne_none.mpr hsome)
      exact hnew e he (Option.some_inj.mp (hk.symm.trans hkey))
    have hids : t.shortEncoding bytes =
        t.tables.shortIds t.ignoreMerges t.vocabInv bytes := by rw [shortEncoding, hover]
    obtain ⟨buf, n, hseed, htake⟩ := t.tables.seedSymbolsAny_eq t.ignoreMerges t.vocabInv hb
      zeroBuf
    rw [← hids] at htake
    rcases hpack : packVal (t.shortEncoding bytes) t.tokenArena with ⟨⟨val, ext⟩, arena⟩
    obtain ⟨cache, hinsert, hvalid, hmem⟩ :=
      h.serves.valid.insertAt (e := ⟨key, val, ext⟩) hne hfull he₀ hempty
    obtain ⟨hserves, hle, hhas⟩ := h.serves.write hb hkey
      (shortEncoding_packable h.vocabInv_lt hb) hpack hvalid fun x hx => by
        rw [hmem x hx]
        exact or_congr_right ⟨fun hx' => ⟨hnew x hx', hx'⟩, And.right⟩
    rw [Function.update_eq_self] at hserves
    refine ⟨{ t with toStores := ⟨arena, cache⟩ }, ?_, ⟨h.vocabInv_lt, hserves,
      fun b hb' hid => (hhas b hb').mpr (.inr (h.has b hb' hid)),
      h.servesLong.of_eq rfl hle rfl rfl rfl, by simp, by simp⟩, ⟨fun _ => rfl, hle⟩, ?_,
      fun _ => uncachedEncode_of_short hb⟩
    · simp only [encodePretokenMiss, if_pos (show key ≠ 0 from hne), hseed, htake, hpack, hinsert,
        Option.bind_eq_bind, Option.bind_some]
    · simpa [tokenCount, uncachedEncode_of_short hb, hpack] using
        length_packVal_le (t.shortEncoding bytes) t.tokenArena

/-- A further entry of the long cache. -/
lemma Sound.insertLong (h : Sound hash coldDiet stage t) (out : OutVec) (hb : ¬ Short bytes)
    {symbols : List TokenId} (hsymbols : t.uncachedEncode bytes = some symbols) :
    ∃ t', t.encodePretokenMiss hash bytes 0 0 0 out = some (t', out.extend symbols) ∧
      Emits hash coldDiet t bytes symbols t' := by
  have hrun : t.tables.longSymbols t.ignoreMerges t.vocabInv bytes = some symbols := by
    rwa [uncachedEncode, if_neg hb] at hsymbols
  have hle : t.tokenArena <+: t.tokenArena ++ symbols := List.prefix_append _ _
  obtain ⟨ids, hslice, hids⟩ := arenaSlice_append t.tokenArena symbols
    (Nat.mod_le t.tokenArena.length (2 ^ 32)) (Nat.mod_le symbols.length (2 ^ 32))
  refine ⟨{ t with
      tokenArena := t.tokenArena ++ symbols
      pretokenCacheLong := t.pretokenCacheLong.insert bytes
        (t.tokenArena.length % 2 ^ 32, symbols.length % 2 ^ 32) }, ?_,
    ⟨h.vocabInv_lt, ⟨h.serves.valid, fun e he hne => ?_⟩, h.has, fun b q hq => ?_, by simp,
      by simp⟩, ⟨fun _ => rfl, hle⟩, by simp [tokenCount, hsymbols], fun _ => hsymbols⟩
  · simp only [encodePretokenMiss, ne_eq, not_true_eq_false, if_false, hrun, Option.bind_eq_bind,
      Option.bind_some]
  · obtain ⟨b, hb', hkey, hdec⟩ := h.serves.entry e he hne
    exact ⟨b, hb', hkey, hdec.mono hle⟩
  · simp only at hq
    obtain rfl | hne := eq_or_ne b bytes
    · rw [AList.lookup_insert, Option.mem_some_iff] at hq
      subst hq
      refine ⟨hb, ids, hslice, fun hlt => ?_⟩
      simp only [List.length_append] at hlt
      rw [hids (Nat.mod_eq_of_lt (by omega)) (Nat.mod_eq_of_lt (by omega))]
      exact hsymbols
    · rw [AList.lookup_insert_ne hne] at hq
      obtain ⟨hb', ids', hslice', hids'⟩ := h.servesLong b q hq
      exact ⟨hb', ids', arenaSlice_mono hle hslice', fun hlt =>
        hids' (hle.length_le.trans_lt hlt)⟩

/-- The slow path, on any route: it emits the encoding of the pretoken, or the symbols
of the pretoken are never computed. -/
lemma Sound.emitSlow (h : Sound hash coldDiet stage t) (bytes : List UInt8) (out : OutVec) :
    let e := batchEntry hash bytes
    (t.uncachedEncode bytes = none ∧ t.emitSlow hash bytes e.key e.metaWord out = none) ∨
      ∃ t' ids, t.emitSlow hash bytes e.key e.metaWord out = some (t', out.extend ids) ∧
        Emits hash coldDiet t bytes ids t' := by
  by_cases hb : Short bytes
  · obtain ⟨key, hkey, hne⟩ := exists_key hb
    rw [(batchEntry_of_short hash hb hkey).1]
    simp only [Tokenizer.emitSlow, if_pos (show key ≠ 0 from hne)]
    obtain ⟨e, he, rfl, hget⟩ | ⟨i, e₀, -, -, -, hget⟩ := h.serves.valid.getOrSlot key
    · obtain ⟨-, ids, hdec, hids⟩ := h.serves.entry_of_key hb he hkey
      refine .inr ⟨t, ids, ?_, h.encoded, .rfl, Nat.le_add_right _ _, fun hlt => ?_⟩
      · simp only [hget, hdec, Option.bind_eq_bind, Option.bind_some]
      · rw [uncachedEncode_of_short hb, hids hlt]
    · obtain ⟨t', hrun, hemits⟩ := h.insertShort out hb hkey hget
      exact .inr ⟨t', _, by simp only [hget, Option.bind_eq_bind, Option.bind_some, hrun], hemits⟩
  · rw [(batchEntry_of_long hash hb).1]
    simp only [Tokenizer.emitSlow, ne_eq, not_true_eq_false, if_false]
    cases hlong : t.pretokenCacheLong.lookup bytes with
    | some q =>
        obtain ⟨-, ids, hslice, hids⟩ := h.servesLong bytes q hlong
        refine .inr ⟨t, ids, ?_, h.encoded, .rfl, Nat.le_add_right _ _, hids⟩
        simp only [hslice, Option.bind_eq_bind, Option.bind_some]
    | none =>
        cases hsymbols : t.uncachedEncode bytes with
        | none =>
            refine .inl ⟨rfl, ?_⟩
            rw [uncachedEncode, if_neg hb] at hsymbols
            simp [encodePretokenMiss, hsymbols]
        | some symbols =>
            obtain ⟨t', hrun, hemits⟩ := h.insertLong out hb hsymbols
            exact .inr ⟨t', symbols, hrun, hemits⟩

/-- One turn of the emit loop. The four lanes fit, and the slow path restores the slack
for the turns that are left. -/
theorem Sound.probeEmit (h : Sound hash coldDiet stage t) (bytes : List UInt8) {k : ℕ}
    (hcap : out.ids.length + 4 * (k + 1) ≤ out.cap) (hk : k < pretokenChunk) :
    (t.uncachedEncode bytes = none ∧ t.probeEmit hash (batchEntry hash bytes) out = none) ∨
      ∃ t' out' ids, t.probeEmit hash (batchEntry hash bytes) out = some (t', out') ∧
        Emits hash coldDiet t bytes ids t' ∧ out'.ids = out.ids ++ ids ∧
          out'.ids.length + 4 * k ≤ out'.cap := by
  set e := batchEntry hash bytes with he
  obtain ⟨val, ext, found, hprobe, hfound⟩ := h.serves.valid.probePair e.key e.metaWord
  by_cases hfast : (found && (val &&& valSpill == 0) && (e.key != 0)) = true
  · -- the fast path: an inline value of the key
    have hb : Short bytes := by
      by_contra hb
      simp [he, (batchEntry_of_long hash hb).1] at hfast
    obtain ⟨key, hkey, hne⟩ := exists_key hb
    have hek : e.key = key := by rw [he, (batchEntry_of_short hash hb hkey).1]
    simp only [Bool.and_eq_true, beq_iff_eq, bne_iff_ne] at hfast
    obtain ⟨x, hx, hxkey, rfl, rfl⟩ := hfound hfast.1.1
    obtain ⟨hwords, ids, hdec, hids⟩ := h.serves.entry_of_key hb hx (by rw [hxkey, hek, hkey])
    rw [decodeVal, if_pos hfast.1.2] at hdec
    simp only [Option.ite_none_right_eq_some, Option.some.injEq] at hdec
    obtain ⟨hcount, rfl⟩ := hdec
    have hlen : ((unpackValLanes x.val x.ext).take (x.val &&& 0x7F)).length = x.val &&& 0x7F := by
      simpa [unpackValLanes] using hcount
    refine .inr ⟨t, ⟨out.ids ++ (unpackValLanes x.val x.ext).take (x.val &&& 0x7F), out.cap⟩, _, ?_,
      ⟨h.encoded, .rfl, Nat.le_add_right _ _, fun hlt => ?_⟩, rfl, ?_⟩
    · have hstore : out.ids.length + 4 ≤ out.cap ∧ x.val &&& 0x7F ≤ 4 := ⟨by omega, hcount⟩
      simp [Tokenizer.probeEmit, hprobe, hfast, OutVec.storeLanes, hstore, fastLanes_eq hwords]
    · rw [uncachedEncode_of_short hb, hids hlt]
    · simp only [List.length_append, hlen]
      omega
  · -- the slow path, with nothing stored below the cursor
    have hspan : e.span = some bytes := by
      by_cases hb : Short bytes
      · obtain ⟨key, hkey, -⟩ := exists_key hb
        exact (batchEntry_of_short hash hb hkey).2
      · exact (batchEntry_of_long hash hb).2
    have hstore : out.ids.length + 4 ≤ out.cap ∧ 0 ≤ 4 := ⟨by omega, by omega⟩
    have hrun : t.probeEmit hash e out = t.probeEmitSlow hash bytes e.key e.metaWord out := by
      simp only [Tokenizer.probeEmit, hprobe, hfast, OutVec.storeLanes, hstore, hspan,
        Option.bind_eq_bind, Option.bind_some, if_false, if_true, and_self, List.take_zero,
        List.append_nil, Bool.false_eq_true]
    rw [hrun, Tokenizer.probeEmitSlow]
    obtain ⟨hnone, hslow⟩ | ⟨t', ids, hslow, hemits⟩ := h.emitSlow bytes out
    · exact .inl ⟨hnone, by rw [hslow]; rfl⟩
    · refine .inr ⟨t', (out.extend ids).reserve (4 * pretokenChunk), ids, by rw [hslow]; rfl,
        hemits, rfl, ?_⟩
      simp only [OutVec.reserve, OutVec.extend]
      omega

/-! ### Runs -/

/-- A run over pretokens emits the uncached encoding of each, as far as the bound on the
arena goes. -/
structure EmitsAll (hash : ℕ → ℕ) (coldDiet : Bool) (t : Tokenizer)
    (pretokens : List (List UInt8)) (outs : List (List TokenId)) (t' : Tokenizer) : Prop where
  sound : Sound hash coldDiet .encoded t'
  later : Later t t'
  arena_le : t'.tokenArena.length ≤ t.tokenArena.length + (pretokens.map t.tokenCount).sum
  outs_eq : t'.tokenArena.length < 2 ^ 32 → outs.map some = pretokens.map t.uncachedEncode

lemma EmitsAll.nil (h : Sound hash coldDiet stage t) : EmitsAll hash coldDiet t [] [] t :=
  ⟨h.encoded, .rfl, le_rfl, fun _ => rfl⟩

lemma Later.tokenCount (h : Later t t') : t'.tokenCount = t.tokenCount := by
  funext b
  rw [Tokenizer.tokenCount, Tokenizer.tokenCount, h.encode]

lemma EmitsAll.append {t'' : Tokenizer} {ps ps' : List (List UInt8)}
    {outs outs' : List (List TokenId)} (h : EmitsAll hash coldDiet t ps outs t')
    (h' : EmitsAll hash coldDiet t' ps' outs' t'') :
    EmitsAll hash coldDiet t (ps ++ ps') (outs ++ outs') t'' where
  sound := h'.sound
  later := h.later.trans h'.later
  arena_le := by
    have h₁ := h.arena_le
    have h₂ := h'.arena_le
    rw [h.later.tokenCount] at h₂
    rw [List.map_append, List.sum_append]
    omega
  outs_eq hlt := by
    have hlt' := h'.later.arena.length_le.trans_lt hlt
    rw [List.map_append, List.map_append, h.outs_eq hlt', h'.outs_eq hlt,
      List.map_congr_left fun b _ => h.later.encode b]

lemma Emits.all {ids : List TokenId} (h : Emits hash coldDiet t bytes ids t') :
    EmitsAll hash coldDiet t [bytes] [ids] t' :=
  ⟨h.sound, h.later, by simpa using h.arena_le, fun hlt => by simp [h.ids_eq hlt]⟩

/-- A chunk: the cursors cut the output into the encodings of its pretokens. -/
theorem Sound.probeEmitLoop (h : Sound hash coldDiet stage t) (out : OutVec)
    {ps : List (List UInt8)} (hcap : out.ids.length + 4 * ps.length ≤ out.cap)
    (hps : ps.length ≤ pretokenChunk) :
    ((∃ p ∈ ps, t.uncachedEncode p = none) ∧
        probeEmitLoop hash (ps.map (batchEntry hash)) t out = none) ∨
      ∃ t' out' ends outs, probeEmitLoop hash (ps.map (batchEntry hash)) t out =
          some (t', out', ends) ∧
        EmitsAll hash coldDiet t ps outs t' ∧ out'.ids = out.ids ++ outs.flatten ∧
          deliver out'.ids out.ids.length ends = outs := by
  induction ps generalizing stage t out with
  | nil => exact .inr ⟨t, out, [], [], rfl, .nil h, by simp, rfl⟩
  | cons p ps ih =>
      rw [List.length_cons] at hcap hps
      simp only [List.map_cons, Tokenizer.probeEmitLoop]
      obtain ⟨hnone, hrun⟩ | ⟨t₁, out₁, ids, hrun, hemits, hout₁, hcap₁⟩ :=
        h.probeEmit p hcap (by omega)
      · exact .inl ⟨⟨p, by simp, hnone⟩, by simp [hrun]⟩
      · simp only [hrun, Option.bind_eq_bind, Option.bind_some]
        obtain ⟨⟨p', hp', hnone⟩, hloop⟩ | ⟨t', out', ends, outs, hloop, hall, hout', hdeliver⟩ :=
          ih hemits.sound out₁ hcap₁ (by omega)
        · refine .inl ⟨⟨p', by simp [hp'], ?_⟩, by simp [hloop]⟩
          rwa [← hemits.later.encode]
        · refine .inr ⟨t', out', out₁.ids.length :: ends, ids :: outs, by simp [hloop],
            hemits.all.append hall, by simp [hout', hout₁], ?_⟩
          have htake : out'.ids.take out₁.ids.length = out₁.ids := by simp [hout']
          rw [deliver, htake, hdeliver, hout₁, List.drop_left]

lemma Sound.probeEmitChunk (h : Sound hash coldDiet stage t) (ps : List (List UInt8))
    (hps : ps.length ≤ pretokenChunk) (out : OutVec) :
    ((∃ p ∈ ps, t.uncachedEncode p = none) ∧
        t.probeEmitChunk hash (ps.map (batchEntry hash)) out = none) ∨
      ∃ t' out' ends outs, t.probeEmitChunk hash (ps.map (batchEntry hash)) out =
          some (t', out', ends) ∧
        EmitsAll hash coldDiet t ps outs t' ∧ out'.ids = out.ids ++ outs.flatten ∧
          deliver out'.ids out.ids.length ends = outs := by
  have hrun : t.probeEmitChunk hash (ps.map (batchEntry hash)) out =
      Tokenizer.probeEmitLoop hash (ps.map (batchEntry hash)) t (out.reserve (4 * ps.length)) := by
    simp [Tokenizer.probeEmitChunk, hps]
  rw [hrun]
  exact h.probeEmitLoop (out.reserve (4 * ps.length)) (le_max_right _ _) hps

/-- A turn of `memoized_encode` delivers a chunk. -/
lemma Sound.memoizedEncodeStep (h : Sound hash coldDiet stage t) (ps : List (List UInt8))
    (out : OutVec) (delivered : List (List TokenId)) :
    ((∃ p ∈ ps, t.uncachedEncode p = none) ∧
        memoizedEncodeStep hash (t, ps, out, delivered) = none) ∨
      (∃ t' outs, memoizedEncodeStep hash (t, ps, out, delivered) =
          some (.inr (t', delivered ++ outs)) ∧ EmitsAll hash coldDiet t ps outs t') ∨
      ∃ t' out' outs, memoizedEncodeStep hash (t, ps, out, delivered) =
          some (.inl (t', ps.drop pretokenChunk, out', delivered ++ outs)) ∧
        EmitsAll hash coldDiet t (ps.take pretokenChunk) outs t' ∧ pretokenChunk ≤ ps.length := by
  simp only [Tokenizer.memoizedEncodeStep, fillSpansKeyed, List.length_map, List.length_take]
  by_cases hzero : min pretokenChunk ps.length = 0
  · have hps : ps = [] := by
      rw [← List.length_eq_zero_iff]
      simp only [pretokenChunk] at hzero
      omega
    subst hps
    exact .inr (.inl ⟨t, [], by simp, .nil h⟩)
  · simp only [if_neg hzero]
    obtain ⟨⟨p, hp, hnone⟩, hrun⟩ | ⟨t', out', ends, outs, hrun, hall, hids, hdeliver⟩ :=
      h.probeEmitChunk (ps.take pretokenChunk) (by simp) out.clear
    · exact .inl ⟨⟨p, List.mem_of_mem_take hp, hnone⟩, by rw [hrun]; rfl⟩
    · simp only [hrun, Option.bind_eq_bind, Option.bind_some]
      rw [show deliver out'.ids 0 ends = outs from hdeliver]
      by_cases hshort : min pretokenChunk ps.length < pretokenChunk
      · rw [List.take_of_length_le (by omega)] at hall
        exact .inr (.inl ⟨t', outs, by rw [if_pos hshort], hall⟩)
      · exact .inr (.inr ⟨t', out', outs, by rw [if_neg hshort], hall, by omega⟩)

/-- A turn of `memoized_encode_flat` appends a chunk. -/
lemma Sound.memoizedEncodeFlatStep (h : Sound hash coldDiet stage t) (ps : List (List UInt8))
    (out : OutVec) :
    ((∃ p ∈ ps, t.uncachedEncode p = none) ∧ memoizedEncodeFlatStep hash (t, ps, out) = none) ∨
      (∃ t' out' outs, memoizedEncodeFlatStep hash (t, ps, out) = some (.inr (t', out')) ∧
        EmitsAll hash coldDiet t ps outs t' ∧ out'.ids = out.ids ++ outs.flatten) ∨
      ∃ t' out' outs, memoizedEncodeFlatStep hash (t, ps, out) =
          some (.inl (t', ps.drop pretokenChunk, out')) ∧
        EmitsAll hash coldDiet t (ps.take pretokenChunk) outs t' ∧ pretokenChunk ≤ ps.length ∧
          out'.ids = out.ids ++ outs.flatten := by
  simp only [Tokenizer.memoizedEncodeFlatStep, fillSpansKeyed, List.length_map, List.length_take]
  by_cases hzero : min pretokenChunk ps.length = 0
  · have hps : ps = [] := by
      rw [← List.length_eq_zero_iff]
      simp only [pretokenChunk] at hzero
      omega
    subst hps
    exact .inr (.inl ⟨t, out, [], by simp, .nil h, by simp⟩)
  · simp only [if_neg hzero]
    obtain ⟨⟨p, hp, hnone⟩, hrun⟩ | ⟨t', out', ends, outs, hrun, hall, hids, -⟩ :=
      h.probeEmitChunk (ps.take pretokenChunk) (by simp) out
    · exact .inl ⟨⟨p, List.mem_of_mem_take hp, hnone⟩, by rw [hrun]; rfl⟩
    · simp only [hrun, Option.bind_eq_bind, Option.bind_some]
      by_cases hshort : min pretokenChunk ps.length < pretokenChunk
      · rw [List.take_of_length_le (by omega)] at hall
        exact .inr (.inl ⟨t', out', outs, by rw [if_pos hshort], hall, hids⟩)
      · exact .inr (.inr ⟨t', out', outs, by rw [if_neg hshort], hall, by omega, hids⟩)

/-- A run of `memoized_encode` delivers uncached encodings. -/
theorem Sound.memoizedEncode (h : Sound hash coldDiet stage t) {ps : List (List UInt8)}
    {outs : List (List TokenId)} (hrun : t.memoizedEncode hash ps = some (t', outs)) :
    EmitsAll hash coldDiet t ps outs t' := by
  refine loop_sound (I := fun s => ∃ done, ps = done ++ s.2.1 ∧
      EmitsAll hash coldDiet t done s.2.2.2 s.1)
    (Q := fun r => EmitsAll hash coldDiet t ps r.2 r.1) ?_ ⟨[], rfl, .nil h⟩ hrun
  rintro ⟨t₁, ps₁, out, delivered⟩ ⟨done, rfl, hdone⟩
  obtain ⟨-, hstep⟩ | ⟨t₂, outs, hstep, hall⟩ | ⟨t₂, out', outs, hstep, hall, -⟩ :=
    hdone.sound.memoizedEncodeStep ps₁ out delivered
  · simp [hstep]
  · simp only [hstep, Option.some.injEq, Sum.inr.injEq, forall_eq', reduceCtorEq, false_imp_iff,
      implies_true, true_and]
    exact hdone.append hall
  · simp only [hstep, Option.some.injEq, Sum.inl.injEq, forall_eq', reduceCtorEq, false_imp_iff,
      implies_true, and_true]
    exact ⟨done ++ ps₁.take pretokenChunk, by simp, hdone.append hall⟩

/-- A run of `memoized_encode_flat` appends uncached encodings. -/
theorem Sound.memoizedEncodeFlat (h : Sound hash coldDiet stage t) {ps : List (List UInt8)}
    {out' : OutVec} (hrun : t.memoizedEncodeFlat hash ps out = some (t', out')) :
    ∃ outs, EmitsAll hash coldDiet t ps outs t' ∧ out'.ids = out.ids ++ outs.flatten := by
  refine loop_sound (I := fun s => ∃ done outs, ps = done ++ s.2.1 ∧
      EmitsAll hash coldDiet t done outs s.1 ∧ s.2.2.ids = out.ids ++ outs.flatten)
    (Q := fun r => ∃ outs, EmitsAll hash coldDiet t ps outs r.1 ∧
      r.2.ids = out.ids ++ outs.flatten) ?_ ⟨[], [], rfl, .nil h, by simp⟩ hrun
  rintro ⟨t₁, ps₁, out₁⟩ ⟨done, outs, rfl, hdone, hout⟩
  obtain ⟨-, hstep⟩ | ⟨t₂, out₂, outs₂, hstep, hall, hout₂⟩ |
      ⟨t₂, out₂, outs₂, hstep, hall, -, hout₂⟩ :=
    hdone.sound.memoizedEncodeFlatStep ps₁ out₁
  · simp [hstep]
  · simp only [hstep, Option.some.injEq, Sum.inr.injEq, forall_eq', reduceCtorEq, false_imp_iff,
      implies_true, true_and]
    exact ⟨outs ++ outs₂, hdone.append hall, by rw [hout₂, hout]; simp⟩
  · simp only [hstep, Option.some.injEq, Sum.inl.injEq, forall_eq', reduceCtorEq, false_imp_iff,
      implies_true, and_true]
    exact ⟨done ++ ps₁.take pretokenChunk, outs ++ outs₂, by simp, hdone.append hall,
      by rw [hout₂, hout]; simp⟩

/-- Both loops return if the symbols of every pretoken can be computed. -/
theorem Sound.isSome_memoizedEncode (h : Sound hash coldDiet stage t) {ps : List (List UInt8)}
    (hps : ∀ p ∈ ps, t.uncachedEncode p ≠ none) :
    (t.memoizedEncode hash ps).isSome ∧ ∀ out, (t.memoizedEncodeFlat hash ps out).isSome := by
  have hsome : ∀ {α : Type} {x : Option α}, (∃ r, x = some r ∧ True) → x.isSome := by
    rintro α _ ⟨r, rfl, -⟩
    rfl
  refine ⟨hsome ?_, fun out => hsome ?_⟩
  · refine loop_eq_some (I := fun m s => m = s.2.1.length ∧ Sound hash coldDiet .encoded s.1 ∧
      Later t s.1 ∧ ∀ p ∈ s.2.1, t.uncachedEncode p ≠ none) ?_ ⟨rfl, h.encoded, .rfl, hps⟩
      (Nat.lt_succ_self _)
    rintro m ⟨t₁, ps₁, out, delivered⟩ ⟨rfl, h₁, hlater, hps₁⟩
    obtain ⟨⟨p, hp, hnone⟩, -⟩ | ⟨t₂, outs, hstep, -⟩ | ⟨t₂, out', outs, hstep, hall, hle⟩ :=
      h₁.memoizedEncodeStep ps₁ out delivered
    · exact absurd ((hlater.encode p).symm.trans hnone) (hps₁ p hp)
    · exact .inr ⟨_, hstep, trivial⟩
    · refine .inl ⟨_, hstep, _, ?_, rfl, hall.sound, hlater.trans hall.later, fun p hp =>
        hps₁ p (List.mem_of_mem_drop hp)⟩
      simp only [List.length_drop, pretokenChunk] at *
      omega
  · refine loop_eq_some (I := fun m s => m = s.2.1.length ∧ Sound hash coldDiet .encoded s.1 ∧
      Later t s.1 ∧ ∀ p ∈ s.2.1, t.uncachedEncode p ≠ none) ?_ ⟨rfl, h.encoded, .rfl, hps⟩
      (Nat.lt_succ_self _)
    rintro m ⟨t₁, ps₁, out₁⟩ ⟨rfl, h₁, hlater, hps₁⟩
    obtain ⟨⟨p, hp, hnone⟩, -⟩ | ⟨t₂, out₂, outs, hstep, -⟩ |
        ⟨t₂, out₂, outs, hstep, hall, hle, -⟩ :=
      h₁.memoizedEncodeFlatStep ps₁ out₁
    · exact absurd ((hlater.encode p).symm.trans hnone) (hps₁ p hp)
    · exact .inr ⟨_, hstep, trivial⟩
    · refine .inl ⟨_, hstep, _, ?_, rfl, hall.sound, hlater.trans hall.later, fun p hp =>
        hps₁ p (List.mem_of_mem_drop hp)⟩
      simp only [List.length_drop, pretokenChunk] at *
      omega

/-! ### All runs -/

/-- The tokenizers that the loaders build, that `fork` returns, and that are left by any
sequence of encode calls. -/
inductive Reached (hash : ℕ → ℕ) (coldDiet : Bool) : Stage → Tokenizer → Prop
  | fromTables {tables vocab t} (h : fromTables hash coldDiet tables vocab = some t) :
      Reached hash coldDiet .built t
  | fromPairRankTable {tables vocab t} (h : fromPairRankTable tables vocab = some t) :
      Reached hash coldDiet .built t
  | setIgnoreMerges {t t' flag} (ht : Reached hash coldDiet .built t)
      (h : t.setIgnoreMerges hash coldDiet flag = some t') : Reached hash coldDiet .built t'
  | setAddedTokens {stage t t' addedTokens} (ht : Reached hash coldDiet stage t)
      (h : t.setAddedTokens hash addedTokens = some t') : Reached hash coldDiet stage.load t'
  | addSpecialTokens {stage t t' tokens} (ht : Reached hash coldDiet stage t)
      (hstage : stage ≠ .encoded) (hid : ∀ p ∈ tokens, p.2 < 2 ^ 32)
      (h : t.addSpecialTokens hash tokens = some t') : Reached hash coldDiet .loaded t'
  | forkSized {stage t t' cacheSlots} (ht : Reached hash coldDiet stage t)
      (h : t.forkSized hash coldDiet cacheSlots = some t') : Reached hash coldDiet .loaded t'
  | memoizedEncode {stage t t' pretokens outs} (ht : Reached hash coldDiet stage t)
      (h : t.memoizedEncode hash pretokens = some (t', outs)) : Reached hash coldDiet .encoded t'
  | memoizedEncodeFlat {stage t t' pretokens out out'} (ht : Reached hash coldDiet stage t)
      (h : t.memoizedEncodeFlat hash pretokens out = some (t', out')) :
      Reached hash coldDiet .encoded t'

/-- The invariant holds in every run. -/
theorem Reached.sound (h : Reached hash coldDiet stage t) : Sound hash coldDiet stage t := by
  induction h with
  | fromTables h =>
      obtain ⟨_, hrun, hsound⟩ := sound_fromTables hash coldDiet _ _
      cases h.symm.trans hrun
      exact hsound
  | fromPairRankTable h =>
      obtain ⟨_, hrun, hsound⟩ := sound_fromPairRankTable hash coldDiet _ _
      cases h.symm.trans hrun
      exact hsound
  | setIgnoreMerges _ h ih =>
      obtain ⟨_, hrun, hsound⟩ := ih.setIgnoreMerges _
      cases h.symm.trans hrun
      exact hsound
  | setAddedTokens _ h ih =>
      obtain ⟨_, hrun, hsound⟩ := ih.setAddedTokens _
      cases h.symm.trans hrun
      exact hsound
  | addSpecialTokens _ hstage hid h ih =>
      obtain ⟨_, hrun, hsound⟩ := ih.addSpecialTokens hstage hid
      cases h.symm.trans hrun
      exact hsound
  | forkSized _ h ih =>
      obtain ⟨_, hrun, hsound⟩ := ih.forkSized _
      cases h.symm.trans hrun
      exact hsound
  | memoizedEncode _ h ih => exact (ih.memoizedEncode h).sound
  | memoizedEncodeFlat _ h ih =>
      obtain ⟨_, hall, -⟩ := ih.memoizedEncodeFlat h
      exact hall.sound

/-- Caches do not change what is encoded. In every tokenizer that a run reaches, an
encode call emits for each pretoken what the tokenizer computes for it without caches, as
long as the arena holds fewer than `2^32` tokens; and it returns if the uncached
encoding does. -/
theorem memoizedEncode_eq_uncached (hash : ℕ → ℕ) (coldDiet : Bool) (stage : Stage)
    (t : Tokenizer) (h : Reached hash coldDiet stage t) (pretokens : List (List UInt8)) :
    (∀ t' outs, t.memoizedEncode hash pretokens = some (t', outs) →
        t'.tokenArena.length < 2 ^ 32 → outs.map some = pretokens.map t.uncachedEncode) ∧
      (∀ out t' out', t.memoizedEncodeFlat hash pretokens out = some (t', out') →
        t'.tokenArena.length < 2 ^ 32 → ∃ outs : List (List TokenId),
          outs.map some = pretokens.map t.uncachedEncode ∧ out'.ids = out.ids ++ outs.flatten) ∧
      ((∀ p ∈ pretokens, t.uncachedEncode p ≠ none) →
        (t.memoizedEncode hash pretokens).isSome ∧
          ∀ out, (t.memoizedEncodeFlat hash pretokens out).isSome) := by
  refine ⟨fun t' outs hrun => (h.sound.memoizedEncode hrun).outs_eq, fun out t' out' hrun hlt => ?_,
    fun hps => h.sound.isSome_memoizedEncode hps⟩
  obtain ⟨outs, hall, hout⟩ := h.sound.memoizedEncodeFlat hrun
  exact ⟨outs, hall.outs_eq hlt, hout⟩

/-- `pretoken_key_hash_fold`. -/
def pretokenKeyHashFold (key : ℕ) : ℕ :=
  let lo := key % 2 ^ 64
  let hi := key >>> 64 % 2 ^ 64
  let h := (lo ^^^ (hi >>> 25 ||| hi <<< 39 % 2 ^ 64)) * 0x9E3779B97F4A7C15 % 2 ^ 64
  h ^^^ h >>> 32

/-- The merge of `a b` to 256. -/
def abTables : MergeTables where
  merges := AList.insert (97, 98) 256 ∅
  pairRanks := none
  rankedMerges := none
  byteRemapping := none
  merges_lt p c hc := by
    obtain rfl | hne := eq_or_ne p (97, 98)
    · rw [AList.lookup_insert, Option.mem_some_iff] at hc
      exact hc ▸ by decide
    · rw [AList.lookup_insert_ne hne] at hc
      simp at hc
  pairRanks_lt := by simp
  ranked_lt := by simp

/-- `memoizedEncode_eq_uncached` for two pretokens, the second of which comes twice. -/
theorem memoizedEncode_abTables : ∃ t t' outs,
    fromTables pretokenKeyHashFold true abTables [[97], [98], [97, 98]] = some t ∧
      t.memoizedEncode pretokenKeyHashFold [[97, 98], [97, 98, 97], [97, 98, 97]] =
        some (t', outs) ∧ outs = [[256], [256, 97], [256, 97]] := by
  obtain ⟨t, ht, hsound⟩ :=
    sound_fromTables pretokenKeyHashFold true abTables [[97], [98], [97, 98]]
  obtain ⟨s, hs, rfl⟩ := by simpa [fromTables, Option.bind_eq_some_iff] using ht
  have harena : s.tokenArena = [] := by
    obtain ⟨cache, -, rfl⟩ := by simpa [seededPretokenCache, Option.bind_eq_some_iff] using hs
    rfl
  set t : Tokenizer := ⟨s, abTables, [[97], [98], [97, 98]], invertVocab [[97], [98], [97, 98]], ∅,
    [], false⟩ with htdef
  have hab : t.uncachedEncode [97, 98] = some [256] := rfl
  have haba : t.uncachedEncode [97, 98, 97] = some [256, 97] := rfl
  obtain ⟨hids, -, hsome⟩ := memoizedEncode_eq_uncached pretokenKeyHashFold true .built t
    (.fromTables ht) [[97, 98], [97, 98, 97], [97, 98, 97]]
  obtain ⟨⟨t', outs⟩, hrun⟩ := Option.isSome_iff_exists.mp (hsome (by simp [hab, haba])).1
  refine ⟨t, t', outs, ht, hrun, ?_⟩
  have hle := (hsound.memoizedEncode hrun).arena_le
  simp only [List.map_cons, List.map_nil, tokenCount, hab, haba, Option.getD_some, List.length_cons,
    List.length_nil, List.sum_cons, List.sum_nil] at hle
  have hlen : t'.tokenArena.length < 2 ^ 32 := by
    rw [htdef, harena, List.length_nil] at hle
    omega
  have hmap := hids t' outs hrun hlen
  simpa [hab, haba, List.map_eq_cons_iff] using hmap

end Tokenizer

end Hypertok
