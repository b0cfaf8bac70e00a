import Hypertok.Cache.Encode
import Hypertok.Machine.PagedMemory
import Mathlib.Data.List.TakeWhile

/-!
The records of pretoken spans, as the fill loops write them.

* `packKey`: `pack_pretoken_key` with its load of 16 bytes, which may go on behind the span.
* `pretokenKeyHash`, `fillSpanHash`: the hashes, by the processor.
* `fillSpansKeyedWith`, `fillSpansKeyedWithBuf`, `fillSpansTwoPhase`: the fill loops.
* `spanEntry`: the record of a span, from its bytes alone.
* `fillSpans_eq`: every loop writes these records, and no load is out of bounds.
-/

namespace Hypertok

open Machine Tokenizer

/-! ### Keys -/

/-- `pack_mask_halves`. -/
def packMaskHalves (n : ℕ) : ℕ × ℕ :=
  let s := n * 8
  (if n < 8 then (2 ^ 64 - 1) >>> ((64 + 2 ^ 32 - s) % 2 ^ 32 &&& 63) else 2 ^ 64 - 1,
    if n > 8 then (2 ^ 64 - 1) >>> ((128 + 2 ^ 32 - s) % 2 ^ 32 &&& 63) else 0)

lemma packMaskHalves_eq {n : ℕ} (hpos : 1 ≤ n) (hle : n ≤ 15) :
    packMaskHalves n = (2 ^ (8 * min n 8) - 1, 2 ^ (8 * (n - 8)) - 1) := by
  interval_cases n <;> rfl

/-- Both halves of a word of 128 bits, masked. -/
lemma packMaskHalves_and (v : ℕ) {n : ℕ} (hpos : 1 ≤ n) (hle : n ≤ 15) :
    (v % 2 ^ 64 &&& (packMaskHalves n).1) |||
      (v >>> 64 % 2 ^ 64 &&& (packMaskHalves n).2) <<< 64 = v % 2 ^ (8 * n) := by
  rw [packMaskHalves_eq hpos hle, Nat.and_two_pow_sub_one_eq_mod, Nat.and_two_pow_sub_one_eq_mod,
    Nat.mod_mod_of_dvd _ (Nat.pow_dvd_pow 2 (by omega)),
    Nat.mod_mod_of_dvd _ (Nat.pow_dvd_pow 2 (by omega)), Nat.shiftRight_eq_div_pow]
  obtain hn | hn := le_or_gt n 8
  · rw [Nat.min_eq_left hn, Nat.sub_eq_zero_of_le hn, Nat.mul_zero, pow_zero, Nat.mod_one,
      Nat.zero_shiftLeft, Nat.or_zero]
  · have hsplit : 2 ^ (8 * n) = 2 ^ 64 * 2 ^ (8 * (n - 8)) := by
      rw [← pow_add]
      congr 1
      omega
    rw [Nat.min_eq_right hn.le, hsplit, Nat.mod_mul, Nat.or_comm,
      pack_eq (Nat.mod_lt v (Nat.two_pow_pos 64)), Nat.add_comm]

lemma fromLeBytes_append (p q : List UInt8) :
    fromLeBytes (p ++ q) = 2 ^ (8 * p.length) * fromLeBytes q + fromLeBytes p := by
  induction p with
  | nil => simp [fromLeBytes]
  | cons b p ih =>
      have hb := b.toNat_lt
      rw [List.cons_append, fromLeBytes, fromLeBytes, pack_eq (n := 8) hb, pack_eq (n := 8) hb, ih,
        List.length_cons, Nat.mul_succ, pow_add]
      ring

/-- The low lanes of a load are the bytes that it begins with. -/
lemma fromLeBytes_append_mod (p q : List UInt8) :
    fromLeBytes (p ++ q) % 2 ^ (8 * p.length) = fromLeBytes p := by
  rw [fromLeBytes_append, Nat.mul_add_mod, Nat.mod_eq_of_lt (fromLeBytes_lt p)]

variable {mem : PagedMemory 4096}

/-- The low lanes of a key: the span, of a load of 16 bytes that stays in its page. -/
def packLanes (span : Slice mem) : Option ℕ :=
  let n := span.bytes.length
  if span.ptr &&& 4095 ≤ 4096 - 16 then
    (mem.read span.ptr 16).map fun bytes =>
      let v := fromLeBytes bytes
      let masks := packMaskHalves n
      (v % 2 ^ 64 &&& masks.1) ||| (v >>> 64 % 2 ^ 64 &&& masks.2) <<< 64
  else some (fromLeBytes span.bytes)

/-- `pack_pretoken_key`, with its load. -/
def packKey (span : Slice mem) : Option (Option ℕ) :=
  let n := span.bytes.length
  if n > 15 then some none
  else if n = 0 then some (some 0)
  else (packLanes span).map fun low => some (low ||| n <<< 120)

lemma packLanes_eq {span : Slice mem} (h : Short span.bytes) :
    packLanes span = some (fromLeBytes span.bytes) := by
  obtain ⟨hpos, hle⟩ := h
  rw [packLanes]
  split_ifs with hpage
  · rw [show 4095 = 2 ^ 12 - 1 from rfl, Nat.and_two_pow_sub_one_eq_mod] at hpage
    obtain ⟨more, hread⟩ := span.read_page hpos (hle.trans (by omega : 15 ≤ 16)) (by omega)
    rw [hread, Option.map_some]
    dsimp only
    rw [packMaskHalves_and _ hpos hle, fromLeBytes_append_mod]
  · rfl

/-- The load does not fail, and what it finds behind the span is masked. -/
theorem packKey_eq (span : Slice mem) : packKey span = some (packPretokenKey span.bytes) := by
  rw [packKey, packPretokenKey]
  split_ifs with hlong hempty
  · rfl
  · rfl
  · rw [packLanes_eq ⟨by omega, by omega⟩, Option.map_some, Nat.or_comm]

/-! ### Hashes -/

/-- The processors that the hash depends on, with what they support. -/
inductive Target
  | x8664 (sse42 : Bool)
  | aarch64 (crc : Bool)
  | other

/-- `crc_hash_selected`. -/
def Target.crcHashSelected : Target → Bool
  | .x8664 sse42 => sse42
  | _ => false

/-- One bit of a reflected CRC. -/
def crcBit (poly c : ℕ) : ℕ := if c.testBit 0 then c >>> 1 ^^^ poly else c >>> 1

/-- `_mm_crc32_u64`, and `__crc32d`, each with its polynomial. -/
def crcWord (poly crc v : ℕ) : ℕ := (crcBit poly)^[64] (crc ^^^ v)

/-- `pretoken_key_hash_crc32c`. -/
def pretokenKeyHashCrc32c (key : ℕ) : ℕ :=
  crcWord 0x82F63B78 (crcWord 0x82F63B78 0 (key % 2 ^ 64)) (key >>> 64 % 2 ^ 64)

/-- `pretoken_key_hash`. -/
def pretokenKeyHash : Target → ℕ → ℕ
  | .aarch64 true, key => crcWord 0xEDB88320 (crcWord 0xEDB88320 0 (key % 2 ^ 64)) (key >>> 64 % 2 ^ 64)
  | .x8664 true, key => pretokenKeyHashCrc32c key
  | _, key => pretokenKeyHashFold key

/-- `fill_span_hash`. -/
def fillSpanHash (target : Target) (x86Crc : Bool) (key : ℕ) : ℕ :=
  match target with
  | .x8664 _ => if x86Crc then pretokenKeyHashCrc32c key else pretokenKeyHashFold key
  | _ => pretokenKeyHash target key

/-- The loops are instantiated for the hash of the process. -/
lemma fillSpanHash_crcHashSelected (target : Target) (key : ℕ) :
    fillSpanHash target target.crcHashSelected key = pretokenKeyHash target key := by
  match target with
  | .x8664 true => simp only [fillSpanHash, pretokenKeyHash, Target.crcHashSelected, if_true]
  | .x8664 false =>
      simp only [fillSpanHash, pretokenKeyHash, Target.crcHashSelected, Bool.false_eq_true, if_false]
  | .aarch64 _ | .other => simp only [fillSpanHash]

lemma crcBit_lt {poly c : ℕ} (hpoly : poly < 2 ^ 64) (hc : c < 2 ^ 64) : crcBit poly c < 2 ^ 64 := by
  have hshift : c >>> 1 < 2 ^ 64 := (Nat.shiftRight_le c 1).trans_lt hc
  rw [crcBit]
  split_ifs
  · exact Nat.xor_lt_two_pow hshift hpoly
  · exact hshift

lemma crcWord_lt {poly crc v : ℕ} (hpoly : poly < 2 ^ 64) (hcrc : crc < 2 ^ 64) (hv : v < 2 ^ 64) :
    crcWord poly crc v < 2 ^ 64 := by
  have hbits : ∀ n, (crcBit poly)^[n] (crc ^^^ v) < 2 ^ 64 := by
    intro n
    induction n with
    | zero => exact Nat.xor_lt_two_pow hcrc hv
    | succ n ih =>
        rw [Function.iterate_succ_apply']
        exact crcBit_lt hpoly ih
  exact hbits 64

lemma crcWord_crcWord_lt {poly : ℕ} (hpoly : poly < 2 ^ 64) (key : ℕ) :
    crcWord poly (crcWord poly 0 (key % 2 ^ 64)) (key >>> 64 % 2 ^ 64) < 2 ^ 64 :=
  crcWord_lt hpoly (crcWord_lt hpoly (by omega) (Nat.mod_lt _ (by omega))) (Nat.mod_lt _ (by omega))

lemma pretokenKeyHashFold_lt (key : ℕ) : pretokenKeyHashFold key < 2 ^ 64 := by
  have hmod : ∀ x, x % 2 ^ 64 < 2 ^ 64 := fun x => Nat.mod_lt x (by omega)
  exact Nat.xor_lt_two_pow (hmod _) ((Nat.shiftRight_le _ 32).trans_lt (hmod _))

/-- Hashes are words of 64 bits. -/
lemma pretokenKeyHash_lt (target : Target) (key : ℕ) : pretokenKeyHash target key < 2 ^ 64 := by
  match target with
  | .aarch64 true | .x8664 true => exact crcWord_crcWord_lt (by omega) key
  | .aarch64 false | .x8664 false | .other => exact pretokenKeyHashFold_lt key

/-! ### The fill loops -/

/-- `BatchEntry`, with its address. -/
structure SpanRecord where
  key : ℕ
  metaWord : ℕ
  ptr : ℕ

/-- `span_len`. -/
def SpanRecord.spanLen (e : SpanRecord) : ℕ := if e.key ≠ 0 then e.key >>> 120 else e.metaWord

/-- A loop that pulls spans and writes their records, as long as there is room. -/
def fillLoop {σ : Type} (record : σ → Option SpanRecord) :
    ℕ → List σ → Option (List SpanRecord × List σ)
  | 0, spans => some ([], spans)
  | _ + 1, [] => some ([], [])
  | room + 1, span :: spans => do
      let e ← record span
      let (entries, rest) ← fillLoop record room spans
      some (e :: entries, rest)

/-- One turn of `fill_spans_keyed_with`. -/
def keyedRecord (target : Target) (span : Slice mem) : Option SpanRecord := do
  let (key, h) := match ← packKey span with
    | some key => (key, pretokenKeyHash target key)
    | none => (0, 0)
  some { key, metaWord := if key ≠ 0 then h else span.bytes.length, ptr := span.ptr }

/-- `fill_spans_keyed_with`. -/
def fillSpansKeyedWith (target : Target) (spans : List (Slice mem)) :
    Option (List SpanRecord × List (Slice mem)) :=
  fillLoop (keyedRecord target) pretokenChunk spans

/-- A load of 16 bytes without a guard: `none` stands for one that leaves the buffer. -/
def load16 (buf : Slice mem) (start : ℕ) : Option ℕ :=
  if start + 16 ≤ buf.bytes.length then some (fromLeBytes ((buf.bytes.drop start).take 16))
  else none

/-- The key of one turn of `fill_spans_keyed_with_buf_impl`. -/
def bufKey (buf span : Slice mem) (start len : ℕ) : Option ℕ :=
  let tailLim := buf.bytes.length - 15
  if len > 15 ∨ start < tailLim then
    (load16 buf start).map fun v =>
      let m := min len 15
      let masks := packMaskHalves m
      let lo := v % 2 ^ 64 &&& masks.1
      let hi := (v >>> 64 % 2 ^ 64 &&& masks.2) ||| m <<< 56
      if len > 15 then 0 else lo ||| hi <<< 64
  else some (fromLeBytes span.bytes ||| len <<< 120)

/-- One turn of `fill_spans_keyed_with_buf_impl`. -/
def bufRecord (target : Target) (x86Crc : Bool) (buf : Slice mem) (range : ℕ × ℕ) :
    Option SpanRecord := do
  let (start, stop) := range
  let span ← buf.get? start stop
  let len := stop - start
  let key ← bufKey buf span start len
  let h := fillSpanHash target x86Crc key
  some { key, metaWord := if len > 15 then len else h, ptr := span.ptr }

/-- `fill_spans_keyed_with_buf`. -/
def fillSpansKeyedWithBuf (target : Target) (buf : Slice mem) (ranges : List (ℕ × ℕ)) :
    Option (List SpanRecord × List (ℕ × ℕ)) :=
  fillLoop (bufRecord target target.crcHashSelected buf) pretokenChunk ranges

/-- `PACK_MASK_TABLE`. -/
def packMaskTable : List (ℕ × ℕ) := (0, 0) :: (List.range' 1 15).map packMaskHalves

/-- One turn of phase B without a branch. -/
def flatRecord (target : Target) (x86Crc : Bool) (buf : Slice mem) (fillBase prev stop : ℕ) :
    Option SpanRecord := do
  let tokLen := stop - prev
  let raw ← load16 buf (fillBase + prev)
  let m := min tokLen 15
  let masks ← packMaskTable[m]?
  let keep := (2 ^ 64 - (decide (tokLen ≤ 15)).toNat) % 2 ^ 64
  let klo := raw % 2 ^ 64 &&& masks.1 &&& keep
  let khi := ((raw >>> 64 % 2 ^ 64 &&& masks.2) ||| m <<< 56) &&& keep
  let key := klo ||| khi <<< 64
  let hv := fillSpanHash target x86Crc key
  some {
    key
    metaWord := (hv &&& keep) ||| (tokLen &&& (2 ^ 64 - 1 - keep))
    ptr := buf.ptr + fillBase + prev }

/-- One turn of phase B near the end of the input, and a span that is too long for phase A. -/
def carefulRecord (target : Target) (x86Crc : Bool) (buf : Slice mem) (fillBase prev stop : ℕ) :
    Option SpanRecord := do
  let span ← buf.get? (fillBase + prev) (fillBase + stop)
  let (key, hv) := match ← packKey span with
    | some key => (key, fillSpanHash target x86Crc key)
    | none => (0, 0)
  some { key, metaWord := if key ≠ 0 then hv else stop - prev, ptr := span.ptr }

/-- The loops of phase B, over boundaries that are relative to the base of the fill. -/
def emitLoop (record : ℕ → ℕ → Option SpanRecord) :
    ℕ → List UInt16 → Option (List SpanRecord × ℕ)
  | prev, [] => some ([], prev)
  | prev, stop :: bounds => do
      let e ← record prev stop.toNat
      let (entries, last) ← emitLoop record stop.toNat bounds
      some (e :: entries, last)

/-- Phase B. -/
def emit (target : Target) (x86Crc : Bool) (buf : Slice mem) (fillBase : ℕ) (bounds : List UInt16) :
    Option (List SpanRecord × ℕ) :=
  let lastEnd := (bounds.getLastD 0).toNat
  if fillBase + lastEnd + 16 ≤ buf.bytes.length then
    emitLoop (flatRecord target x86Crc buf fillBase) 0 bounds
  else emitLoop (carefulRecord target x86Crc buf fillBase) 0 bounds

/-- What phase A leaves in its buffer: the ends of some spans in front, all of which fit into the
window of 16 bits. -/
def boundaries (count fillBase : ℕ) (ends : List ℕ) : List UInt16 :=
  ((ends.takeWhile fun stop => stop - fillBase ≤ 0xFFFF).take count).map fun stop =>
    UInt16.ofNat (stop - fillBase)

/-- The loop of `fill_spans_two_phase_impl` with room for `needed` records, where phase A harvests
`harvest` boundaries in each turn. The input is at its end when no ends are left. -/
def refill (target : Target) (x86Crc : Bool) (buf : Slice mem) (harvest : ℕ → List ℕ → ℕ) :
    ℕ → ℕ → ℕ → List ℕ → Option (List SpanRecord × List ℕ)
  | 0, _, _, _ => none
  | fuel + 1, needed, pending, ends =>
      match ends with
      | [] => some ([], [])
      | stop :: later =>
          let bounds := boundaries (harvest needed ends) pending ends
          if needed = 0 then some ([], ends)
          else if bounds = [] then do
            let e ← carefulRecord target x86Crc buf pending 0 (stop - pending)
            let (entries, rest) ← refill target x86Crc buf harvest fuel (needed - 1) stop later
            some (e :: entries, rest)
          else do
            let emitN := min bounds.length needed
            let (emitted, prev) ← emit target x86Crc buf pending (bounds.take emitN)
            let (entries, rest) ←
              refill target x86Crc buf harvest fuel (needed - emitN) (pending + prev) (ends.drop emitN)
            some (emitted ++ entries, rest)

/-- `fill_spans_two_phase`, from `pending`. -/
def fillSpansTwoPhase (target : Target) (buf : Slice mem) (harvest : ℕ → List ℕ → ℕ)
    (pending : ℕ) (ends : List ℕ) : Option (List SpanRecord × List ℕ) :=
  refill target target.crcHashSelected buf harvest (pretokenChunk + 1) pretokenChunk pending ends

/-! ### One record -/

variable {target : Target} {hash : ℕ → ℕ} {ptr : ℕ} {bytes : List UInt8} {buf : Slice mem}

/-- The record of a span: its key and its hash, or its length. -/
def spanEntry (hash : ℕ → ℕ) (ptr : ℕ) (bytes : List UInt8) : SpanRecord :=
  let e := batchEntry hash bytes
  { key := e.key, metaWord := e.metaWord, ptr }

lemma spanEntry_of_short (h : Short bytes) :
    spanEntry hash ptr bytes = ⟨bytes.length <<< 120 ||| fromLeBytes bytes,
      hash (bytes.length <<< 120 ||| fromLeBytes bytes), ptr⟩ := by
  rw [spanEntry, (batchEntry_of_short hash h (packPretokenKey_of_short h)).1]

lemma spanEntry_of_long (h : 15 < bytes.length) :
    spanEntry hash ptr bytes = ⟨0, bytes.length, ptr⟩ := by
  rw [spanEntry, (batchEntry_of_long hash fun hs => absurd hs.2 (Nat.not_le.mpr h)).1]

lemma spanLen_spanEntry (hash : ℕ → ℕ) (ptr : ℕ) (hpos : 0 < bytes.length) :
    (spanEntry hash ptr bytes).spanLen = bytes.length := by
  obtain hle | hlong := le_or_gt bytes.length 15
  · have hshort : Short bytes := ⟨hpos, hle⟩
    rw [spanEntry_of_short hshort, SpanRecord.spanLen, if_pos (packPretokenKey_ne_zero hshort),
      packPretokenKey_shiftRight hshort]
  · rw [spanEntry_of_long hlong]
    rfl

lemma keyedRecord_eq (target : Target) (span : Slice mem) :
    keyedRecord target span = some (spanEntry (pretokenKeyHash target) span.ptr span.bytes) := by
  rw [keyedRecord, packKey_eq]
  cases hkey : packPretokenKey span.bytes with
  | none => simp [spanEntry, batchEntry, hkey]
  | some key => simp [spanEntry, batchEntry, hkey]

/-- The bytes of a range. -/
def rangeBytes (buf : Slice mem) (start stop : ℕ) : List UInt8 :=
  (buf.bytes.drop start).take (stop - start)

lemma length_rangeBytes (start : ℕ) {stop : ℕ} (hstop : stop ≤ buf.bytes.length) :
    (rangeBytes buf start stop).length = stop - start := by
  rw [rangeBytes, List.length_take, List.length_drop]
  omega

/-- The lanes of a load that belong to the range. -/
lemma load16_eq (buf : Slice mem) {start : ℕ} (h : start + 16 ≤ buf.bytes.length) : ∃ v, load16 buf start = some v ∧
    ∀ stop, start ≤ stop → stop ≤ start + 15 →
      v % 2 ^ (8 * (stop - start)) = fromLeBytes (rangeBytes buf start stop) := by
  refine ⟨_, if_pos h, fun stop hle hstop => ?_⟩
  set n := stop - start with hn
  have hsplit : (buf.bytes.drop start).take 16 =
      rangeBytes buf start stop ++ ((buf.bytes.drop start).take 16).drop n := by
    have htake : ((buf.bytes.drop start).take 16).take n = (buf.bytes.drop start).take n := by
      rw [List.take_take, Nat.min_eq_left (by omega)]
    rw [rangeBytes, ← hn, ← htake, List.take_append_drop]
  have hlen : (rangeBytes buf start stop).length = n := length_rangeBytes start (by omega)
  rw [hsplit, ← hlen, fromLeBytes_append_mod]

/-- The halves of a key, with the length in the high one. -/
lemma maskedKey_eq (v : ℕ) {n : ℕ} (hpos : 1 ≤ n) (hle : n ≤ 15) :
    (v % 2 ^ 64 &&& (packMaskHalves n).1) |||
      ((v >>> 64 % 2 ^ 64 &&& (packMaskHalves n).2) ||| n <<< 56) <<< 64 =
        n <<< 120 ||| v % 2 ^ (8 * n) := by
  rw [Nat.shiftLeft_or_distrib, ← Nat.shiftLeft_add, ← Nat.or_assoc, packMaskHalves_and v hpos hle,
    Nat.or_comm]

section

variable {start stop : ℕ} (hlt : start < stop) (hstop : stop ≤ buf.bytes.length)
include hlt hstop

lemma spanEntry_rangeBytes (hshort : stop - start ≤ 15) :
    spanEntry hash ptr (rangeBytes buf start stop) =
      ⟨(stop - start) <<< 120 ||| fromLeBytes (rangeBytes buf start stop),
        hash ((stop - start) <<< 120 ||| fromLeBytes (rangeBytes buf start stop)), ptr⟩ := by
  have hlen := length_rangeBytes start hstop
  rw [spanEntry_of_short ⟨by omega, by omega⟩, hlen]

lemma bufKey_eq (hash : ℕ → ℕ) (ptr : ℕ) {span : Slice mem} (hspan : span.bytes = rangeBytes buf start stop) :
    bufKey buf span start (stop - start) =
      some (spanEntry hash ptr (rangeBytes buf start stop)).key := by
  have hlen := length_rangeBytes start hstop
  rw [bufKey]
  obtain hshort | hlong := le_or_gt (stop - start) 15
  · rw [spanEntry_rangeBytes hlt hstop hshort, Nat.min_eq_left hshort]
    simp only [Nat.not_lt.mpr hshort, false_or, if_false]
    split_ifs with hload
    · obtain ⟨v, hv, hmod⟩ := load16_eq buf (show start + 16 ≤ buf.bytes.length by omega)
      rw [hv, Option.map_some, maskedKey_eq v (by omega) hshort, hmod stop hlt.le (by omega)]
    · rw [hspan, Nat.or_comm]
  · rw [spanEntry_of_long (by omega), if_pos (.inl hlong)]
    obtain ⟨v, hv, -⟩ := load16_eq buf (show start + 16 ≤ buf.bytes.length by omega)
    rw [hv, Option.map_some]
    simp only [if_pos hlong]

lemma bufRecord_eq : bufRecord target target.crcHashSelected buf (start, stop) =
    some (spanEntry (pretokenKeyHash target) (buf.ptr + start) (rangeBytes buf start stop)) := by
  have hlen := length_rangeBytes start hstop
  obtain ⟨span, hspan, hptr, hbytes⟩ := Slice.get?_eq (s := buf) hlt.le hstop
  rw [bufRecord]
  simp only [hspan, Option.bind_eq_bind, Option.bind_some]
  rw [bufKey_eq hlt hstop (pretokenKeyHash target) (buf.ptr + start) hbytes,
    Option.bind_some, fillSpanHash_crcHashSelected, hptr]
  obtain hshort | hlong := le_or_gt (stop - start) 15
  · rw [spanEntry_rangeBytes hlt hstop hshort, if_neg (Nat.not_lt.mpr hshort)]
  · rw [spanEntry_of_long (by omega), if_pos hlong, hlen]

end

lemma getElem?_packMaskTable {n : ℕ} (hpos : 1 ≤ n) (hle : n ≤ 15) :
    packMaskTable[n]? = some (packMaskHalves n) := by
  interval_cases n <;> rfl

/-- `keep` keeps a word, or nothing of it. -/
lemma and_keep {x : ℕ} (hx : x < 2 ^ 64) : x &&& (2 ^ 64 - 1) = x := by
  rw [Nat.and_two_pow_sub_one_eq_mod, Nat.mod_eq_of_lt hx]

section

variable {fillBase prev stop : ℕ} (hlt : prev < stop)
include hlt

lemma flatRecord_eq (hstop : stop < 2 ^ 16) (hload : fillBase + stop + 16 ≤ buf.bytes.length) :
    flatRecord target target.crcHashSelected buf fillBase prev stop =
      some (spanEntry (pretokenKeyHash target) (buf.ptr + (fillBase + prev))
        (rangeBytes buf (fillBase + prev) (fillBase + stop))) := by
  have hlen := length_rangeBytes (fillBase + prev) (show fillBase + stop ≤ buf.bytes.length by omega)
  have hsub : fillBase + stop - (fillBase + prev) = stop - prev := Nat.add_sub_add_left _ _ _
  obtain ⟨v, hv, hmod⟩ := load16_eq buf (show fillBase + prev + 16 ≤ buf.bytes.length by omega)
  have hpos : 1 ≤ min (stop - prev) 15 := by omega
  rw [flatRecord]
  simp only [hv, getElem?_packMaskTable hpos (Nat.min_le_right _ _), Option.bind_eq_bind,
    Option.bind_some, fillSpanHash_crcHashSelected, Nat.add_assoc]
  obtain hshort | hlong := le_or_gt (stop - prev) 15
  · have hkeep : (2 ^ 64 - (decide (stop - prev ≤ 15)).toNat) % 2 ^ 64 = 2 ^ 64 - 1 := by
      rw [decide_eq_true hshort]
      rfl
    have hword : ∀ x y, x % 2 ^ 64 &&& y < 2 ^ 64 := fun x y =>
      Nat.and_le_left.trans_lt (Nat.mod_lt x (by omega))
    have hlength : (stop - prev) <<< 56 < 2 ^ 64 := by
      rw [Nat.shiftLeft_eq]
      omega
    have hv' := hmod (fillBase + stop) (by omega) (by omega)
    rw [hsub] at hv'
    rw [hkeep, Nat.min_eq_left hshort, and_keep (hword _ _),
      and_keep (Nat.or_lt_two_pow (hword _ _) hlength), maskedKey_eq v (by omega) hshort, hv',
      and_keep (pretokenKeyHash_lt target _), Nat.sub_self, Nat.and_zero, Nat.or_zero,
      spanEntry_rangeBytes (by omega) (by omega) (by omega), hsub]
  · have hkeep : (2 ^ 64 - (decide (stop - prev ≤ 15)).toNat) % 2 ^ 64 = 0 := by
      rw [decide_eq_false (Nat.not_le.mpr hlong)]
      rfl
    rw [hkeep, Nat.and_zero, Nat.and_zero, Nat.and_zero, Nat.zero_shiftLeft, Nat.or_zero,
      Nat.zero_or, Nat.sub_zero, and_keep (by omega), spanEntry_of_long (by omega), hlen, hsub]

lemma carefulRecord_eq (hstop : fillBase + stop ≤ buf.bytes.length) :
    carefulRecord target target.crcHashSelected buf fillBase prev stop =
      some (spanEntry (pretokenKeyHash target) (buf.ptr + (fillBase + prev))
        (rangeBytes buf (fillBase + prev) (fillBase + stop))) := by
  obtain ⟨span, hspan, hptr, hbytes⟩ :=
    Slice.get?_eq (s := buf) (show fillBase + prev ≤ fillBase + stop by omega) hstop
  have hlen := length_rangeBytes (fillBase + prev) hstop
  rw [Nat.add_sub_add_left] at hlen
  rw [carefulRecord, hspan, Option.bind_eq_bind, Option.bind_some, packKey_eq, hbytes, hptr]
  rw [← rangeBytes]
  cases hkey : packPretokenKey (rangeBytes buf (fillBase + prev) (fillBase + stop)) with
  | none => simp [spanEntry, batchEntry, hkey, hlen]
  | some key => simp [spanEntry, batchEntry, hkey, hlen, fillSpanHash_crcHashSelected]

end

/-! ### The loops -/

/-- Adjacent ranges, from their ends. -/
def rangesOf : ℕ → List ℕ → List (ℕ × ℕ)
  | _, [] => []
  | pos, stop :: ends => (pos, stop) :: rangesOf stop ends

/-- The ends of adjacent ranges from `pos`, none of them empty, up to `lim`. -/
def EndsFrom (lim : ℕ) : ℕ → List ℕ → Prop
  | _, [] => True
  | pos, stop :: ends => pos < stop ∧ stop ≤ lim ∧ EndsFrom lim stop ends

variable {lim pos : ℕ} {ends ends' : List ℕ}

lemma rangesOf_append :
    rangesOf pos (ends ++ ends') = rangesOf pos ends ++ rangesOf (ends.getLastD pos) ends' := by
  induction ends generalizing pos with
  | nil => rfl
  | cons stop ends ih =>
      rw [List.cons_append, rangesOf, rangesOf, ih, List.getLastD_cons, List.cons_append]

lemma length_rangesOf : (rangesOf pos ends).length = ends.length := by
  induction ends generalizing pos with
  | nil => rfl
  | cons stop ends ih => rw [rangesOf, List.length_cons, List.length_cons, ih]

/-- The ranges in front, `k` of them first. -/
lemma take_rangesOf {k n : ℕ} (hle : k ≤ n) (hlen : (ends.take k).length = k) :
    (rangesOf pos ends).take n = rangesOf pos (ends.take k) ++
      (rangesOf ((ends.take k).getLastD pos) (ends.drop k)).take (n - k) := by
  conv_lhs => rw [← List.take_append_drop k ends, rangesOf_append, List.take_append]
  rw [length_rangesOf, hlen, List.take_of_length_le (by rwa [length_rangesOf, hlen])]

lemma endsFrom_append : EndsFrom lim pos (ends ++ ends') ↔
    EndsFrom lim pos ends ∧ EndsFrom lim (ends.getLastD pos) ends' := by
  induction ends generalizing pos with
  | nil => exact (iff_of_eq (true_and _)).symm
  | cons stop ends ih =>
      rw [List.cons_append, EndsFrom, EndsFrom, ih, List.getLastD_cons, and_assoc, and_assoc]

lemma EndsFrom.le_getLastD (h : EndsFrom lim pos ends) : pos ≤ ends.getLastD pos := by
  induction ends generalizing pos with
  | nil => exact le_rfl
  | cons stop ends ih =>
      rw [List.getLastD_cons]
      exact h.1.le.trans (ih h.2.2)

/-- The last end bounds all of them. -/
lemma EndsFrom.last (h : EndsFrom lim pos ends) : EndsFrom (ends.getLastD pos) pos ends := by
  induction ends generalizing pos with
  | nil => trivial
  | cons stop ends ih =>
      rw [List.getLastD_cons]
      exact ⟨h.1, h.2.2.le_getLastD, ih h.2.2⟩

lemma EndsFrom.of_mem (h : EndsFrom lim pos ends) {r : ℕ × ℕ} (hr : r ∈ rangesOf pos ends) :
    r.1 < r.2 ∧ r.2 ≤ lim := by
  induction ends generalizing pos with
  | nil => cases hr
  | cons stop ends ih =>
      obtain rfl | hr := List.mem_cons.mp hr
      · exact ⟨h.1, h.2.1⟩
      · exact ih h.2.2 hr

/-- What a loop writes whose turns succeed. -/
lemma fillLoop_eq {σ : Type} {record : σ → Option SpanRecord} {f : σ → SpanRecord} {spans : List σ}
    (h : ∀ span ∈ spans, record span = some (f span)) (room : ℕ) :
    fillLoop record room spans = some ((spans.take room).map f, spans.drop room) := by
  induction room generalizing spans with
  | zero => cases spans <;> rfl
  | succ room ih =>
      cases spans with
      | nil => rfl
      | cons span spans =>
          rw [List.forall_mem_cons] at h
          rw [fillLoop, h.1, ih h.2]
          rfl

/-- Phase B, on the ends of spans in the window. -/
lemma emitLoop_eq {record : ℕ → ℕ → Option SpanRecord} {f : ℕ × ℕ → SpanRecord}
    {fillBase prev : ℕ} (hends : EndsFrom lim (fillBase + prev) ends)
    (hwindow : ∀ stop ∈ ends, stop - fillBase < 2 ^ 16)
    (hrecord : ∀ prev stop, prev < stop → stop < 2 ^ 16 → fillBase + stop ≤ lim →
      record prev stop = some (f (fillBase + prev, fillBase + stop))) :
    emitLoop record prev (ends.map fun stop => UInt16.ofNat (stop - fillBase)) =
      some ((rangesOf (fillBase + prev) ends).map f, ends.getLastD (fillBase + prev) - fillBase) := by
  induction ends generalizing prev with
  | nil => rw [List.map_nil, emitLoop, rangesOf, List.getLastD_nil, Nat.add_sub_cancel_left]; rfl
  | cons stop ends ih =>
      obtain ⟨hlt, hle, hends⟩ := hends
      rw [List.forall_mem_cons] at hwindow
      have hback : fillBase + (stop - fillBase) = stop := Nat.add_sub_cancel' (by omega)
      have hfirst := hrecord prev (stop - fillBase) (by omega) hwindow.1 (by omega)
      have hrest := @ih (stop - fillBase) (by rwa [hback]) hwindow.2
      rw [hback] at hfirst hrest
      rw [List.map_cons, emitLoop, UInt16.toNat_ofNat_of_lt' hwindow.1, hfirst, hrest, rangesOf,
        List.getLastD_cons]
      rfl

/-- The record of a range of the buffer. -/
def rangeEntry (hash : ℕ → ℕ) (buf : Slice mem) (r : ℕ × ℕ) : SpanRecord :=
  spanEntry hash (buf.ptr + r.1) (rangeBytes buf r.1 r.2)

lemma emit_eq {fillBase : ℕ} (hends : EndsFrom buf.bytes.length fillBase ends)
    (hwindow : ∀ stop ∈ ends, stop - fillBase < 2 ^ 16) :
    emit target target.crcHashSelected buf fillBase
        (ends.map fun stop => UInt16.ofNat (stop - fillBase)) =
      some ((rangesOf fillBase ends).map (rangeEntry (pretokenKeyHash target) buf),
        ends.getLastD fillBase - fillBase) := by
  have hstart : EndsFrom buf.bytes.length (fillBase + 0) ends := hends
  -- the hoisted check is about the last end
  have hlast : fillBase + ((ends.map fun stop => UInt16.ofNat (stop - fillBase)).getLastD 0).toNat =
      ends.getLastD fillBase := by
    obtain rfl | ⟨init, stop, rfl⟩ := List.eq_nil_or_concat' ends
    · rfl
    · have hle := hends.le_getLastD
      rw [List.getLastD_concat] at hle ⊢
      rw [List.map_append, List.map_singleton, List.getLastD_concat,
        UInt16.toNat_ofNat_of_lt' (hwindow stop (by simp)), Nat.add_sub_cancel' hle]
  rw [emit, hlast]
  split_ifs with hload
  · refine emitLoop_eq hstart.last hwindow fun prev stop hlt hstop hle => ?_
    rw [Nat.add_zero] at hle
    exact flatRecord_eq hlt hstop (by omega)
  · exact emitLoop_eq hstart hwindow fun prev stop hlt _ hle => carefulRecord_eq hlt hle

/-- Phase A leaves the ends of spans in front. -/
lemma exists_boundaries (count fillBase : ℕ) (ends : List ℕ) : ∃ n,
    boundaries count fillBase ends =
      (ends.take n).map (fun stop => UInt16.ofNat (stop - fillBase)) ∧
        ∀ stop ∈ ends.take n, stop - fillBase < 2 ^ 16 := by
  have hfront : (ends.takeWhile fun stop => stop - fillBase ≤ 0xFFFF).take count <+: ends :=
    (List.take_prefix _ _).trans (List.takeWhile_prefix _)
  refine ⟨_, congrArg _ (List.prefix_iff_eq_take.mp hfront), fun stop hstop => ?_⟩
  rw [← List.prefix_iff_eq_take.mp hfront] at hstop
  have hle := of_decide_eq_true
    (List.mem_takeWhile_imp (p := fun stop => stop - fillBase ≤ 0xFFFF) (List.mem_of_mem_take hstop))
  omega

/-- The rounds write the records of the spans in front, as many as there is room for. -/
lemma refill_eq {harvest : ℕ → List ℕ → ℕ} {fuel needed : ℕ} (hfuel : needed < fuel)
    (hends : EndsFrom buf.bytes.length pos ends) :
    refill target target.crcHashSelected buf harvest fuel needed pos ends =
      some (((rangesOf pos ends).take needed).map (rangeEntry (pretokenKeyHash target) buf),
        ends.drop needed) := by
  induction fuel generalizing needed pos ends with
  | zero => omega
  | succ fuel ih =>
      cases ends with
      | nil => exact congrArg some (by simp [rangesOf])
      | cons stop later =>
          obtain ⟨hlt, hle, hlater⟩ := id hends
          obtain ⟨n, hbounds, hwindow⟩ :=
            exists_boundaries (harvest needed (stop :: later)) pos (stop :: later)
          rw [refill, hbounds]
          split_ifs with hfull hnone
          · rw [hfull]
            rfl
          · -- the span is emitted alone
            obtain ⟨room, rfl⟩ := Nat.exists_eq_succ_of_ne_zero hfull
            have hback : pos + (stop - pos) = stop := Nat.add_sub_cancel' hlt.le
            rw [carefulRecord_eq (by omega) (by omega), hback, Nat.succ_sub_one,
              ih (by omega) hlater]
            rfl
          · -- the flat emission of the first `k` spans
            set ends := stop :: later with hdef
            set k := min ((ends.take n).map fun stop => UInt16.ofNat (stop - pos)).length needed
              with hk
            rw [List.length_map, List.length_take] at hk
            have hlen : (ends.take k).length = k := by
              rw [List.length_take]
              omega
            have hpos : 0 < k := by
              have hne := List.length_pos_iff.mpr hnone
              rw [List.length_map, List.length_take] at hne
              omega
            have htake : ((ends.take n).map fun stop => UInt16.ofNat (stop - pos)).take k =
                (ends.take k).map fun stop => UInt16.ofNat (stop - pos) := by
              rw [← List.map_take, List.take_take, Nat.min_eq_left (by omega)]
            rw [← List.take_append_drop k ends, endsFrom_append] at hends
            have hwindow' : ∀ stop ∈ ends.take k, stop - pos < 2 ^ 16 := fun stop hstop =>
              hwindow stop ((List.take_subset_take_left ends (by omega)) hstop)
            simp only [htake, emit_eq hends.1 hwindow', Option.bind_eq_bind, Option.bind_some]
            rw [Nat.add_sub_cancel' hends.1.le_getLastD, ih (by omega) hends.2, Option.bind_some,
              List.drop_drop, Nat.add_sub_cancel' (by omega), take_rangesOf (by omega) hlen,
              List.map_append]

/-- They are the entries that the encode loops get. -/
lemma map_fillSpansKeyed (hash : ℕ → ℕ) (slices : List (Slice mem)) :
    (fillSpansKeyed hash (slices.map Slice.bytes)).1.map (fun e => (e.key, e.metaWord)) =
      ((slices.take pretokenChunk).map fun span => spanEntry hash span.ptr span.bytes).map
        fun e => (e.key, e.metaWord) := by
  rw [fillSpansKeyed, ← List.map_take, List.map_map, List.map_map, List.map_map]
  rfl

/-- The slices of the ranges. -/
lemma EndsFrom.exists_slices (hash : ℕ → ℕ) (hends : EndsFrom buf.bytes.length pos ends) :
    ∃ slices, List.Forall₂ (fun r span => buf.get? r.1 r.2 = some span) (rangesOf pos ends) slices ∧
      (∀ span ∈ slices, 0 < span.bytes.length) ∧
        slices.map (fun span => spanEntry hash span.ptr span.bytes) =
          (rangesOf pos ends).map (rangeEntry hash buf) := by
  induction ends generalizing pos with
  | nil => exact ⟨[], .nil, List.forall_mem_nil _, rfl⟩
  | cons stop ends ih =>
      obtain ⟨hlt, hle, hends⟩ := hends
      obtain ⟨slices, hslices, hpos, hentries⟩ := ih hends
      obtain ⟨span, hspan, hptr, hbytes⟩ := Slice.get?_eq (s := buf) hlt.le hle
      have hlen := length_rangeBytes pos hle
      rw [rangeBytes, ← hbytes] at hlen
      refine ⟨span :: slices, .cons hspan hslices, List.forall_mem_cons.mpr ⟨by omega, hpos⟩, ?_⟩
      rw [rangesOf, List.map_cons, List.map_cons, hentries, hptr, hbytes]
      rfl

/-- The key of a short span stands for its bytes. -/
lemma key_spanEntry_iff {p q : List UInt8} {ptr' : ℕ} (hp : Short p) (hq : Short q) :
    (spanEntry hash ptr p).key = (spanEntry hash ptr' q).key ↔ p = q := by
  rw [spanEntry_of_short hp, spanEntry_of_short hq]
  constructor
  · intro h
    refine packPretokenKey_inj hp hq ?_
    rw [packPretokenKey_of_short hp, packPretokenKey_of_short hq]
    exact congrArg some h
  · rintro rfl
    rfl

/-- Every fill loop writes the same records for adjacent spans of a buffer, and no load leaves the
buffer. A record has the key of `pack_pretoken_key` and its hash, leads back to its span, and
stands for the bytes of the span if these are at most 15. -/
theorem fillSpans_eq (target : Target) (buf : Slice mem) (harvest : ℕ → List ℕ → ℕ) {pos : ℕ}
    {ends : List ℕ} (hends : EndsFrom buf.bytes.length pos ends) :
    ∃ slices, List.Forall₂ (fun r span => buf.get? r.1 r.2 = some span) (rangesOf pos ends) slices ∧
      let entry (span : Slice mem) := spanEntry (pretokenKeyHash target) span.ptr span.bytes
      let entries := (slices.take pretokenChunk).map entry
      fillSpansKeyedWith target slices = some (entries, slices.drop pretokenChunk) ∧
        fillSpansKeyedWithBuf target buf (rangesOf pos ends) =
          some (entries, (rangesOf pos ends).drop pretokenChunk) ∧
        fillSpansTwoPhase target buf harvest pos ends = some (entries, ends.drop pretokenChunk) ∧
        ∀ span ∈ slices, packKey span = some (packPretokenKey span.bytes) ∧
          (entry span).spanLen = span.bytes.length ∧
          mem.read (entry span).ptr (entry span).spanLen = some span.bytes ∧
          (span.bytes.length ≤ 15 → (entry span).key ≠ 0 ∧
            ∀ ptr bytes, Short bytes →
              ((entry span).key = (spanEntry (pretokenKeyHash target) ptr bytes).key ↔
                span.bytes = bytes)) := by
  obtain ⟨slices, hslices, hpos, hentries⟩ := hends.exists_slices (pretokenKeyHash target)
  refine ⟨slices, hslices, fillLoop_eq (fun span _ => keyedRecord_eq target span) pretokenChunk, ?_⟩
  have htake := congrArg (List.take pretokenChunk) hentries
  rw [← List.map_take, ← List.map_take] at htake
  dsimp only
  rw [htake]
  refine ⟨fillLoop_eq (fun r hr => ?_) pretokenChunk, refill_eq (Nat.lt_succ_self _) hends,
    fun span hspan => ?_⟩
  · obtain ⟨hlt, hle⟩ := hends.of_mem hr
    exact bufRecord_eq hlt hle
  · have hlen := spanLen_spanEntry (pretokenKeyHash target) span.ptr (hpos span hspan)
    refine ⟨packKey_eq span, hlen, hlen ▸ span.read_eq, fun hle => ?_⟩
    have hshort : Short span.bytes := ⟨hpos span hspan, hle⟩
    refine ⟨?_, fun ptr bytes => key_spanEntry_iff hshort⟩
    rw [spanEntry_of_short hshort]
    exact packPretokenKey_ne_zero hshort

/-- Ten bytes at the end of a page and ten at the front of the next one. -/
def twoPages : PagedMemory 4096 where
  mapped page := page < 2
  byte i := UInt8.ofNat i

/-- The bytes around the border of the pages. -/
def borderSlice : Slice twoPages where
  ptr := 4086
  bytes := (List.range 20).map fun i => UInt8.ofNat (4086 + i)
  read_eq := by decide

/-- `fillSpans_eq` on a long span and two short ones near the end, in rounds of two. -/
theorem fillSpans_borderSlice : ∃ entries,
    fillSpansKeyedWithBuf .other borderSlice [(0, 16), (16, 18), (18, 20)] = some (entries, []) ∧
      fillSpansTwoPhase .other borderSlice (fun _ _ => 2) 0 [16, 18, 20] = some (entries, []) := by
  have hends : EndsFrom borderSlice.bytes.length 0 [16, 18, 20] :=
    ⟨by decide, by decide, by decide, by decide, by decide, by decide, trivial⟩
  obtain ⟨slices, -, -, hbuf, htwo, -⟩ := fillSpans_eq .other borderSlice (fun _ _ => 2) hends
  exact ⟨_, hbuf, htwo⟩

end Hypertok
