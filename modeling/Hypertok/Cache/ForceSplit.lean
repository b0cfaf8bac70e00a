import Hypertok.Cache.Encode
import Hypertok.PairMerge.Spelling

/-!
The miss path of `opt-force-split-bigram`, which cuts a pretoken between two bytes that are
neighbours in no token, and merges the segments one by one.

* `ForceSplitBigrams.mayJoin_iff`: the bitmap records the neighbours of the vocabulary.
* `forceSplitLoop_eq`: the loop merges the segments, whatever the cuts are.
* `bpe_segments`: at those cuts, the segments are merged as in the whole.
* `encodePretokenMissSplit_eq`: the miss path does what it does without the feature.
-/

namespace Hypertok

open PairMerge Machine

/-! ### The bitmap -/

/-- `windows(2)`. -/
def windows2 (bytes : List UInt8) : List (UInt8 × UInt8) := bytes.zip bytes.tail

lemma mem_windows2 {bytes : List UInt8} {l r : UInt8} :
    (l, r) ∈ windows2 bytes ↔ [l, r] <:+: bytes := by
  induction bytes with
  | nil => simp [windows2]
  | cons b bytes ih =>
      cases bytes with
      | nil => simp [windows2, List.infix_cons_iff]
      | cons b' bytes =>
          rw [List.infix_cons_iff, ← ih]
          simp [windows2]

/-- `ForceSplitBigrams`: a bit for each pair of bytes. -/
structure ForceSplitBigrams where
  words : Vector ℕ 1024

namespace ForceSplitBigrams

/-- The bit of a pair. -/
def key (pair : UInt8 × UInt8) : ℕ := pair.1.toNat * 256 + pair.2.toNat

lemma key_div_lt (pair : UInt8 × UInt8) : key pair / 64 < 1024 := by
  have := pair.1.toNat_lt
  have := pair.2.toNat_lt
  rw [key]
  omega

lemma key_inj {pair pair' : UInt8 × UInt8} (h : key pair = key pair') : pair = pair' := by
  have := pair.2.toNat_lt
  have := pair'.2.toNat_lt
  simp only [key] at h
  exact Prod.ext (UInt8.toNat_inj.mp (by omega)) (UInt8.toNat_inj.mp (by omega))

/-- The words, with the bit of a pair. -/
def record (words : Vector ℕ 1024) (pair : UInt8 × UInt8) : Vector ℕ 1024 :=
  have := key_div_lt pair
  words.set (key pair / 64) (words[key pair / 64] ||| 1 <<< (key pair % 64))

/-- `from_vocabulary`. -/
def fromVocabulary (vocab : List (List UInt8)) : ForceSplitBigrams :=
  ⟨vocab.foldl (fun words token => (windows2 token).foldl record words) (.replicate 1024 0)⟩

/-- `may_join`. -/
def mayJoin (splitter : ForceSplitBigrams) (left right : UInt8) : Bool :=
  have := key_div_lt (left, right)
  splitter.words[key (left, right) / 64] &&& 1 <<< (key (left, right) % 64) ≠ 0

/-- `boundaries`. -/
def boundaries (splitter : ForceSplitBigrams) (bytes : List UInt8) : List ℕ :=
  ((windows2 bytes).zipIdx.filter fun p => !splitter.mayJoin p.1.1 p.1.2).map fun p => p.2 + 1

lemma mayJoin_eq (words : Vector ℕ 1024) (pair : UInt8 × UInt8) :
    have := key_div_lt pair
    mayJoin ⟨words⟩ pair.1 pair.2 = words[key pair / 64].testBit (key pair % 64) := by
  have := key_div_lt pair
  simp only [mayJoin, Nat.one_shiftLeft, Nat.and_two_pow]
  cases words[key pair / 64].testBit (key pair % 64) <;> simp

/-- One pair is recorded. -/
lemma mayJoin_record (words : Vector ℕ 1024) (pair pair' : UInt8 × UInt8) :
    mayJoin ⟨record words pair⟩ pair'.1 pair'.2 =
      (mayJoin ⟨words⟩ pair'.1 pair'.2 || decide (pair = pair')) := by
  simp only [mayJoin_eq, record]
  by_cases hword : key pair / 64 = key pair' / 64
  · have hkey : pair = pair' ↔ key pair % 64 = key pair' % 64 :=
      ⟨fun h => by rw [h], fun h => key_inj (by omega)⟩
    simp [hword, Nat.testBit_or, Nat.one_shiftLeft, Nat.testBit_two_pow, hkey]
  · have hne : pair ≠ pair' := fun h => hword (by rw [h])
    simp [Vector.getElem_set_ne, hword, hne]

lemma mayJoin_foldl (pairs : List (UInt8 × UInt8)) (words : Vector ℕ 1024)
    (pair : UInt8 × UInt8) :
    mayJoin ⟨pairs.foldl record words⟩ pair.1 pair.2 =
      (mayJoin ⟨words⟩ pair.1 pair.2 || decide (pair ∈ pairs)) := by
  induction pairs generalizing words with
  | nil => simp
  | cons p pairs ih =>
      rw [List.foldl_cons, ih, mayJoin_record, Bool.or_assoc]
      simp [eq_comm]

/-- The bitmap knows the neighbours of the vocabulary. -/
theorem mayJoin_iff (vocab : List (List UInt8)) (l r : UInt8) :
    (fromVocabulary vocab).mayJoin l r = true ↔ ∃ token ∈ vocab, [l, r] <:+: token := by
  have hempty : mayJoin ⟨.replicate 1024 0⟩ l r = false := by
    rw [mayJoin_eq _ (l, r)]
    simp
  rw [fromVocabulary, ← List.foldl_flatMap, mayJoin_foldl _ _ (l, r), hempty]
  simp [mem_windows2]

/-- Where a boundary lies. -/
lemma of_mem_boundaries {splitter : ForceSplitBigrams} {bytes : List UInt8} {i : ℕ}
    (h : i ∈ splitter.boundaries bytes) : ∃ u l r v, bytes = u ++ l :: r :: v ∧
      i = u.length + 1 ∧ splitter.mayJoin l r = false := by
  simp only [boundaries, List.mem_map, List.mem_filter, Prod.exists, Bool.not_eq_eq_eq_not,
    Bool.not_true, List.mem_zipIdx_iff_getElem?, windows2, List.getElem?_zip_eq_some,
    List.getElem?_tail] at h
  obtain ⟨l, r, j, ⟨⟨hl, hr⟩, hjoin⟩, rfl⟩ := h
  obtain ⟨hj, rfl⟩ := List.getElem?_eq_some_iff.mp hl
  obtain ⟨hj', rfl⟩ := List.getElem?_eq_some_iff.mp hr
  refine ⟨bytes.take j, _, _, bytes.drop (j + 2), ?_, by simp; omega, hjoin⟩
  rw [← List.drop_eq_getElem_cons hj', ← List.drop_eq_getElem_cons hj, List.take_append_drop]

lemma boundaries_pairwise (splitter : ForceSplitBigrams) (bytes : List UInt8) :
    (splitter.boundaries bytes).Pairwise (· < ·) := by
  have hsub : (splitter.boundaries bytes).Sublist
      ((windows2 bytes).zipIdx.map fun p => p.2 + 1) := List.filter_sublist.map _
  refine List.Pairwise.sublist hsub ?_
  rw [show (fun p : (UInt8 × UInt8) × ℕ => p.2 + 1) = (· + 1) ∘ Prod.snd from rfl,
    ← List.map_map, List.zipIdx_map_snd, List.pairwise_map]
  have hrange : (List.range' 0 (windows2 bytes).length).Pairwise (· < ·) := List.pairwise_lt_range'
  exact hrange.imp fun h => Nat.succ_lt_succ h

end ForceSplitBigrams

/-! ### The miss path -/

/-- The loop of `encode_force_split_miss`, which leaves the ids in `force_split_scratch`. -/
def forceSplitLoop (T : MergeTables) (bytes : List UInt8) :
    ℕ → List ℕ → List TokenId → Option (List TokenId)
  | _, [], scratch => some scratch
  | start, stop :: stops, scratch => do
      let segment ← if start ≤ stop ∧ stop ≤ bytes.length then some ((bytes.take stop).drop start)
        else none
      let symbols ← bpeMergeSymbolsByRank T.getRank (T.byteSymbols segment)
      forceSplitLoop T bytes stop stops (scratch ++ symbols)

/-- `encode_force_split_miss`; without a boundary it does nothing and returns `false`. -/
def Tokenizer.encodeForceSplitMiss (hash : ℕ → ℕ) (splitter : ForceSplitBigrams) (t : Tokenizer)
    (bytes : List UInt8) (key h slot : ℕ) (out : OutVec) : Option (Bool × Tokenizer × OutVec) :=
  if splitter.boundaries bytes = [] then some (false, t, out)
  else do
    let symbols ← forceSplitLoop t.tables bytes 0 (splitter.boundaries bytes ++ [bytes.length]) []
    if key ≠ 0 then do
      let ((val, ext), arena) := packVal symbols t.tokenArena
      let cache ← t.pretokenCache.insertAt hash slot ⟨key, val, ext⟩ h
      some (true, { t with toStores := ⟨arena, cache⟩ }, out.extend symbols)
    else do
      let len := symbols.length % 2 ^ 32
      let offset := t.tokenArena.length % 2 ^ 32
      let t := { t with
        tokenArena := t.tokenArena ++ symbols
        pretokenCacheLong := t.pretokenCacheLong.insert bytes (offset, len) }
      some (true, t, out.extend symbols)

/-- `encode_pretoken_miss` with the feature. -/
def Tokenizer.encodePretokenMissSplit (hash : ℕ → ℕ) (splitter : ForceSplitBigrams) (t : Tokenizer)
    (bytes : List UInt8) (key h slot : ℕ) (out : OutVec) : Option (Tokenizer × OutVec) :=
  if t.tables.rankedMerges.isSome || t.ignoreMerges then
    t.encodePretokenMiss hash bytes key h slot out
  else do
    let (done, t', out') ← t.encodeForceSplitMiss hash splitter bytes key h slot out
    if done then some (t', out') else t.encodePretokenMiss hash bytes key h slot out

/-! ### The segments -/

/-- The segments between the stops. -/
def segments (bytes : List UInt8) : ℕ → List ℕ → List (List UInt8)
  | _, [] => []
  | start, stop :: stops => (bytes.take stop).drop start :: segments bytes stop stops

namespace MergeTables

/-- The symbol of a byte. -/
def byteSymbol (T : MergeTables) (b : UInt8) : TokenId :=
  match T.byteRemapping with
  | some br => br.mapping b
  | none => b.toNat

/-- The product of two tokens is the token of their concatenation. -/
def Concatenates (T : MergeTables) (vocab : List (List UInt8)) : Prop :=
  ∀ a b, T.getRank a b ≠ u32Max → ∃ l r, vocab[a]? = some l ∧ vocab[b]? = some r ∧
    vocab[T.getRank a b]? = some (l ++ r)

/-- The bytes of an id. -/
def letters (vocab : List (List UInt8)) (id : TokenId) : List UInt8 := vocab[id]?.getD []

/-- A symbol of a byte whose token is this byte. -/
def IsBase (T : MergeTables) (vocab : List (List UInt8)) (id : TokenId) : Prop :=
  ∃ b, T.byteSymbol b = id ∧ vocab[id]? = some [b]

end MergeTables

variable {T : MergeTables} {vocab : List (List UInt8)} {bytes : List UInt8}

/-- The loop merges the segments. -/
theorem forceSplitLoop_eq {start : ℕ} {stops : List ℕ} (scratch : List TokenId)
    (hstops : (start :: stops).Pairwise (· ≤ ·)) (hle : ∀ stop ∈ stops, stop ≤ bytes.length)
    (hlen : ∀ s ∈ segments bytes start stops, s.length ≤ u32Max) :
    forceSplitLoop T bytes start stops scratch = some (scratch ++
      (segments bytes start stops).flatMap fun s => bpe (rankTable T.getRank) (T.byteSymbols s)) := by
  induction stops generalizing start scratch with
  | nil => simp [forceSplitLoop, segments]
  | cons stop stops ih =>
      obtain ⟨hstart, hstops⟩ := List.pairwise_cons.mp hstops
      have hvalid : start ≤ stop ∧ stop ≤ bytes.length := ⟨hstart stop (by simp), hle stop (by simp)⟩
      simp only [segments, List.forall_mem_cons] at hlen
      have hmerge : bpeMergeSymbolsByRank T.getRank (T.byteSymbols ((bytes.take stop).drop start)) =
          some (bpe (rankTable T.getRank) (T.byteSymbols ((bytes.take stop).drop start))) :=
        bpeMergeSymbolsByRank_eq MergeTables.getRank_le (by simpa using hlen.1)
      simp only [forceSplitLoop, if_pos hvalid, Option.bind_eq_bind, Option.bind_some, hmerge,
        ih _ hstops (fun s hs => hle s (by simp [hs])) hlen.2, segments, List.flatMap_cons,
        List.append_assoc]

/-- Symbols of bytes, and their products, spell what the vocabulary says. -/
lemma spelled_rankTable (h : T.Concatenates vocab) :
    Spelled (rankTable T.getRank) (MergeTables.letters vocab) (T.IsBase vocab) where
  merge a b q hq := by
    by_cases hrank : T.getRank a b = u32Max
    · simp [rankTable, hrank] at hq
    · obtain ⟨l, r, hl, hr, hlr⟩ := h a b hrank
      simp only [rankTable, if_neg hrank, Option.mem_some_iff] at hq
      simp [← hq, MergeTables.letters, hl, hr, hlr]
  base a ha := by
    obtain ⟨b, -, hb⟩ := ha
    exact ⟨b, by simp [MergeTables.letters, hb]⟩
  inj a a' ha ha' heq := by
    obtain ⟨b, rfl, hb⟩ := ha
    obtain ⟨b', rfl, hb'⟩ := ha'
    simp only [MergeTables.letters, hb, hb', Option.getD_some, List.cons.injEq, and_true] at heq
    rw [heq]

lemma letters_byteSymbols (hbytes : ∀ b ∈ bytes, vocab[T.byteSymbol b]? = some [b]) :
    (T.byteSymbols bytes).flatMap (MergeTables.letters vocab) = bytes := by
  induction bytes with
  | nil => rfl
  | cons b bytes ih =>
      obtain ⟨hb, hbytes⟩ := List.forall_mem_cons.mp hbytes
      have hletters : MergeTables.letters vocab (T.byteSymbol b) = [b] := by
        simp [MergeTables.letters, hb]
      change MergeTables.letters vocab (T.byteSymbol b) ++
        (T.byteSymbols bytes).flatMap (MergeTables.letters vocab) = b :: bytes
      rw [hletters, ih hbytes, List.singleton_append]

/-- A word is cut between two bytes that are neighbours in no token. -/
lemma bpe_border (h : T.Concatenates vocab) {u v : List UInt8} {l r : UInt8}
    (hbytes : ∀ b ∈ (u ++ [l]) ++ r :: v, vocab[T.byteSymbol b]? = some [b])
    (hjoin : (ForceSplitBigrams.fromVocabulary vocab).mayJoin l r = false) :
    bpe (rankTable T.getRank) (T.byteSymbols ((u ++ [l]) ++ r :: v)) =
      bpe (rankTable T.getRank) (T.byteSymbols (u ++ [l])) ++
        bpe (rankTable T.getRank) (T.byteSymbols (r :: v)) := by
  obtain ⟨hu, hv⟩ := List.forall_mem_append.mp hbytes
  have hbase : ∀ {bytes}, (∀ b ∈ bytes, vocab[T.byteSymbol b]? = some [b]) →
      ∀ id ∈ T.byteSymbols bytes, T.IsBase vocab id := by
    intro bytes hbytes id hid
    obtain ⟨b, hb, rfl⟩ := List.mem_map.mp hid
    exact ⟨b, rfl, hbytes b hb⟩
  rw [MergeTables.byteSymbols, List.map_append]
  refine (spelled_rankTable h).bpe_append (hbase hu) (hbase hv)
    (l := l) (r := r) ?_ ?_ fun a b q _ hinfix => ?_
  · rw [← MergeTables.byteSymbols, letters_byteSymbols hu]
    simp
  · rw [← MergeTables.byteSymbols, letters_byteSymbols hv]
    simp
  · rw [MergeTables.letters] at hinfix
    cases htoken : vocab[q.2]? with
    | none => simp [htoken] at hinfix
    | some token =>
        rw [htoken, Option.getD_some] at hinfix
        have := (ForceSplitBigrams.mayJoin_iff vocab l r).mpr
          ⟨token, List.mem_of_getElem? htoken, hinfix⟩
        simp [hjoin] at this

/-- The segments are merged as in the whole pretoken. -/
theorem bpe_segments (h : T.Concatenates vocab)
    (hbytes : ∀ b ∈ bytes, vocab[T.byteSymbol b]? = some [b]) {start : ℕ} {stops : List ℕ}
    (hstops : (start :: stops).Pairwise (· < ·))
    (hmem : ∀ stop ∈ stops, stop ∈ (ForceSplitBigrams.fromVocabulary vocab).boundaries bytes) :
    ((segments bytes start (stops ++ [bytes.length])).flatMap fun s =>
      bpe (rankTable T.getRank) (T.byteSymbols s)) =
        bpe (rankTable T.getRank) (T.byteSymbols (bytes.drop start)) := by
  induction stops generalizing start with
  | nil => simp [segments]
  | cons stop stops ih =>
      obtain ⟨hstart, hstops⟩ := List.pairwise_cons.mp hstops
      have hlt := hstart stop (by simp)
      obtain ⟨u, l, r, v, hcut, hstop, hjoin⟩ :=
        ForceSplitBigrams.of_mem_boundaries (hmem stop (by simp))
      have hle : start ≤ u.length := by omega
      have hsplit : bytes = (u ++ [l]) ++ r :: v := by simpa using hcut
      have hstop' : stop = (u ++ [l]).length := by simpa using hstop
      -- the segment ends with `l`, and the rest starts with `r`
      have hsegment : (bytes.take stop).drop start = u.drop start ++ [l] := by
        rw [hsplit, hstop', List.take_left, List.drop_append_of_le_length hle]
      have hrest : bytes.drop stop = r :: v := by rw [hsplit, hstop', List.drop_left]
      have hwhole : bytes.drop start = (u.drop start ++ [l]) ++ r :: v := by
        rw [hcut, List.drop_append_of_le_length hle, List.append_assoc, List.singleton_append]
      rw [List.cons_append, segments, List.flatMap_cons,
        ih hstops fun s hs => hmem s (by simp [hs]), hsegment, hrest, hwhole]
      refine (bpe_border h (fun b hb => hbytes b ?_) hjoin).symm
      exact List.mem_of_mem_drop (hwhole ▸ hb)

lemma length_le_of_mem_segments {start : ℕ} {stops : List ℕ} :
    ∀ s ∈ segments bytes start stops, s.length ≤ bytes.length := by
  induction stops generalizing start with
  | nil => simp [segments]
  | cons stop stops ih =>
      simp only [segments, List.forall_mem_cons]
      exact ⟨by simp, ih⟩

lemma flatten_segments {start : ℕ} {stops : List ℕ} (hstops : (start :: stops).Pairwise (· ≤ ·)) :
    (segments bytes start (stops ++ [bytes.length])).flatten = bytes.drop start := by
  induction stops generalizing start with
  | nil => simp [segments]
  | cons stop stops ih =>
      obtain ⟨hstart, hstops⟩ := List.pairwise_cons.mp hstops
      have hle := hstart stop (by simp)
      rw [List.cons_append, segments, List.flatten_cons, ih hstops, List.drop_take]
      conv_rhs => rw [← List.take_append_drop (stop - start) (bytes.drop start)]
      rw [List.drop_drop, Nat.add_sub_cancel' hle]

/-- The stops of a pretoken, which start after 0. -/
lemma pairwise_boundaries (splitter : ForceSplitBigrams) (bytes : List UInt8) :
    (0 :: splitter.boundaries bytes).Pairwise (· < ·) := by
  refine List.pairwise_cons.mpr ⟨fun i hi => ?_, splitter.boundaries_pairwise bytes⟩
  obtain ⟨u, _, _, _, -, rfl, -⟩ := ForceSplitBigrams.of_mem_boundaries hi
  exact Nat.succ_pos _

lemma boundaries_le {splitter : ForceSplitBigrams} {i : ℕ} (hi : i ∈ splitter.boundaries bytes) :
    i ≤ bytes.length := by
  obtain ⟨u, _, _, _, rfl, rfl, -⟩ := ForceSplitBigrams.of_mem_boundaries hi
  simp only [List.length_append, List.length_cons]
  omega

/-- The loop computes what merging the whole pretoken gives. -/
theorem forceSplitLoop_boundaries (h : T.Concatenates vocab)
    (hbytes : ∀ b ∈ bytes, vocab[T.byteSymbol b]? = some [b])
    (hlen : ∀ s ∈ segments bytes 0
      ((ForceSplitBigrams.fromVocabulary vocab).boundaries bytes ++ [bytes.length]),
      s.length ≤ u32Max) :
    forceSplitLoop T bytes 0
        ((ForceSplitBigrams.fromVocabulary vocab).boundaries bytes ++ [bytes.length]) [] =
      some (bpe (rankTable T.getRank) (T.byteSymbols bytes)) := by
  have hpair := pairwise_boundaries (ForceSplitBigrams.fromVocabulary vocab) bytes
  have hle : ∀ i ∈ (ForceSplitBigrams.fromVocabulary vocab).boundaries bytes, i ≤ bytes.length :=
    fun i hi => boundaries_le hi
  rw [forceSplitLoop_eq [] ?_ ?_ hlen, bpe_segments h hbytes hpair fun _ => id, List.drop_zero,
    List.nil_append]
  · rw [← List.cons_append]
    refine List.pairwise_append.mpr ⟨hpair.imp Nat.le_of_lt, by simp, fun i hi j hj => ?_⟩
    obtain rfl := List.mem_singleton.mp hj
    obtain rfl | hi := List.mem_cons.mp hi
    · exact Nat.zero_le _
    · exact hle i hi
  · exact List.forall_mem_append.mpr ⟨hle, by simp⟩

/-- The miss path is the one without the feature. -/
theorem encodePretokenMissSplit_eq (hash : ℕ → ℕ) (t : Tokenizer) (h : t.tables.Concatenates vocab)
    (hbytes : ∀ b ∈ bytes, vocab[t.tables.byteSymbol b]? = some [b]) (hlen : bytes.length ≤ u32Max)
    {key : ℕ} (hkey : key ≠ 0 → Short bytes) (hashed slot : ℕ) (out : OutVec) :
    t.encodePretokenMissSplit hash (.fromVocabulary vocab) bytes key hashed slot out =
      t.encodePretokenMiss hash bytes key hashed slot out := by
  rw [Tokenizer.encodePretokenMissSplit]
  split_ifs with hskip
  · rfl
  · rw [Bool.or_eq_true, not_or, Option.not_isSome_iff_eq_none, Bool.not_eq_true] at hskip
    obtain ⟨hranked, hflag⟩ := hskip
    rw [Tokenizer.encodeForceSplitMiss]
    by_cases hnone : (ForceSplitBigrams.fromVocabulary vocab).boundaries bytes = []
    · rw [if_pos hnone]
      rfl
    · rw [if_neg hnone]
      have hloop := forceSplitLoop_boundaries h hbytes fun s hs =>
        (length_le_of_mem_segments s hs).trans hlen
      have hids : t.tables.shortIds t.ignoreMerges t.vocabInv bytes =
          bpe (rankTable t.tables.getRank) (t.tables.byteSymbols bytes) := by
        simp [MergeTables.shortIds, MergeTables.wholeId, hflag, MergeTables.shortTable, hranked]
      rw [hloop, Tokenizer.encodePretokenMiss]
      by_cases hzero : key ≠ 0
      · obtain ⟨buf, n, hseed, htake⟩ :=
          t.tables.seedSymbolsAny_eq t.ignoreMerges t.vocabInv (hkey hzero) zeroBuf
        rw [hids] at htake
        rcases hpack : packVal (bpe (rankTable t.tables.getRank) (t.tables.byteSymbols bytes))
          t.tokenArena with ⟨⟨val, ext⟩, arena⟩
        simp only [if_pos hzero, hseed, Option.bind_eq_bind, Option.bind_some, htake, hpack]
        cases t.pretokenCache.insertAt hash slot ⟨key, val, ext⟩ hashed <;> rfl
      · have hlong : t.tables.longSymbols t.ignoreMerges t.vocabInv bytes =
            some (t.tables.shortIds t.ignoreMerges t.vocabInv bytes) :=
          MergeTables.longSymbols_eq hlen (by simp [hranked])
        rw [hids] at hlong
        simp [if_neg hzero, hlong]

/-- A pretoken is cut between bytes that are neighbours in no token. Merging the segments one
by one gives the ids of the whole: of `bpe` for a pretoken of any length, of the loops as far
as their indices of 32 bits go, and of the miss path with its caches. -/
theorem forceSplit_exact (T : MergeTables) (vocab : List (List UInt8)) (h : T.Concatenates vocab)
    (bytes : List UInt8) (hbytes : ∀ b ∈ bytes, vocab[T.byteSymbol b]? = some [b]) :
    let splitter := ForceSplitBigrams.fromVocabulary vocab
    let stops := splitter.boundaries bytes ++ [bytes.length]
    let ids := bpe (rankTable T.getRank) (T.byteSymbols bytes)
    (segments bytes 0 stops).flatten = bytes ∧
      ((segments bytes 0 stops).flatMap fun s => bpe (rankTable T.getRank) (T.byteSymbols s)) =
        ids ∧
      ((∀ s ∈ segments bytes 0 stops, s.length ≤ u32Max) →
        forceSplitLoop T bytes 0 stops [] = some ids) ∧
      (bytes.length ≤ u32Max →
        bpeMergeSymbolsByRank T.getRank (T.byteSymbols bytes) = some ids ∧
        ∀ (hash : ℕ → ℕ) (t : Tokenizer), t.tables = T → ∀ key, (key ≠ 0 → Short bytes) →
          ∀ hashed slot out, t.encodePretokenMissSplit hash splitter bytes key hashed slot out =
            t.encodePretokenMiss hash bytes key hashed slot out) := by
  have hpair := pairwise_boundaries (ForceSplitBigrams.fromVocabulary vocab) bytes
  refine ⟨?_, ?_, forceSplitLoop_boundaries h hbytes, fun hlen => ⟨?_, ?_⟩⟩
  · rw [flatten_segments (hpair.imp Nat.le_of_lt), List.drop_zero]
  · exact bpe_segments h hbytes hpair fun _ => id
  · exact bpeMergeSymbolsByRank_eq MergeTables.getRank_le (by simpa using hlen)
  · rintro hash t rfl key hkey hashed slot out
    exact encodePretokenMissSplit_eq hash t h hbytes hlen hkey hashed slot out

/-- The bytes, then the token `a b`. -/
def abVocab : List (List UInt8) :=
  (List.range 256).map (fun n => [UInt8.ofNat n]) ++ [[97, 98]]

/-- `forceSplit_exact` for a pretoken of three segments, `ab`, `c` and `ab`. -/
theorem forceSplit_abVocab :
    (ForceSplitBigrams.fromVocabulary abVocab).boundaries [97, 98, 99, 97, 98] = [2, 3] ∧
      forceSplitLoop Tokenizer.abTables [97, 98, 99, 97, 98] 0 [2, 3, 5] [] =
        some [256, 99, 256] := by
  have h : Tokenizer.abTables.Concatenates abVocab := by
    intro a b hrank
    have hpair : (a, b) = (97, 98) := by
      by_contra hne
      refine hrank ?_
      have hrank : Tokenizer.abTables.getRank a b =
          (Tokenizer.abTables.merges.lookup (a, b)).getD u32Max := rfl
      rw [hrank, Tokenizer.abTables, AList.lookup_insert_ne hne, AList.lookup_empty, Option.getD_none]
    obtain ⟨rfl, rfl⟩ := Prod.mk.inj hpair
    exact ⟨[97], [98], rfl, rfl, rfl⟩
  have hbytes : ∀ b ∈ [97, 98, 99, 97, 98],
      abVocab[Tokenizer.abTables.byteSymbol b]? = some [b] := by
    simp only [List.forall_mem_cons, List.not_mem_nil, false_imp_iff, implies_true, and_true]
    exact ⟨rfl, rfl, rfl, rfl, rfl⟩
  have hcuts : (ForceSplitBigrams.fromVocabulary abVocab).boundaries [97, 98, 99, 97, 98] =
      [2, 3] := by
    decide +kernel
  obtain ⟨-, -, hloop, -⟩ := forceSplit_exact Tokenizer.abTables abVocab h [97, 98, 99, 97, 98] hbytes
  rw [hcuts] at hloop
  refine ⟨hcuts, (hloop ?_).trans ?_⟩
  · decide
  · rfl

end Hypertok
