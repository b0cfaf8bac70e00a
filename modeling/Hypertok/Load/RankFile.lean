import Hypertok.Bpe.ByteTable
import Hypertok.Load.Replay

/-!
Replayed merges against the rank-file algorithm.

A rank file lists tokens, not merges: its algorithm merges the leftmost adjacent parts
whose bytes together are the token of lowest id, whatever the parts are. The loader
keeps one pair per token.

* `loadIdRanked`: the checks and the reconstruction of an image without PRIORITY.
* `Replayed.table_eq_rankFileTable`: neighbours that a run reaches merge in the one
  table exactly when they merge in the other, since the bytes of a token encode to it.
* `loadIdRanked_rankFile`: the ids are those of the rank-file algorithm.
-/

namespace Hypertok

open PairMerge Machine

/-! ### The code -/

/-- The byte values, in the order of BASE. -/
def byteValues : List UInt8 := (List.range 256).map UInt8.ofNat

lemma mem_byteValues (b : UInt8) : b ∈ byteValues :=
  List.mem_map.mpr ⟨b.toNat, List.mem_range.mpr b.toNat_lt, UInt8.ofNat_toNat⟩

/-- The check of BASE in `build_byte_bpe`. -/
def validateBase (img : ByteImage) : Except HtkLoadError Unit :=
  if byteValues.all fun b => img.vocab[img.base b]? == some [b] then .ok ()
  else .error (.invalidModel "BASE id does not denote its indexed byte")

/-- The loop of `validate_key_set`, with the keys so far. -/
def validateKeySetLoop (specials byteFallback : Finset TokenId) :
    List (List UInt8 × TokenId) → (AList fun _ : List UInt8 => TokenId) →
    Except HtkLoadError Unit
  | [], _ => .ok ()
  | (token, id) :: tokens, keys =>
      if token.isEmpty || id ∈ specials || id ∈ byteFallback then
        validateKeySetLoop specials byteFallback tokens keys
      else if (keys.lookup token).isSome then
        .error (.invalidModel "duplicate lookup-key bytes")
      else validateKeySetLoop specials byteFallback tokens (keys.insert token id)

/-- `validate_key_set`. -/
def validateKeySet (vocab : List (List UInt8)) (specials byteFallback : Finset TokenId) :
    Except HtkLoadError Unit :=
  validateKeySetLoop specials byteFallback vocab.zipIdx ∅

/-- The merges that a tokenizer is built from. -/
inductive IdRanked
  | pairRanks (t : PairRankTable)
  | merges (m : Merges)

/-- The rank function of the merge loop. -/
def IdRanked.getRank : IdRanked → TokenId → TokenId → ℕ
  | .pairRanks t => t.rank
  | .merges m => mergesRank m

/-- The part of `build_byte_bpe` without PRIORITY: the checks, then the reconstruction
with its fallback. -/
def loadIdRanked (img : ByteImage) (compact resolverTrusted : Bool) :
    Except HtkLoadError IdRanked := do
  if !resolverTrusted then validateBase img
  if !resolverTrusted then validateKeySet img.vocab img.specials ∅
  match ← reconstructIdPairRanks img compact resolverTrusted with
  | some pairRanks => .ok (.pairRanks pairRanks)
  | none => .ok (.merges (← reconstructIdMerges img))

/-! ### The rank-file algorithm -/

/-- The non-special token of lowest id with the given bytes. -/
def rankFileId (img : ByteImage) (p : List UInt8) : Option TokenId :=
  (List.range img.vocab.length).find? fun id => img.vocab[id]? == some p && id ∉ img.specials

/-- Two parts merge if their bytes together are a token; its id is the rank. -/
def rankFileTable (img : ByteImage) : Table ℕ (List UInt8) := fun p q =>
  (rankFileId img (p ++ q)).map fun id => (id, p ++ q)

/-- The ids of the parts that are left when no neighbours are a token together. -/
def rankFileEncode (img : ByteImage) (bytes : List UInt8) : List (Option TokenId) :=
  (bpe (rankFileTable img) (bytes.map fun b => [b])).map (rankFileId img)

/-! ### What the checks say -/

variable {img : ByteImage} {m : Merges} {k : ℕ}

lemma validateBase_ok (h : validateBase img = .ok ()) (b : UInt8) :
    img.vocab[img.base b]? = some [b] := by
  rw [validateBase] at h
  split_ifs at h with hall
  simpa using List.all_eq_true.mp hall b (mem_byteValues b)

/-- A token that is looked up by its bytes. -/
def IsKey (img : ByteImage) (id : TokenId) (token : List UInt8) : Prop :=
  img.vocab[id]? = some token ∧ token ≠ [] ∧ id ∉ img.specials

/-- Distinct tokens that are not keys yet are accepted. -/
lemma validateKeySetLoop_of_nodup {specials byteFallback : Finset TokenId}
    {l : List (List UInt8 × TokenId)} {keys : AList fun _ : List UInt8 => TokenId}
    (hl : (l.map Prod.fst).Nodup) (hkeys : ∀ p ∈ l, keys.lookup p.1 = none) :
    validateKeySetLoop specials byteFallback l keys = .ok () := by
  induction l generalizing keys with
  | nil => rfl
  | cons p l ih =>
      rw [List.map_cons, List.nodup_cons] at hl
      simp only [List.mem_cons, forall_eq_or_imp] at hkeys
      rw [validateKeySetLoop]
      split_ifs with hskip hdup
      · exact ih hl.2 hkeys.2
      · simp [hkeys.1] at hdup
      · refine ih hl.2 fun q hq => ?_
        rw [AList.lookup_insert_ne, hkeys.2 q hq]
        rintro heq
        exact hl.1 (heq ▸ List.mem_map_of_mem hq)

lemma validateKeySet_of_nodup {vocab : List (List UInt8)} (h : vocab.Nodup) (specials : Finset TokenId) :
    validateKeySet vocab specials ∅ = .ok () :=
  validateKeySetLoop_of_nodup (by rwa [List.zipIdx_map_fst]) (by simp)

/-- The byte tokens and distinct tokens of other lengths. -/
lemma nodup_bytes_append {l : List (List UInt8)} (hl : l.Nodup) (hlen : ∀ p ∈ l, p.length ≠ 1) :
    ((List.range 256).map (fun b => [UInt8.ofNat b]) ++ l).Nodup := by
  refine ((List.nodup_map_iff_inj_on List.nodup_range).mpr ?_).append hl ?_
  · intro x hx y hy hxy
    have hmod := congrArg UInt8.toNat (List.singleton_inj.mp hxy)
    simp only [UInt8.toNat_ofNat', List.mem_range] at hmod hx hy
    omega
  · rintro p hp hp'
    obtain ⟨b, -, rfl⟩ := List.mem_map.mp hp
    exact hlen _ hp' rfl

/-- Byte-fallback tokens are passed over. -/
lemma validateKeySetLoop_skip {specials byteFallback : Finset TokenId}
    {l l' : List (List UInt8 × TokenId)} {keys : AList fun _ : List UInt8 => TokenId}
    (hl : ∀ p ∈ l, p.2 ∈ byteFallback) :
    validateKeySetLoop specials byteFallback (l ++ l') keys =
      validateKeySetLoop specials byteFallback l' keys := by
  induction l with
  | nil => rfl
  | cons p l ih =>
      simp only [List.mem_cons, forall_eq_or_imp] at hl
      rw [List.cons_append, validateKeySetLoop, if_pos (by simp [hl.1]), ih hl.2]

/-- A loop that accepts its tokens has seen none of their bytes before, and none
twice. -/
lemma validateKeySetLoop_ok {l : List (List UInt8)} {specials byteFallback : Finset TokenId}
    {keys : AList fun _ : List UInt8 => TokenId}
    (h : validateKeySetLoop specials byteFallback (l.zipIdx k) keys = .ok ()) :
    (∀ i token, l[i]? = some token → token ≠ [] → k + i ∉ specials ∪ byteFallback →
      keys.lookup token = none) ∧
    ∀ i j token, l[i]? = some token → l[j]? = some token → token ≠ [] →
      k + i ∉ specials ∪ byteFallback → k + j ∉ specials ∪ byteFallback → i = j := by
  induction l generalizing k keys with
  | nil => simp
  | cons token l ih =>
      have hsucc : ∀ i, k + (i + 1) = k + 1 + i := fun i => by omega
      rw [List.zipIdx_cons, validateKeySetLoop] at h
      by_cases hskip : token = [] ∨ k ∈ specials ∪ byteFallback
      · rw [if_pos (by simpa [or_assoc] using hskip)] at h
        obtain ⟨hkeys, hinj⟩ := ih h
        have hzero : ∀ token', (token :: l)[0]? = some token' → token' ≠ [] →
            k + 0 ∉ specials ∪ byteFallback → False := by
          rintro token' hget hne hs
          obtain rfl := Option.some.inj hget
          exact hskip.elim hne hs
        refine ⟨fun i token' hi hne hs => ?_, fun i j token' hi hj hne hs hs' => ?_⟩
        · cases i with
          | zero => exact (hzero token' hi hne hs).elim
          | succ i => exact hkeys i token' hi hne (hsucc i ▸ hs)
        · cases i with
          | zero => exact (hzero token' hi hne hs).elim
          | succ i =>
              cases j with
              | zero => exact (hzero token' hj hne hs').elim
              | succ j => rw [hinj i j token' hi hj hne (hsucc i ▸ hs) (hsucc j ▸ hs')]
      · rw [if_neg (by simpa [or_assoc] using hskip)] at h
        split_ifs at h with hdup
        obtain ⟨hkeys, hinj⟩ := ih h
        -- the tokens after this one have other bytes
        have hother : ∀ i token', l[i]? = some token' → token' ≠ [] →
            k + (i + 1) ∉ specials ∪ byteFallback → token' ≠ token ∧ keys.lookup token' = none := by
          intro i token' hi hne hs
          have hnone := hkeys i token' hi hne (hsucc i ▸ hs)
          by_cases heq : token' = token
          · rw [heq, AList.lookup_insert] at hnone
            cases hnone
          · exact ⟨heq, by rwa [AList.lookup_insert_ne heq] at hnone⟩
        refine ⟨fun i token' hi hne hs => ?_, fun i j token' hi hj hne hs hs' => ?_⟩
        · cases i with
          | zero =>
              obtain rfl := Option.some.inj hi
              simpa using hdup
          | succ i => exact (hother i token' hi hne hs).2
        · cases i with
          | zero =>
              cases j with
              | zero => rfl
              | succ j => exact absurd (Option.some.inj hi).symm (hother j token' hj hne hs').1
          | succ i =>
              cases j with
              | zero => exact absurd (Option.some.inj hj).symm (hother i token' hi hne hs).1
              | succ j => rw [hinj i j token' hi hj hne (hsucc i ▸ hs) (hsucc j ▸ hs')]

/-- Keys are told apart by their bytes. -/
lemma IsKey.unique (h : validateKeySet img.vocab img.specials ∅ = .ok ()) {id id' : TokenId}
    {token : List UInt8} (hid : IsKey img id token) (hid' : IsKey img id' token) : id = id' := by
  refine (validateKeySetLoop_ok (k := 0) h).2 id id' token hid.1 hid'.1 hid.2.1 ?_ ?_
  · simpa using hid.2.2
  · simpa using hid'.2.2

/-- The lookup finds a key with the bytes, if there is one. -/
lemma rankFileId_spec (img : ByteImage) {p : List UInt8} (hp : p ≠ []) :
    (∀ id, rankFileId img p = some id → IsKey img id p) ∧
      ((∃ id, IsKey img id p) → ∃ id, rankFileId img p = some id) := by
  refine ⟨fun id h => ?_, fun ⟨id, hv, _, hs⟩ => ?_⟩
  · have := List.find?_some h
    simp only [Bool.and_eq_true, beq_iff_eq, decide_eq_true_eq] at this
    exact ⟨this.1, hp, this.2⟩
  · refine Option.isSome_iff_exists.mp (List.find?_isSome.mpr ⟨id, ?_, by simp [hv, hs]⟩)
    exact List.mem_range.mpr (List.getElem?_eq_some_iff.mp hv).1

lemma rankFileId_eq (h : validateKeySet img.vocab img.specials ∅ = .ok ()) {id : TokenId}
    {token : List UInt8} (hid : IsKey img id token) : rankFileId img token = some id := by
  obtain ⟨hkey, hex⟩ := rankFileId_spec img hid.2.1
  obtain ⟨id', hid'⟩ := hex ⟨id, hid⟩
  rw [hid', (hkey id' hid').unique h hid]

/-! ### The bytes of the merges -/

/-- The bytes of a non-special token. -/
def keyBytes (img : ByteImage) (id : TokenId) : Option (List UInt8) :=
  if id ∈ img.specials then none else img.vocab[id]?

lemma keyBytes_of_isKey {id : TokenId} {token : List UInt8} (h : IsKey img id token) :
    keyBytes img id = some token := by
  rw [keyBytes, if_neg h.2.2, h.1]

/-- Every merge concatenates. -/
def Concatenates (img : ByteImage) (m : Merges) : Prop :=
  ∀ a b, ∀ c ∈ m.lookup (a, b), ∀ p q, keyBytes img a = some p → keyBytes img b = some q →
    keyBytes img c = some (p ++ q)

/-- No byte token is special, and each denotes its byte. -/
def BaseKeys (img : ByteImage) : Prop := ∀ b, IsKey img (img.base b) [b]

/-- The merges so far, as a table over bytes. -/
def Concatenates.byteTable (hm : Concatenates img m) (hbase : BaseKeys img) : ByteTable where
  getRank := mergesRank m
  base := img.base
  bytes := keyBytes img
  bytes_base b := keyBytes_of_isKey (hbase b)
  bytes_merge a b p q ha hb hrank := by
    cases hc : m.lookup (a, b) with
    | none => simp [mergesRank, hc] at hrank
    | some c => simpa [mergesRank, hc] using hm a b c hc p q ha hb

lemma Product.isKey {id : TokenId} {token : List UInt8} (h : img.Product id token) :
    IsKey img id token := by
  obtain ⟨hv, hskip⟩ := h
  simp only [ByteImage.skipped, Bool.or_eq_false_iff, decide_eq_false_iff_not, not_lt] at hskip
  exact ⟨hv, by rintro rfl; simp at hskip, hskip.2⟩

/-- Replay keeps to concatenations: the pair of a token comes from an encoding of its
bytes. -/
theorem reconstructIdMerges_concatenates (hbase : BaseKeys img)
    (h : reconstructIdMerges img = .ok m) : Concatenates img m := by
  have hinv : Replayed img img.vocab.length m ∧ Concatenates img m := by
    refine mergesLoop_inv (I := fun k m => Replayed img k m ∧ Concatenates img m)
      ⟨.empty, by simp [Concatenates]⟩
      (fun k m token h hk hskip => ⟨h.1.skip hk hskip, h.2⟩)
      (fun k m token a b ⟨h, hm⟩ hp hnew hrun => ?_) h
    rw [h.replay_eq (List.mem_of_getElem? hp.1)] at hrun
    refine ⟨h.insert hp hnew hrun, fun a' b' c hc p q ha hb => ?_⟩
    by_cases hab : (a', b') = (a, b)
    · obtain ⟨rfl, rfl⟩ := Prod.mk.inj hab
      rw [AList.lookup_insert, Option.mem_some_iff] at hc
      have hdec := (hm.byteTable hbase).decode_encode token
      have henc : (hm.byteTable hbase).encode token = [a', b'] := hrun
      rw [henc] at hdec
      have ha' : (hm.byteTable hbase).bytes a' = some p := ha
      have hb' : (hm.byteTable hbase).bytes b' = some q := hb
      simp only [ByteTable.decode, ha', hb', Option.bind_eq_bind, Option.bind_some,
        List.append_nil, Option.some.injEq] at hdec
      rw [← hc, keyBytes_of_isKey (Product.isKey hp), hdec]
    · rw [AList.lookup_insert_ne hab] at hc
      exact hm a' b' c hc p q ha hb
  exact hinv.2

/-! ### Neighbours -/

/-- The bytes of a token, as a part. -/
def part (img : ByteImage) (id : TokenId) : List UInt8 := (keyBytes img id).getD []

lemma part_of_isKey {id : TokenId} {token : List UInt8} (h : IsKey img id token) :
    part img id = token := by
  rw [part, keyBytes_of_isKey h, Option.getD_some]

section

variable (hbase : BaseKeys img) (hm : reconstructIdMerges img = .ok m)
include hbase hm

/-- Every id that a run reaches is a key. -/
lemma isKey_of_steps {bytes : List UInt8} {t : List TokenId}
    (h : Steps (mergesTable m) (img.symbols bytes) t) : ∀ id ∈ t, ∃ token, IsKey img id token := by
  refine h.forall_mem (fun a b _ _ q hq => ?_) ?_
  · obtain ⟨c, hc, rfl⟩ := (reconstructIdMerges_replayed hm).mem_table.mp hq
    obtain ⟨-, token, hp⟩ := (reconstructIdMerges_replayed hm).product a b c hc
    exact ⟨token, Product.isKey hp⟩
  · simp only [ByteImage.symbols, List.mem_map]
    rintro _ ⟨b, -, rfl⟩
    exact ⟨[b], hbase b⟩

/-- Neighbours that are a token together merge to it: the bytes of the token encode to
the token, and their encoding passes through the two neighbours. -/
theorem merge_of_isKey {bytes p q : List UInt8} {x y : List TokenId} {a b u : TokenId}
    (h : Steps (mergesTable m) (img.symbols bytes) (x ++ a :: b :: y)) (ha : IsKey img a p)
    (hb : IsKey img b q) (hu : IsKey img u (p ++ q)) : mergesTable m a b = some (u, u) := by
  have hR := reconstructIdMerges_replayed hm
  let T := (reconstructIdMerges_concatenates hbase hm).byteTable hbase
  -- the run over the bytes of the two neighbours
  obtain ⟨s₁, s₂, hs, -, h₂⟩ := h.split
  obtain ⟨s₃, s₄, rfl, h₃, -⟩ := Steps.split [a, b] h₂
  obtain ⟨b₁, b₂, rfl, rfl, hs₂⟩ := List.map_eq_append_iff.mp hs
  obtain ⟨b₃, b₄, rfl, rfl, rfl⟩ := List.map_eq_append_iff.mp hs₂
  have hdec : T.decode [a, b] = some b₃ := T.decode_steps h₃
  have ha' : T.bytes a = some p := keyBytes_of_isKey ha
  have hb' : T.bytes b = some q := keyBytes_of_isKey hb
  simp only [ByteTable.decode, ha', hb', Option.bind_eq_bind, Option.bind_some,
    List.append_nil, Option.some.injEq] at hdec
  subst hdec
  have hp : img.Product u (p ++ q) := by
    refine ⟨hu.1, ?_⟩
    have hpl := List.length_pos_iff.mpr ha.2.1
    have hql := List.length_pos_iff.mpr hb.2.1
    have hlen : 1 < p.length + q.length := by omega
    simpa [ByteImage.skipped, hu.2.2] using hlen
  have hbpe := hR.bpe_symbols (List.getElem?_eq_some_iff.mp hu.1).1 hp
  have hpair : Steps (mergesTable m) [a, b] [u] := hbpe ▸ steps_bpe_of_steps h₃
  obtain ⟨r, hab⟩ := hpair.of_pair
  obtain ⟨c, -, hc⟩ := hR.mem_table.mp hab
  obtain ⟨rfl, rfl⟩ := Prod.mk.inj hc
  exact hab

/-- Neighbours that a run reaches merge in the one table as in the other. -/
theorem table_eq_rankFileTable {bytes : List UInt8} {x y : List TokenId} {a b : TokenId}
    (h : Steps (mergesTable m) (img.symbols bytes) (x ++ a :: b :: y)) :
    rankFileTable img (part img a) (part img b) =
      (mergesTable m a b).map (Prod.map id (part img)) := by
  have hkeys := isKey_of_steps hbase hm h
  obtain ⟨p, ha⟩ := hkeys a (by simp)
  obtain ⟨q, hb⟩ := hkeys b (by simp)
  have hne : p ++ q ≠ [] := by simp [ha.2.1]
  obtain ⟨hfound, hex⟩ := rankFileId_spec img hne
  rw [rankFileTable, part_of_isKey ha, part_of_isKey hb]
  cases hu : rankFileId img (p ++ q) with
  | some u =>
      rw [merge_of_isKey hbase hm h ha hb (hfound u hu)]
      simp [part_of_isKey (hfound u hu)]
  | none =>
      -- a pair of the map concatenates, so its product would have been found
      cases hab : mergesTable m a b with
      | none => rfl
      | some r =>
          have hR := reconstructIdMerges_replayed hm
          obtain ⟨c, hc, -⟩ := hR.mem_table.mp (Option.mem_def.mpr hab)
          obtain ⟨-, token, hp⟩ := hR.product a b c hc
          have hcat := reconstructIdMerges_concatenates hbase hm a b c hc p q
            (keyBytes_of_isKey ha) (keyBytes_of_isKey hb)
          have hkey := Product.isKey hp
          rw [keyBytes_of_isKey hkey, Option.some_inj] at hcat
          obtain ⟨u, hu'⟩ := hex ⟨c, hcat ▸ hkey⟩
          cases hu.symm.trans hu'

/-- Under the reconstructed merges a byte string encodes as under the rank file. -/
theorem bpe_eq_rankFile (hkeys : validateKeySet img.vocab img.specials ∅ = .ok ())
    (bytes : List UInt8) :
    (bpe (mergesTable m) (img.symbols bytes)).map some = rankFileEncode img bytes := by
  have hmirror : ∀ t, Steps (mergesTable m) (img.symbols bytes) t →
      Mirrors (mergesTable m) (rankFileTable img) (part img) t := by
    intro t ht
    refine List.isChain_iff_forall_rel_of_append_cons_cons.mpr ?_
    rintro a b x y rfl
    exact table_eq_rankFileTable hbase hm ht
  have hparts : (img.symbols bytes).map (part img) = bytes.map fun b => [b] := by
    simp only [ByteImage.symbols, List.map_map]
    exact List.map_congr_left fun b _ => part_of_isKey (hbase b)
  rw [rankFileEncode, ← hparts, bpe_map hmirror, List.map_map]
  refine List.map_congr_left fun id hid => ?_
  obtain ⟨token, hkey⟩ := isKey_of_steps hbase hm (bpe_steps _ _) id hid
  simp [part_of_isKey hkey, rankFileId_eq hkeys hkey]

end

/-- What a successful load has checked. -/
lemma loadIdRanked_ok {compact : Bool} {model : IdRanked}
    (h : loadIdRanked img compact false = .ok model) :
    validateBase img = .ok () ∧ validateKeySet img.vocab img.specials ∅ = .ok () ∧
      ∃ m, reconstructIdMerges img = .ok m ∧
        (model = .merges m ∨
          ∃ t, model = .pairRanks t ∧ t.Holds m 0 ∧ img.vocab.length ≤ 2 ^ 21) := by
  simp only [loadIdRanked, Bool.not_false, if_true, bind_eq_ok_iff] at h
  obtain ⟨⟨⟩, hbase, ⟨⟩, hkeys, pairRanks, hpair, h⟩ := h
  refine ⟨hbase, hkeys, ?_⟩
  cases pairRanks with
  | none =>
      obtain ⟨m, hm, h⟩ := bind_eq_ok_iff.mp h
      exact ⟨m, hm, .inl (Except.ok.inj h).symm⟩
  | some t =>
      obtain ⟨e, -, herr⟩ | hnone | ⟨t', m, ht, hm, hholds, hlen⟩ := reconstruct_sim img compact false
      · cases hpair.symm.trans (herr rfl)
      · cases hpair.symm.trans hnone
      · cases hpair.symm.trans ht
        exact ⟨m, hm, .inr ⟨t, (Except.ok.inj h).symm, hholds, hlen⟩⟩

/-- An image that loads without PRIORITY encodes as its rank file does, in the model
and in the merge loop that is run. -/
theorem loadIdRanked_rankFile (img : ByteImage) (compact : Bool) (model : IdRanked)
    (hload : loadIdRanked img compact false = .ok model)
    (hspecial : ∀ b, img.base b ∉ img.specials) (bytes : List UInt8) :
    (bpe (rankTable model.getRank) (img.symbols bytes)).map some = rankFileEncode img bytes ∧
      (bytes.length < 2 ^ 32 - 1 →
        ∃ ids, bpeMergeSymbolsByRank model.getRank (img.symbols bytes) = some ids ∧
          ids.map some = rankFileEncode img bytes) := by
  obtain ⟨hbase, hkeys, m, hm, hmodel⟩ := loadIdRanked_ok hload
  have hbk : BaseKeys img := fun b => ⟨validateBase_ok hbase b, by simp, hspecial b⟩
  have hR := reconstructIdMerges_replayed hm
  have hget : (∀ a b, model.getRank a b ≤ u32Max) ∧
      bpe (rankTable model.getRank) (img.symbols bytes) =
        bpe (mergesTable m) (img.symbols bytes) := by
    obtain rfl | ⟨t, rfl, ht, hlen⟩ := hmodel
    · exact ⟨mergesRank_le fun _ _ _ hc => (hR.lt_u32Max hc).le, rfl⟩
    · exact ⟨ht.rank_le, (ht.bpe_rank (img.symbols_fits hlen bytes)).1⟩
  have heq := bpe_eq_rankFile hbk hm hkeys bytes
  rw [← hget.2] at heq
  refine ⟨heq, fun hlen => ⟨_, bpeMergeSymbolsByRank_eq hget.1 ?_, heq⟩⟩
  rw [ByteImage.symbols, List.length_map]
  exact hlen.le

/-- `loadIdRanked_rankFile` on `abcImage`: it loads, and `abcb` is `abc`, `b`. -/
theorem loadIdRanked_abcImage :
    ∃ model, loadIdRanked abcImage false false = .ok model ∧
      (bpe (rankTable model.getRank) [97, 98, 99, 98]).map some = [some 257, some 98] := by
  have hbase : ∀ x : Except HtkLoadError Unit, x.toOption.isSome → x = .ok () := by
    rintro (e | ⟨⟩) hx
    · cases hx
    · rfl
  have hsome : ∀ x : Except HtkLoadError (Option PairRankTable),
      (x.toOption.bind id).isSome → ∃ t, x = .ok (some t) := by
    rintro (e | _ | t) hx
    · cases hx
    · cases hx
    · exact ⟨t, rfl⟩
  have hkeys : validateKeySet abcImage.vocab abcImage.specials ∅ = .ok () :=
    validateKeySet_of_nodup (nodup_bytes_append (by decide) (by decide)) _
  obtain ⟨t, ht⟩ := hsome (reconstructIdPairRanks abcImage false false) (by decide +kernel)
  have hload : loadIdRanked abcImage false false = .ok (.pairRanks t) := by
    simp [loadIdRanked, hbase (validateBase abcImage) (by decide +kernel), hkeys, ht]
  have h := (loadIdRanked_rankFile abcImage false (.pairRanks t) hload (by simp [abcImage])
    [97, 98, 99, 98]).1
  exact ⟨.pairRanks t, hload, h.trans (by decide +kernel)⟩

end Hypertok
