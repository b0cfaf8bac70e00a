import Hypertok.Bpe.MergeHeap
import Hypertok.Bpe.PairRank
import Hypertok.PairMerge.Compare

/-!
Merge replay: a `.htk` image stores no merges, and the loader derives one per token
by encoding the bytes of the token under the merges of the smaller ids.

* `reconstructIdMerges` collects the merges in a hash map, `reconstructIdPairRanks`
  in a `PairRankTable`; `pairRanksLoop_sim` compares the two.
* `Replayed`: the invariant of the replay. Each token so far has one merge, and its
  recorded derivation is a run of all merges so far.
* `reconstruct_replays`: the two reconstructions agree, and under the complete table
  the bytes of a token encode to the token.
-/

namespace Hypertok

open PairMerge Machine

/-- `HtkLoadError`, the cases of the model itself. -/
inductive HtkLoadError
  | unsupported (detail : String)
  | invalidModel (detail : String)
  deriving DecidableEq, Repr

/-- The part of a validated byte-BPE image that the replay reads: the token bytes, the
BASE section and the special ids, with the bounds that the reader checks. -/
structure ByteImage where
  vocab : List (List UInt8)
  base : UInt8 → TokenId
  specials : Finset TokenId
  /-- `MAX_VOCAB_SIZE`. -/
  vocab_le : vocab.length ≤ 2 ^ 28
  /-- The lengths of the tokens add up to the size of the arena. -/
  arena_le : (vocab.map List.length).sum ≤ u32Max
  base_lt : ∀ b, base b < vocab.length

namespace ByteImage

variable (img : ByteImage)

/-- `token.len() < 2 || specials.contains(&id)`. -/
def skipped (id : TokenId) (token : List UInt8) : Bool :=
  token.length < 2 || id ∈ img.specials

/-- The base symbols of a byte string. -/
def symbols (token : List UInt8) : List TokenId := token.map img.base

/-- A non-special token of two or more bytes. -/
def Product (id : TokenId) (token : List UInt8) : Prop :=
  img.vocab[id]? = some token ∧ img.skipped id token = false

end ByteImage

/-! ### The code -/

/-- The symbols that `bpe_merge_symbols_by_rank` leaves in place. -/
def replay (getRank : TokenId → TokenId → ℕ) (symbols : List TokenId) : List TokenId :=
  (bpeMergeSymbolsByRank getRank symbols).getD symbols

/-- The loop of `reconstruct_id_merges`. -/
def mergesLoop (img : ByteImage) : List (List UInt8 × TokenId) → Merges →
    Except HtkLoadError Merges
  | [], merges => .ok merges
  | (token, id) :: tokens, merges =>
      if img.skipped id token then mergesLoop img tokens merges
      else
        match replay (mergesRank merges) (img.symbols token) with
        | [left, right] =>
            if (merges.lookup (left, right)).isSome then
              .error (.invalidModel "duplicate merge pair")
            else mergesLoop img tokens (merges.insert (left, right) id)
        | _ => .error (.invalidModel "token does not reconstruct from one final merge")

/-- `reconstruct_id_merges`. -/
def reconstructIdMerges (img : ByteImage) : Except HtkLoadError Merges :=
  mergesLoop img img.vocab.zipIdx ∅

/-- The loop of `reconstruct_id_pair_ranks`. A trusted image is not checked. -/
def pairRanksLoop (img : ByteImage) (resolverTrusted : Bool) :
    List (List UInt8 × TokenId) → PairRankTable → Except HtkLoadError (Option PairRankTable)
  | [], pairRanks => .ok (some pairRanks)
  | (token, id) :: tokens, pairRanks =>
      if img.skipped id token then pairRanksLoop img resolverTrusted tokens pairRanks
      else
        let symbols := replay pairRanks.rank (img.symbols token)
        if !resolverTrusted && symbols.length != 2 then
          .error (.invalidModel "token does not reconstruct from one final merge")
        else
          match symbols with
          | left :: right :: _ =>
              if !resolverTrusted && pairRanks.rank left right != u32Max then
                .error (.invalidModel "duplicate merge pair")
              else
                match pairRanks.insert left right id with
                | none => .ok none
                | some pairRanks => pairRanksLoop img resolverTrusted tokens pairRanks
          | _ => .error (.invalidModel "token does not reconstruct from one final merge")

/-- `merge_count`, over a list of tokens with their ids. -/
def mergeCount (img : ByteImage) (tokens : List (List UInt8 × TokenId)) : ℕ :=
  tokens.countP fun x => !img.skipped x.2 x.1

/-- `reconstruct_id_pair_ranks`: `none` sends the caller to `reconstruct_id_merges`. -/
def reconstructIdPairRanks (img : ByteImage) (compact resolverTrusted : Bool) :
    Except HtkLoadError (Option PairRankTable) :=
  match PairRankTable.withCapacity compact img.vocab.length (mergeCount img img.vocab.zipIdx) with
  | none => .ok none
  | some pairRanks => pairRanksLoop img resolverTrusted img.vocab.zipIdx pairRanks

/-! ### The invariant of the replay -/

variable {img : ByteImage} {m : Merges} {k : ℕ}

lemma mergesRank_le {m : Merges} (h : ∀ a b, ∀ c ∈ m.lookup (a, b), c ≤ u32Max) (a b : TokenId) :
    mergesRank m a b ≤ u32Max := by
  cases hc : m.lookup (a, b) with
  | none => simp [mergesRank, hc]
  | some c => simpa [mergesRank, hc] using h a b c hc

/-- The merge table of a map. -/
abbrev mergesTable (m : Merges) : Table ℕ TokenId := rankTable (mergesRank m)

/-- If no product is `u32::MAX`, the table has the pairs of the map. -/
lemma mem_mergesTable {m : Merges} (h : ∀ a b, ∀ c ∈ m.lookup (a, b), c < u32Max)
    {a b : TokenId} {q : ℕ × TokenId} :
    q ∈ mergesTable m a b ↔ ∃ c ∈ m.lookup (a, b), q = (c, c) := by
  cases hc : m.lookup (a, b) with
  | none => simp [rankTable, mergesRank, hc]
  | some c =>
      have hlt : c ≠ u32Max := (h a b c hc).ne
      simp [rankTable, mergesRank, hc, hlt, eq_comm]

/-- The state of the replay before the token `k`: each product so far has one pair,
and its base symbols run to the pair. -/
structure Replayed (img : ByteImage) (k : ℕ) (m : Merges) : Prop where
  product : ∀ a b, ∀ c ∈ m.lookup (a, b), c < k ∧ ∃ token, img.Product c token
  unique : ∀ p p' c, c ∈ m.lookup p → c ∈ m.lookup p' → p = p'
  replay : ∀ c token, c < k → img.Product c token →
    ∃ a b, c ∈ m.lookup (a, b) ∧ Steps (mergesTable m) (img.symbols token) [a, b]

namespace Replayed

lemma empty : Replayed img 0 ∅ := ⟨by simp, by simp, by simp⟩

variable (h : Replayed img k m)
include h

lemma lt_length {a b c : TokenId} (hc : c ∈ m.lookup (a, b)) : c < img.vocab.length := by
  obtain ⟨-, token, hv, -⟩ := h.product a b c hc
  exact (List.getElem?_eq_some_iff.mp hv).1

lemma lt_u32Max {a b c : TokenId} (hc : c ∈ m.lookup (a, b)) : c < u32Max :=
  ((h.lt_length hc).trans_le img.vocab_le).trans (by decide)

lemma mem_table {a b : TokenId} {q : ℕ × TokenId} :
    q ∈ mergesTable m a b ↔ ∃ c ∈ m.lookup (a, b), q = (c, c) :=
  mem_mergesTable fun _ _ _ => h.lt_u32Max

/-- The recorded derivation, with the merge that ends it. -/
lemma bpe_symbols {c : TokenId} {token : List UInt8} (hc : c < k)
    (hp : img.Product c token) : bpe (mergesTable m) (img.symbols token) = [c] := by
  obtain ⟨a, b, hab, hrun⟩ := h.replay c token hc hp
  have hstep : Step (mergesTable m) [a, b] [c] :=
    .merge (u := []) (v := []) (h.mem_table.mpr ⟨c, hab, rfl⟩) (by simp) (.singleton _)
  exact eq_bpe (hrun.tail hstep) (by simp)

/-- A token that is skipped changes nothing. -/
lemma skip {token : List UInt8} (hk : img.vocab[k]? = some token)
    (hskip : img.skipped k token = true) : Replayed img (k + 1) m := by
  refine ⟨fun a b c hc => ?_, h.unique, fun c token' hlt hp => ?_⟩
  · obtain ⟨hlt, hp⟩ := h.product a b c hc
    exact ⟨Nat.lt_succ_of_lt hlt, hp⟩
  · refine h.replay c token' (lt_of_le_of_ne (Nat.lt_succ_iff.mp hlt) ?_) hp
    rintro rfl
    obtain rfl := Option.some.inj (hk.symm.trans hp.1)
    exact absurd (hskip.symm.trans hp.2) (by simp)

/-- The new pair has the largest rank, so the derivations so far are runs of the new
table. -/
lemma extends_insert {a b : TokenId} (hk : k < u32Max) (hnew : m.lookup (a, b) = none) :
    Extends (mergesTable m) (mergesTable (m.insert (a, b) k)) := by
  have hlt : ∀ a' b', ∀ c ∈ (m.insert (a, b) k).lookup (a', b'), c < u32Max := by
    intro a' b' c hc
    by_cases hab : (a', b') = (a, b)
    · rw [hab, AList.lookup_insert, Option.mem_some_iff] at hc
      exact hc ▸ hk
    · rw [AList.lookup_insert_ne hab] at hc
      exact h.lt_u32Max hc
  refine ⟨fun a' b' q hq => ?_, fun a' b' q hq => ?_⟩
  · obtain ⟨c, hc, rfl⟩ := h.mem_table.mp hq
    refine (mem_mergesTable hlt).mpr ⟨c, ?_, rfl⟩
    rwa [AList.lookup_insert_ne]
    rintro hab
    rw [hab, hnew] at hc
    cases hc
  · obtain ⟨c, hc, rfl⟩ := (mem_mergesTable hlt).mp hq
    by_cases hab : (a', b') = (a, b)
    · rw [hab, AList.lookup_insert, Option.mem_some_iff] at hc
      refine .inr fun a'' b'' q' hq' => ?_
      obtain ⟨c', hc', rfl⟩ := h.mem_table.mp hq'
      exact hc ▸ (h.product a'' b'' c' hc').1
    · rw [AList.lookup_insert_ne hab] at hc
      exact .inl (h.mem_table.mpr ⟨c, hc, rfl⟩)

/-- The step of the replay: a token whose base symbols encode to a new pair. -/
theorem insert {token : List UInt8} {a b : TokenId} (hp : img.Product k token)
    (hnew : m.lookup (a, b) = none) (hrun : bpe (mergesTable m) (img.symbols token) = [a, b]) :
    Replayed img (k + 1) (m.insert (a, b) k) := by
  have hk : k < u32Max :=
    ((List.getElem?_eq_some_iff.mp hp.1).1.trans_le img.vocab_le).trans (by decide)
  have hext := h.extends_insert hk hnew
  have hold : ∀ p c, c ∈ (m.insert (a, b) k).lookup p → p = (a, b) ∧ c = k ∨ c ∈ m.lookup p := by
    intro p c hc
    by_cases hab : p = (a, b)
    · rw [hab, AList.lookup_insert, Option.mem_some_iff] at hc
      exact .inl ⟨hab, hc.symm⟩
    · rw [AList.lookup_insert_ne hab] at hc
      exact .inr hc
  refine ⟨fun a' b' c hc => ?_, fun p p' c hc hc' => ?_, fun c token' hlt hp' => ?_⟩
  · obtain ⟨-, rfl⟩ | hc := hold _ c hc
    · exact ⟨Nat.lt_succ_self _, token, hp⟩
    · obtain ⟨hlt, hp'⟩ := h.product a' b' c hc
      exact ⟨Nat.lt_succ_of_lt hlt, hp'⟩
  · -- the products of the old pairs are below `k`
    obtain ⟨rfl, rfl⟩ | hc := hold p c hc <;> obtain ⟨rfl, hck⟩ | hc' := hold p' c hc'
    · rfl
    · exact absurd (h.product _ _ _ hc').1 (lt_irrefl _)
    · exact absurd (hck ▸ (h.product _ _ _ hc).1) (lt_irrefl _)
    · exact h.unique p p' c hc hc'
  · by_cases hck : c = k
    · subst hck
      obtain rfl := Option.some.inj (hp.1.symm.trans hp'.1)
      exact ⟨a, b, AList.lookup_insert m, hext.steps (hrun ▸ bpe_steps _ _)⟩
    · obtain ⟨a', b', hab, hrun'⟩ := h.replay c token' (lt_of_le_of_ne (Nat.lt_succ_iff.mp hlt) hck) hp'
      refine ⟨a', b', ?_, hext.steps hrun'⟩
      rwa [AList.lookup_insert_ne]
      rintro heq
      rw [heq, hnew] at hab
      cases hab

end Replayed

/-! ### The loops -/

lemma replay_eq {getRank : TokenId → TokenId → ℕ} (hget : ∀ a b, getRank a b ≤ u32Max)
    {symbols : List TokenId} (hn : symbols.length ≤ u32Max) :
    replay getRank symbols = bpe (rankTable getRank) symbols := by
  rw [replay, bpeMergeSymbolsByRank_eq hget hn, Option.getD_some]

/-- No token is longer than the arena. -/
lemma ByteImage.length_symbols_le {token : List UInt8} (h : token ∈ img.vocab) :
    (img.symbols token).length ≤ u32Max := by
  have hle := List.le_sum_of_mem (List.mem_map_of_mem (f := List.length) h)
  simpa [ByteImage.symbols] using hle.trans img.arena_le

lemma Replayed.replay_eq (h : Replayed img k m) {token : List UInt8} (htok : token ∈ img.vocab) :
    Hypertok.replay (mergesRank m) (img.symbols token) = bpe (mergesTable m) (img.symbols token) :=
  Hypertok.replay_eq (mergesRank_le fun _ _ _ hc => (h.lt_u32Max hc).le)
    (img.length_symbols_le htok)

lemma drop_eq_cons {α : Type*} {xs l : List α} {x : α} {k : ℕ} (h : xs.drop k = x :: l) :
    xs[k]? = some x ∧ xs.drop (k + 1) = l :=
  ⟨by rw [← List.head?_drop, h, List.head?_cons], by rw [← List.tail_drop, h, List.tail_cons]⟩

/-- The rule of the loop: what a skipped token and a new pair preserve holds at the
end. -/
theorem mergesLoop_inv {I : ℕ → Merges → Prop} (h₀ : I 0 ∅)
    (hskip : ∀ k m token, I k m → img.vocab[k]? = some token → img.skipped k token = true →
      I (k + 1) m)
    (hinsert : ∀ k m token a b, I k m → img.Product k token → m.lookup (a, b) = none →
      replay (mergesRank m) (img.symbols token) = [a, b] → I (k + 1) (m.insert (a, b) k))
    (hrun : reconstructIdMerges img = .ok m) : I img.vocab.length m := by
  have hloop : ∀ (l : List (List UInt8)) (k : ℕ) (m₀ : Merges), img.vocab.drop k = l →
      k + l.length = img.vocab.length → I k m₀ → mergesLoop img (l.zipIdx k) m₀ = .ok m →
      I img.vocab.length m := by
    intro l
    induction l with
    | nil =>
        intro k m₀ _ hlen h hrun
        rw [List.zipIdx_nil, mergesLoop, Except.ok.injEq] at hrun
        exact hlen ▸ hrun ▸ h
    | cons token l ih =>
        intro k m₀ hl hlen h hrun
        obtain ⟨hk, hl'⟩ := drop_eq_cons hl
        have hlen' : k + 1 + l.length = img.vocab.length := by rw [← hlen, List.length_cons]; omega
        rw [List.zipIdx_cons, mergesLoop] at hrun
        split_ifs at hrun with hs
        · exact ih _ _ hl' hlen' (hskip k m₀ token h hk hs) hrun
        · split at hrun
          case h_1 left right hreplay =>
              split_ifs at hrun with hdup
              exact ih _ _ hl' hlen' (hinsert k m₀ token left right h ⟨hk, by simpa using hs⟩
                (by simpa using hdup) hreplay) hrun
          case h_2 => cases hrun
  exact hloop _ 0 ∅ List.drop_zero (Nat.zero_add _) h₀ hrun

/-- `reconstruct_id_merges` keeps the invariant to its end. -/
theorem reconstructIdMerges_replayed (h : reconstructIdMerges img = .ok m) :
    Replayed img img.vocab.length m := by
  refine mergesLoop_inv .empty (fun k m token h => h.skip) (fun k m token a b h hp hnew hrun => ?_) h
  exact h.insert hp hnew ((h.replay_eq (List.mem_of_getElem? hp.1)).symm.trans hrun)

/-- The table and the map encode alike, and to ids that fit. -/
lemma PairRankTable.Holds.bpe_rank {t : PairRankTable} {room : ℕ} (ht : t.Holds m room)
    {s : List TokenId} (hs : ∀ id ∈ s, PairRankTable.Fits id) :
    bpe (rankTable t.rank) s = bpe (mergesTable m) s ∧
      ∀ id ∈ bpe (mergesTable m) s, PairRankTable.Fits id := by
  have hlt : ∀ a b, ∀ c ∈ m.lookup (a, b), c < u32Max := fun a b c hc =>
    (ht.fits a b c hc).2.2.trans (by decide)
  have hclosed : ∀ a b, PairRankTable.Fits a → PairRankTable.Fits b →
      ∀ q ∈ mergesTable m a b, PairRankTable.Fits q.2 := by
    intro a b _ _ q hq
    obtain ⟨c, hc, rfl⟩ := (mem_mergesTable hlt).mp hq
    exact (ht.fits a b c hc).2.2
  have htable : ∀ a b, PairRankTable.Fits a → PairRankTable.Fits b →
      mergesTable m a b = rankTable t.rank a b := by
    intro a b ha hb
    simp only [mergesTable, rankTable, ht.rank ha hb]
  exact ⟨(bpe_congr htable hclosed hs).symm, (bpe_steps _ _).forall_mem hclosed hs⟩

lemma ByteImage.symbols_fits (hlen : img.vocab.length ≤ 2 ^ 21) (bytes : List UInt8) :
    ∀ id ∈ img.symbols bytes, PairRankTable.Fits id := by
  simp only [ByteImage.symbols, List.mem_map]
  rintro _ ⟨b, -, rfl⟩
  exact (img.base_lt b).trans_le hlen

/-- The two loops in step: the table holds the map as long as it takes the pairs, and
the checks of the one are those of the other. -/
theorem pairRanksLoop_sim (resolverTrusted : Bool) (hlen : img.vocab.length ≤ 2 ^ 21)
    {l : List (List UInt8)} (hl : img.vocab.drop k = l) (h : Replayed img k m)
    {t : PairRankTable} (ht : t.Holds m (mergeCount img (l.zipIdx k))) :
    (∃ e, mergesLoop img (l.zipIdx k) m = .error e ∧
        (resolverTrusted = false → pairRanksLoop img resolverTrusted (l.zipIdx k) t = .error e)) ∨
      pairRanksLoop img resolverTrusted (l.zipIdx k) t = .ok none ∨
      ∃ t' m', pairRanksLoop img resolverTrusted (l.zipIdx k) t = .ok (some t') ∧
        mergesLoop img (l.zipIdx k) m = .ok m' ∧ t'.Holds m' 0 := by
  induction l generalizing k m t with
  | nil => exact .inr (.inr ⟨t, m, rfl, rfl, ht⟩)
  | cons token l ih =>
      obtain ⟨hk, hl'⟩ := drop_eq_cons hl
      have htok := List.mem_of_getElem? hk
      rw [List.zipIdx_cons, mergesLoop, pairRanksLoop]
      by_cases hskip : img.skipped k token = true
      · rw [if_pos hskip, if_pos hskip]
        rw [List.zipIdx_cons, mergeCount, List.countP_cons_of_neg (by simp [hskip])] at ht
        exact ih hl' (h.skip hk hskip) ht
      rw [if_neg hskip, if_neg hskip]
      obtain ⟨hbpe, hfits⟩ := ht.bpe_rank (img.symbols_fits hlen token)
      rw [replay_eq ht.rank_le (img.length_symbols_le htok), hbpe, h.replay_eq htok]
      rw [List.zipIdx_cons, mergeCount, List.countP_cons_of_pos (by simpa using hskip)] at ht
      match hbpe : bpe (mergesTable m) (img.symbols token), hfits with
      | [left, right], hfits =>
          have hrank := ht.rank (hfits left (by simp)) (hfits right (by simp))
          cases hold : m.lookup (left, right) with
          | some c =>
              have hc : c ≠ u32Max := (h.lt_u32Max hold).ne
              refine .inl ⟨_, by simp [hold]; rfl, ?_⟩
              rintro rfl
              simp [hrank, mergesRank, hold, hc]
          | none =>
              have hmax : t.rank left right = u32Max := by simp [hrank, mergesRank, hold]
              cases hins : t.insert left right k with
              | none => exact .inr (.inl (by simp [hmax, hins]))
              | some t' =>
                  have hp : img.Product k token := ⟨hk, by simpa using hskip⟩
                  simpa [hold, hmax, hins] using
                    ih hl' (h.insert hp hold hbpe) (ht.insert hold hins)
      | [], _ => exact .inl ⟨_, rfl, by rintro rfl; rfl⟩
      | [_], _ => exact .inl ⟨_, rfl, by rintro rfl; rfl⟩
      | _ :: _ :: _ :: _, _ => exact .inl ⟨_, rfl, by rintro rfl; simp⟩

lemma mergeCount_le (img : ByteImage) : mergeCount img img.vocab.zipIdx ≤ img.vocab.length :=
  List.countP_le_length.trans_eq List.length_zipIdx

/-- The two reconstructions side by side, where the table is not too small. -/
theorem reconstruct_sim (img : ByteImage) (compact resolverTrusted : Bool) :
    (∃ e, reconstructIdMerges img = .error e ∧
        (resolverTrusted = false →
          reconstructIdPairRanks img compact resolverTrusted = .error e)) ∨
      reconstructIdPairRanks img compact resolverTrusted = .ok none ∨
      ∃ t m, reconstructIdPairRanks img compact resolverTrusted = .ok (some t) ∧
        reconstructIdMerges img = .ok m ∧ t.Holds m 0 ∧ img.vocab.length ≤ 2 ^ 21 := by
  rw [reconstructIdMerges, reconstructIdPairRanks]
  cases hcap : PairRankTable.withCapacity compact img.vocab.length
      (mergeCount img img.vocab.zipIdx) with
  | none => exact .inr (.inl rfl)
  | some t =>
      have hlen := (PairRankTable.withCapacity_eq_some hcap).1
      have ht := PairRankTable.withCapacity_holds hcap
        ((mergeCount_le img).trans (hlen.trans (by decide)))
      obtain herr | hnone | ⟨t', m, hpair, hmerges, ht'⟩ :=
        pairRanksLoop_sim resolverTrusted hlen List.drop_zero .empty ht
      · exact .inl herr
      · exact .inr (.inl hnone)
      · exact .inr (.inr ⟨t', m, hpair, hmerges, ht', hlen⟩)

/-- Replay reconstructs one merge table, whichever way it is stored. A token of two or
more bytes that is not special has one pair, and under the complete table its bytes
encode to the token. -/
theorem reconstruct_replays (img : ByteImage) (compact : Bool) :
    (∀ t, reconstructIdPairRanks img compact false = .ok (some t) →
      ∃ m, reconstructIdMerges img = .ok m) ∧
    (∀ e, reconstructIdPairRanks img compact false = .error e →
      reconstructIdMerges img = .error e) ∧
    ∀ m, reconstructIdMerges img = .ok m →
      (∀ resolverTrusted,
        reconstructIdPairRanks img compact resolverTrusted = .ok none ∨
          ∃ t, reconstructIdPairRanks img compact resolverTrusted = .ok (some t) ∧
            (∀ a b, a < img.vocab.length → b < img.vocab.length →
              t.rank a b = mergesRank m a b) ∧
            ∀ id token, img.Product id token →
              bpe (rankTable t.rank) (img.symbols token) = [id]) ∧
      ∀ id token, img.Product id token →
        (∃! p, id ∈ m.lookup p) ∧ bpe (mergesTable m) (img.symbols token) = [id] := by
  refine ⟨fun t ht => ?_, fun e he => ?_, fun m hm => ?_⟩
  · obtain ⟨e, -, herr⟩ | hnone | ⟨-, m, -, hm, -⟩ := reconstruct_sim img compact false
    · cases ht.symm.trans (herr rfl)
    · cases ht.symm.trans hnone
    · exact ⟨m, hm⟩
  · obtain ⟨e', hm, herr⟩ | hnone | ⟨t, -, hpair, -⟩ := reconstruct_sim img compact false
    · cases he.symm.trans (herr rfl)
      exact hm
    · cases he.symm.trans hnone
    · cases he.symm.trans hpair
  have h := reconstructIdMerges_replayed hm
  have hbpe : ∀ id token, img.Product id token →
      bpe (mergesTable m) (img.symbols token) = [id] := fun id token hp =>
    h.bpe_symbols (List.getElem?_eq_some_iff.mp hp.1).1 hp
  refine ⟨fun resolverTrusted => ?_, fun id token hp => ⟨?_, hbpe id token hp⟩⟩
  · obtain ⟨e, herr, -⟩ | hnone | ⟨t, m', hpair, hm', ht, hlen⟩ :=
      reconstruct_sim img compact resolverTrusted
    · cases hm.symm.trans herr
    · exact .inl hnone
    · cases hm.symm.trans hm'
      refine .inr ⟨t, hpair, fun a b ha hb => ht.rank (ha.trans_le hlen) (hb.trans_le hlen),
        fun id token hp => ?_⟩
      rw [(ht.bpe_rank (img.symbols_fits hlen token)).1, hbpe id token hp]
  · obtain ⟨a, b, hab, -⟩ := h.replay id token (List.getElem?_eq_some_iff.mp hp.1).1 hp
    exact ⟨(a, b), hab, fun p hp' => h.unique _ _ _ hp' hab⟩

/-- The bytes, then `bc` (256) and `abc` (257). -/
def abcImage : ByteImage where
  vocab := (List.range 256).map (fun b => [UInt8.ofNat b]) ++ [[98, 99], [97, 98, 99]]
  base b := b.toNat
  specials := ∅
  vocab_le := by decide +kernel
  arena_le := by decide +kernel
  base_lt b := b.toNat_lt.trans (by simp)

/-- `reconstruct_replays` on a vocabulary with two merges: both reconstructions succeed,
and `abc` encodes to its id. -/
theorem reconstruct_abcImage :
    ∃ m, reconstructIdMerges abcImage = .ok m ∧ bpe (mergesTable m) [97, 98, 99] = [257] ∧
      ∃ t, reconstructIdPairRanks abcImage false false = .ok (some t) ∧
        t.rank 97 256 = mergesRank m 97 256 := by
  have hsome : ∀ x : Except HtkLoadError (Option PairRankTable),
      (x.toOption.bind id).isSome → ∃ t, x = .ok (some t) := by
    rintro (e | _ | t) hx
    · cases hx
    · cases hx
    · exact ⟨t, rfl⟩
  obtain ⟨t, ht⟩ := hsome (reconstructIdPairRanks abcImage false false) (by decide +kernel)
  obtain ⟨m, hm⟩ := (reconstruct_replays abcImage false).1 t ht
  obtain ⟨hpair, hproduct⟩ := (reconstruct_replays abcImage false).2.2 m hm
  refine ⟨m, hm, (hproduct 257 [97, 98, 99] ⟨by decide +kernel, by decide⟩).2, t, ht, ?_⟩
  obtain hnone | ⟨t', ht', hrank, -⟩ := hpair false
  · cases ht.symm.trans hnone
  · cases ht.symm.trans ht'
    exact hrank 97 256 (by decide +kernel) (by decide +kernel)

end Hypertok
