import Hypertok.Bpe.PairImage
import Hypertok.Load.HfOrder

/-!
The order in which the vocabulary of a byte-level `tokenizer.json` is iterated. It chooses one id
for the bytes of a string, and any choice is that of some order.

* `loadedMerges_congr`, `firstProduct_eq`: when two choices load the same merges.
* `HfJson.BpeOrderFree`: what a file must have for the order not to matter.
* `bpeOrderFree_iff`: it does not matter just then.
* `loadHfSlice_order_iff`: both kinds of files.
* `loadHfSlice_order_matters`: a string in two spellings.
-/

namespace Hypertok

open PairMerge Machine

/-! ### The merges of a choice -/

section

variable {κ β α : Type} [DecidableEq κ]

/-- A value that differs is never the first of its key. -/
lemma foldl_orInsert_congr (key : α → κ) {value value' : α → β} {l : List α}
    {m : AList fun _ : κ => β} (h : ∀ front x back, l = front ++ x :: back →
      value x = value' x ∨ (∃ y ∈ front, key y = key x) ∨ (m.lookup (key x)).isSome) :
    (l.map fun x => (key x, value x)).foldl orInsert m =
      (l.map fun x => (key x, value' x)).foldl orInsert m := by
  induction l generalizing m with
  | nil => rfl
  | cons x l ih =>
      have hstep : orInsert m (key x, value x) = orInsert m (key x, value' x) := by
        obtain heq | ⟨y, hy, -⟩ | hsome := h [] x l rfl
        · rw [heq]
        · cases hy
        · rw [orInsert, if_pos hsome, orInsert, if_pos hsome]
      have hkeep : ∀ k, k = key x ∨ (m.lookup k).isSome →
          ((orInsert m (key x, value' x)).lookup k).isSome := by
        intro k hk
        rw [orInsert]
        split_ifs with hx
        · obtain rfl | hk := hk
          · exact hx
          · exact hk
        · by_cases hkx : k = key x
          · rw [hkx, AList.lookup_insert]
            rfl
          · rw [AList.lookup_insert_ne hkx]
            exact hk.resolve_left hkx
      rw [List.map_cons, List.map_cons, List.foldl_cons, List.foldl_cons, hstep]
      refine ih fun front y back hl => ?_
      obtain heq | ⟨z, hz, hkey⟩ | hsome := h (x :: front) y back (by rw [hl, List.cons_append])
      · exact .inl heq
      · obtain rfl | hz := List.mem_cons.mp hz
        · exact .inr (.inr (hkeep _ (.inl hkey.symm)))
        · exact .inr (.inl ⟨z, hz, hkey⟩)
      · exact .inr (.inr (hkeep _ (.inr hsome)))

end

/-- The merges of `build_bpe`, from the known ones. -/
def loadedMerges (compact : Bool) (entries : List (TokenId × TokenId × TokenId)) (vocabLen : ℕ) :
    LoadedMerges :=
  if idOrderOk entries then idMerges compact entries vocabLen else rankMerges entries

/-- A merge over bytes, with the ids that are chosen for its parts and its product. -/
def entryOf (f : List UInt8 → TokenId) (m : List UInt8 × List UInt8) :
    TokenId × TokenId × TokenId :=
  (f m.1, f m.2, f (m.1 ++ m.2))

variable {compact : Bool} {vocabLen : ℕ}

/-- Two choices load the same merges, if they agree in the parts and in the products that are
the first of their parts. -/
lemma loadedMerges_congr {f f' : List UInt8 → TokenId} {known : List (List UInt8 × List UInt8)}
    (hparts : ∀ m ∈ known, f m.1 = f' m.1 ∧ f m.2 = f' m.2)
    (hproduct : ∀ front m back, known = front ++ m :: back → f (m.1 ++ m.2) = f' (m.1 ++ m.2) ∨
      ∃ m' ∈ front, f m'.1 = f m.1 ∧ f m'.2 = f m.2)
    (horder : idOrderOk (known.map (entryOf f)) = idOrderOk (known.map (entryOf f'))) :
    loadedMerges compact (known.map (entryOf f)) vocabLen =
      loadedMerges compact (known.map (entryOf f')) vocabLen := by
  have hid : ((known.map (entryOf f)).map fun e => ((e.1, e.2.1), e.2.2)).foldl orInsert
      (∅ : Merges) =
        ((known.map (entryOf f')).map fun e => ((e.1, e.2.1), e.2.2)).foldl orInsert ∅ := by
    have hkeys : (known.map (entryOf f')).map (fun e => ((e.1, e.2.1), e.2.2)) =
        known.map fun m => ((f m.1, f m.2), f' (m.1 ++ m.2)) := by
      rw [List.map_map]
      refine List.map_congr_left fun m hm => ?_
      rw [(hparts m hm).1, (hparts m hm).2]
      rfl
    rw [hkeys, List.map_map]
    refine foldl_orInsert_congr (fun m : List UInt8 × List UInt8 => (f m.1, f m.2))
      fun front m back hl => ?_
    obtain heq | ⟨m', hm', hleft, hright⟩ := hproduct front m back hl
    · exact .inl heq
    · exact .inr (.inl ⟨m', hm', by rw [hleft, hright]⟩)
  have hrank : rankMerges (known.map (entryOf f)) = rankMerges (known.map (entryOf f')) := by
    have hkeys : (known.map (entryOf f')).zipIdx.map (fun x =>
        (rankedMergeKey x.1.1 x.1.2.1, (x.1.2.2, x.2 % 2 ^ 32))) =
        known.zipIdx.map fun x => (rankedMergeKey (f x.1.1) (f x.1.2),
          (f' (x.1.1 ++ x.1.2), x.2 % 2 ^ 32)) := by
      rw [List.zipIdx_map, List.map_map]
      refine List.map_congr_left fun x hx => ?_
      obtain ⟨hleft, hright⟩ := hparts x.1 (List.fst_mem_of_mem_zipIdx hx)
      rw [hleft, hright]
      rfl
    rw [rankMerges, rankMerges, hkeys, List.zipIdx_map, List.map_map]
    refine congrArg LoadedMerges.ranked (foldl_orInsert_congr
      (fun x : (List UInt8 × List UInt8) × ℕ => rankedMergeKey (f x.1.1) (f x.1.2))
      fun front x back hl => ?_)
    have hknown : known = front.map Prod.fst ++ x.1 :: back.map Prod.fst := by
      rw [← List.zipIdx_map_fst 0 known, hl, List.map_append, List.map_cons]
    obtain heq | ⟨m', hm', hleft, hright⟩ := hproduct _ _ _ hknown
    · exact .inl (Prod.ext heq rfl)
    · obtain ⟨y, hy, rfl⟩ := List.mem_map.mp hm'
      exact .inr (.inl ⟨y, hy, by rw [hleft, hright]⟩)
  rw [loadedMerges, loadedMerges, horder, hrank, idMerges, idMerges, hid]

/-- The product of the first merge of two ids. -/
def firstProduct (entries : List (TokenId × TokenId × TokenId)) (a b : TokenId) : Option TokenId :=
  (entries.find? fun e => e.1 = a ∧ e.2.1 = b).map fun e => e.2.2

/-- A table of the merges by id knows their map. -/
lemma lookup_of_idMerges {l l' : List (TokenId × TokenId × TokenId)}
    (h : idMerges compact l vocabLen = idMerges compact l' vocabLen) (a b : TokenId) :
    firstProduct l a b = firstProduct l' a b := by
  have hlookup : ∀ l : List (TokenId × TokenId × TokenId), firstProduct l a b =
      ((l.map fun e => ((e.1, e.2.1), e.2.2)).foldl orInsert (∅ : Merges)).lookup (a, b) := by
    intro l
    have hempty : (∅ : Merges).lookup (a, b) = none := rfl
    rw [lookup_foldl_orInsert, hempty, Option.none_or, List.find?_map, Option.map_map, firstProduct]
    simp only [Function.comp_def, Prod.mk.injEq]
  rw [hlookup, hlookup]
  rw [idMerges, idMerges] at h
  generalize (l.map fun e => ((e.1, e.2.1), e.2.2)).foldl orInsert (∅ : Merges) = m at h ⊢
  generalize (l'.map fun e => ((e.1, e.2.1), e.2.2)).foldl orInsert (∅ : Merges) = m' at h ⊢
  cases hbuild : PairRankTable.build compact m vocabLen with
  | none =>
      cases hbuild' : PairRankTable.build compact m' vocabLen with
      | none =>
          simp only [hbuild, hbuild'] at h
          injection h with h
          injection h with h
          rw [h]
      | some t' => simp [hbuild, hbuild'] at h
  | some t =>
      cases hbuild' : PairRankTable.build compact m' vocabLen with
      | none => simp [hbuild, hbuild'] at h
      | some t' =>
          simp only [hbuild, hbuild'] at h
          injection h with h
          injection h with h
          subst h
          have ht := (PairRankTable.build_holds hbuild (length_le_of_build hbuild)).2
          have ht' := (PairRankTable.build_holds hbuild' (length_le_of_build hbuild')).2
          exact Option.ext fun c => ht.mem_entries.symm.trans ht'.mem_entries

/-- A table of the merges by place knows the first product of each pair. -/
lemma lookup_of_rankMerges {l l' : List (TokenId × TokenId × TokenId)}
    (h : rankMerges l = rankMerges l') (hl : ∀ e ∈ l, e.2.1 < 2 ^ 32)
    (hl' : ∀ e ∈ l', e.2.1 < 2 ^ 32) (a : TokenId) {b : TokenId} (hb : b < 2 ^ 32) :
    firstProduct l a b = firstProduct l' a b := by
  have hlookup : ∀ l : List (TokenId × TokenId × TokenId), (∀ e ∈ l, e.2.1 < 2 ^ 32) →
      firstProduct l a b = (((l.zipIdx.map fun x => (rankedMergeKey x.1.1 x.1.2.1,
        (x.1.2.2, x.2 % 2 ^ 32))).foldl orInsert (∅ : RankedMerges)).lookup
          (rankedMergeKey a b)).map Prod.fst := by
    intro l hl
    have hempty : (∅ : RankedMerges).lookup (rankedMergeKey a b) = none := rfl
    have hkey : ∀ x ∈ l.zipIdx, decide (rankedMergeKey x.1.1 x.1.2.1 = rankedMergeKey a b) =
        decide (x.1.1 = a ∧ x.1.2.1 = b) := by
      intro x hx
      rw [decide_eq_decide]
      exact ⟨rankedMergeKey_inj (hl x.1 (List.fst_mem_of_mem_zipIdx hx)) hb,
        fun heq => by rw [heq.1, heq.2]⟩
    rw [lookup_foldl_orInsert, hempty, Option.none_or, List.find?_map, Option.map_map,
      Option.map_map, firstProduct]
    conv_lhs => rw [← List.zipIdx_map_fst 0 l, List.find?_map, Option.map_map]
    exact congrArg _ (List.find?_congr fun x hx => (hkey x hx).symm)
  rw [rankMerges, rankMerges] at h
  injection h with h
  rw [hlookup l hl, hlookup l' hl', h]

/-- What merges that load alike have in common. -/
lemma firstProduct_eq {l l' : List (TokenId × TokenId × TokenId)}
    (h : loadedMerges compact l vocabLen = loadedMerges compact l' vocabLen)
    (hl : ∀ e ∈ l, e.2.1 < 2 ^ 32) (hl' : ∀ e ∈ l', e.2.1 < 2 ^ 32) :
    idOrderOk l = idOrderOk l' ∧ ∀ a b, b < 2 ^ 32 → firstProduct l a b = firstProduct l' a b := by
  have hne : ∀ l l', idMerges compact l vocabLen ≠ rankMerges l' := by
    intro l l' heq
    rw [idMerges, rankMerges] at heq
    split at heq <;> cases heq
  rw [loadedMerges, loadedMerges] at h
  cases hok : idOrderOk l with
  | true =>
      cases hok' : idOrderOk l' with
      | true =>
          rw [hok, hok', if_pos rfl, if_pos rfl] at h
          exact ⟨rfl, fun a b _ => lookup_of_idMerges h a b⟩
      | false =>
          rw [hok, hok', if_pos rfl, if_neg (by simp)] at h
          exact absurd h (hne l l')
  | false =>
      cases hok' : idOrderOk l' with
      | true =>
          rw [hok, hok', if_neg (by simp), if_pos rfl] at h
          exact absurd h.symm (hne l' l)
      | false =>
          rw [hok, hok', if_neg (by simp), if_neg (by simp)] at h
          exact ⟨rfl, fun a b hb => lookup_of_rankMerges h hl hl' a hb⟩

/-! ### The choices of an order -/

namespace HfJson

variable (json : HfJson)

/-- A string with these bytes has the id. -/
def HasId (p : List UInt8) (id : TokenId) : Prop :=
  ∃ s, (s, id) ∈ json.vocab.toList ∧ unicodeToBytes s = p

/-- The bytes of a string of the vocabulary. -/
def isKnown (p : List UInt8) : Bool := json.vocab.toList.any fun x => unicodeToBytes x.1 = p

/-- The merges of known parts and product, over bytes. -/
def known : List (List UInt8 × List UInt8) :=
  (json.merges.map fun m => (unicodeToBytes m.1, unicodeToBytes m.2)).filter fun m =>
    json.isKnown m.1 && json.isKnown m.2 && json.isKnown (m.1 ++ m.2)

/-- A choice of one id for the bytes of each string. -/
def Assigns (f : List UInt8 → TokenId) : Prop := ∀ p id, json.HasId p id → json.HasId p (f p)

/-- The choice of the order at hand. -/
def idIn (p : List UInt8) : TokenId := (json.readVocab.inv.lookup p).getD 0

variable {json} {p : List UInt8} {id : TokenId} {f : List UInt8 → TokenId}

lemma isKnown_iff : json.isKnown p = true ↔ ∃ id, json.HasId p id := by
  rw [isKnown, List.any_eq_true]
  constructor
  · rintro ⟨⟨s, id⟩, hs, hp⟩
    exact ⟨id, s, hs, of_decide_eq_true hp⟩
  · rintro ⟨id, s, hs, hp⟩
    exact ⟨(s, id), hs, decide_eq_true hp⟩

lemma hasId_lt (h : json.HasId p id) : id < 2 ^ 32 := by
  obtain ⟨s, hs, -⟩ := h
  exact json.vocab_lt _ hs

lemma mem_bytesWrite : (p, id) ∈ json.vocab.toList.map (bytesWrite unicodeToBytes) ↔
    json.HasId p id := by
  rw [List.mem_map]
  constructor
  · rintro ⟨⟨s, id'⟩, hs, heq⟩
    obtain ⟨rfl, rfl⟩ := Prod.mk.inj heq
    exact ⟨s, hs, rfl⟩
  · rintro ⟨s, hs, rfl⟩
    exact ⟨(s, id), hs, rfl⟩

lemma lookup_readVocab (json : HfJson) (p : List UInt8) : json.readVocab.inv.lookup p =
    lastValue (json.vocab.toList.map (bytesWrite unicodeToBytes)) p := by
  rw [readVocab_eq, lookup_foldl_writeVocab]

/-- Known bytes are found. -/
lemma lookup_of_hasId (h : json.HasId p id) : json.readVocab.inv.lookup p = some (json.idIn p) := by
  obtain ⟨id', hid'⟩ := exists_lastValue (mem_bytesWrite.mpr h)
  rw [idIn, lookup_readVocab, hid', Option.getD_some]

lemma assigns_idIn (json : HfJson) : json.Assigns json.idIn := by
  intro p id h
  have hlookup := lookup_of_hasId h
  rw [lookup_readVocab] at hlookup
  exact mem_bytesWrite.mp (mem_of_lastValue hlookup)

lemma lookup_of_not_known (h : json.isKnown p = false) : json.readVocab.inv.lookup p = none := by
  rw [lookup_readVocab]
  refine lastValue_eq_none.mpr fun id hid => ?_
  rw [isKnown_iff.mpr ⟨id, mem_bytesWrite.mp hid⟩] at h
  cases h

lemma mem_known {m : List UInt8 × List UInt8} (h : m ∈ json.known) :
    (∃ id, json.HasId m.1 id) ∧ (∃ id, json.HasId m.2 id) ∧ ∃ id, json.HasId (m.1 ++ m.2) id := by
  have hknown := (List.mem_filter.mp h).2
  rw [Bool.and_eq_true, Bool.and_eq_true, isKnown_iff, isKnown_iff, isKnown_iff] at hknown
  exact ⟨hknown.1.1, hknown.1.2, hknown.2⟩

/-- The merges of the loader are those that are known, in the ids that the order chooses. -/
lemma entries_eq_known (json : HfJson) : json.entries = json.known.map (entryOf json.idIn) := by
  have hentry : ∀ m : Text × Text, mergeEntry json.readVocab.inv m =
      if json.isKnown (unicodeToBytes m.1) && json.isKnown (unicodeToBytes m.2) &&
          json.isKnown (unicodeToBytes m.1 ++ unicodeToBytes m.2) then
        some (entryOf json.idIn (unicodeToBytes m.1, unicodeToBytes m.2)) else none := by
    intro m
    have hfound : ∀ {p}, json.isKnown p = true →
        json.readVocab.inv.lookup p = some (json.idIn p) := fun hp => by
      obtain ⟨id, hid⟩ := isKnown_iff.mp hp
      exact lookup_of_hasId hid
    rw [mergeEntry]
    cases hleft : json.isKnown (unicodeToBytes m.1) with
    | false =>
        rw [lookup_of_not_known hleft]
        rfl
    | true =>
        rw [hfound hleft]
        cases hright : json.isKnown (unicodeToBytes m.2) with
        | false =>
            rw [lookup_of_not_known hright]
            rfl
        | true =>
            rw [hfound hright]
            cases hproduct : json.isKnown (unicodeToBytes m.1 ++ unicodeToBytes m.2) with
            | false =>
                rw [lookup_of_not_known hproduct]
                rfl
            | true =>
                rw [hfound hproduct]
                rfl
  rw [entries, known]
  induction json.merges with
  | nil => rfl
  | cons m merges ih =>
      rw [List.filterMap_cons, hentry, List.map_cons, List.filter_cons]
      split_ifs
      · rw [ih, List.map_cons]
      · exact ih

section

variable {vocab : VocabMap} (h : vocab.toList.Perm json.vocab.toList)

lemma hasId_reordered : (json.reordered vocab h).HasId p id ↔ json.HasId p id := by
  simp only [HasId, mem_reordered]

lemma known_reordered : (json.reordered vocab h).known = json.known := by
  have hknown : (json.reordered vocab h).isKnown = json.isKnown := by
    funext p
    exact h.any_eq
  rw [known, known, hknown]
  rfl

lemma entries_reordered : (json.reordered vocab h).entries =
    json.known.map (entryOf (json.reordered vocab h).idIn) := by
  rw [entries_eq_known, known_reordered]

lemma assigns_reordered : json.Assigns (json.reordered vocab h).idIn := by
  intro p id hid
  rw [← hasId_reordered h] at hid ⊢
  exact assigns_idIn _ p id hid

end

/-- Every choice is that of some order. -/
lemma Assigns.exists_order (hf : json.Assigns f) :
    ∃ vocab, ∃ h : vocab.toList.Perm json.vocab.toList,
      (json.reordered vocab h).entries = json.known.map (entryOf f) := by
  obtain ⟨vocab, h, hlist⟩ :=
    exists_reordered json fun x => decide (f (unicodeToBytes x.1) = x.2)
  refine ⟨vocab, h, ?_⟩
  have hchoice : ∀ p, (∃ id, json.HasId p id) → (json.reordered vocab h).idIn p = f p := by
    rintro p ⟨id, hid⟩
    obtain ⟨s, hs, rfl⟩ := hf p id hid
    have hlast := lastValue_filter (f := bytesWrite unicodeToBytes)
      (p := fun x => decide (f (unicodeToBytes x.1) = x.2)) hs (decide_eq_true rfl)
      fun y _ hy hkey => by
        have hy' : f (unicodeToBytes y.1) = y.2 := of_decide_eq_true hy
        have hkey' : unicodeToBytes y.1 = unicodeToBytes s := hkey
        rw [hkey'] at hy'
        exact hy'.symm
    rw [bytesWrite] at hlast
    rw [idIn, lookup_readVocab, hlist, hlast, Option.getD_some]
  rw [entries_reordered]
  refine List.map_congr_left fun m hm => ?_
  obtain ⟨hleft, hright, hproduct⟩ := mem_known hm
  rw [entryOf, entryOf, hchoice _ hleft, hchoice _ hright, hchoice _ hproduct]

end HfJson

/-! ### Byte-level files -/

namespace HfJson

/-- The strings with these bytes have one id. -/
def Fixed (json : HfJson) (p : List UInt8) : Prop :=
  ∀ id id', json.HasId p id → json.HasId p id' → id = id'

/-- Strings with these bytes share an id. -/
def SameId (json : HfJson) (p q : List UInt8) : Prop := ∃ id, json.HasId p id ∧ json.HasId q id

/-- The order of the vocabulary does not matter to a byte-level file. -/
structure BpeOrderFree (json : HfJson) : Prop where
  slot : ∀ p q id, json.HasId p id → json.HasId q id → json.fill id p = json.fill id q
  parts : ∀ m ∈ json.known, json.Fixed m.1 ∧ json.Fixed m.2
  product : ∀ front m back, json.known = front ++ m :: back → json.Fixed (m.1 ++ m.2) ∨
    ∃ m' ∈ front, json.SameId m'.1 m.1 ∧ json.SameId m'.2 m.2
  order : ∀ f f', json.Assigns f → json.Assigns f' →
    idOrderOk (json.known.map (entryOf f)) = idOrderOk (json.known.map (entryOf f'))

variable {json : HfJson} {p q : List UInt8} {id : TokenId} {f f' : List UInt8 → TokenId}

lemma fill_of_ne_nil (hp : p ≠ []) : json.fill id p = p := by
  rw [fill]
  refine List.foldlRecOn (motive := (· = p)) _ _ rfl fun p' hp' token _ => ?_
  rw [hp', if_neg fun h => hp h.2]

lemma fixed_nil : json.Fixed [] := by
  rintro id id' ⟨s, hs, hnil⟩ ⟨s', hs', hnil'⟩
  rw [unicodeToBytes_eq_nil hnil] at hs
  rw [unicodeToBytes_eq_nil hnil'] at hs'
  exact VocabMap.id_unique hs hs'

lemma Assigns.update (hf : json.Assigns f) (hid : json.HasId p id) :
    json.Assigns (Function.update f p id) := by
  intro q id' hq
  by_cases hqp : q = p
  · rw [hqp, Function.update_self]
    exact hid
  · rw [Function.update_of_ne hqp]
    exact hf q id' hq

/-- Two choices agree where there is one id. -/
lemma Fixed.eq (h : json.Fixed p) (hf : json.Assigns f) (hf' : json.Assigns f')
    (hp : ∃ id, json.HasId p id) : f p = f' p := by
  obtain ⟨id, hid⟩ := hp
  exact h _ _ (hf p id hid) (hf' p id hid)

/-- The slot of an id may have any of its strings. -/
lemma HasId.exists_order (hp : json.HasId p id) :
    ∃ vocab, ∃ h : vocab.toList.Perm json.vocab.toList,
      (json.reordered vocab h).readVocab.slots.getD id [] = p := by
  obtain ⟨s, hs, rfl⟩ := hp
  obtain ⟨vocab, h, hlist⟩ := exists_reordered json fun x => decide (x.1 = s)
  have hlast := lastValue_filter (f := slotWrite unicodeToBytes)
    (p := fun x => decide (x.1 = s)) hs (decide_eq_true rfl)
    fun y _ hy _ => by rw [slotWrite, slotWrite, of_decide_eq_true hy]
  rw [slotWrite] at hlast
  refine ⟨vocab, h, ?_⟩
  rw [readVocab_eq, getD_foldl_writeVocab _
    (fun x hx => Nat.lt_succ_of_le (le_maxId hx)), hlist, hlast, Option.getD_some]

section

variable {vocab : VocabMap} (h : vocab.toList.Perm json.vocab.toList)

/-- The slots are the same in another order, where the added tokens leave the same. -/
lemma slots_reordered_iff : (json.reordered vocab h).slots = json.slots ↔
    ∀ id, json.fill id ((json.reordered vocab h).readVocab.slots.getD id []) =
      json.fill id (json.readVocab.slots.getD id []) := by
  refine foldl_extendStep_eq_iff ?_
  rw [readVocab_eq, readVocab_eq, length_foldl_writeVocab, length_foldl_writeVocab,
    maxId_reordered]

/-- The slot of an id has the bytes of one of its strings. -/
lemma hasId_of_slot : (∀ p, ¬ json.HasId p id) ∧ json.readVocab.slots.getD id [] = [] ∨
    json.HasId (json.readVocab.slots.getD id []) id := by
  have hmem : ∀ {p}, (id, p) ∈ json.vocab.toList.map (slotWrite unicodeToBytes) ↔
      json.HasId p id := by
    intro p
    rw [List.mem_map]
    constructor
    · rintro ⟨⟨s, id'⟩, hs, heq⟩
      obtain ⟨rfl, rfl⟩ := Prod.mk.inj heq
      exact ⟨s, hs, rfl⟩
    · rintro ⟨s, hs, rfl⟩
      exact ⟨(s, id), hs, rfl⟩
  rw [readVocab_eq, getD_foldl_writeVocab _ (fun x hx => Nat.lt_succ_of_le (le_maxId hx))]
  cases hlast : lastValue (json.vocab.toList.map (slotWrite unicodeToBytes)) id with
  | none => exact .inl ⟨fun p hp => lastValue_eq_none.mp hlast p (hmem.mpr hp), rfl⟩
  | some p => exact .inr (hmem.mp (mem_of_lastValue hlast))

/-- A byte-level file for which the order does not matter. -/
lemma BpeOrderFree.same (hfree : json.BpeOrderFree) (compact : Bool) (vocabLen : ℕ) :
    (json.reordered vocab h).slots = json.slots ∧
      loadedMerges compact (json.reordered vocab h).entries vocabLen =
        loadedMerges compact json.entries vocabLen := by
  have hassigns := assigns_reordered h
  constructor
  · refine (slots_reordered_iff h).mpr fun id => ?_
    obtain ⟨hnone, hslot⟩ | hid := @hasId_of_slot json id
    · obtain ⟨-, hslot'⟩ | hid' := @hasId_of_slot (json.reordered vocab h) id
      · rw [hslot, hslot']
      · exact absurd ((hasId_reordered h).mp hid') (hnone _)
    · obtain ⟨hnone', -⟩ | hid' := @hasId_of_slot (json.reordered vocab h) id
      · exact absurd ((hasId_reordered h).mpr hid) (hnone' _)
      · exact hfree.slot _ _ id ((hasId_reordered h).mp hid') hid
  · rw [entries_reordered, entries_eq_known]
    refine loadedMerges_congr (fun m hm => ?_) (fun front m back hl => ?_)
      (hfree.order _ _ hassigns (assigns_idIn json))
    · obtain ⟨hleft, hright, -⟩ := mem_known hm
      exact ⟨(hfree.parts m hm).1.eq hassigns (assigns_idIn json) hleft,
        (hfree.parts m hm).2.eq hassigns (assigns_idIn json) hright⟩
    · have hm : m ∈ json.known := hl ▸ List.mem_append_right _ List.mem_cons_self
      obtain hfixed | ⟨m', hm', ⟨i, hi', hi⟩, j, hj', hj⟩ := hfree.product front m back hl
      · exact .inl (hfixed.eq hassigns (assigns_idIn json) (mem_known hm).2.2)
      · have hparts := hfree.parts m hm
        have hparts' := hfree.parts m' (hl ▸ List.mem_append_left _ hm')
        refine .inr ⟨m', hm', ?_, ?_⟩
        · exact (hparts'.1 _ _ (hassigns _ i hi') hi').trans (hparts.1 _ _ hi (hassigns _ i hi))
        · exact (hparts'.2 _ _ (hassigns _ j hj') hj').trans (hparts.2 _ _ hj (hassigns _ j hj))

end

/-- The merges of a choice have the ids of their parts. -/
lemma exists_of_firstProduct {a b c : TokenId}
    (h : firstProduct (json.known.map (entryOf f)) a b = some c) :
    ∃ m ∈ json.known, f m.1 = a ∧ f m.2 = b := by
  obtain ⟨e, he, -⟩ := Option.map_eq_some_iff.mp h
  obtain ⟨m, hm, rfl⟩ := List.mem_map.mp (List.mem_of_find?_eq_some he)
  have hkey := List.find?_some he
  rw [decide_eq_true_eq] at hkey
  exact ⟨m, hm, hkey⟩

/-- A merge of a choice has the first product of its parts, if none before shares their ids. -/
lemma firstProduct_of_front {front back : List (List UInt8 × List UInt8)}
    {m : List UInt8 × List UInt8} (hf : json.Assigns f) (hknown : json.known = front ++ m :: back)
    (hfront : ¬ ∃ m' ∈ front, json.SameId m'.1 m.1 ∧ json.SameId m'.2 m.2) :
    firstProduct (json.known.map (entryOf f)) (f m.1) (f m.2) = some (f (m.1 ++ m.2)) := by
  have hhas : ∀ m' ∈ json.known, json.HasId m'.1 (f m'.1) ∧ json.HasId m'.2 (f m'.2) := by
    intro m' hm'
    obtain ⟨⟨i, hi⟩, ⟨j, hj⟩, -⟩ := mem_known hm'
    exact ⟨hf _ i hi, hf _ j hj⟩
  have hm := hhas m (hknown ▸ List.mem_append_right _ List.mem_cons_self)
  have hnone : ((front.map (entryOf f)).find? fun e => e.1 = f m.1 ∧ e.2.1 = f m.2) = none := by
    refine List.find?_eq_none.mpr fun e he => ?_
    obtain ⟨m', hm', rfl⟩ := List.mem_map.mp he
    rw [decide_eq_true_eq]
    rintro ⟨hleft, hright⟩
    have hhas' := hhas m' (hknown ▸ List.mem_append_left _ hm')
    exact hfront ⟨m', hm', ⟨f m.1, hleft ▸ hhas'.1, hm.1⟩, f m.2, hright ▸ hhas'.2, hm.2⟩
  rw [firstProduct, hknown, List.map_append, List.find?_append, hnone, List.map_cons,
    List.find?_cons_of_pos (by simp [entryOf])]
  rfl

/-- Where every choice has the same ids for its parts, these have no other. -/
lemma fixed_of_choices {part : List UInt8 × List UInt8 → List UInt8}
    (hslot : ∀ p q id, json.HasId p id → json.HasId q id → json.fill id p = json.fill id q)
    (hknown : ∀ m ∈ json.known, ∃ id, json.HasId (part m) id)
    (hids : ∀ f f', json.Assigns f → json.Assigns f' → ∀ m ∈ json.known,
      ∃ m' ∈ json.known, f' (part m') = f (part m))
    {m : List UInt8 × List UInt8} (hm : m ∈ json.known) : json.Fixed (part m) := by
  intro i j hi hj
  by_contra hij
  have hne : part m ≠ [] := fun hnil => hij (fixed_nil i j (hnil ▸ hi) (hnil ▸ hj))
  -- another part has the id that is not chosen, which only the empty string can have
  have hempty : ∀ {i j}, i ≠ j → json.HasId (part m) i → json.HasId (part m) j →
      json.idIn [] = j := by
    intro i j hij hi hj
    obtain ⟨m', hm', heq⟩ := hids _ _ ((assigns_idIn json).update hj)
      ((assigns_idIn json).update hi) m hm
    rw [Function.update_self] at heq
    have hpart : part m' ≠ part m := by
      intro hpart
      rw [hpart, Function.update_self] at heq
      exact hij heq
    rw [Function.update_of_ne hpart] at heq
    have hnil : part m' = [] := by
      by_contra hne'
      obtain ⟨k, hk⟩ := hknown m' hm'
      have hfill := hslot _ _ j (heq ▸ assigns_idIn json _ k hk) hj
      rw [fill_of_ne_nil hne', fill_of_ne_nil hne] at hfill
      exact hpart hfill
    rwa [hnil] at heq
  exact hij ((hempty (Ne.symm hij) hj hi).symm.trans (hempty hij hi hj))

end HfJson

variable {json : HfJson} {model : HfModel}

lemma buildBpe_eq (json : HfJson) (compact : Bool) : buildBpe json compact =
    if json.modelType ≠ "BPE" then .error (.unsupportedModel json.modelType)
    else if json.byteFallback then .error .byteFallback
    else do
      let base ← fromByteVocab json.slots
      return ⟨json.slots, base, loadedMerges compact json.entries json.slots.length⟩ := rfl

/-- A byte-level file loads to the same tokenizer in every order, just if the order does not
matter to it. -/
lemma bpeOrderFree_iff (hload : buildBpe json compact = .ok model) :
    (∀ vocab h, ∃ model', buildBpe (json.reordered vocab h) compact = .ok model' ∧
      (HfTokenizer.bpe model).Same (.bpe model')) ↔ json.BpeOrderFree := by
  obtain ⟨hslots, -, hmerges⟩ := buildBpe_ok hload
  constructor
  · intro hsame
    have hsame' : ∀ vocab h, (json.reordered vocab h).slots = json.slots ∧
        loadedMerges compact (json.reordered vocab h).entries json.slots.length =
          loadedMerges compact json.entries json.slots.length := by
      intro vocab h
      obtain ⟨model', hmodel', rfl⟩ := hsame vocab h
      obtain ⟨hslots', -, hmerges'⟩ := buildBpe_ok hmodel'
      have heq := hslots'.symm.trans hslots
      rw [heq] at hmerges'
      exact ⟨heq, hmerges'.symm.trans hmerges⟩
    -- all choices load the same merges
    have hchoice : ∀ f f', json.Assigns f → json.Assigns f' →
        loadedMerges compact (json.known.map (entryOf f)) json.slots.length =
          loadedMerges compact (json.known.map (entryOf f')) json.slots.length := by
      intro f f' hf hf'
      obtain ⟨vocab, h, hentries⟩ := hf.exists_order
      obtain ⟨vocab', h', hentries'⟩ := hf'.exists_order
      rw [← hentries, ← hentries', (hsame' vocab h).2, (hsame' vocab' h').2]
    have hlt : ∀ f, json.Assigns f → ∀ m ∈ json.known, f m.2 < 2 ^ 32 := by
      intro f hf m hm
      obtain ⟨-, ⟨id, hid⟩, -⟩ := HfJson.mem_known hm
      exact HfJson.hasId_lt (hf _ id hid)
    have hfirst : ∀ f f', json.Assigns f → json.Assigns f' →
        idOrderOk (json.known.map (entryOf f)) = idOrderOk (json.known.map (entryOf f')) ∧
          ∀ m ∈ json.known, firstProduct (json.known.map (entryOf f)) (f m.1) (f m.2) =
            firstProduct (json.known.map (entryOf f')) (f m.1) (f m.2) := by
      intro f f' hf hf'
      have hmem : ∀ f, json.Assigns f → ∀ e ∈ json.known.map (entryOf f), e.2.1 < 2 ^ 32 := by
        intro f hf e he
        obtain ⟨m, hm, rfl⟩ := List.mem_map.mp he
        exact hlt f hf m hm
      obtain ⟨horder, hall⟩ := firstProduct_eq (hchoice f f' hf hf') (hmem f hf) (hmem f' hf')
      exact ⟨horder, fun m hm => hall _ _ (hlt f hf m hm)⟩
    have hslot : ∀ p q id, json.HasId p id → json.HasId q id → json.fill id p = json.fill id q := by
      have hfill : ∀ {p id}, json.HasId p id →
          json.fill id p = json.fill id (json.readVocab.slots.getD id []) := by
        intro p id hp
        obtain ⟨vocab, h, rfl⟩ := hp.exists_order
        exact (HfJson.slots_reordered_iff h).mp (hsame' vocab h).1 id
      intro p q id hp hq
      rw [hfill hp, hfill hq]
    have hids : ∀ f f', json.Assigns f → json.Assigns f' → ∀ m ∈ json.known,
        ∃ m' ∈ json.known, f' m'.1 = f m.1 ∧ f' m'.2 = f m.2 := by
      intro f f' hf hf' m hm
      have hsome : (firstProduct (json.known.map (entryOf f)) (f m.1) (f m.2)).isSome := by
        rw [firstProduct, Option.isSome_map, List.find?_isSome]
        exact ⟨_, List.mem_map_of_mem hm, decide_eq_true ⟨rfl, rfl⟩⟩
      obtain ⟨c, hc⟩ := Option.isSome_iff_exists.mp hsome
      rw [(hfirst f f' hf hf').2 m hm] at hc
      exact HfJson.exists_of_firstProduct hc
    have hparts : ∀ m ∈ json.known, json.Fixed m.1 ∧ json.Fixed m.2 := by
      intro m hm
      constructor
      · refine HfJson.fixed_of_choices hslot (fun m hm => (HfJson.mem_known hm).1)
          (fun f f' hf hf' m hm => ?_) hm
        obtain ⟨m', hm', hleft, -⟩ := hids f f' hf hf' m hm
        exact ⟨m', hm', hleft⟩
      · refine HfJson.fixed_of_choices hslot (fun m hm => (HfJson.mem_known hm).2.1)
          (fun f f' hf hf' m hm => ?_) hm
        obtain ⟨m', hm', -, hright⟩ := hids f f' hf hf' m hm
        exact ⟨m', hm', hright⟩
    refine ⟨hslot, hparts, fun front m back hl => ?_, fun f f' hf hf' => (hfirst f f' hf hf').1⟩
    by_contra hnot
    obtain ⟨hfree, hfront⟩ := not_or.mp hnot
    have hm : m ∈ json.known := hl ▸ List.mem_append_right _ List.mem_cons_self
    refine hfree fun i j hi hj => ?_
    have hf := (HfJson.assigns_idIn json).update hi
    have hf' := (HfJson.assigns_idIn json).update hj
    have heq := (hfirst _ _ hf hf').2 m hm
    rw [HfJson.firstProduct_of_front hf hl hfront] at heq
    rw [(hparts m hm).1.eq hf hf' (HfJson.mem_known hm).1,
      (hparts m hm).2.eq hf hf' (HfJson.mem_known hm).2.1,
      HfJson.firstProduct_of_front hf' hl hfront, Function.update_self, Function.update_self] at heq
    exact Option.some_inj.mp heq
  · intro hfree vocab h
    obtain ⟨hslots', hmerges'⟩ := hfree.same h compact json.slots.length
    refine ⟨model, ?_, rfl⟩
    rw [← hload, buildBpe_eq, buildBpe_eq, hslots', hmerges']
    rfl

/-! ### Both kinds of files -/

/-- The order of the vocabulary does not matter to the loader of the file. -/
def HfJson.OrderFree (json : HfJson) : Prop :=
  if json.byteFallback then json.SpOrderFree else json.BpeOrderFree

/-- A file that loads, loads to the same tokenizer in every order of its vocabulary, just if the
order does not matter to it. -/
theorem loadHfSlice_order_iff {tokenizer : HfTokenizer}
    (hload : loadHfSlice json compact = .ok tokenizer) :
    (∀ vocab h, ∃ tokenizer', loadHfSlice (json.reordered vocab h) compact = .ok tokenizer' ∧
      tokenizer.Same tokenizer') ↔ json.OrderFree := by
  rw [loadHfSlice] at hload
  by_cases hfallback : json.byteFallback
  · rw [if_pos hfallback] at hload
    rw [HfJson.OrderFree, if_pos hfallback]
    cases hmodel : buildHfSentencePiece json with
    | error e =>
        rw [hmodel] at hload
        cases hload
    | ok model =>
        rw [hmodel] at hload
        cases hload
        rw [← spOrderFree_iff hmodel]
        refine forall_congr' fun vocab => forall_congr' fun h => ?_
        have hfallback' : (json.reordered vocab h).byteFallback = true := hfallback
        rw [loadHfSlice, if_pos hfallback']
        obtain ⟨-, hall⟩ := buildHfSentencePiece_ok hmodel
        rw [hall vocab h]
        constructor
        · rintro ⟨tokenizer', htokenizer, hsame⟩
          cases htokenizer
          exact ⟨_, rfl, hsame⟩
        · rintro ⟨model', hmodel', hsame⟩
          cases hmodel'
          exact ⟨_, rfl, hsame⟩
  · rw [if_neg hfallback] at hload
    rw [HfJson.OrderFree, if_neg hfallback]
    cases hmodel : buildBpe json compact with
    | error e =>
        rw [hmodel] at hload
        cases hload
    | ok model =>
        rw [hmodel] at hload
        cases hload
        rw [← bpeOrderFree_iff hmodel]
        refine forall_congr' fun vocab => forall_congr' fun h => ?_
        have hfallback' : ¬ (json.reordered vocab h).byteFallback = true := hfallback
        rw [loadHfSlice, if_neg hfallback']
        cases hmodel' : buildBpe (json.reordered vocab h) compact with
        | error e =>
            constructor
            · rintro ⟨_, htokenizer, -⟩
              cases htokenizer
            · rintro ⟨_, htokenizer, -⟩
              cases htokenizer
        | ok model' =>
            constructor
            · rintro ⟨_, htokenizer, hsame⟩
              cases htokenizer
              exact ⟨_, rfl, hsame⟩
            · rintro ⟨_, htokenizer, hsame⟩
              cases htokenizer
              exact ⟨_, rfl, hsame⟩

/-- The order does not matter to a byte-level file whose strings are told apart by their bytes and
by their ids. -/
lemma HfJson.bpeOrderFree_of_distinct (hbytes : json.DistinctBytes)
    (hids : (json.vocab.toList.map Prod.snd).Nodup) : json.BpeOrderFree := by
  have hfixed : ∀ p, json.Fixed p := by
    rintro p id id' ⟨s, hs, rfl⟩ ⟨s', hs', heq⟩
    exact (Prod.mk.inj (List.inj_on_of_nodup_map hbytes hs hs' heq.symm)).2
  refine ⟨?_, fun m _ => ⟨hfixed _, hfixed _⟩, fun _ _ _ _ => .inl (hfixed _), ?_⟩
  · rintro _ _ id ⟨s, hs, rfl⟩ ⟨s', hs', rfl⟩
    rw [(Prod.mk.inj (List.inj_on_of_nodup_map hids hs hs' rfl)).1]
  · intro f f' hf hf'
    refine congrArg idOrderOk (List.map_congr_left fun m hm => ?_)
    obtain ⟨hleft, hright, hproduct⟩ := HfJson.mem_known hm
    rw [entryOf, entryOf, (hfixed _).eq hf hf' hleft, (hfixed _).eq hf hf' hright,
      (hfixed _).eq hf hf' hproduct]

/-- `loadHfSlice_order_iff` on `bc` and `ab` with the ids 300 and 350. -/
theorem loadHfSlice_order_bcab : ∃ tokenizer,
    loadHfSlice (bcabJson 300 350 (by decide)) false = .ok tokenizer ∧ ∀ vocab h, ∃ tokenizer',
      loadHfSlice ((bcabJson 300 350 (by decide)).reordered vocab h) false = .ok tokenizer' ∧
        tokenizer.Same tokenizer' := by
  obtain ⟨hbytes, -⟩ := sourceRules_bcabJson 300 350 (by decide)
  obtain ⟨model, hmodel, -⟩ := buildBpe_bcabJson 300 350 (by decide) (by decide) (by decide)
  have hids : (bcabJson 300 350 (by decide)).IdsTellApart model :=
    idsTellApart_lettersJson (by decide) (by decide)
  have hload : loadHfSlice (bcabJson 300 350 (by decide)) false = .ok (.bpe model) := by
    rw [loadHfSlice, if_neg (by decide), hmodel]
  refine ⟨_, hload, (loadHfSlice_order_iff hload).mpr ?_⟩
  exact HfJson.bpeOrderFree_of_distinct hbytes hids.nodup

/-! ### A string in two spellings -/

lemma nodup_spellingKeys :
    ((letterEntries [] ++ [([' ', 'a'], 256), (['Ġ', 'a'], 257)]).map Prod.fst).Nodup :=
  nodup_letterEntries_append (by simp) (by simp)

lemma spellingIds_lt :
    ∀ x ∈ ([([' ', 'a'], 256), (['Ġ', 'a'], 257)] : List (Text × TokenId)), x.2 < 2 ^ 32 := by
  simp

/-- A file of letters with ` a` as it is, and in letters. -/
def spellingsJson : HfJson :=
  lettersJson [] [([' ', 'a'], 256), (['Ġ', 'a'], 257)] [(['Ġ'], ['a'])] []
    nodup_spellingKeys spellingIds_lt (List.forall_mem_nil _)

lemma unicodeToBytes_spellings : unicodeToBytes [' ', 'a'] = [32, 97] ∧
    unicodeToBytes ['Ġ', 'a'] = [32, 97] ∧ unicodeToBytes ['Ġ'] = [32] := by
  refine ⟨?_, ?_, ?_⟩ <;> decide +kernel

/-- Its ids. -/
lemma hasId_spellingsJson {p : List UInt8} {id : TokenId} : spellingsJson.HasId p id ↔
    (∃ b, p = [b] ∧ id = b.toNat) ∨ p = [32, 97] ∧ (id = 256 ∨ id = 257) := by
  obtain ⟨hraw, hletters, -⟩ := unicodeToBytes_spellings
  constructor
  · rintro ⟨s, hs, rfl⟩
    rw [spellingsJson, toList_lettersJson, List.mem_append] at hs
    obtain hs | hs := hs
    · obtain ⟨x, hx, heq⟩ := List.mem_map.mp hs
      obtain ⟨rfl, rfl⟩ := Prod.mk.inj heq
      exact .inl ⟨x.2, unicodeToBytes_letter (List.mem_filter.mp hx).1, rfl⟩
    · simp only [List.mem_cons, Prod.mk.injEq, List.not_mem_nil, or_false] at hs
      obtain ⟨rfl, rfl⟩ | ⟨rfl, rfl⟩ := hs
      · exact .inr ⟨hraw, .inl rfl⟩
      · exact .inr ⟨hletters, .inr rfl⟩
  · rintro (⟨b, rfl, rfl⟩ | ⟨rfl, rfl | rfl⟩)
    · obtain ⟨c, hc, hmem⟩ := @exists_letter [] _ _ [] _ _ _ b (by simp)
      exact ⟨[c], hmem, unicodeToBytes_letter hc⟩
    · refine ⟨[' ', 'a'], ?_, hraw⟩
      rw [spellingsJson, toList_lettersJson]
      simp
    · refine ⟨['Ġ', 'a'], ?_, hletters⟩
      rw [spellingsJson, toList_lettersJson]
      simp

/-- The order that takes an id for ` a`. -/
def spellingsChoice (id : TokenId) : List UInt8 → TokenId
  | [b] => b.toNat
  | _ => id

lemma assigns_spellings {id : TokenId} (h : id = 256 ∨ id = 257) :
    spellingsJson.Assigns (spellingsChoice id) := by
  intro p id' hid
  rw [hasId_spellingsJson] at hid ⊢
  obtain ⟨b, rfl, -⟩ | ⟨rfl, -⟩ := hid
  · exact .inl ⟨b, rfl, rfl⟩
  · exact .inr ⟨rfl, h⟩

lemma known_spellingsJson : spellingsJson.known = [([32], [97])] := by
  have hknown : ∀ {p id}, spellingsJson.HasId p id → spellingsJson.isKnown p = true := fun h =>
    HfJson.isKnown_iff.mpr ⟨_, h⟩
  have hspace : spellingsJson.isKnown [32] = true :=
    hknown (hasId_spellingsJson.mpr (.inl ⟨32, rfl, rfl⟩))
  have ha : spellingsJson.isKnown [97] = true :=
    hknown (hasId_spellingsJson.mpr (.inl ⟨97, rfl, rfl⟩))
  have hproduct : spellingsJson.isKnown ([32] ++ [97]) = true :=
    hknown (hasId_spellingsJson.mpr (.inr ⟨rfl, .inl rfl⟩))
  have hmerges : spellingsJson.merges = [(['Ġ'], ['a'])] := rfl
  rw [HfJson.known, hmerges, List.map_cons, List.map_nil, unicodeToBytes_spellings.2.2,
    unicodeToBytes_a, List.filter_cons, hspace, ha, hproduct]
  rfl

/-- Each byte has its slot, in every order. -/
lemma slot_spellingsJson {vocab : VocabMap} (h : vocab.toList.Perm spellingsJson.vocab.toList)
    (b : UInt8) : (spellingsJson.reordered vocab h).slots[b.toNat]? = some [b] := by
  obtain ⟨s, hs, -⟩ := (HfJson.hasId_reordered h).mpr
    (hasId_spellingsJson.mpr (.inl ⟨b, rfl, rfl⟩))
  obtain ⟨t, ht, hget⟩ := HfJson.getElem?_readVocab hs
  have hid := (HfJson.hasId_reordered h).mp ⟨t, ht, rfl⟩
  have hbytes : unicodeToBytes t = [b] := by
    obtain ⟨b', hb', heq⟩ | ⟨-, heq | heq⟩ := hasId_spellingsJson.mp hid
    · rw [hb', UInt8.toNat_inj.mp heq]
    · exact absurd heq (b.toNat_lt.trans_le (by decide)).ne
    · exact absurd heq (b.toNat_lt.trans (by decide)).ne
  exact HfJson.getElem?_slots (hbytes ▸ hget) (by simp)

/-- The file loads with each id for ` a`, in some order. -/
lemma exists_order_spellings {id : TokenId} (h : id = 256 ∨ id = 257) :
    ∃ vocab h model, loadHfSlice (spellingsJson.reordered vocab h) false = .ok (.bpe model) ∧
      bpe model.merges.table ([32, 97].map model.base) = [id] := by
  obtain ⟨vocab, hperm, hentries⟩ := (assigns_spellings h).exists_order
  have hslot := slot_spellingsJson hperm
  obtain ⟨base, hbase, hid⟩ := fromByteVocab_of_slots hslot
  have hentries' : (spellingsJson.reordered vocab hperm).entries = [(32, 97, id)] := by
    rw [hentries, known_spellingsJson]
    rfl
  have hok : idOrderOk [(32, 97, id)] = true := decide_eq_true (List.isChain_singleton _)
  have hlt : ∀ b : UInt8, b.toNat < (spellingsJson.reordered vocab hperm).slots.length := fun b =>
    (List.getElem?_eq_some_iff.mp (hslot b)).1
  let model : HfModel := ⟨(spellingsJson.reordered vocab hperm).slots, base,
    idMerges false [(32, 97, id)] (spellingsJson.reordered vocab hperm).slots.length⟩
  have hload : buildBpe (spellingsJson.reordered vocab hperm) false = .ok model := by
    rw [buildBpe_eq, hbase, loadedMerges, hentries', hok]
    rfl
  have hload' : loadHfSlice (spellingsJson.reordered vocab hperm) false = .ok (.bpe model) := by
    have hfallback : ¬ (spellingsJson.reordered vocab hperm).byteFallback = true :=
      Bool.false_ne_true
    rw [loadHfSlice, if_neg hfallback, hload]
  have hsymbols : [32, 97].map model.base = [32, 97] := by
    change [base 32, base 97] = [32, 97]
    rw [hid, hid]
    rfl
  refine ⟨vocab, hperm, model, hload', ?_⟩
  have hfit : ∀ a ∈ [32, 97], a < (spellingsJson.reordered vocab hperm).slots.length :=
    List.forall_mem_cons.mpr ⟨hlt 32, List.forall_mem_singleton.mpr (hlt 97)⟩
  have hproduct : ∀ e ∈ [(32, 97, id)], e.2.2 ≤ u32Max := by
    obtain rfl | rfl := h <;> decide
  rw [hsymbols]
  refine (idMerges_bpe hproduct hfit).1.trans ?_
  obtain rfl | rfl := h <;> decide +kernel

/-- A file with ` a` in two spellings loads to two tokenizers, which encode ` a` as 256 and
as 257. -/
theorem loadHfSlice_order_matters : ∃ json : HfJson, ∃ vocab h vocab' h' model model',
    loadHfSlice (json.reordered vocab h) false = .ok (.bpe model) ∧
      loadHfSlice (json.reordered vocab' h') false = .ok (.bpe model') ∧
        bpe model.merges.table ([32, 97].map model.base) = [256] ∧
          bpe model'.merges.table ([32, 97].map model'.base) = [257] ∧
            ¬ (HfTokenizer.bpe model).Same (.bpe model') := by
  obtain ⟨vocab, h, model, hload, hbpe⟩ := exists_order_spellings (.inl rfl)
  obtain ⟨vocab', h', model', hload', hbpe'⟩ := exists_order_spellings (.inr rfl)
  refine ⟨spellingsJson, vocab, h, vocab', h', model, model', hload, hload', hbpe, hbpe', ?_⟩
  rintro rfl
  rw [hbpe] at hbpe'
  cases hbpe'

end Hypertok
