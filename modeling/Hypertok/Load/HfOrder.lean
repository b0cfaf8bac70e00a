import Hypertok.Load.HfSlice

/-!
The order in which the vocabulary of a `tokenizer.json` is iterated. The last string of an id has its
slot, and the last string of given bytes has them in the map, so a loader may depend on the order.

* `lookup_foldl_writeVocab`, `getD_foldl_writeVocab`: the last writes.
* `HfJson.SpOrderFree`: what a SentencePiece file must have for the order not to matter.
* `spOrderFree_iff`: it does not matter just then.
-/

namespace Hypertok

open Machine

/-! ### The last writes -/

/-- The loop over the vocabulary, with the bytes of a string. -/
def writeVocab (toBytes : Text → List UInt8) (st : HfVocab) (x : Text × TokenId) : HfVocab :=
  ⟨st.slots.set x.2 (toBytes x.1), st.inv.insert (toBytes x.1) x.2⟩

section

variable (toBytes : Text → List UInt8)

/-- A string as a write of its slot. -/
def slotWrite (x : Text × TokenId) : ℕ × List UInt8 := (x.2, toBytes x.1)

/-- A string as a write of its bytes. -/
def bytesWrite (x : Text × TokenId) : List UInt8 × TokenId := (toBytes x.1, x.2)

lemma foldl_writeVocab (l : List (Text × TokenId)) (st : HfVocab) :
    (l.foldl (writeVocab toBytes) st).slots =
        (l.map (slotWrite toBytes)).foldl (fun slots x => slots.set x.1 x.2) st.slots ∧
      (l.foldl (writeVocab toBytes) st).inv =
        (l.map (bytesWrite toBytes)).foldl (fun m x => m.insert x.1 x.2) st.inv := by
  induction l generalizing st with
  | nil => exact ⟨rfl, rfl⟩
  | cons x l ih => exact ih _

lemma length_foldl_writeVocab (l : List (Text × TokenId)) (st : HfVocab) :
    (l.foldl (writeVocab toBytes) st).slots.length = st.slots.length := by
  induction l generalizing st with
  | nil => rfl
  | cons x l ih => exact (ih _).trans List.length_set

/-- The id of given bytes is that of their last string. -/
lemma lookup_foldl_writeVocab (l : List (Text × TokenId)) (slots : List (List UInt8))
    (p : List UInt8) : (l.foldl (writeVocab toBytes) ⟨slots, ∅⟩).inv.lookup p =
      lastValue (l.map (bytesWrite toBytes)) p := by
  have hempty : ((∅ : AList fun _ : List UInt8 => TokenId).lookup p) = none := rfl
  rw [(foldl_writeVocab toBytes l _).2, lookup_foldl_insert, hempty, Option.or_none]

/-- The slot of an id has the bytes of its last string. -/
lemma getD_foldl_writeVocab {l : List (Text × TokenId)} {n : ℕ} (hl : ∀ x ∈ l, x.2 < n)
    (id : TokenId) : (l.foldl (writeVocab toBytes) ⟨List.replicate n [], ∅⟩).slots.getD id [] =
      (lastValue (l.map (slotWrite toBytes)) id).getD [] := by
  have hlen := length_foldl_writeVocab toBytes l ⟨List.replicate n [], ∅⟩
  rw [List.length_replicate, (foldl_writeVocab toBytes l _).1] at hlen
  rw [(foldl_writeVocab toBytes l _).1, List.getD_eq_getElem?_getD]
  by_cases hid : id < n
  · rw [getElem?_foldl_set (by rwa [List.length_replicate]), List.getElem?_replicate, if_pos hid]
    cases lastValue (l.map (slotWrite toBytes)) id <;> rfl
  · have hnone : lastValue (l.map (slotWrite toBytes)) id = none := by
      refine lastValue_eq_none.mpr fun p hp => ?_
      obtain ⟨x, hx, heq⟩ := List.mem_map.mp hp
      have hxid : x.2 = id := (Prod.mk.inj heq).1
      exact hid (hxid ▸ hl x hx)
    rw [hnone, List.getElem?_eq_none (hlen.trans_le (not_lt.mp hid))]

end

/-! ### The files in another order -/

variable {json : HfJson} {compact : Bool}

/-- Every order of the entries is that of a map. -/
lemma VocabMap.exists_of_perm {vocab : VocabMap} {l : List (Text × TokenId)}
    (h : l.Perm vocab.toList) : ∃ vocab' : VocabMap, vocab'.toList = l := by
  have hkeys : (vocab.toList.map Prod.fst).Nodup := by
    have hnodup : (vocab.entries.map Sigma.fst).Nodup := vocab.nodupKeys
    rwa [VocabMap.toList, List.map_map]
  refine ⟨⟨l.map fun x => ⟨x.1, x.2⟩, ?_⟩, ?_⟩
  · have hmap : (l.map fun x => (⟨x.1, x.2⟩ : (_ : Text) × TokenId)).keys = l.map Prod.fst := by
      rw [List.keys, List.map_map]
      rfl
    rw [List.NodupKeys, hmap]
    exact (h.map Prod.fst).nodup_iff.mpr hkeys
  · rw [VocabMap.toList, List.map_map]
    exact List.map_id l

/-- A string has one id. -/
lemma VocabMap.id_unique {vocab : VocabMap} {s : Text} {id id' : TokenId}
    (h : (s, id) ∈ vocab.toList) (h' : (s, id') ∈ vocab.toList) : id = id' :=
  Option.some_inj.mp ((VocabMap.mem_toList.mp h).symm.trans (VocabMap.mem_toList.mp h'))

namespace HfJson

lemma maxId_reordered {vocab : VocabMap} (h : vocab.toList.Perm json.vocab.toList) :
    (json.reordered vocab h).maxId = json.maxId := by
  have hperm := h.map Prod.snd
  rw [maxId, maxId]
  congr 1
  change (vocab.toList.map Prod.snd).max? = (json.vocab.toList.map Prod.snd).max?
  cases hmax : (json.vocab.toList.map Prod.snd).max? with
  | none =>
      rw [List.max?_eq_none_iff] at hmax ⊢
      exact List.perm_nil.mp (hmax ▸ hperm)
  | some m =>
      rw [List.max?_eq_some_iff] at hmax ⊢
      exact ⟨hperm.mem_iff.mpr hmax.1, fun id hid => hmax.2 id (hperm.mem_iff.mp hid)⟩

lemma readVocab_eq (json : HfJson) : json.readVocab =
    json.vocab.toList.foldl (writeVocab unicodeToBytes)
      ⟨List.replicate (json.maxId + 1) [], ∅⟩ := rfl

lemma spReadVocab_eq (json : HfJson) : json.spReadVocab =
    json.spEntries.foldl (writeVocab tokenStrToBytes)
      ⟨List.replicate (json.maxId + 1) [], ∅⟩ := rfl

lemma mem_spEntries {x : Text × TokenId} : x ∈ json.spEntries ↔ x ∈ json.vocab.toList := by
  rw [spEntries, List.mem_append, List.mem_filter, List.mem_filter]
  cases (parseByteFallback x.1).isSome <;> simp

end HfJson

/-! ### SentencePiece files -/

namespace HfJson

/-- A string that may have the slot of its id: no byte-fallback spelling, or one of an id that only
has such. -/
def SpLast (json : HfJson) (s : Text) (id : TokenId) : Prop :=
  (s, id) ∈ json.vocab.toList ∧ (parseByteFallback s = none ∨
    ∀ t, (t, id) ∈ json.vocab.toList → (parseByteFallback t).isSome)

/-- The order of the vocabulary does not matter to a SentencePiece file. -/
structure SpOrderFree (json : HfJson) : Prop where
  slot : ∀ s s' id, json.SpLast s id → json.SpLast s' id →
    json.fill id (tokenStrToBytes s) = json.fill id (tokenStrToBytes s')
  spelling : ∀ s s' id id' b, (s, id) ∈ json.vocab.toList → (s', id') ∈ json.vocab.toList →
    parseByteFallback s = some b → parseByteFallback s' = some b →
      (∀ t id'', (t, id'') ∈ json.vocab.toList → parseByteFallback t = none →
        textBytes t ≠ [b]) → id = id'

variable {s s' : Text} {id id' : TokenId} {p : List UInt8}

/-- The strings of a kind, among those that are written. -/
lemma mem_map_filter {κ β : Type} {f : Text × TokenId → κ × β} {q : Text × TokenId → Bool}
    {k : κ} {v : β} : (k, v) ∈ (json.vocab.toList.filter q).map f ↔
      ∃ s id, (s, id) ∈ json.vocab.toList ∧ q (s, id) = true ∧ f (s, id) = (k, v) := by
  rw [List.mem_map]
  constructor
  · rintro ⟨⟨s, id⟩, hx, heq⟩
    exact ⟨s, id, (List.mem_filter.mp hx).1, (List.mem_filter.mp hx).2, heq⟩
  · rintro ⟨s, id, hx, hq, heq⟩
    exact ⟨(s, id), List.mem_filter.mpr ⟨hx, hq⟩, heq⟩

/-- A slot has the bytes of a string that may have it. -/
lemma spLast_of_slot
    (h : lastValue (json.spEntries.map (slotWrite tokenStrToBytes)) id = some p) :
    ∃ s, json.SpLast s id ∧ tokenStrToBytes s = p := by
  rw [spEntries, List.map_append, lastValue_append, Option.or_eq_some_iff] at h
  obtain h | ⟨hnone, h⟩ := h
  · obtain ⟨s, id', hmem, hs, heq⟩ := mem_map_filter.mp (mem_of_lastValue h)
    obtain ⟨rfl, rfl⟩ := Prod.mk.inj heq
    exact ⟨s, ⟨hmem, .inl (by simpa using hs)⟩, rfl⟩
  · obtain ⟨s, id', hmem, -, heq⟩ := mem_map_filter.mp (mem_of_lastValue h)
    obtain ⟨rfl, rfl⟩ := Prod.mk.inj heq
    refine ⟨s, ⟨hmem, .inr fun t ht => ?_⟩, rfl⟩
    by_contra hother
    exact lastValue_eq_none.mp hnone (tokenStrToBytes t)
      (mem_map_filter.mpr ⟨t, id', ht, by simpa using hother, rfl⟩)

/-- The id of given bytes is that of a string as it is, if there is one, and of a byte-fallback
spelling otherwise. -/
lemma exists_of_inv (h : lastValue (json.spEntries.map (bytesWrite tokenStrToBytes)) p = some id) :
    ∃ s, (s, id) ∈ json.vocab.toList ∧ (parseByteFallback s = none ∧ textBytes s = p ∨
      ∃ b, parseByteFallback s = some b ∧ p = [b] ∧ ∀ t id'', (t, id'') ∈ json.vocab.toList →
        parseByteFallback t = none → textBytes t ≠ [b]) := by
  have hbytes : ∀ t, parseByteFallback t = none → tokenStrToBytes t = textBytes t := fun t ht => by
    rw [tokenStrToBytes, ht]
  rw [spEntries, List.map_append, lastValue_append, Option.or_eq_some_iff] at h
  obtain h | ⟨hnone, h⟩ := h
  · obtain ⟨s, id', hmem, hs, heq⟩ := mem_map_filter.mp (mem_of_lastValue h)
    obtain ⟨rfl, rfl⟩ := Prod.mk.inj heq
    have hs' : parseByteFallback s = none := by simpa using hs
    exact ⟨s, hmem, .inl ⟨hs', (hbytes s hs').symm⟩⟩
  · obtain ⟨s, id', hmem, hs, heq⟩ := mem_map_filter.mp (mem_of_lastValue h)
    obtain ⟨rfl, rfl⟩ := Prod.mk.inj heq
    obtain ⟨b, hb⟩ := Option.isSome_iff_exists.mp hs
    have hp : tokenStrToBytes s = [b] := by rw [tokenStrToBytes, hb]
    refine ⟨s, hmem, .inr ⟨b, hb, hp, fun t id'' ht hother heq => ?_⟩⟩
    refine lastValue_eq_none.mp hnone id'' (mem_map_filter.mpr ⟨t, id'', ht, by simp [hother], ?_⟩)
    exact Prod.ext (by rw [bytesWrite, hbytes t hother, heq, hp]) rfl

/-- The strings of a kind may be iterated last. -/
lemma exists_reordered (json : HfJson) (q : Text × TokenId → Bool) :
    ∃ vocab, ∃ h : vocab.toList.Perm json.vocab.toList, (json.reordered vocab h).vocab.toList =
      json.vocab.toList.filter (fun x => !q x) ++ json.vocab.toList.filter q := by
  obtain ⟨vocab, hvocab⟩ := VocabMap.exists_of_perm (perm_filter json.vocab.toList q)
  exact ⟨vocab, hvocab ▸ perm_filter json.vocab.toList q, hvocab⟩

/-- The loop over a kind of strings, when a string of this kind is iterated last. -/
lemma lastValue_reordered {κ β : Type} [DecidableEq κ] {f : Text × TokenId → κ × β}
    {r : Text × TokenId → Bool} (hmem : (s, id) ∈ json.vocab.toList) (hr : r (s, id) = true) :
    lastValue (((json.vocab.toList.filter (fun x => !decide (x.1 = s)) ++
      json.vocab.toList.filter (fun x => decide (x.1 = s))).filter r).map f) (f (s, id)).1 =
        some (f (s, id)).2 := by
  have hcomm : (json.vocab.toList.filter (fun x => !decide (x.1 = s)) ++
      json.vocab.toList.filter (fun x => decide (x.1 = s))).filter r =
        (json.vocab.toList.filter r).filter (fun x => !decide (x.1 = s)) ++
          (json.vocab.toList.filter r).filter (fun x => decide (x.1 = s)) := by
    rw [List.filter_append, List.filter_comm r, List.filter_comm r]
  rw [hcomm]
  refine lastValue_filter (List.mem_filter.mpr ⟨hmem, hr⟩) (decide_eq_true rfl)
    fun y hy hys _ => ?_
  obtain ⟨t, id'⟩ := y
  obtain rfl : t = s := of_decide_eq_true hys
  rw [VocabMap.id_unique (List.mem_filter.mp hy).1 hmem]

/-- The slots of a SentencePiece file. -/
lemma getD_spReadVocab (json : HfJson) (id : TokenId) : json.spReadVocab.slots.getD id [] =
    (lastValue (json.spEntries.map (slotWrite tokenStrToBytes)) id).getD [] := by
  rw [spReadVocab_eq]
  refine getD_foldl_writeVocab _ (fun x hx => ?_) id
  exact Nat.lt_succ_of_le (le_maxId (mem_spEntries.mp hx))

lemma lookup_spReadVocab (json : HfJson) (p : List UInt8) : json.spReadVocab.inv.lookup p =
    lastValue (json.spEntries.map (bytesWrite tokenStrToBytes)) p := by
  rw [spReadVocab_eq, lookup_foldl_writeVocab]

section

variable {vocab : VocabMap} (h : vocab.toList.Perm json.vocab.toList)

lemma mem_reordered : (s, id) ∈ (json.reordered vocab h).vocab.toList ↔
    (s, id) ∈ json.vocab.toList := h.mem_iff

lemma fill_reordered : (json.reordered vocab h).fill id p = json.fill id p := rfl

/-- The slots are the same in another order, where the added tokens leave the same. -/
lemma spSlots_reordered_iff : (json.reordered vocab h).spSlots = json.spSlots ↔
    ∀ id, json.fill id ((json.reordered vocab h).spReadVocab.slots.getD id []) =
      json.fill id (json.spReadVocab.slots.getD id []) := by
  refine foldl_extendStep_eq_iff ?_
  rw [spReadVocab_eq, spReadVocab_eq, length_foldl_writeVocab, length_foldl_writeVocab,
    maxId_reordered]

lemma spLast_reordered : (json.reordered vocab h).SpLast s id ↔ json.SpLast s id := by
  simp only [SpLast, mem_reordered]

/-- A SentencePiece file for which the order does not matter. -/
lemma SpOrderFree.same (hfree : json.SpOrderFree) :
    (json.reordered vocab h).spSlots = json.spSlots ∧
      ∀ p, (json.reordered vocab h).spReadVocab.inv.lookup p = json.spReadVocab.inv.lookup p := by
  have hwrites : ∀ {κ β : Type} (f : Text × TokenId → κ × β) (k : κ) (v : β),
      (k, v) ∈ (json.reordered vocab h).spEntries.map f ↔ (k, v) ∈ json.spEntries.map f := by
    intro κ β f k v
    simp only [List.mem_map, mem_spEntries, Prod.exists, mem_reordered]
  constructor
  · refine (spSlots_reordered_iff h).mpr fun id => ?_
    rw [getD_spReadVocab, getD_spReadVocab]
    cases hlast : lastValue (json.spEntries.map (slotWrite tokenStrToBytes)) id with
    | none =>
        have hnone := lastValue_eq_none.mp hlast
        rw [lastValue_eq_none.mpr fun v hv => hnone v ((hwrites _ id v).mp hv)]
    | some p =>
        obtain ⟨p', hlast'⟩ := exists_lastValue ((hwrites _ id p).mpr (mem_of_lastValue hlast))
        obtain ⟨s, hs, rfl⟩ := spLast_of_slot hlast
        obtain ⟨s', hs', rfl⟩ := spLast_of_slot hlast'
        rw [hlast']
        exact hfree.slot s' s id ((spLast_reordered h).mp hs') hs
  · intro p
    rw [lookup_spReadVocab, lookup_spReadVocab]
    cases hlast : lastValue (json.spEntries.map (bytesWrite tokenStrToBytes)) p with
    | none =>
        have hnone := lastValue_eq_none.mp hlast
        exact lastValue_eq_none.mpr fun v hv => hnone v ((hwrites _ p v).mp hv)
    | some id =>
        obtain ⟨id', hlast'⟩ := exists_lastValue ((hwrites _ p id).mpr (mem_of_lastValue hlast))
        obtain ⟨s, hs, hkind⟩ := exists_of_inv hlast
        obtain ⟨s', hs', hkind'⟩ := exists_of_inv hlast'
        simp only [mem_reordered] at hs' hkind'
        rw [hlast']
        refine congrArg some ?_
        obtain ⟨hother, rfl⟩ | ⟨b, hb, rfl, honly⟩ := hkind
        · obtain ⟨hother', heq⟩ | ⟨b, -, heq, honly⟩ := hkind'
          · rw [textBytes_inj heq] at hs'
            exact VocabMap.id_unique hs' hs
          · exact absurd heq (honly s id hs hother)
        · obtain ⟨hother', heq⟩ | ⟨b', hb', heq, -⟩ := hkind'
          · exact absurd heq (honly s' id' hs' hother')
          · obtain rfl : b = b' := List.singleton_inj.mp heq
            exact hfree.spelling s' s id' id b hs' hs hb' hb honly

end

/-- A string that may have its slot has it in some order. -/
lemma SpLast.exists_order (hs : json.SpLast s id) :
    ∃ vocab, ∃ h : vocab.toList.Perm json.vocab.toList,
      (json.reordered vocab h).spReadVocab.slots.getD id [] = tokenStrToBytes s := by
  obtain ⟨vocab, h, hlist⟩ := exists_reordered json fun x => decide (x.1 = s)
  refine ⟨vocab, h, ?_⟩
  rw [getD_spReadVocab, spEntries, hlist, List.map_append, lastValue_append]
  obtain ⟨hmem, hother | hall⟩ := hs
  · have hlast := lastValue_reordered (f := slotWrite tokenStrToBytes)
      (r := fun x => !(parseByteFallback x.1).isSome) hmem (by simp [hother])
    rw [slotWrite] at hlast
    rw [hlast]
    rfl
  · have hlast := lastValue_reordered (f := slotWrite tokenStrToBytes)
      (r := fun x => (parseByteFallback x.1).isSome) hmem (hall s hmem)
    rw [slotWrite] at hlast
    have hnone : lastValue (((json.vocab.toList.filter (fun x => !decide (x.1 = s)) ++
        json.vocab.toList.filter (fun x => decide (x.1 = s))).filter
          fun x => !(parseByteFallback x.1).isSome).map (slotWrite tokenStrToBytes)) id = none := by
      refine lastValue_eq_none.mpr fun p hp => ?_
      obtain ⟨⟨t, id'⟩, hx, heq⟩ := List.mem_map.mp hp
      obtain ⟨rfl, -⟩ := Prod.mk.inj heq
      obtain ⟨hx, hother⟩ := List.mem_filter.mp hx
      have := hall t ((perm_filter json.vocab.toList _).mem_iff.mp hx)
      simp [this] at hother
    rw [hnone, Option.none_or, hlast]
    rfl

/-- A spelling of a byte has it in some order, if no string is this byte. -/
lemma exists_order_of_spelling {b : UInt8} (hs : (s, id) ∈ json.vocab.toList)
    (hb : parseByteFallback s = some b) (honly : ∀ t id'', (t, id'') ∈ json.vocab.toList →
      parseByteFallback t = none → textBytes t ≠ [b]) :
    ∃ vocab, ∃ h : vocab.toList.Perm json.vocab.toList,
      (json.reordered vocab h).spReadVocab.inv.lookup [b] = some id := by
  obtain ⟨vocab, h, hlist⟩ := exists_reordered json fun x => decide (x.1 = s)
  have hbytes : tokenStrToBytes s = [b] := by rw [tokenStrToBytes, hb]
  have hlast := lastValue_reordered (f := bytesWrite tokenStrToBytes)
    (r := fun x => (parseByteFallback x.1).isSome) hs (by simp [hb])
  rw [bytesWrite, hbytes] at hlast
  have hnone : lastValue (((json.vocab.toList.filter (fun x => !decide (x.1 = s)) ++
      json.vocab.toList.filter (fun x => decide (x.1 = s))).filter
        fun x => !(parseByteFallback x.1).isSome).map (bytesWrite tokenStrToBytes)) [b] = none := by
    refine lastValue_eq_none.mpr fun v hv => ?_
    obtain ⟨⟨t, id'⟩, hx, heq⟩ := List.mem_map.mp hv
    obtain ⟨hx, hother⟩ := List.mem_filter.mp hx
    have hother' : parseByteFallback t = none := by simpa using hother
    have heq' : tokenStrToBytes t = [b] := (Prod.mk.inj heq).1
    rw [tokenStrToBytes, hother'] at heq'
    exact honly t id' ((perm_filter json.vocab.toList _).mem_iff.mp hx) hother' heq'
  refine ⟨vocab, h, ?_⟩
  rw [lookup_spReadVocab, spEntries, hlist, List.map_append, lastValue_append, hnone,
    Option.none_or, hlast]

end HfJson

lemma HfJson.spByteFallbackId_reordered {vocab : VocabMap}
    (h : vocab.toList.Perm json.vocab.toList) :
    (json.reordered vocab h).spByteFallbackId = json.spByteFallbackId := by
  funext b
  refine Option.ext fun id => ?_
  change vocab.lookup _ = some id ↔ json.vocab.lookup _ = some id
  rw [← VocabMap.mem_toList, ← VocabMap.mem_toList]
  exact h.mem_iff

/-- A file that loads, loads in every order. -/
lemma buildHfSentencePiece_ok {model : HfSentencePiece}
    (hload : buildHfSentencePiece json = .ok model) :
    model = ⟨json.spSlots, json.spReadVocab.inv, json.spByteFallbackId, json.spMerges⟩ ∧
      ∀ vocab h, buildHfSentencePiece (json.reordered vocab h) =
        .ok ⟨(json.reordered vocab h).spSlots, (json.reordered vocab h).spReadVocab.inv,
          (json.reordered vocab h).spByteFallbackId, (json.reordered vocab h).spMerges⟩ := by
  rw [buildHfSentencePiece] at hload
  split_ifs at hload with htype hfallback hbytes
  refine ⟨(Except.ok.inj hload).symm, fun vocab h => ?_⟩
  rw [buildHfSentencePiece, HfJson.spByteFallbackId_reordered]
  rw [if_neg (show ¬ (json.reordered vocab h).modelType ≠ "BPE" from htype),
    if_neg (show ¬ (!(json.reordered vocab h).byteFallback) = true from hfallback), if_neg hbytes]

/-- A SentencePiece file loads to the same tokenizer in every order, just if the order does not
matter to it. -/
lemma spOrderFree_iff {model : HfSentencePiece} (hload : buildHfSentencePiece json = .ok model) :
    (∀ vocab h, ∃ model', buildHfSentencePiece (json.reordered vocab h) = .ok model' ∧
      (HfTokenizer.sentencePiece model).Same (.sentencePiece model')) ↔ json.SpOrderFree := by
  obtain ⟨rfl, hall⟩ := buildHfSentencePiece_ok hload
  constructor
  · intro hsame
    have hsame' : ∀ vocab h, json.spSlots = (json.reordered vocab h).spSlots ∧
        ∀ p, json.spReadVocab.inv.lookup p =
          (json.reordered vocab h).spReadVocab.inv.lookup p := by
      intro vocab h
      obtain ⟨model', hmodel', hslots, hinv, -⟩ := hsame vocab h
      obtain rfl := Except.ok.inj ((hall vocab h).symm.trans hmodel')
      exact ⟨hslots, hinv⟩
    refine ⟨fun s s' id hs hs' => ?_, fun s s' id id' b hs hs' hb hb' honly => ?_⟩
    · have hfill : ∀ {s}, json.SpLast s id → json.fill id (tokenStrToBytes s) =
          json.fill id (json.spReadVocab.slots.getD id []) := by
        intro s hs
        obtain ⟨vocab, h, hslot⟩ := hs.exists_order
        have hfill := (HfJson.spSlots_reordered_iff h).mp (hsame' vocab h).1.symm id
        rwa [hslot] at hfill
      rw [hfill hs, hfill hs']
    · have hinv : ∀ {s id}, (s, id) ∈ json.vocab.toList → parseByteFallback s = some b →
          json.spReadVocab.inv.lookup [b] = some id := by
        intro s id hs hb
        obtain ⟨vocab, h, hlookup⟩ := HfJson.exists_order_of_spelling hs hb honly
        rw [(hsame' vocab h).2, hlookup]
      exact Option.some_inj.mp ((hinv hs hb).symm.trans (hinv hs' hb'))
  · intro hfree vocab h
    obtain ⟨hslots, hinv⟩ := hfree.same h
    refine ⟨_, hall vocab h, hslots.symm, fun p => (hinv p).symm,
      (HfJson.spByteFallbackId_reordered h).symm, ?_⟩
    have hentry : spMergeEntry (json.reordered vocab h).spReadVocab.inv =
        spMergeEntry json.spReadVocab.inv := by
      funext x
      rw [spMergeEntry, spMergeEntry, hinv, hinv, hinv]
    change json.spMerges = (json.merges.zipIdx.filterMap
      (spMergeEntry (json.reordered vocab h).spReadVocab.inv)).foldl orInsert ∅
    rw [hentry]
    rfl

end Hypertok
