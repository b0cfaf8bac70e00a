import Hypertok.Bpe.PairRank
import Hypertok.Machine.Loop

/-!
Pair-rank tables from images: packed pairs to insert, or the slots of a table with their
positions.

* `entries`: the pairs of a table, in the order of its slots.
* `Holds.mem_entries`: they are the pairs of the map that it holds.
* `fromPackedEntries_holds`: inserted pairs make a map.
* `fromPrebuiltSlots_holds`: so do imported slots, if no two of them have one product and
  `rank` finds each; the check of the layout says that each is found by probing.
-/

namespace Hypertok

open Machine

namespace PairRankTable

/-! ### The code -/

/-- The fields of a slot: the parts and the product. -/
def unpackSlot (packed : ℕ) : TokenId × TokenId × TokenId :=
  let key := packed >>> pairIdBits
  (key >>> pairIdBits, key &&& (1 <<< pairIdBits - 1), packed &&& (1 <<< pairIdBits - 1))

/-- `entries`. -/
def entries (t : PairRankTable) : List (TokenId × TokenId × TokenId) :=
  t.slots.filterMap fun packed => if packed = u64Max then none else some (unpackSlot packed)

/-- One turn of `from_packed_entries`. -/
def packedStep (vocabLen : ℕ) (t : PairRankTable) (packed : ℕ) : Except String PairRankTable :=
  if packed = u64Max then .error "prebuilt pair entries contain the empty sentinel"
  else
    let (left, right, merged) := unpackSlot packed
    if vocabLen ≤ left ∨ vocabLen ≤ right ∨ vocabLen ≤ merged then
      .error "prebuilt pair entries contain an invalid pair"
    else
      match t.insert left right merged with
      | none => .error "prebuilt pair entries contain an invalid pair"
      | some t => .ok t

/-- `from_packed_entries`. -/
def fromPackedEntries (compact : Bool) (packed : List ℕ) (vocabLen : ℕ) :
    Except String PairRankTable :=
  match withCapacity compact vocabLen packed.length with
  | none => .error "prebuilt pair entries exceed table capacity"
  | some t => packed.foldlM (packedStep vocabLen) t

/-- One turn of the import of slots. -/
def importStep (vocabLen : ℕ) (t : PairRankTable) (x : ℕ × ℕ) : Except String PairRankTable :=
  match t.slots[x.1]? with
  | none => .error "prebuilt pair slot is out of bounds"
  | some target =>
      if target ≠ u64Max ∨ x.2 = u64Max then .error "prebuilt pair slot is duplicated or empty"
      else
        let (left, right, merged) := unpackSlot x.2
        if vocabLen ≤ left ∨ vocabLen ≤ right ∨ vocabLen ≤ merged then
          .error "prebuilt pair slot contains an invalid token id"
        else
          .ok { t with
            dense := match t.dense, t.denseCell left right with
              | some grid, some cell => some (Function.update grid cell merged)
              | dense, _ => dense
            slots := t.slots.set x.1 x.2 }

/-- The search for a slot from the home of its key, for at most `n` slots. -/
def reachLoop (t : PairRankTable) (slot : ℕ) : ℕ → ℕ → ℕ → Bool
  | 0, _, _ => false
  | n + 1, index, displacement =>
      if index = slot then true
      else if t.slots[index]? = some u64Max ∨ displacement ≥ 64 then false
      else t.reachLoop slot n ((index + 1) &&& t.mask) (displacement + 1)

/-- `from_prebuilt_slots`. The search is given up after 64 slots. -/
def fromPrebuiltSlots (compact : Bool) (slotCount : ℕ) (slots : List (ℕ × ℕ)) (vocabLen : ℕ) :
    Except String PairRankTable :=
  if compact then .error "prebuilt pair slots require flat pair ranks"
  else
    match withCapacity compact vocabLen slots.length with
    | none => .error "prebuilt pair slots exceed table capacity"
    | some t =>
        if t.slots.length ≠ slotCount then .error "prebuilt pair slot count is not canonical"
        else do
          let t ← slots.foldlM (importStep vocabLen) t
          if slots.all fun x => t.reachLoop x.1 65 (t.home (x.2 >>> pairIdBits)) 0 then .ok t
          else .error "prebuilt pair slot is not reachable by linear probing"

/-! ### The pairs of a table -/

variable {t : PairRankTable} {m : Merges} {room : ℕ} {a b c : ℕ}

lemma unpackSlot_packSlot (ha : Fits a) (hb : Fits b) (hc : Fits c) :
    unpackSlot (packSlot a b c) = (a, b, c) := by
  obtain ⟨-, hkey, hmerged⟩ := packSlot_spec ha hb hc
  have hleft : pairKey a b >>> pairIdBits = a := pack_shiftRight hb a
  have hright : pairKey a b &&& (1 <<< pairIdBits - 1) = b := pack_and hb a
  simp only [unpackSlot, hkey, hmerged, hleft, hright]

lemma packSlot_unpackSlot (packed : ℕ) :
    packSlot (unpackSlot packed).1 (unpackSlot packed).2.1 (unpackSlot packed).2.2 = packed := by
  have hmask : 1 <<< pairIdBits - 1 = 2 ^ pairIdBits - 1 := rfl
  simp only [unpackSlot, packSlot, pairKey, hmask, pack_unpack]

lemma pairKey_unpackSlot (packed : ℕ) :
    pairKey (unpackSlot packed).1 (unpackSlot packed).2.1 = packed >>> pairIdBits :=
  pack_unpack pairIdBits _

/-- The pairs of the table are those of the map. -/
lemma Holds.mem_entries (h : t.Holds m room) :
    (a, b, c) ∈ t.entries ↔ c ∈ m.lookup (a, b) := by
  rw [entries, List.mem_filterMap]
  constructor
  · rintro ⟨s, hs, heq⟩
    split_ifs at heq with hmax
    obtain ⟨j, hj⟩ := List.mem_iff_getElem?.mp hs
    obtain ⟨a', b', c', hc', -, rfl⟩ := h.slot_eq hj hmax
    obtain ⟨ha, hb, hc⟩ := h.fits a' b' c' hc'
    rw [unpackSlot_packSlot ha hb hc, Option.some_inj] at heq
    cases heq
    exact hc'
  · intro hc
    obtain ⟨ha, hb, hcf⟩ := h.fits a b c hc
    obtain ⟨j, hj, -⟩ := (h.stores _ _).mpr ⟨a, b, c, hc, rfl, rfl⟩
    refine ⟨packSlot a b c, List.mem_of_getElem? hj, ?_⟩
    rw [if_neg (packSlot_spec ha hb hcf).1, unpackSlot_packSlot ha hb hcf]

/-! ### Pairs that are inserted -/

/-- A pair is not inserted twice. -/
lemma Holds.lookup_eq_none (h : t.Holds m room) {t' : PairRankTable}
    (hins : t.insert a b c = some t') : m.lookup (a, b) = none := by
  rw [PairRankTable.insert] at hins
  split_ifs at hins
  obtain ⟨slots, hloop, -⟩ := Option.bind_eq_some_iff.mp hins
  rw [h.sized.home_eq] at hloop
  obtain ⟨i, -, hfull, hempty, -⟩ := h.insertLoop Probing.Full.zero hloop
  refine Option.eq_none_iff_forall_not_mem.mpr fun c' hc' => ?_
  exact h.probed.wellProbed.not_stores hfull hempty (by simp [probing]) _
    ((h.stores _ _).mpr ⟨a, b, c', hc', rfl, rfl⟩)

/-- Calls that each insert a pair. -/
lemma Holds.foldlM {α ε : Type} {f : PairRankTable → α → Except ε PairRankTable}
    {g : α → TokenId × TokenId × TokenId}
    (hf : ∀ t x t', f t x = .ok t' → t.insert (g x).1 (g x).2.1 (g x).2.2 = some t') {l : List α}
    {t' : PairRankTable} (h : t.Holds m l.length) (hrun : l.foldlM f t = .ok t') :
    ∃ m', t'.Holds m' 0 ∧ ∀ a b c, c ∈ m'.lookup (a, b) ↔ c ∈ m.lookup (a, b) ∨ (a, b, c) ∈ l.map g := by
  induction l generalizing t m with
  | nil =>
      cases hrun
      exact ⟨m, h, by simp⟩
  | cons x l ih =>
      rw [List.foldlM_cons] at hrun
      obtain ⟨t₁, hstep, hrun⟩ := bind_eq_ok_iff.mp hrun
      have hins := hf t x t₁ hstep
      have hnew := h.lookup_eq_none hins
      obtain ⟨m', hm', hiff⟩ := ih (h.insert hnew hins) hrun
      refine ⟨m', hm', fun a b c => (hiff a b c).trans ?_⟩
      rw [List.map_cons, List.mem_cons, ← or_assoc]
      refine or_congr_left ?_
      by_cases hab : (a, b) = ((g x).1, (g x).2.1)
      · rw [hab, AList.lookup_insert, hnew, Option.mem_some_iff]
        obtain ⟨rfl, rfl⟩ := Prod.mk.inj hab
        simp [Prod.ext_iff, eq_comm]
      · rw [AList.lookup_insert_ne hab]
        refine (or_iff_left ?_).symm
        rintro heq
        exact hab (by rw [← heq])

/-- Packed pairs that are inserted make a map. -/
theorem fromPackedEntries_holds {compact : Bool} {packed : List ℕ} {vocabLen : ℕ}
    (h : fromPackedEntries compact packed vocabLen = .ok t) (hlen : packed.length ≤ 2 ^ 62) :
    vocabLen ≤ 2 ^ 21 ∧
      ∃ m, t.Holds m 0 ∧ ∀ a b c, c ∈ m.lookup (a, b) ↔ (a, b, c) ∈ packed.map unpackSlot := by
  rw [fromPackedEntries] at h
  split at h
  case h_1 => cases h
  case h_2 t₀ hcap =>
      have hinsert : ∀ t x t', packedStep vocabLen t x = .ok t' →
          t.insert (unpackSlot x).1 (unpackSlot x).2.1 (unpackSlot x).2.2 = some t' := by
        intro t packed t' hstep
        rw [packedStep] at hstep
        split_ifs at hstep
        dsimp only at hstep
        split_ifs at hstep
        split at hstep
        case h_1 => cases hstep
        case h_2 t₁ hins =>
            cases hstep
            exact hins
      obtain ⟨m, hm, hiff⟩ := (withCapacity_holds hcap hlen).foldlM hinsert h
      exact ⟨(withCapacity_eq_some hcap).1, m, hm, fun a b c => by simpa using hiff a b c⟩

/-! ### Slots that are imported -/

/-- The slots so far are in the table, and in its grid. -/
structure Imported (vocabLen : ℕ) (t₀ : PairRankTable) (done : List (ℕ × ℕ)) (t : PairRankTable) :
    Prop where
  size : t.slots.length = t₀.slots.length ∧ t.mask = t₀.mask ∧ t.shift = t₀.shift
  log2 : t.denseLog2 = 11
  mem_done : ∀ (j : ℕ) s, t.slots[j]? = some s → s ≠ u64Max → (j, s) ∈ done
  slot : ∀ x ∈ done, t.slots[x.1]? = some x.2 ∧ x.2 ≠ u64Max ∧ (unpackSlot x.2).1 < vocabLen ∧
    (unpackSlot x.2).2.1 < vocabLen ∧ (unpackSlot x.2).2.2 < vocabLen
  occupied : t.probing.occupied t.slots = done.length
  grid : ∀ g, t.dense = some g → ∀ a b, a < 2 ^ 11 → b < 2 ^ 11 →
    (g (a <<< 11 ||| b) = u32Max ∧ ∀ x ∈ done, (unpackSlot x.2).1 = a → (unpackSlot x.2).2.1 ≠ b) ∨
      ∃ x ∈ done, unpackSlot x.2 = (a, b, g (a <<< 11 ||| b))

lemma Imported.start {mergeCount : ℕ} (h : t.Holds ∅ mergeCount)
    (hslots : ∃ n, t.slots = List.replicate n u64Max) (vocabLen : ℕ) : Imported vocabLen t [] t := by
  obtain ⟨n, hrepl⟩ := hslots
  have hnone : t.probing.key u64Max = none := by simp [probing]
  refine ⟨⟨rfl, rfl, rfl⟩, h.log2, fun j s hj hne => ?_, by simp, ?_, fun g hg a b ha hb => ?_⟩
  · rw [hrepl] at hj
    exact absurd (List.eq_of_mem_replicate (List.mem_of_getElem? hj)) hne
  · rw [hrepl, Probing.occupied_replicate hnone]
    rfl
  · refine .inl ⟨?_, by simp⟩
    rw [h.grid g hg a b ha hb, mergesRank]
    rfl

/-- A turn of the import. -/
lemma Imported.step {vocabLen : ℕ} {t₀ t' : PairRankTable} {done : List (ℕ × ℕ)} {x : ℕ × ℕ}
    (h : Imported vocabLen t₀ done t) (hstep : importStep vocabLen t x = .ok t') :
    Imported vocabLen t₀ (done ++ [x]) t' := by
  rw [importStep] at hstep
  split at hstep
  case h_1 => cases hstep
  case h_2 target htarget =>
      split_ifs at hstep with hbad
      dsimp only at hstep
      split_ifs at hstep with hids
      simp only [not_or, not_not, not_le] at hbad hids
      obtain ⟨rfl, hne⟩ := hbad
      have hlt := (List.getElem?_eq_some_iff.mp htarget).1
      have hnone : t.probing.key u64Max = none := by simp [probing]
      have hslots : t'.slots = t.slots.set x.1 x.2 := by
        cases hstep
        rfl
      have hfield : t'.mask = t.mask ∧ t'.shift = t.shift ∧ t'.denseLog2 = t.denseLog2 := by
        cases hstep
        exact ⟨rfl, rfl, rfl⟩
      have hlen : t'.slots.length = t.slots.length := by rw [hslots, List.length_set]
      refine ⟨⟨hlen.trans h.size.1, hfield.1.trans h.size.2.1, hfield.2.1.trans h.size.2.2⟩,
        hfield.2.2.trans h.log2, fun j s hj hs => ?_, fun y hy => ?_, ?_, fun g hg a b ha hb => ?_⟩
      · rw [hslots] at hj
        by_cases hjx : x.1 = j
        · subst hjx
          rw [List.getElem?_set_self hlt, Option.some_inj] at hj
          simp [← hj]
        · rw [List.getElem?_set_ne hjx] at hj
          exact List.mem_append_left _ (h.mem_done j s hj hs)
      · rw [hslots]
        rcases List.mem_append.mp hy with hy | hy
        · obtain ⟨hget, hy⟩ := h.slot y hy
          refine ⟨?_, hy⟩
          rw [List.getElem?_set_ne, hget]
          intro hxy
          rw [← hxy, htarget, Option.some_inj] at hget
          exact hy.1 hget.symm
        · rw [List.mem_singleton] at hy
          subst hy
          exact ⟨List.getElem?_set_self hlt, hne, hids⟩
      · rw [probing_congr hlen hfield.2.1, hslots,
          Probing.occupied_set htarget hnone (by simp [probing, hne]), h.occupied]
        simp
      · have hdense : t'.dense = match t.dense, t.denseCell (unpackSlot x.2).1 (unpackSlot x.2).2.1 with
            | some grid, some cell => some (Function.update grid cell (unpackSlot x.2).2.2)
            | dense, _ => dense := by
          cases hstep
          rfl
        rw [hdense, denseCell_eq h.log2] at hg
        cases hd : t.dense with
        | none => simp [hd] at hg
        | some g₀ =>
            rw [hd] at hg
            have hgrid := h.grid g₀ hd a b ha hb
            by_cases hab : (unpackSlot x.2).1 = a ∧ (unpackSlot x.2).2.1 = b
            · obtain ⟨rfl, rfl⟩ := hab
              rw [if_pos ⟨ha, hb⟩, Option.some_inj] at hg
              exact .inr ⟨x, by simp, by rw [← hg, Function.update_self]⟩
            · have hcell : g (a <<< 11 ||| b) = g₀ (a <<< 11 ||| b) := by
                by_cases hsmall : (unpackSlot x.2).1 < 2 ^ 11 ∧ (unpackSlot x.2).2.1 < 2 ^ 11
                · rw [if_pos hsmall, Option.some_inj] at hg
                  rw [← hg, Function.update_of_ne]
                  intro hcell
                  obtain ⟨rfl, rfl⟩ := pack_inj hb hsmall.2 hcell
                  exact hab ⟨rfl, rfl⟩
                · rw [if_neg hsmall, Option.some_inj] at hg
                  rw [hg]
              rw [hcell]
              rcases hgrid with ⟨hmax, hnot⟩ | ⟨y, hy, heq⟩
              · refine .inl ⟨hmax, fun y hy => ?_⟩
                rcases List.mem_append.mp hy with hy | hy
                · exact hnot y hy
                · rw [List.mem_singleton.mp hy]
                  exact fun hleft hright => hab ⟨hleft, hright⟩
              · exact .inr ⟨y, List.mem_append_left _ hy, heq⟩

/-- The search for a slot passes slots in use only. -/
lemma reachLoop_spec (h : t.Sized) {slot key n i d : ℕ}
    (hreach : t.reachLoop slot n (t.probing.index key i) d = true) :
    ∃ i', i ≤ i' ∧ i' < i + n ∧ t.probing.index key i' = slot ∧ ∀ k, i ≤ k → k < i' →
      t.probing.index key k ≠ slot ∧ t.slots[t.probing.index key k]? ≠ some u64Max := by
  induction n generalizing i d with
  | zero => simp [reachLoop] at hreach
  | succ n ih =>
      rw [reachLoop] at hreach
      split_ifs at hreach with hslot hempty
      · exact ⟨i, le_rfl, by omega, hslot, fun k hk hk' => absurd hk (by omega)⟩
      · rw [h.index_succ] at hreach
        obtain ⟨i', hle, hlt, heq, hpath⟩ := ih hreach
        refine ⟨i', by omega, by omega, heq, fun k hk hk' => ?_⟩
        obtain rfl | hlt := hk.eq_or_lt
        · exact ⟨hslot, fun hmax => hempty (.inl hmax)⟩
        · exact hpath k hlt hk'

/-- In a table whose products are told apart, slots with one product are one slot. -/
lemma slot_eq_of_merged (h : (t.entries.map fun e => e.2.2).Nodup) {j j' s s' : ℕ}
    (hj : t.slots[j]? = some s) (hj' : t.slots[j']? = some s') (hs : s ≠ u64Max) (hs' : s' ≠ u64Max)
    (hmerged : (unpackSlot s).2.2 = (unpackSlot s').2.2) : j = j' := by
  have hpair := List.pairwise_filterMap.mp (List.pairwise_map.mp h)
  have hlt : ∀ {i i' x x' : ℕ}, t.slots[i]? = some x → t.slots[i']? = some x' → x ≠ u64Max →
      x' ≠ u64Max → i < i' → (unpackSlot x).2.2 ≠ (unpackSlot x').2.2 := by
    intro i i' x x' hi hi' hx hx' hii
    obtain ⟨hi₁, rfl⟩ := List.getElem?_eq_some_iff.mp hi
    obtain ⟨hi₂, rfl⟩ := List.getElem?_eq_some_iff.mp hi'
    exact List.pairwise_iff_getElem.mp hpair i i' hi₁ hi₂ hii _ (by rw [if_neg hx]) _
      (by rw [if_neg hx'])
  rcases lt_trichotomy j j' with hjj | hjj | hjj
  · exact absurd hmerged (hlt hj hj' hs hs' hjj)
  · exact hjj
  · exact absurd hmerged.symm (hlt hj' hj hs' hs hjj)

/-- Imported slots make a map, if no two have one product, and `rank` finds each. -/
theorem fromPrebuiltSlots_holds {compact : Bool} {slotCount vocabLen : ℕ} {slots : List (ℕ × ℕ)}
    (h : fromPrebuiltSlots compact slotCount slots vocabLen = .ok t) (hlen : slots.length ≤ 2 ^ 62)
    (hnodup : (t.entries.map fun e => e.2.2).Nodup)
    (hrank : ∀ e ∈ t.entries, t.rank e.1 e.2.1 = e.2.2) :
    vocabLen ≤ 2 ^ 21 ∧ ∃ m, t.Holds m 0 ∧
      ∀ a b c, c ∈ m.lookup (a, b) ↔ (a, b, c) ∈ slots.map fun x => unpackSlot x.2 := by
  rw [fromPrebuiltSlots] at h
  split_ifs at h
  split at h
  case h_1 => cases h
  case h_2 t₀ hcap =>
      split_ifs at h
      obtain ⟨t₁, hfold, h⟩ := bind_eq_ok_iff.mp h
      split_ifs at h with hreach
      cases h
      have hvocab := (withCapacity_eq_some hcap).1
      refine ⟨hvocab, ?_⟩
      have ht₀ := withCapacity_holds hcap hlen
      have himp : Imported vocabLen t₀ slots t :=
        foldlM_ok (.start ht₀ ⟨_, by rw [(withCapacity_eq_some hcap).2]⟩ vocabLen)
          (fun _ _ _ _ _ h hstep => h.step hstep) hfold
      have hsized : t.Sized := by
        rw [Sized, himp.size.1, himp.size.2.1, himp.size.2.2]
        exact ht₀.pow
      -- the map of the pairs
      have hmem : ∀ {a b c : ℕ}, (a, b, c) ∈ t.entries ↔
          ∃ j : ℕ, t.slots[j]? = some (packSlot a b c) ∧ packSlot a b c ≠ u64Max ∧
            unpackSlot (packSlot a b c) = (a, b, c) := by
        intro a b c
        rw [entries, List.mem_filterMap]
        constructor
        · rintro ⟨s, hs, heq⟩
          split_ifs at heq with hmax
          obtain ⟨j, hj⟩ := List.mem_iff_getElem?.mp hs
          have hs' : packSlot a b c = s := by
            rw [← packSlot_unpackSlot s, Option.some_inj.mp heq]
          rw [hs']
          exact ⟨j, hj, hmax, Option.some_inj.mp heq⟩
        · rintro ⟨j, hj, hmax, heq⟩
          exact ⟨_, List.mem_of_getElem? hj, by rw [if_neg hmax, heq]⟩
      have hkeys : (t.entries.map fun e =>
          (⟨(e.1, e.2.1), e.2.2⟩ : (_ : TokenId × TokenId) × TokenId)).NodupKeys := by
        have hmerged : ((t.entries.map fun e => (e.1, e.2.1)).map fun p => t.rank p.1 p.2) =
            t.entries.map fun e => e.2.2 := by
          rw [List.map_map]
          exact List.map_congr_left hrank
        rw [List.NodupKeys, List.keys, List.map_map]
        exact List.Nodup.of_map (fun p : TokenId × TokenId => t.rank p.1 p.2) (hmerged ▸ hnodup)
      have hlookup : ∀ a b c : ℕ, c ∈ AList.lookup (a, b) (⟨_, hkeys⟩ : Merges) ↔
          (a, b, c) ∈ t.entries := by
        intro a b c
        rw [AList.mem_lookup_iff, List.mem_map]
        constructor
        · rintro ⟨⟨a', b', c'⟩, he, heq⟩
          cases heq
          exact he
        · exact fun he => ⟨_, he, rfl⟩
      have hfits : ∀ a b c, (a, b, c) ∈ t.entries → Fits a ∧ Fits b ∧ Fits c := by
        intro a b c he
        obtain ⟨j, hj, hmax, heq⟩ := hmem.mp he
        obtain ⟨-, -, ha, hb, hc⟩ := himp.slot _ (himp.mem_done j _ hj hmax)
        simp only [heq] at ha hb hc
        exact ⟨ha.trans_le hvocab, hb.trans_le hvocab, hc.trans_le hvocab⟩
      -- slots of one pair have one product, so they are one slot
      have hunique : ∀ {j j' s s' : ℕ}, t.slots[j]? = some s → t.slots[j']? = some s' →
          s ≠ u64Max → s' ≠ u64Max → s >>> pairIdBits = s' >>> pairIdBits → j = j' := by
        intro j j' s s' hj hj' hs hs' hkey
        refine slot_eq_of_merged hnodup hj hj' hs hs' ?_
        have he : ∀ {j s : ℕ}, t.slots[j]? = some s → s ≠ u64Max → unpackSlot s ∈ t.entries :=
          fun {j s} hj hs => List.mem_filterMap.mpr ⟨s, List.mem_of_getElem? hj, if_neg hs⟩
        have hfst : (unpackSlot s).1 = (unpackSlot s').1 := by simp only [unpackSlot, hkey]
        have hsnd : (unpackSlot s).2.1 = (unpackSlot s').2.1 := by simp only [unpackSlot, hkey]
        rw [← hrank _ (he hj hs), ← hrank _ (he hj' hs'), hfst, hsnd]
      refine ⟨⟨_, hkeys⟩, ⟨hsized, ?_, ?_, ?_, ?_, himp.log2, fun g hg a b ha hb => ?_⟩,
        fun a b c => (hlookup a b c).trans ?_⟩
      · intro j s k hj hk
        have hs : s ≠ u64Max := by
          rintro rfl
          simp [probing] at hk
        have hks : k = s >>> pairIdBits := by simpa [probing, hs, eq_comm] using hk
        have hreach' := List.all_eq_true.mp hreach _ (himp.mem_done j s hj hs)
        rw [hsized.home_eq] at hreach'
        obtain ⟨i, -, hle, hi, hpath⟩ := reachLoop_spec hsized hreach'
        refine ⟨i, by omega, hks ▸ hi, fun k' hk' => ?_⟩
        obtain ⟨hne, hused⟩ := hpath k' (Nat.zero_le _) hk'
        have hpos : 0 < t.slots.length := by
          obtain ⟨e, -, hlen, -⟩ := hsized
          rw [hlen]
          exact Nat.two_pow_pos e
        rw [hks]
        obtain ⟨s', hget⟩ : ∃ s', t.slots[t.probing.index (s >>> pairIdBits) k']? = some s' :=
          ⟨_, List.getElem?_eq_getElem (Nat.mod_lt _ hpos)⟩
        have hs' : s' ≠ u64Max := by
          rintro rfl
          exact hused hget
        exact ⟨s', _, hget, if_neg hs', fun heq => hne (hunique hget hj hs' hs heq)⟩
      · intro a b c hc
        exact hfits a b c ((hlookup a b c).mp hc)
      · intro k s
        constructor
        · rintro ⟨j, hj, hk⟩
          have hs : s ≠ u64Max := by
            rintro rfl
            simp [probing] at hk
          refine ⟨(unpackSlot s).1, (unpackSlot s).2.1, (unpackSlot s).2.2, ?_, ?_,
            (packSlot_unpackSlot s).symm⟩
          · exact (hlookup _ _ _).mpr (List.mem_filterMap.mpr ⟨s, List.mem_of_getElem? hj, if_neg hs⟩)
          · rw [pairKey_unpackSlot]
            simpa [probing, hs, eq_comm] using hk
        · rintro ⟨a, b, c, hc, rfl, rfl⟩
          obtain ⟨ha, hb, hcf⟩ := hfits a b c ((hlookup a b c).mp hc)
          obtain ⟨j, hj, -, -⟩ := hmem.mp ((hlookup a b c).mp hc)
          exact ⟨j, hj, probing_key_packSlot t ha hb hcf⟩
      · rw [himp.occupied, himp.size.1]
        exact (Nat.le_add_left _ _).trans_lt ht₀.load
      · rw [mergesRank]
        rcases himp.grid g hg a b ha hb with ⟨hmax, hnot⟩ | ⟨x, hx, heq⟩
        · have hnone : AList.lookup (a, b) (⟨_, hkeys⟩ : Merges) = none := by
            refine Option.eq_none_iff_forall_not_mem.mpr fun c hc => ?_
            obtain ⟨j, hj, hne, heq⟩ := hmem.mp ((hlookup a b c).mp hc)
            exact hnot _ (himp.mem_done j _ hj hne) (by rw [heq]) (by rw [heq])
          rw [hnone, hmax, Option.getD_none]
        · obtain ⟨hget, hne, -⟩ := himp.slot x hx
          have he : (a, b, g (a <<< 11 ||| b)) ∈ t.entries :=
            List.mem_filterMap.mpr ⟨_, List.mem_of_getElem? hget, by rw [if_neg hne, heq]⟩
          rw [Option.mem_def.mp ((hlookup _ _ _).mpr he), Option.getD_some]
      · rw [entries, List.mem_filterMap, List.mem_map]
        constructor
        · rintro ⟨s, hs, heq⟩
          split_ifs at heq with hmax
          obtain ⟨j, hj⟩ := List.mem_iff_getElem?.mp hs
          exact ⟨(j, s), himp.mem_done j s hj hmax, Option.some_inj.mp heq⟩
        · rintro ⟨x, hx, heq⟩
          obtain ⟨hget, hne, -⟩ := himp.slot x hx
          exact ⟨x.2, List.mem_of_getElem? hget, by rw [if_neg hne, heq]⟩

end PairRankTable

end Hypertok
