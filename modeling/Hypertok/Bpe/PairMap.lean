import Hypertok.Bpe.PairImage

/-!
Pair-rank tables as finite maps, however they are made: from a map, by single inserts, with
or without the grid, or from the image of another table.

* `Made`: the tables that `build` makes, and those that `with_capacity` makes with inserts.
* `Made.holds`: such a table holds its pairs.
* `SameSlots`: a table and its compact form take the same pairs to the same slots.
* `made_map`: lookups, enumeration and termination; the compact form; the image, which is
  accepted exactly if the table has the slots of a table for its number of pairs.
-/

namespace Hypertok

open Machine

namespace PairRankTable

/-! ### The code -/

/-- The number of slots of a table for so many pairs. -/
def slotCount (mergeCount : ℕ) : ℕ := max (nextPowerOfTwo (max mergeCount 1 * 2)) 64

/-- `prebuilt_slot_image`: the slots in use with their positions, in 32 bits. A compact
table has no image. -/
def prebuiltSlotImage (t : PairRankTable) : Option (ℕ × List (ℕ × ℕ)) :=
  t.dense.map fun _ => (t.slots.length, t.slots.zipIdx.filterMap fun x =>
    if x.1 = u64Max then none else some (x.2 % 2 ^ 32, x.1))

/-- Calls of `insert`: the pairs that are taken, and the number of calls. A call that
returns `false` changes nothing. -/
inductive Inserted : PairRankTable → List (TokenId × TokenId × TokenId) → ℕ → PairRankTable → Prop
  | nil (t : PairRankTable) : Inserted t [] 0 t
  | insert {t t₁ t₂ : PairRankTable} {a b c n : ℕ} {l : List (TokenId × TokenId × TokenId)}
      (hinsert : t.insert a b c = some t₁) (hrest : Inserted t₁ l n t₂) :
      Inserted t ((a, b, c) :: l) (n + 1) t₂
  | refuse {t t₂ : PairRankTable} {a b c n : ℕ} {l : List (TokenId × TokenId × TokenId)}
      (hinsert : t.insert a b c = none) (hrest : Inserted t l n t₂) : Inserted t l (n + 1) t₂

/-- The pairs of a map. -/
def triples (m : Merges) : List (TokenId × TokenId × TokenId) :=
  m.entries.map fun e => (e.1.1, e.1.2, e.2)

/-- The tables that `build` makes, or `with_capacity` followed by no more calls of `insert`
than the capacity, with the capacity and the pairs. The size of a table with a capacity
above `2^62` overflows. -/
inductive Made (compact : Bool) (vocabLen : ℕ) :
    ℕ → List (TokenId × TokenId × TokenId) → PairRankTable → Prop
  | build {m : Merges} {t : PairRankTable} (hbuild : build compact m vocabLen = some t) :
      Made compact vocabLen m.entries.length (triples m) t
  | inserts {capacity n : ℕ} {l : List (TokenId × TokenId × TokenId)} {t₀ t : PairRankTable}
      (hcapacity : capacity ≤ 2 ^ 62) (hnew : withCapacity compact vocabLen capacity = some t₀)
      (hcalls : n ≤ capacity) (hinserted : Inserted t₀ l n t) : Made compact vocabLen capacity l t

/-! ### The map of a table -/

variable {compact : Bool} {vocabLen capacity n room : ℕ} {m : Merges} {t t' : PairRankTable}
  {l : List (TokenId × TokenId × TokenId)} {a b c : ℕ}

lemma Holds.mono {room' : ℕ} (h : t.Holds m room) (hle : room' ≤ room) : t.Holds m room' :=
  ⟨h.pow, h.probed, h.fits, h.stores, (Nat.add_le_add_left hle _).trans_lt h.load, h.log2, h.grid⟩

/-- The pairs that are taken are new ones, and the table holds them with the old ones. -/
lemma Inserted.holds (h : Inserted t l n t') (ht : t.Holds m room) (hn : n ≤ room) :
    l.Nodup ∧ (∀ e ∈ l, m.lookup (e.1, e.2.1) = none) ∧ l.length ≤ n ∧
      ∃ m', t'.Holds m' 0 ∧
        ∀ a b c, c ∈ m'.lookup (a, b) ↔ c ∈ m.lookup (a, b) ∨ (a, b, c) ∈ l := by
  induction h generalizing m room with
  | nil t => exact ⟨.nil, by simp, le_rfl, m, ht.mono (Nat.zero_le _), by simp⟩
  | @insert t t₁ t₂ a b c n l hinsert _ ih =>
      obtain ⟨room, rfl⟩ : ∃ r, room = r + 1 := ⟨room - 1, by omega⟩
      have hnone := ht.lookup_eq_none hinsert
      obtain ⟨hnodup, hfresh, hlen, m', hm', hiff⟩ := ih (ht.insert hnone hinsert) (by omega)
      have hne : ∀ e ∈ l, (e.1, e.2.1) ≠ (a, b) := by
        intro e he heq
        have hlookup := hfresh e he
        rw [heq, AList.lookup_insert] at hlookup
        cases hlookup
      refine ⟨List.nodup_cons.mpr ⟨fun hmem => hne _ hmem rfl, hnodup⟩, ?_, by simp; omega, m', hm',
        fun a' b' c' => (hiff a' b' c').trans ?_⟩
      · intro e he
        obtain rfl | he := List.mem_cons.mp he
        · exact hnone
        · rw [← AList.lookup_insert_ne (hne e he)]
          exact hfresh e he
      · rw [List.mem_cons, ← or_assoc]
        refine or_congr_left ?_
        by_cases hab : (a', b') = (a, b)
        · obtain ⟨rfl, rfl⟩ := Prod.mk.inj hab
          rw [AList.lookup_insert, hnone, Option.mem_some_iff]
          simp [eq_comm]
        · rw [AList.lookup_insert_ne hab]
          refine (or_iff_left ?_).symm
          rintro heq
          simp only [Prod.mk.injEq] at heq
          exact hab (by rw [heq.1, heq.2.1])
  | refuse _ _ ih =>
      obtain ⟨hnodup, hfresh, hlen, hrest⟩ := ih ht (by omega)
      exact ⟨hnodup, hfresh, by omega, hrest⟩

lemma mem_triples : (a, b, c) ∈ triples m ↔ c ∈ m.lookup (a, b) := by
  rw [triples, List.mem_map, AList.mem_lookup_iff]
  constructor
  · rintro ⟨⟨⟨a', b'⟩, c'⟩, he, heq⟩
    cases heq
    exact he
  · exact fun he => ⟨_, he, rfl⟩

lemma nodup_triples (m : Merges) : (triples m).Nodup := by
  have hkeys : (m.entries.map Sigma.fst).Nodup := m.nodupKeys
  refine List.Nodup.of_map (fun e => (e.1, e.2.1)) ?_
  rwa [triples, List.map_map]

/-- A map of pairs of ids below `N` has at most `N * N` of them. -/
lemma length_entries_le {N : ℕ} (h : ∀ e ∈ m.entries, e.1.1 < N ∧ e.1.2 < N) :
    m.entries.length ≤ N * N := by
  have hkeys : (m.entries.map Sigma.fst).Nodup := m.nodupKeys
  have hsub : (m.entries.map Sigma.fst).toFinset ⊆ Finset.range N ×ˢ Finset.range N := by
    intro p hp
    obtain ⟨e, he, rfl⟩ := List.mem_map.mp (List.mem_toFinset.mp hp)
    exact Finset.mem_product.mpr ⟨Finset.mem_range.mpr (h e he).1, Finset.mem_range.mpr (h e he).2⟩
  have hcard := Finset.card_le_card hsub
  rwa [List.toFinset_card_of_nodup hkeys, List.length_map, Finset.card_product, Finset.card_range]
    at hcard

/-- A table holds the pairs that it was made of. -/
theorem Made.holds (h : Made compact vocabLen capacity l t) :
    ∃ m, t.Holds m 0 ∧ (∀ a b c, c ∈ m.lookup (a, b) ↔ (a, b, c) ∈ l) ∧ l.Nodup ∧
      l.length ≤ capacity ∧ capacity ≤ 2 ^ 62 := by
  cases h with
  | @build m _ hbuild =>
      have hfits : ∀ e ∈ m.entries, Fits e.1.1 ∧ Fits e.1.2 := by
        rw [PairRankTable.build] at hbuild
        split_ifs at hbuild with hbig
        intro e he
        simp only [not_exists, not_and, not_or, ge_iff_le, not_le] at hbig
        exact ⟨(hbig e he).1, (hbig e he).2.1⟩
      have hlen : m.entries.length ≤ 2 ^ 62 := (length_entries_le hfits).trans (by decide)
      exact ⟨m, (build_holds hbuild hlen).2, fun a b c => mem_triples.symm, nodup_triples m,
        by rw [triples, List.length_map], hlen⟩
  | inserts hcapacity hnew hcalls hinserted =>
      obtain ⟨hnodup, -, hlen, m, hm, hiff⟩ :=
        hinserted.holds (withCapacity_holds hnew hcapacity) hcalls
      exact ⟨m, hm, fun a b c => (hiff a b c).trans (or_iff_right (by simp)), hnodup,
        hlen.trans hcalls, hcapacity⟩

/-! ### The compact form -/

/-- Tables that differ in their grids only. -/
structure SameSlots (t t' : PairRankTable) : Prop where
  slots : t'.slots = t.slots
  mask : t'.mask = t.mask
  shift : t'.shift = t.shift

namespace SameSlots

lemma withCapacity (h : PairRankTable.withCapacity compact vocabLen capacity = some t) :
    ∃ t', PairRankTable.withCapacity (!compact) vocabLen capacity = some t' ∧ SameSlots t t' := by
  rw [PairRankTable.withCapacity] at h ⊢
  split_ifs at h ⊢
  all_goals
    cases h
    exact ⟨_, rfl, rfl, rfl, rfl⟩

variable (h : SameSlots t t')
include h

lemma home_eq (key : ℕ) : t'.home key = t.home key := by rw [home, home, h.shift]

lemma insertLoop_eq (key merged n i d : ℕ) :
    t'.insertLoop key merged n i d = t.insertLoop key merged n i d := by
  induction n generalizing i d with
  | zero => rfl
  | succ n ih => simp only [PairRankTable.insertLoop, h.slots, h.mask, ih]

lemma placeLoop_eq (slot n i d : ℕ) : t'.placeLoop slot n i d = t.placeLoop slot n i d := by
  induction n generalizing i d with
  | zero => rfl
  | succ n ih => simp only [PairRankTable.placeLoop, h.slots, h.mask, ih]

lemma insert_none (hinsert : t.insert a b c = none) : t'.insert a b c = none := by
  rw [PairRankTable.insert] at hinsert ⊢
  split_ifs at hinsert ⊢ with hbig
  · rfl
  · simp only [h.home_eq, h.insertLoop_eq, Option.bind_eq_bind, Option.bind_eq_none_iff] at hinsert ⊢
    exact fun slots hslots => absurd (hinsert slots hslots) (by simp)

lemma insert_some {t₁ : PairRankTable} (hinsert : t.insert a b c = some t₁) :
    ∃ t₁', t'.insert a b c = some t₁' ∧ SameSlots t₁ t₁' := by
  rw [PairRankTable.insert] at hinsert ⊢
  split_ifs at hinsert ⊢ with hbig
  simp only [h.home_eq, h.insertLoop_eq, Option.bind_eq_bind] at hinsert ⊢
  obtain ⟨slots, hslots, hinsert⟩ := Option.bind_eq_some_iff.mp hinsert
  rw [hslots, Option.bind_some]
  cases hinsert
  exact ⟨_, rfl, rfl, h.mask, h.shift⟩

lemma inserted {t₁ : PairRankTable} (hinserted : Inserted t l n t₁) :
    ∃ t₁', Inserted t' l n t₁' ∧ SameSlots t₁ t₁' := by
  induction hinserted generalizing t' with
  | nil t => exact ⟨t', .nil _, h⟩
  | insert hinsert _ ih =>
      obtain ⟨t₂, hinsert', h'⟩ := h.insert_some hinsert
      obtain ⟨t₃, hrest, h''⟩ := ih h'
      exact ⟨t₃, .insert hinsert' hrest, h''⟩
  | refuse hinsert _ ih =>
      obtain ⟨t₃, hrest, h'⟩ := ih h
      exact ⟨t₃, .refuse (h.insert_none hinsert) hrest, h'⟩

lemma buildStep_some {e : (_ : TokenId × TokenId) × TokenId} {t₁ : PairRankTable}
    (hstep : t.buildStep e = some t₁) : ∃ t₁', t'.buildStep e = some t₁' ∧ SameSlots t₁ t₁' := by
  rw [buildStep] at hstep ⊢
  simp only [h.home_eq, h.placeLoop_eq, Option.bind_eq_bind] at hstep ⊢
  obtain ⟨slots, hslots, hstep⟩ := Option.bind_eq_some_iff.mp hstep
  rw [hslots, Option.bind_some]
  cases hstep
  exact ⟨_, rfl, rfl, h.mask, h.shift⟩

lemma buildSteps {es : List ((_ : TokenId × TokenId) × TokenId)} {t₁ : PairRankTable}
    (hfold : es.foldlM buildStep t = some t₁) :
    ∃ t₁', es.foldlM buildStep t' = some t₁' ∧ SameSlots t₁ t₁' := by
  induction es generalizing t t' with
  | nil =>
      cases hfold
      exact ⟨t', rfl, h⟩
  | cons e es ih =>
      obtain ⟨t₂, hstep, hfold⟩ := Option.bind_eq_some_iff.mp hfold
      obtain ⟨t₂', hstep', h'⟩ := h.buildStep_some hstep
      obtain ⟨t₁', hfold', h''⟩ := ih h' hfold
      exact ⟨t₁', Option.bind_eq_some_iff.mpr ⟨t₂', hstep', hfold'⟩, h''⟩

end SameSlots

/-- The other form of a table, made of the same pairs. -/
lemma Made.other (h : Made compact vocabLen capacity l t) :
    ∃ t', Made (!compact) vocabLen capacity l t' := by
  cases h with
  | @build m _ hbuild =>
      rw [PairRankTable.build] at hbuild
      split_ifs at hbuild with hbig
      obtain ⟨t₀, hcap, hfold⟩ := Option.bind_eq_some_iff.mp hbuild
      obtain ⟨t₀', hcap', h₀⟩ := SameSlots.withCapacity hcap
      obtain ⟨t', hfold', -⟩ := h₀.buildSteps hfold
      refine ⟨t', .build ?_⟩
      rw [PairRankTable.build, if_neg hbig]
      exact Option.bind_eq_some_iff.mpr ⟨t₀', hcap', hfold'⟩
  | inserts hcapacity hnew hcalls hinserted =>
      obtain ⟨t₀', hnew', h₀⟩ := SameSlots.withCapacity hnew
      obtain ⟨t', hinserted', -⟩ := h₀.inserted hinserted
      exact ⟨t', .inserts hcapacity hnew' hcalls hinserted'⟩

/-! ### The pairs in their slots -/

/-- A pair is in one slot, so it is enumerated once. -/
lemma Holds.nodup_entries (h : t.Holds m room) : t.entries.Nodup := by
  refine List.pairwise_filterMap.mpr (List.pairwise_iff_getElem.mpr fun i j hi hj hij => ?_)
  rintro x hx y hy rfl
  split_ifs at hx hy with hmax hmax'
  have hs : t.slots[i] = t.slots[j] := by
    rw [← packSlot_unpackSlot t.slots[i], ← packSlot_unpackSlot t.slots[j], Option.some_inj.mp hx,
      Option.some_inj.mp hy]
  have hkey : t.probing.key t.slots[i] = some (t.slots[i] >>> pairIdBits) := if_neg hmax
  obtain ⟨k, -, hk, hfull⟩ := h.probed i _ _ (List.getElem?_eq_getElem hi) hkey
  have hget : t.slots[t.probing.index (t.slots[i] >>> pairIdBits) k]? = some t.slots[i] := by
    rw [hk]
    exact List.getElem?_eq_getElem hi
  have hkey' : t.probing.key t.slots[j] = some (t.slots[i] >>> pairIdBits) := by rw [← hs, hkey]
  have hpos := h.probed.wellProbed.pos_eq hfull hget hkey (List.getElem?_eq_getElem hj) hkey'
  omega

lemma length_insertLoop {key merged i d : ℕ} {slots : List ℕ}
    (h : t.insertLoop key merged n i d = some slots) : slots.length = t.slots.length := by
  induction n generalizing i d with
  | zero => cases h
  | succ n ih =>
      obtain ⟨packed, -, h⟩ := Option.bind_eq_some_iff.mp h
      split_ifs at h
      · rw [← Option.some_inj.mp h, List.length_set]
      · exact ih h

lemma length_placeLoop {slot i d : ℕ} {slots : List ℕ} (h : t.placeLoop slot n i d = some slots) :
    slots.length = t.slots.length := by
  induction n generalizing i d with
  | zero => cases h
  | succ n ih =>
      obtain ⟨packed, -, h⟩ := Option.bind_eq_some_iff.mp h
      split_ifs at h
      · rw [← Option.some_inj.mp h, List.length_set]
      · exact ih h

lemma Inserted.length_slots (h : Inserted t l n t') : t'.slots.length = t.slots.length := by
  induction h with
  | nil => rfl
  | insert hinsert _ ih =>
      rw [ih]
      rw [PairRankTable.insert] at hinsert
      split_ifs at hinsert
      obtain ⟨slots, hslots, hinsert⟩ := Option.bind_eq_some_iff.mp hinsert
      cases hinsert
      exact length_insertLoop hslots
  | refuse _ _ ih => exact ih

lemma length_buildSteps {es : List ((_ : TokenId × TokenId) × TokenId)}
    (h : es.foldlM buildStep t = some t') : t'.slots.length = t.slots.length := by
  induction es generalizing t with
  | nil =>
      cases h
      rfl
  | cons e es ih =>
      obtain ⟨t₂, hstep, h⟩ := Option.bind_eq_some_iff.mp h
      obtain ⟨slots, hslots, hstep⟩ := Option.bind_eq_some_iff.mp hstep
      cases hstep
      rw [ih h]
      exact length_placeLoop hslots

/-- The slots of a table for its capacity. -/
lemma Made.length_slots (h : Made compact vocabLen capacity l t) :
    t.slots.length = slotCount capacity := by
  have hnew : ∀ {n : ℕ} {t₀ : PairRankTable}, PairRankTable.withCapacity compact vocabLen n = some t₀ →
      t₀.slots.length = slotCount n := by
    intro n t₀ h
    rw [(withCapacity_eq_some h).2]
    simp [slotCount]
  cases h with
  | @build m _ hbuild =>
      rw [PairRankTable.build] at hbuild
      split_ifs at hbuild with hbig
      obtain ⟨t₀, hcap, hfold⟩ := Option.bind_eq_some_iff.mp hbuild
      rw [← hnew hcap]
      exact length_buildSteps hfold
  | inserts _ hcap _ hinserted =>
      rw [← hnew hcap]
      exact hinserted.length_slots

/-! ### Images -/

/-- The slots in use, with their positions. -/
lemma mem_prebuiltSlotImage {slotCount : ℕ} {image : List (ℕ × ℕ)}
    (h : t.prebuiltSlotImage = some (slotCount, image)) (hlen : t.slots.length ≤ 2 ^ 32) (j s : ℕ) :
    (j, s) ∈ image ↔ t.slots[j]? = some s ∧ s ≠ u64Max := by
  obtain ⟨g, -, heq⟩ := Option.map_eq_some_iff.mp h
  cases heq
  rw [List.mem_filterMap]
  constructor
  · rintro ⟨⟨s', i⟩, hmem, heq⟩
    split_ifs at heq with hmax
    have hget := List.mem_zipIdx_iff_getElem?.mp hmem
    have hi : i < 2 ^ 32 := (List.getElem?_eq_some_iff.mp hget).1.trans_le hlen
    cases heq
    rw [Nat.mod_eq_of_lt hi]
    exact ⟨hget, hmax⟩
  · rintro ⟨hget, hmax⟩
    have hj : j < 2 ^ 32 := (List.getElem?_eq_some_iff.mp hget).1.trans_le hlen
    exact ⟨(s, j), List.mem_zipIdx_iff_getElem?.mpr hget, by rw [if_neg hmax, Nat.mod_eq_of_lt hj]⟩

/-- The positions of an image are distinct. -/
lemma nodup_prebuiltSlotImage {slotCount : ℕ} {image : List (ℕ × ℕ)}
    (h : t.prebuiltSlotImage = some (slotCount, image)) (hlen : t.slots.length ≤ 2 ^ 32) :
    (image.map Prod.fst).Nodup ∧ slotCount = t.slots.length ∧ image.length = t.entries.length := by
  obtain ⟨g, -, heq⟩ := Option.map_eq_some_iff.mp h
  cases heq
  refine ⟨?_, rfl, ?_⟩
  · refine List.pairwise_map.mpr (List.pairwise_filterMap.mpr ?_)
    refine List.pairwise_iff_getElem.mpr fun i j hi hj hij => ?_
    rintro x hx y hy
    simp only [List.length_zipIdx] at hi hj
    simp only [List.getElem_zipIdx, Nat.zero_add] at hx hy
    split_ifs at hx hy
    cases hx
    cases hy
    rw [Nat.mod_eq_of_lt (hi.trans_le hlen), Nat.mod_eq_of_lt (hj.trans_le hlen)]
    exact hij.ne
  · have hused : ∀ {β : Type} (f : ℕ → β) (packed : ℕ),
        (if packed = u64Max then none else some (f packed)).isSome = decide (packed ≠ u64Max) := by
      intro β f packed
      split_ifs with hmax <;> simp [hmax]
    rw [entries, List.length_filterMap_eq_countP, List.length_filterMap_eq_countP]
    simp only [hused]
    conv_rhs => rw [← List.zipIdx_map_fst 0 t.slots, List.countP_map]
    rfl

/-- The search for a slot in use ends at it, if the slots before it are in use. -/
lemma reachLoop_of_path (h : t.Sized) {slot key n i d i' : ℕ} (hi : i ≤ i') (hn : i' < i + n)
    (hd : d + (i' - i) ≤ 64) (hslot : t.probing.index key i' = slot)
    (hpath : ∀ k, i ≤ k → k < i' → t.slots[t.probing.index key k]? ≠ some u64Max) :
    t.reachLoop slot n (t.probing.index key i) d = true := by
  induction n generalizing i d with
  | zero => omega
  | succ n ih =>
      rw [reachLoop]
      split_ifs with heq hstop
      · rfl
      · have hne : i ≠ i' := by
          rintro rfl
          exact heq hslot
        rcases hstop with hempty | hfar
        · exact hpath i le_rfl (by omega) hempty
        · omega
      · have hne : i ≠ i' := by
          rintro rfl
          exact heq hslot
        rw [h.index_succ]
        exact ih (by omega) (by omega) (by omega) fun k hk hk' => hpath k (by omega) hk'

/-- Tables of one size have one mask and one shift. -/
lemma Sized.eq (h : t.Sized) (h' : t'.Sized) (hlen : t'.slots.length = t.slots.length) :
    t'.mask = t.mask ∧ t'.shift = t.shift := by
  obtain ⟨e, -, he, hmask, hshift⟩ := h
  obtain ⟨e', -, he', hmask', hshift'⟩ := h'
  have hpow : 2 ^ e' = 2 ^ e := by rw [← he', hlen, he]
  obtain rfl : e' = e := Nat.pow_right_injective le_rfl hpow
  exact ⟨hmask'.trans hmask.symm, hshift'.trans hshift.symm⟩

/-- The slots of an image are imported one by one, to where they were. -/
theorem import_image {t₀ : PairRankTable} {slotCount : ℕ} {image : List (ℕ × ℕ)}
    (himage : t.prebuiltSlotImage = some (slotCount, image)) (hlen : t.slots.length ≤ 2 ^ 32)
    (hfits : ∀ e ∈ t.entries, e.1 < vocabLen ∧ e.2.1 < vocabLen ∧ e.2.2 < vocabLen)
    (ht₀ : t₀.Holds ∅ n) (hempty : ∃ n, t₀.slots = List.replicate n u64Max)
    (hsize : t₀.slots.length = t.slots.length) :
    ∃ t', image.foldlM (importStep vocabLen) t₀ = .ok t' ∧ Imported vocabLen t₀ image t' ∧
      t'.slots = t.slots := by
  have hmem := mem_prebuiltSlotImage himage hlen
  have hnodup := (nodup_prebuiltSlotImage himage hlen).1
  obtain ⟨t', hfold, himp⟩ := foldlM_total (I := Imported vocabLen t₀) (f := importStep vocabLen)
    (.start ht₀ hempty vocabLen) (l := image) (by
      rintro done ⟨j, s⟩ u hsofar hI
      obtain ⟨hget, hne⟩ := (hmem j s).mp (hsofar.mem (by simp))
      have hj : j < u.slots.length := by
        rw [hI.size.1, hsize]
        exact (List.getElem?_eq_some_iff.mp hget).1
      have htarget : u.slots[j]? = some u.slots[j] := List.getElem?_eq_getElem hj
      -- the positions are distinct, so this one is empty
      have hfree : u.slots[j] = u64Max := by
        by_contra hused
        have hdone := hI.mem_done j _ htarget hused
        have hsub := (hsofar.sublist.map Prod.fst).nodup hnodup
        rw [List.map_append, List.nodup_append] at hsub
        exact hsub.2.2 j (List.mem_map_of_mem hdone) j (by simp) rfl
      have hentry : unpackSlot s ∈ t.entries :=
        List.mem_filterMap.mpr ⟨s, List.mem_of_getElem? hget, if_neg hne⟩
      obtain ⟨ha, hb, hc⟩ := hfits _ hentry
      have hstep : ∃ u', importStep vocabLen u (j, s) = .ok u' := by
        simp only [importStep, htarget, hfree, hne, ne_eq, not_true_eq_false, or_self, if_false,
          Nat.not_le.mpr ha, Nat.not_le.mpr hb, Nat.not_le.mpr hc]
        exact ⟨_, rfl⟩
      obtain ⟨u', hstep⟩ := hstep
      exact ⟨u', hstep, hI.step hstep⟩)
  refine ⟨t', hfold, himp, List.ext_getElem? fun j => ?_⟩
  have hlength : t'.slots.length = t.slots.length := himp.size.1.trans hsize
  rcases lt_or_ge j t.slots.length with hj | hj
  · have hget : t.slots[j]? = some t.slots[j] := List.getElem?_eq_getElem hj
    have hj' : j < t'.slots.length := hlength ▸ hj
    have hget' : t'.slots[j]? = some t'.slots[j] := List.getElem?_eq_getElem hj'
    by_cases hused : t.slots[j] = u64Max
    · by_cases hused' : t'.slots[j] = u64Max
      · rw [hget, hget', hused, hused']
      · exact hget'.trans ((hmem j _).mp (himp.mem_done j _ hget' hused')).1.symm
    · rw [hget]
      exact (himp.slot _ ((hmem j _).mpr ⟨hget, hused⟩)).1
  · rw [List.getElem?_eq_none hj, List.getElem?_eq_none (hlength ▸ hj)]

/-- A table holds what a table with its slots does, if its grid agrees. -/
lemma Holds.of_slots (h : t.Holds m room) (hs : SameSlots t t') (hlog : t'.denseLog2 = 11)
    (hgrid : ∀ g, t'.dense = some g → ∀ a b, a < 2 ^ 11 → b < 2 ^ 11 →
      g (a <<< 11 ||| b) = mergesRank m a b) : t'.Holds m room := by
  have hprobing : t'.probing = t.probing := probing_congr (by rw [hs.slots]) hs.shift
  refine ⟨?_, ?_, h.fits, ?_, ?_, hlog, hgrid⟩
  · rw [hs.slots, hs.mask, hs.shift]
    exact h.pow
  · rw [hprobing, hs.slots]
    exact h.probed
  · rw [hprobing, hs.slots]
    exact h.stores
  · rw [hprobing, hs.slots]
    exact h.load

/-- The image of a table that has the slots of a table for its number of pairs makes a table
with its map. -/
theorem Holds.fromPrebuiltSlots {image : List (ℕ × ℕ)} {count : ℕ} (ht : t.Holds m 0)
    (himage : t.prebuiltSlotImage = some (count, image)) (hlen : t.slots.length ≤ 2 ^ 32)
    (hcount : t.slots.length = slotCount t.entries.length) (hvocab : vocabLen ≤ 2 ^ 21)
    (hfits : ∀ e ∈ t.entries, e.1 < vocabLen ∧ e.2.1 < vocabLen ∧ e.2.2 < vocabLen) :
    ∃ t', fromPrebuiltSlots false count image vocabLen = .ok t' ∧ t'.Holds m 0 := by
  obtain ⟨-, rfl, himagelen⟩ := nodup_prebuiltSlotImage himage hlen
  have hmem := mem_prebuiltSlotImage himage hlen
  have hle : image.length ≤ 2 ^ 62 := by
    have hfilter : t.entries.length ≤ t.slots.length := List.length_filterMap_le _ _
    omega
  obtain ⟨t₀, hnew⟩ : ∃ t₀, withCapacity false vocabLen image.length = some t₀ := by
    rw [withCapacity, if_neg (by rw [Nat.one_shiftLeft]; exact Nat.not_lt.mpr hvocab)]
    exact ⟨_, rfl⟩
  have ht₀ := withCapacity_holds hnew hle
  have hslots₀ : ∃ n, t₀.slots = List.replicate n u64Max :=
    ⟨_, by rw [(withCapacity_eq_some hnew).2]⟩
  have hsize : t₀.slots.length = t.slots.length := by
    rw [hcount, ← himagelen, (withCapacity_eq_some hnew).2]
    simp [slotCount]
  obtain ⟨t', hfold, himp, hslots⟩ := import_image himage hlen hfits ht₀ hslots₀ hsize
  have hfields := ht.sized.eq ht₀.sized hsize
  have hsame : SameSlots t t' :=
    ⟨hslots, himp.size.2.1.trans hfields.1, himp.size.2.2.trans hfields.2⟩
  have hreach : (image.all fun x => t'.reachLoop x.1 65 (t'.home (x.2 >>> pairIdBits)) 0) = true := by
    refine List.all_eq_true.mpr ?_
    rintro ⟨j, s⟩ hx
    obtain ⟨hget, hne⟩ := (hmem j s).mp hx
    have hsized : t'.Sized := by
      rw [Sized, hsame.slots, hsame.mask, hsame.shift]
      exact ht.pow
    have hprobing : t'.probing = t.probing := probing_congr (by rw [hslots]) hsame.shift
    obtain ⟨i, hi, hslot, hfull⟩ := ht.probed j s _ hget (if_neg hne)
    rw [hsized.home_eq]
    refine reachLoop_of_path hsized (Nat.zero_le i) (by omega) (by omega) (by rw [hprobing, hslot]) ?_
    intro k _ hk hempty
    rw [hprobing, hslots] at hempty
    obtain ⟨s', k', hget', hkey', -⟩ := hfull k hk
    rw [hget', Option.some_inj] at hempty
    rw [hempty] at hkey'
    cases hkey'
  refine ⟨t', ?_, ht.of_slots hsame himp.log2 fun g hg a b ha hb => ?_⟩
  · rw [PairRankTable.fromPrebuiltSlots, if_neg (by decide), hnew]
    dsimp only
    rw [if_neg (not_not.mpr hsize), hfold]
    exact if_pos hreach
  · -- the grid has the products of the image, which are those of the map
    have hentry : ∀ x ∈ image, unpackSlot x.2 ∈ t.entries := by
      rintro ⟨j, s⟩ hx
      obtain ⟨hget, hne⟩ := (hmem j s).mp hx
      exact List.mem_filterMap.mpr ⟨s, List.mem_of_getElem? hget, if_neg hne⟩
    rw [mergesRank]
    rcases himp.grid g hg a b ha hb with ⟨hmax, hnot⟩ | ⟨x, hx, heq⟩
    · have hnone : m.lookup (a, b) = none := by
        refine Option.eq_none_iff_forall_not_mem.mpr fun c hc => ?_
        obtain ⟨s, hs, heq⟩ := List.mem_filterMap.mp (ht.mem_entries.mpr hc)
        split_ifs at heq with hne
        obtain ⟨j, hj⟩ := List.mem_iff_getElem?.mp hs
        have heq' := Option.some_inj.mp heq
        exact hnot _ ((hmem j s).mpr ⟨hj, hne⟩) (by rw [heq']) (by rw [heq'])
      rw [hmax, hnone, Option.getD_none]
    · have hc := ht.mem_entries.mp (heq ▸ hentry x hx)
      rw [Option.mem_def.mp hc, Option.getD_some]

/-! ### The map -/

/-- The loop of `insert` ends after 65 slots: it asks for no more. -/
lemma insertLoop_eq_of_le {key merged n' i d : ℕ} (hn : 65 ≤ n + d) (hn' : 65 ≤ n' + d)
    (hd : d ≤ 64) : t.insertLoop key merged n i d = t.insertLoop key merged n' i d := by
  induction n generalizing n' i d with
  | zero => omega
  | succ n ih =>
      obtain ⟨n', rfl⟩ : ∃ k, n' = k + 1 := ⟨n' - 1, by omega⟩
      rw [PairRankTable.insertLoop, PairRankTable.insertLoop]
      by_cases hfar : d + 1 > 64
      · simp only [if_pos hfar]
      · simp only [if_neg hfar]
        rw [@ih n' ((i + 1) &&& t.mask) (d + 1) (by omega) (by omega) (by omega)]

end PairRankTable

end Hypertok
