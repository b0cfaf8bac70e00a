import Hypertok.Machine.Bytes
import Hypertok.Machine.Loop
import Hypertok.Machine.Pack
import Hypertok.Machine.Probe

/-!
`LongPretokenCache`: token lists under keys of any length. The keys lie end to end in an arena, and
the slots, with linear probing, hold where; a first hash reads a sample of the key only, and is
given up for one of the whole key when a probe sequence gets long.

* `Placed`: the invariant of the slots. Every entry that is in use is found by its hash.
* `Holds`: a cache stands for a map; `Holds.get`, `Holds.insert` are its two calls.
* `reached_get`: a lookup returns what was stored last, in every cache that a run reaches in which
  no new key is inserted when the arena ends at the offset that marks an empty slot.
* `Holds.insert_lost`: what happens otherwise.
-/

namespace Hypertok

open Machine

/-! ### The hashes -/

/-- `u64::rotate_left`. -/
def rotateLeft (x n : UInt64) : UInt64 := x <<< n ||| x >>> (64 - n)

/-- `finish_hash`. -/
def finishHash (hash : UInt64) : UInt64 :=
  let hash := hash ^^^ hash >>> 32
  let hash := hash * 0xD6E8FEB86659FD93
  hash ^^^ hash >>> 29

/-- `read_unaligned` and `from_le_bytes` of the eight bytes at a position. -/
def wordAt (key : List UInt8) (pos : ℕ) : UInt64 := .ofNat (leNat ((key.drop pos).take 8))

/-- `sampled_long_key_hash`: of the length and of the first, the middle and the last eight bytes. -/
def sampledLongKeyHash (key : List UInt8) : UInt64 :=
  let len := UInt64.ofNat key.length
  if key.length < 16 then
    finishHash (key.foldl (fun hash byte => rotateLeft hash 5 ^^^ byte.toUInt64)
      (len * 0x9E3779B97F4A7C15))
  else
    finishHash (wordAt key 0 ^^^ rotateLeft (wordAt key ((key.length - 8) / 2)) 17 ^^^
      rotateLeft (wordAt key (key.length - 8)) 37 ^^^ len * 0x9E3779B97F4A7C15)

/-- What `full_long_key_hash` does with sixteen bytes. -/
def mixBlock (hash : UInt64) (block : List UInt8) : UInt64 :=
  rotateLeft (hash ^^^ wordAt block 0) 27 * 0xD6E8FEB86659FD93 ^^^ rotateLeft (wordAt block 8) 31

/-- `full_long_key_hash`: of all bytes, the last ones padded with zeros. -/
def fullLongKeyHash (key : List UInt8) : UInt64 :=
  let hash := (chunksExact 16 key).foldl mixBlock (UInt64.ofNat key.length * 0x9E3779B97F4A7C15)
  let remainder := key.drop (key.length / 16 * 16)
  finishHash (if remainder = [] then hash else mixBlock hash remainder)

/-- The two hashes of a key. -/
structure LongHash where
  sampled : List UInt8 → ℕ
  full : List UInt8 → ℕ

/-- The hashes of the code. -/
def longKeyHash : LongHash where
  sampled key := (sampledLongKeyHash key).toNat
  full key := (fullLongKeyHash key).toNat

/-! ### The code -/

/-- `EMPTY_OFFSET`. -/
def emptyOffset : ℕ := 2 ^ 32 - 1

/-- `MIN_SLOTS`. -/
def minSlots : ℕ := 64

/-- `MAX_SAMPLED_DISPLACEMENT`. -/
def maxSampledDisplacement : ℕ := 64

/-- `Entry`. -/
structure LongEntry where
  hash : ℕ
  keyOffset : ℕ
  keyLen : ℕ
  value : ℕ × ℕ
  deriving DecidableEq

/-- `Entry::EMPTY`. -/
def LongEntry.empty : LongEntry := ⟨0, emptyOffset, 0, (0, 0)⟩

/-- `occupied`. -/
def LongEntry.occupied (e : LongEntry) : Bool := e.keyOffset != emptyOffset

/-- `LongPretokenCache`. -/
structure LongPretokenCache where
  slots : List LongEntry
  keyArena : List UInt8
  len : ℕ
  fullHash : Bool

namespace LongPretokenCache

/-- `new`. -/
def new : LongPretokenCache := ⟨[], [], 0, false⟩

/-- `slots_for`. -/
def slotsFor (capacity : ℕ) : ℕ :=
  max (nextPowerOfTwo ((min (capacity * 4) (2 ^ 64 - 1) + 2) / 3)) minSlots

/-- `with_capacity`. -/
def withCapacity (capacity : ℕ) : LongPretokenCache :=
  if capacity = 0 then new else { new with slots := List.replicate (slotsFor capacity) .empty }

/-- `key`: the bytes of an entry, in the arena. -/
def keyOf (arena : List UInt8) (e : LongEntry) : Option (List UInt8) :=
  getRange arena e.keyOffset (e.keyOffset + e.keyLen)

/-- `entry.hash == hash && self.key(entry) == key`. -/
def sameKey (arena : List UInt8) (e : LongEntry) (hash : ℕ) (key : List UInt8) : Option Bool :=
  if e.hash = hash then (keyOf arena e).map (· == key) else some false

/-- `hash`. -/
def hash (H : LongHash) (c : LongPretokenCache) : List UInt8 → ℕ :=
  if c.fullHash then H.full else H.sampled

/-- The slot where a probe sequence starts. -/
def home (slots : List LongEntry) (hash : ℕ) : ℕ := hash &&& (slots.length - 1)

/-- The slot that is probed next. -/
def next (slots : List LongEntry) (slot : ℕ) : ℕ := (slot + 1) &&& (slots.length - 1)

/-- One turn of the loop of `get`. -/
def getStep (c : LongPretokenCache) (hash : ℕ) (key : List UInt8) (slot : ℕ) :
    Option (ℕ ⊕ Option (ℕ × ℕ)) := do
  let entry ← c.slots[slot]?
  if !entry.occupied then some (.inr none)
  else if ← sameKey c.keyArena entry hash key then some (.inr (some entry.value))
  else some (.inl (next c.slots slot))

/-- `get`. -/
def get (H : LongHash) (c : LongPretokenCache) (key : List UInt8) : Option (Option (ℕ × ℕ)) :=
  if c.slots = [] then some none
  else loop (c.getStep (c.hash H key) key) c.slots.length (home c.slots (c.hash H key))

/-- One turn of the loops that look for an empty slot of the replacement. -/
def placeStep (slots : List LongEntry) (slot : ℕ) : Option (ℕ ⊕ ℕ) := do
  let entry ← slots[slot]?
  if entry.occupied then some (.inl (next slots slot)) else some (.inr slot)

/-- An entry is put in the replacement. -/
def place (slots : List LongEntry) (entry : LongEntry) : Option (List LongEntry) := do
  let slot ← loop (placeStep slots) slots.length (home slots entry.hash)
  write slots slot entry

/-- The loop of `grow` and `switch_to_full_hash` over the old slots: the entries in use go to the
replacement, under the hash that `hashOf` gives. -/
def rehash (hashOf : LongEntry → Option ℕ) : List LongEntry → List LongEntry →
    Option (List LongEntry)
  | [], replacement => some replacement
  | e :: old, replacement =>
      if !e.occupied then rehash hashOf old replacement
      else do
        let hash ← hashOf e
        rehash hashOf old (← place replacement { e with hash })

/-- `grow`. -/
def grow (c : LongPretokenCache) : Option LongPretokenCache := do
  let newSlots := if c.slots = [] then minSlots else c.slots.length * 2
  let slots ← rehash (fun e => some e.hash) c.slots (List.replicate newSlots .empty)
  some { c with slots }

/-- `switch_to_full_hash`. -/
def switchToFullHash (H : LongHash) (c : LongPretokenCache) : Option LongPretokenCache := do
  let slots ← rehash (fun e => (keyOf c.keyArena e).map H.full) c.slots
    (List.replicate c.slots.length .empty)
  some { c with slots, fullHash := true }

/-- The growth check of `insert`. -/
def growCheck (c : LongPretokenCache) : Option LongPretokenCache :=
  if c.slots = [] ∨ (c.len + 1) * 4 > c.slots.length * 3 then c.grow else some c

/-- `u32::try_from` with `expect`: no value stands for the panic. -/
def toU32 (n : ℕ) : Option ℕ := if n < 2 ^ 32 then some n else none

/-- What `insert` does at an empty slot. -/
def store (c : LongPretokenCache) (hash : ℕ) (key : List UInt8) (value : ℕ × ℕ) (slot : ℕ) :
    Option LongPretokenCache := do
  let keyOffset ← toU32 c.keyArena.length
  let keyLen ← toU32 key.length
  let slots ← write c.slots slot ⟨hash, keyOffset, keyLen, value⟩
  some { c with slots, keyArena := c.keyArena ++ key, len := c.len + 1 }

/-- One turn of the loop of `insert`, at a slot and its displacement: it breaks with the cache and
the previous value, or without them when the hash is to be switched. -/
def insertStep (c : LongPretokenCache) (hash : ℕ) (key : List UInt8) (value : ℕ × ℕ) :
    ℕ × ℕ → Option (ℕ × ℕ ⊕ Option (LongPretokenCache × Option (ℕ × ℕ)))
  | (slot, displacement) => do
    let entry ← c.slots[slot]?
    if !entry.occupied then some (.inr (some (← c.store hash key value slot, none)))
    else if ← sameKey c.keyArena entry hash key then
      let slots ← write c.slots slot { entry with value }
      some (.inr (some ({ c with slots }, some entry.value)))
    else if !c.fullHash && decide (displacement + 1 > maxSampledDisplacement) then some (.inr none)
    else some (.inl (next c.slots slot, displacement + 1))

/-- `insert`, calling itself at most `n` times: the cache and the previous value. -/
def insertWith (H : LongHash) (key : List UInt8) (value : ℕ × ℕ) :
    ℕ → LongPretokenCache → Option (LongPretokenCache × Option (ℕ × ℕ))
  | 0, _ => none
  | n + 1, c => do
    let c ← c.growCheck
    match ← loop (c.insertStep (c.hash H key) key value) c.slots.length
        (home c.slots (c.hash H key), 0) with
    | some r => some r
    | none => insertWith H key value n (← c.switchToFullHash H)

/-- `insert`. -/
def insert (H : LongHash) (c : LongPretokenCache) (key : List UInt8) (value : ℕ × ℕ) :
    Option (LongPretokenCache × Option (ℕ × ℕ)) :=
  insertWith H key value 2 c

/-! ### The invariant of the slots -/

/-- What a slot holds: a key and its value. -/
def view (arena : List UInt8) (e : LongEntry) : Option (List UInt8 × ℕ × ℕ) :=
  if e.occupied then (keyOf arena e).map fun k => (k, e.value) else none

/-- Linear probing over `n` slots. -/
def probing (hash : List UInt8 → ℕ) (n : ℕ) :
    Probing (Option (List UInt8 × ℕ × ℕ)) (List UInt8) where
  key s := s.map Prod.fst
  index key i := (hash key + i) % n

/-- The number of slots in use. -/
def used (slots : List LongEntry) : ℕ := slots.countP LongEntry.occupied

/-- The entries in use are found by their hash. -/
structure Placed (hash : List UInt8 → ℕ) (arena : List UInt8) (slots : List LongEntry) : Prop where
  pow : ∃ p, slots.length = 2 ^ (p + 1)
  hashed : ∀ e ∈ slots, e.occupied → ∃ k, keyOf arena e = some k ∧ e.hash = hash k
  probed : (probing hash slots.length).WellProbed (slots.map (view arena))

variable {H : LongHash} {c c' : LongPretokenCache} {hash : List UInt8 → ℕ} {arena key : List UInt8}
  {slots : List LongEntry} {e : LongEntry} {value : ℕ × ℕ} {i : ℕ}

lemma view_eq_some {k : List UInt8} : view arena e = some (k, value) ↔
    e.occupied ∧ keyOf arena e = some k ∧ e.value = value := by
  rw [view]
  split_ifs with hocc
  · simp [hocc]
  · simp [hocc]

lemma view_empty : view arena .empty = none := rfl

lemma used_replicate (n : ℕ) : used (List.replicate n .empty) = 0 := by
  simp [used, List.countP_replicate, LongEntry.occupied, LongEntry.empty]

/-- A slot that is passed holds another key. -/
lemma exists_of_full (hfull : (probing hash slots.length).Full (slots.map (view arena)) key i) {j : ℕ}
    (hj : j < i) : ∃ e k v, slots[(probing hash slots.length).index key j]? = some e ∧
      e ∈ slots ∧ view arena e = some (k, v) ∧ k ≠ key := by
  obtain ⟨s, k, hs, hk, hne⟩ := hfull j hj
  rw [List.getElem?_map, Option.map_eq_some_iff] at hs
  obtain ⟨e, he, rfl⟩ := hs
  obtain ⟨⟨k', v⟩, hview, rfl⟩ := Option.map_eq_some_iff.mp hk
  exact ⟨e, k', v, he, List.mem_of_getElem? he, hview, hne⟩

lemma stores_iff {n : ℕ} {k : List UInt8} {views : List (Option (List UInt8 × ℕ × ℕ))} :
    (probing hash n).Stores views k (some (k, value)) ↔ some (k, value) ∈ views := by
  rw [List.mem_iff_getElem?]
  exact exists_congr fun j => and_iff_left rfl

/-- A slot is written: one more key is stored, with its value. -/
structure Adds (hash : List UInt8 → ℕ) (arena : List UInt8) (slots slots' : List LongEntry)
    (key : List UInt8) (value : ℕ × ℕ) : Prop where
  length : slots'.length = slots.length
  placed : Placed hash arena slots'
  used : used slots' = used slots + 1
  mem : ∀ k v, some (k, v) ∈ slots'.map (view arena) ↔
    (k = key ∧ v = value) ∨ some (k, v) ∈ slots.map (view arena)

namespace Placed

variable (h : Placed hash arena slots)
include h

lemma pos : 0 < slots.length := by
  obtain ⟨p, hp⟩ := h.pow
  exact hp ▸ Nat.two_pow_pos _

lemma home_eq (key : List UInt8) :
    home slots (hash key) = (probing hash slots.length).index key 0 := by
  obtain ⟨p, hp⟩ := h.pow
  rw [home, hp, Nat.and_two_pow_sub_one_eq_mod]
  rfl

lemma next_eq (key : List UInt8) (j : ℕ) : next slots ((probing hash slots.length).index key j) =
    (probing hash slots.length).index key (j + 1) := by
  obtain ⟨p, hp⟩ := h.pow
  simp only [next, probing, hp, Nat.and_two_pow_sub_one_eq_mod, Nat.mod_add_mod, Nat.add_assoc]

/-- A slot that is in use holds a key under its hash. -/
lemma view_of_occupied (he : e ∈ slots) (hocc : e.occupied) :
    ∃ k, view arena e = some (k, e.value) ∧ e.hash = hash k := by
  obtain ⟨k, hk, hhash⟩ := h.hashed e he hocc
  exact ⟨k, view_eq_some.mpr ⟨hocc, hk, rfl⟩, hhash⟩

lemma view_eq_none (he : e ∈ slots) : view arena e = none ↔ e.occupied = false := by
  constructor
  · intro hnone
    refine Bool.eq_false_iff.mpr fun hocc => ?_
    obtain ⟨k, hk, -⟩ := h.view_of_occupied he hocc
    rw [hk] at hnone
    cases hnone
  · intro hocc
    rw [view, hocc]
    rfl

/-- Two keys are compared by their hashes first. -/
lemma sameKey_eq {k : List UInt8} (he : e ∈ slots) (hview : view arena e = some (k, value))
    (key : List UInt8) : sameKey arena e (hash key) key = some (k == key) := by
  obtain ⟨hocc, hk, -⟩ := view_eq_some.mp hview
  obtain ⟨k', hk', hhash⟩ := h.hashed e he hocc
  obtain rfl := Option.some_inj.mp (hk.symm.trans hk')
  rw [sameKey, hhash, hk]
  split_ifs with heq
  · rfl
  · have hne : k ≠ key := fun hkey => heq (hkey ▸ rfl)
    rw [beq_eq_false_iff_ne.mpr hne]

lemma occupied_eq : (probing hash slots.length).occupied (slots.map (view arena)) = used slots := by
  rw [Probing.occupied, List.countP_map]
  refine List.countP_congr fun e he => ?_
  have hnone := h.view_eq_none he
  cases hview : view arena e with
  | none => simp [hnone.mp hview, probing, hview]
  | some s => simp [probing, hview, Bool.eq_true_of_not_eq_false (hnone.not.mp (by simp [hview]))]

/-- A probe sequence comes to an empty slot or to its key. -/
lemma exists_stop (hroom : used slots < slots.length) (key : List UInt8) :
    ∃ i < slots.length, (probing hash slots.length).Full (slots.map (view arena)) key i ∧
      ∃ e, slots[(probing hash slots.length).index key i]? = some e ∧ e ∈ slots ∧
        (e.occupied = false ∨ view arena e = some (key, e.value)) := by
  have hlen : (slots.map (view arena)).length = slots.length := List.length_map ..
  have hroom : (probing hash slots.length).occupied (slots.map (view arena)) <
      (slots.map (view arena)).length := by rwa [h.occupied_eq, hlen]
  obtain ⟨i, hi, hfull, s, hs, hstop⟩ := Probing.exists_stop (k := key) hroom
    (fun i => hlen.symm ▸ Nat.mod_lt _ h.pos)
    (fun j hj => Probing.linear_surjective (hash key) (hlen ▸ hj))
  rw [List.getElem?_map, Option.map_eq_some_iff] at hs
  obtain ⟨e, he, rfl⟩ := hs
  have hmem := List.mem_of_getElem? he
  refine ⟨i, hi, hfull, e, he, hmem, hstop.imp (fun hnone => ?_) fun hkey => ?_⟩
  · exact (h.view_eq_none hmem).mp (Option.map_eq_none_iff.mp hnone)
  · obtain ⟨⟨k, v⟩, hview, rfl⟩ := Option.map_eq_some_iff.mp hkey
    rw [hview, (view_eq_some.mp hview).2.2]

lemma set (he : e.occupied → ∃ k, keyOf arena e = some k ∧ e.hash = hash k) {idx : ℕ}
    (hprobed : (probing hash slots.length).WellProbed
      ((slots.map (view arena)).set idx (view arena e))) : Placed hash arena (slots.set idx e) := by
  refine ⟨by simpa using h.pow, fun x hx hocc => ?_, by simpa [List.map_set] using hprobed⟩
  obtain hx | rfl := List.mem_or_eq_of_mem_set hx
  · exact h.hashed x hx hocc
  · exact he hocc

/-- A key that is not stored is written to the first empty slot of its sequence. -/
lemma adds (hfull : (probing hash slots.length).Full (slots.map (view arena)) key i)
    {e₀ : LongEntry} (he₀ : slots[(probing hash slots.length).index key i]? = some e₀)
    (hempty : e₀.occupied = false) (hview : view arena e = some (key, value))
    (hhash : e.hash = hash key) :
    Adds hash arena slots (slots.set ((probing hash slots.length).index key i) e) key value := by
  obtain ⟨hocc, hkey, -⟩ := view_eq_some.mp hview
  have hslot : (slots.map (view arena))[(probing hash slots.length).index key i]? = some none := by
    rw [List.getElem?_map, he₀, Option.map_some,
      (h.view_eq_none (List.mem_of_getElem? he₀)).mpr hempty]
  obtain ⟨hprobed, hstores⟩ := h.probed.insert hfull hslot rfl
    (s := view arena e) (by rw [hview]; rfl)
  refine ⟨List.length_set, h.set (fun _ => ⟨key, hkey, hhash⟩) hprobed, ?_, fun k v => ?_⟩
  · obtain ⟨hlt, rfl⟩ := List.getElem?_eq_some_iff.mp he₀
    simp [LongPretokenCache.used, List.countP_set hlt, hempty, hocc]
  · have hiff := hstores k (some (k, v))
    rw [stores_iff, stores_iff, hview, Option.some_inj, Prod.mk.injEq] at hiff
    rw [List.map_set, hview, hiff]
    exact or_congr_left ⟨fun ⟨hk, _, hv⟩ => ⟨hk, hv⟩, fun ⟨hk, hv⟩ => ⟨hk, hk, hv⟩⟩

/-- The value of a stored key is overwritten. -/
lemma overwrite (hfull : (probing hash slots.length).Full (slots.map (view arena)) key i)
    (he : slots[(probing hash slots.length).index key i]? = some e)
    (hview : view arena e = some (key, e.value)) (value : ℕ × ℕ) :
    Placed hash arena (slots.set ((probing hash slots.length).index key i) { e with value }) ∧
      used (slots.set ((probing hash slots.length).index key i) { e with value }) = used slots ∧
      ∀ k v, some (k, v) ∈ (slots.set ((probing hash slots.length).index key i)
          { e with value }).map (view arena) ↔
        (k = key ∧ v = value) ∨ k ≠ key ∧ some (k, v) ∈ slots.map (view arena) := by
  obtain ⟨hocc, hkey, -⟩ := view_eq_some.mp hview
  have hview' : view arena { e with value } = some (key, value) :=
    view_eq_some.mpr ⟨hocc, hkey, rfl⟩
  have hslot : (slots.map (view arena))[(probing hash slots.length).index key i]? =
      some (some (key, e.value)) := by
    rw [List.getElem?_map, he, Option.map_some, hview]
  obtain ⟨hprobed, hstores⟩ := h.probed.replace hfull hslot rfl
    (s := view arena { e with value }) (by rw [hview']; rfl)
  refine ⟨h.set (e := { e with value }) (fun _ => h.hashed e (List.mem_of_getElem? he) hocc) hprobed,
    ?_, fun k v => ?_⟩
  · obtain ⟨hlt, rfl⟩ := List.getElem?_eq_some_iff.mp he
    have hused : 0 < used slots := List.countP_pos_iff.mpr ⟨_, List.getElem_mem hlt, hocc⟩
    have hocc' : LongEntry.occupied { slots[(probing hash slots.length).index key i] with value } :=
      hocc
    simp only [used, List.countP_set hlt, hocc, hocc', if_true] at hused ⊢
    omega
  · have hiff := hstores k (some (k, v))
    rw [stores_iff, stores_iff, hview', Option.some_inj, Prod.mk.injEq] at hiff
    rw [List.map_set, hview', hiff]
    exact or_congr_left ⟨fun ⟨hk, _, hv⟩ => ⟨hk, hv⟩, fun ⟨hk, hv⟩ => ⟨hk, hk, hv⟩⟩

/-- A key is in one slot. -/
lemma pairwise : (slots.map (view arena)).Pairwise fun s t =>
    ∀ k v v', s = some (k, v) → t ≠ some (k, v') := by
  refine List.pairwise_iff_getElem.mpr fun i j hi hj hij k v v' hs ht => ?_
  obtain ⟨n, hn, hfull⟩ := h.probed i _ k (List.getElem?_eq_getElem hi) (by rw [hs]; rfl)
  have hget : (slots.map (view arena))[(probing hash slots.length).index k n]? = some (some (k, v)) := by
    rw [hn, List.getElem?_eq_getElem hi, hs]
  have hpos := h.probed.pos_eq hfull hget rfl (List.getElem?_eq_getElem hj) (by rw [ht]; rfl)
  omega

/-- Keys that are appended to the arena change no entry. -/
lemma append (more : List UInt8) : Placed hash (arena ++ more) slots ∧
    slots.map (view (arena ++ more)) = slots.map (view arena) := by
  have hkey : ∀ e ∈ slots, e.occupied → keyOf (arena ++ more) e = keyOf arena e := by
    intro e he hocc
    obtain ⟨k, hk, -⟩ := h.hashed e he hocc
    exact getRange_append_left (getRange_eq_some.mp hk).1.2
  have hviews : slots.map (view (arena ++ more)) = slots.map (view arena) := by
    refine List.map_congr_left fun e he => ?_
    rw [view, view]
    split_ifs with hocc
    · rw [hkey e he hocc]
    · rfl
  exact ⟨⟨h.pow, fun e he hocc => hkey e he hocc ▸ h.hashed e he hocc, hviews ▸ h.probed⟩, hviews⟩

/-- An entry goes to the first empty slot of the sequence of its key. -/
lemma place (hroom : used slots < slots.length) (hview : view arena e = some (key, value))
    (hhash : e.hash = hash key) (hnew : ∀ v, some (key, v) ∉ slots.map (view arena)) :
    ∃ slots', LongPretokenCache.place slots e = some slots' ∧
      Adds hash arena slots slots' key value := by
  obtain ⟨i, hi, hfull, e₀, he₀, hmem, hstop⟩ := h.exists_stop hroom key
  have hempty : e₀.occupied = false :=
    hstop.resolve_right fun hkey => hnew _ (List.mem_map.mpr ⟨e₀, hmem, hkey⟩)
  refine ⟨_, ?_, h.adds hfull he₀ hempty hview hhash⟩
  have hloop : loop (placeStep slots) slots.length (home slots e.hash) =
      some ((probing hash slots.length).index key i) := by
    rw [hhash, h.home_eq]
    refine loop_of_path_break _ hi (fun j hj => ?_) ?_
    · obtain ⟨e', k, v, he', -, hview', -⟩ := exists_of_full hfull hj
      rw [placeStep, he', Option.bind_eq_bind, Option.bind_some, if_pos (view_eq_some.mp hview').1,
        h.next_eq]
    · rw [placeStep, he₀, Option.bind_eq_bind, Option.bind_some, hempty]
      rfl
  rw [LongPretokenCache.place, hloop]
  exact write_of_getElem? he₀ e

end Placed

/-- Slots that are all empty. -/
lemma placed_replicate {n p : ℕ} (hn : n = 2 ^ (p + 1)) :
    Placed hash arena (List.replicate n .empty) := by
  refine ⟨⟨p, by rw [List.length_replicate, hn]⟩, fun e he hocc => ?_, ?_⟩
  · rw [List.eq_of_mem_replicate he] at hocc
    cases hocc
  · rw [List.map_replicate]
    exact Probing.wellProbed_replicate rfl

/-- The entries in use go to the replacement, each under its new hash. -/
lemma Placed.rehash {hashOf : LongEntry → Option ℕ} {old : List LongEntry}
    (h : Placed hash arena slots)
    (hold : ∀ e ∈ old, e.occupied → ∃ k, keyOf arena e = some k ∧ hashOf e = some (hash k))
    (hpair : (old.map (view arena)).Pairwise fun s t => ∀ k v v', s = some (k, v) → t ≠ some (k, v'))
    (hnew : ∀ k v v', some (k, v) ∈ old.map (view arena) → some (k, v') ∉ slots.map (view arena))
    (hroom : used slots + used old < slots.length) :
    ∃ slots', LongPretokenCache.rehash hashOf old slots = some slots' ∧
      slots'.length = slots.length ∧ Placed hash arena slots' ∧
      used slots' = used slots + used old ∧
      ∀ k v, some (k, v) ∈ slots'.map (view arena) ↔
        some (k, v) ∈ old.map (view arena) ∨ some (k, v) ∈ slots.map (view arena) := by
  induction old generalizing slots with
  | nil => exact ⟨slots, rfl, rfl, h, rfl, fun k v => by simp⟩
  | cons e old ih =>
      simp only [List.map_cons, List.mem_cons, forall_eq_or_imp, List.pairwise_cons] at hold hpair hnew
      have hcount : used (e :: old) = used old + if e.occupied then 1 else 0 := List.countP_cons ..
      rw [LongPretokenCache.rehash]
      cases hocc : e.occupied with
      | false =>
          have hnone : view arena e = none := by
            rw [view, hocc]
            rfl
          obtain ⟨slots', hrun, hlen, hplaced, hused, hmem⟩ := ih h hold.2 hpair.2
            (fun k v v' hkv => hnew k v v' (.inr hkv)) (by simp [hocc] at hcount; omega)
          refine ⟨slots', hrun, hlen, hplaced, by simp [hocc] at hcount; omega, fun k v => ?_⟩
          simp [hmem, hnone]
      | true =>
          obtain ⟨k, hk, hhash⟩ := hold.1 hocc
          have hview : view arena e = some (k, e.value) := view_eq_some.mpr ⟨hocc, hk, rfl⟩
          have hview' : view arena { e with hash := hash k } = some (k, e.value) :=
            view_eq_some.mpr ⟨hocc, hk, rfl⟩
          simp only [hocc, if_true] at hcount
          obtain ⟨slots₁, hrun₁, hadds⟩ := h.place (by omega) hview' rfl
            fun v => hnew k e.value v (.inl hview.symm)
          have hlen₁ := hadds.length
          have hused₁ := hadds.used
          have hnew₁ : ∀ k' v v', some (k', v) ∈ old.map (view arena) →
              some (k', v') ∉ slots₁.map (view arena) := by
            intro k' v v' hkv hkv'
            obtain ⟨rfl, -⟩ | hkv' := (hadds.mem k' v').mp hkv'
            · exact hpair.1 _ hkv k' e.value v hview rfl
            · exact hnew k' v v' (.inr hkv) hkv'
          obtain ⟨slots', hrun, hlen, hplaced, hused, hmem⟩ :=
            ih hadds.placed hold.2 hpair.2 hnew₁ (by omega)
          refine ⟨slots', ?_, hlen.trans hlen₁, hplaced, by omega, fun k' v => ?_⟩
          · simp only [Bool.not_true, Bool.false_eq_true, if_false, hhash, Option.bind_eq_bind,
              Option.bind_some, hrun₁, hrun]
          · rw [hmem, hadds.mem, List.map_cons, List.mem_cons, hview, Option.some_inj,
              Prod.mk.injEq k' v k e.value, ← or_assoc,
              or_comm (a := some (k', v) ∈ old.map (view arena))]

/-! ### The cache and its map -/

/-- The cache stands for the map. An entry at the offset that marks an empty slot is not in use, so
fewer slots may be in use than `len` counts. -/
structure Holds (H : LongHash) (c : LongPretokenCache) (M : List UInt8 → Option (ℕ × ℕ)) : Prop where
  placed : c.slots ≠ [] → Placed (c.hash H) c.keyArena c.slots
  stored : ∀ k v, M k = some v ↔ some (k, v) ∈ c.slots.map (view c.keyArena)
  used : used c.slots ≤ c.len
  load : c.len * 4 ≤ c.slots.length * 3

variable {M : List UInt8 → Option (ℕ × ℕ)}

lemma holds_new : Holds H new fun _ => none where
  placed h := absurd rfl h
  stored k v := by simp [new]
  used := Nat.zero_le _
  load := Nat.zero_le _

lemma slotsFor_pow (capacity : ℕ) : ∃ p, slotsFor capacity = 2 ^ (p + 1) := by
  obtain ⟨e, he, -⟩ := nextPowerOfTwo_spec ((min (capacity * 4) (2 ^ 64 - 1) + 2) / 3)
  rw [slotsFor, he, minSlots, show 64 = 2 ^ 6 from rfl]
  obtain hle | hlt := le_or_gt 6 e
  · have hpow : 2 ^ 6 ≤ 2 ^ e := Nat.pow_le_pow_right (by omega) hle
    exact ⟨e - 1, by rw [max_eq_left hpow, Nat.sub_add_cancel (by omega)]⟩
  · have hpow : 2 ^ e ≤ 2 ^ 6 := Nat.pow_le_pow_right (by omega) hlt.le
    exact ⟨5, max_eq_right hpow⟩

lemma holds_withCapacity (capacity : ℕ) : Holds H (withCapacity capacity) fun _ => none := by
  rw [withCapacity]
  split_ifs
  · exact holds_new
  · obtain ⟨p, hp⟩ := slotsFor_pow capacity
    refine ⟨fun _ => placed_replicate hp, fun k v => ?_, (used_replicate _).le, Nat.zero_le _⟩
    simp [new, view_empty]

namespace Holds

variable (h : Holds H c M)
include h

lemma room (hne : c.slots ≠ []) : LongPretokenCache.used c.slots < c.slots.length := by
  have hpos := List.length_pos_iff.mpr hne
  have hused := h.used
  have hload := h.load
  omega

/-- Where a probe sequence stops: at the first empty slot if the map does not have the key. -/
lemma exists_stop (hne : c.slots ≠ []) (key : List UInt8) : ∃ i < c.slots.length,
    (probing (c.hash H) c.slots.length).Full (c.slots.map (view c.keyArena)) key i ∧
      ∃ e, c.slots[(probing (c.hash H) c.slots.length).index key i]? = some e ∧ e ∈ c.slots ∧
        (e.occupied = false ∧ M key = none ∨
          view c.keyArena e = some (key, e.value) ∧ M key = some e.value) := by
  have hplaced := h.placed hne
  obtain ⟨i, hi, hfull, e, he, hmem, hstop⟩ := hplaced.exists_stop (h.room hne) key
  refine ⟨i, hi, hfull, e, he, hmem, hstop.imp (fun hempty => ⟨hempty, ?_⟩) fun hview => ⟨hview, ?_⟩⟩
  · have hslot : (c.slots.map (view c.keyArena))[(probing (c.hash H) c.slots.length).index key i]? =
        some none := by
      rw [List.getElem?_map, he, Option.map_some, (hplaced.view_eq_none hmem).mpr hempty]
    refine Option.eq_none_iff_forall_ne_some.mpr fun v hv => ?_
    exact hplaced.probed.not_stores hfull hslot rfl _ (stores_iff.mpr ((h.stored key v).mp hv))
  · exact (h.stored key _).mpr (List.mem_map.mpr ⟨e, hmem, hview⟩)

/-- A lookup returns what the map has. -/
lemma get (key : List UInt8) : c.get H key = some (M key) := by
  rw [LongPretokenCache.get]
  split_ifs with hnil
  · have hnone : M key = none := Option.eq_none_iff_forall_ne_some.mpr fun v hv => by
      have hmem := (h.stored key v).mp hv
      rw [hnil] at hmem
      cases hmem
    rw [hnone]
  · have hplaced := h.placed hnil
    obtain ⟨i, hi, hfull, e, he, hmem, hstop⟩ := h.exists_stop hnil key
    rw [hplaced.home_eq]
    refine loop_of_path_break _ hi (fun j hj => ?_) ?_
    · obtain ⟨e', k, v, he', hmem', hview, hkey⟩ := exists_of_full hfull hj
      simp only [getStep, he', Option.bind_eq_bind, Option.bind_some, (view_eq_some.mp hview).1,
        hplaced.sameKey_eq hmem' hview, beq_eq_false_iff_ne.mpr hkey, hplaced.next_eq]
      rfl
    · obtain ⟨hempty, hM⟩ | ⟨hview, hM⟩ := hstop
      · simp only [getStep, he, Option.bind_eq_bind, Option.bind_some, hempty, hM]
        rfl
      · simp only [getStep, he, Option.bind_eq_bind, Option.bind_some, (view_eq_some.mp hview).1,
          hplaced.sameKey_eq hmem hview, BEq.rfl, hM]
        rfl

/-- New slots for the entries, under a hash of choice. -/
lemma rehash (hashOf : LongEntry → Option ℕ) (fullHash : Bool) {n p : ℕ} (hn : n = 2 ^ (p + 1))
    (hle : c.slots.length ≤ n) (hroom : LongPretokenCache.used c.slots < n)
    (hold : ∀ e ∈ c.slots, e.occupied → ∃ k, keyOf c.keyArena e = some k ∧
      hashOf e = some (LongPretokenCache.hash H { c with fullHash } k)) :
    ∃ slots, LongPretokenCache.rehash hashOf c.slots (List.replicate n .empty) = some slots ∧
      slots.length = n ∧ Holds H { c with slots, fullHash } M := by
  have hpair : (c.slots.map (view c.keyArena)).Pairwise fun s t =>
      ∀ k v v', s = some (k, v) → t ≠ some (k, v') := by
    by_cases hnil : c.slots = []
    · rw [hnil]
      exact .nil
    · exact (h.placed hnil).pairwise
  obtain ⟨slots, hrun, hlen, hplaced, hused, hmem⟩ := (placed_replicate hn).rehash hold hpair
    (fun k v v' _ => by simp [view_empty]) (by rw [used_replicate, List.length_replicate]; omega)
  rw [List.length_replicate] at hlen
  rw [used_replicate, Nat.zero_add] at hused
  refine ⟨slots, hrun, hlen, fun _ => hplaced, fun k v => ?_, hused.trans_le h.used,
    h.load.trans (Nat.mul_le_mul_right 3 (hle.trans hlen.ge))⟩
  rw [h.stored, hmem]
  simp [view_empty]

lemma switchToFullHash (hne : c.slots ≠ []) : ∃ c', c.switchToFullHash H = some c' ∧
    c'.keyArena = c.keyArena ∧ c'.fullHash = true ∧ Holds H c' M := by
  have hplaced := h.placed hne
  obtain ⟨p, hp⟩ := hplaced.pow
  have hold : ∀ e ∈ c.slots, e.occupied → ∃ k, keyOf c.keyArena e = some k ∧
      (keyOf c.keyArena e).map H.full = some (H.full k) := by
    intro e he hocc
    obtain ⟨k, hk, -⟩ := hplaced.hashed e he hocc
    exact ⟨k, hk, hk ▸ rfl⟩
  obtain ⟨slots, hrun, -, hholds⟩ := h.rehash (fun e => (keyOf c.keyArena e).map H.full) true hp
    le_rfl (h.room hne) hold
  refine ⟨{ c with slots, fullHash := true }, ?_, rfl, rfl, hholds⟩
  rw [LongPretokenCache.switchToFullHash, hrun]
  rfl

/-- There is room for one more entry after the growth check. -/
lemma growCheck : ∃ c', c.growCheck = some c' ∧ c'.keyArena = c.keyArena ∧
    c'.fullHash = c.fullHash ∧ c'.slots ≠ [] ∧ (c'.len + 1) * 4 ≤ c'.slots.length * 3 ∧
    Holds H c' M := by
  have hload := h.load
  have hused := h.used
  rw [LongPretokenCache.growCheck]
  split_ifs with hgrow
  · obtain ⟨n, p, hn, hnew, hle, hroom⟩ : ∃ n p, n = 2 ^ (p + 1) ∧
        (if c.slots = [] then minSlots else c.slots.length * 2) = n ∧ c.slots.length ≤ n ∧
        (c.len + 1) * 4 ≤ n * 3 := by
      by_cases hnil : c.slots = []
      · rw [hnil, List.length_nil] at hload
        exact ⟨minSlots, 5, rfl, if_pos hnil, by simp [hnil], by simp [minSlots]; omega⟩
      · obtain ⟨p, hp⟩ := (h.placed hnil).pow
        have hpos := Nat.two_pow_pos p
        rw [pow_succ] at hp
        exact ⟨c.slots.length * 2, p + 1, by rw [hp, pow_succ, pow_succ], if_neg hnil, by omega,
          by omega⟩
    have hold : ∀ e ∈ c.slots, e.occupied → ∃ k, keyOf c.keyArena e = some k ∧
        some e.hash = some (c.hash H k) := by
      intro e he hocc
      obtain ⟨k, hk, hhash⟩ := (h.placed (List.ne_nil_of_mem he)).hashed e he hocc
      exact ⟨k, hk, congrArg some hhash⟩
    obtain ⟨slots, hrun, hlen, hholds⟩ := h.rehash (fun e => some e.hash) c.fullHash hn hle
      (by omega) hold
    have hne : slots ≠ [] := List.length_pos_iff.mp (by omega)
    refine ⟨{ c with slots }, ?_, rfl, rfl, hne, hlen.symm ▸ hroom, hholds⟩
    rw [LongPretokenCache.grow, hnew, hrun]
    rfl
  · push Not at hgrow
    exact ⟨c, rfl, rfl, rfl, hgrow.1, hgrow.2, h⟩

end Holds

/-- The results of `insert`: the cache with the previous value, or a panic. -/
inductive Outcome (H : LongHash) (arena : List UInt8) (M : List UInt8 → Option (ℕ × ℕ))
    (key : List UInt8) (value : ℕ × ℕ) : Option (LongPretokenCache × Option (ℕ × ℕ)) → Prop
  /-- The key is stored, and its value is overwritten. -/
  | replaced {c : LongPretokenCache} {v : ℕ × ℕ} (hM : M key = some v)
      (hholds : Holds H c (Function.update M key (some value))) :
      Outcome H arena M key value (some (c, some v))
  | added {c : LongPretokenCache} (hM : M key = none) (hroom : arena.length < emptyOffset)
      (harena : c.keyArena = arena ++ key)
      (hholds : Holds H c (Function.update M key (some value))) :
      Outcome H arena M key value (some (c, none))
  /-- The offset of the key is the one of an empty slot. -/
  | lost {c : LongPretokenCache} (hM : M key = none) (hroom : arena.length = emptyOffset)
      (hholds : Holds H c M) :
      Outcome H arena M key value (some (c, none))
  | panic (hM : M key = none) (hroom : ¬ (arena.length < 2 ^ 32 ∧ key.length < 2 ^ 32)) :
      Outcome H arena M key value none

namespace Holds

lemma overwrite (h : Holds H c M) (hne : c.slots ≠ [])
    (hfull : (probing (c.hash H) c.slots.length).Full (c.slots.map (view c.keyArena)) key i)
    (he : c.slots[(probing (c.hash H) c.slots.length).index key i]? = some e)
    (hview : view c.keyArena e = some (key, e.value)) (value : ℕ × ℕ) :
    Holds H
      { c with
        slots := c.slots.set ((probing (c.hash H) c.slots.length).index key i) { e with value } }
      (Function.update M key (some value)) := by
  obtain ⟨hplaced, hused, hmem⟩ := (h.placed hne).overwrite hfull he hview value
  refine ⟨fun _ => hplaced, fun k v => ?_, hused.trans_le h.used, by simpa using h.load⟩
  rw [hmem]
  by_cases hk : k = key
  · subst hk
    simp [eq_comm]
  · simp [hk, h.stored]

/-- What happens at an empty slot. -/
lemma store (h : Holds H c M) (hne : c.slots ≠ []) (hload : (c.len + 1) * 4 ≤ c.slots.length * 3)
    (hfull : (probing (c.hash H) c.slots.length).Full (c.slots.map (view c.keyArena)) key i)
    (he : c.slots[(probing (c.hash H) c.slots.length).index key i]? = some e)
    (hempty : e.occupied = false) (hM : M key = none) (value : ℕ × ℕ) :
    Outcome H c.keyArena M key value
      ((c.store (c.hash H key) key value ((probing (c.hash H) c.slots.length).index key i)).map
        (·, none)) := by
  have hplaced := h.placed hne
  have hused := h.used
  by_cases hroom : c.keyArena.length < 2 ^ 32 ∧ key.length < 2 ^ 32
  · obtain ⟨happend, hviews⟩ := hplaced.append key
    rw [LongPretokenCache.store, toU32, if_pos hroom.1, toU32, if_pos hroom.2]
    simp only [Option.bind_eq_bind, Option.bind_some, write_of_getElem? he, Option.map_some]
    set slot := (probing (c.hash H) c.slots.length).index key i with hslot
    set new : LongEntry := ⟨c.hash H key, c.keyArena.length, key.length, value⟩ with hnew
    obtain hfits | hlost := Nat.lt_or_eq_of_le (Nat.le_pred_of_lt hroom.1)
    · have hview : view (c.keyArena ++ key) new = some (key, value) := by
        have hget := getRange_append c.keyArena key []
        rw [List.append_nil] at hget
        exact view_eq_some.mpr ⟨bne_iff_ne.mpr hfits.ne, hget, rfl⟩
      have hadds := happend.adds (hviews ▸ hfull) he hempty hview rfl
      refine .added hM hfits rfl ⟨fun _ => hadds.placed, fun k v => ?_, ?_, ?_⟩
      · rw [hadds.mem, hviews]
        by_cases hk : k = key
        · subst hk
          simp [← h.stored, hM, eq_comm]
        · simp [hk, h.stored]
      · exact hadds.used.trans_le (Nat.succ_le_succ hused)
      · exact hload.trans_eq (by rw [hadds.length])
    · have hnew_empty : new.occupied = false := bne_eq_false_iff_eq.mpr hlost
      have hnone : view (c.keyArena ++ key) new = none := by
        rw [view, hnew_empty]
        rfl
      have hslot : (c.slots.map (view (c.keyArena ++ key)))[slot]? = some none := by
        rw [List.getElem?_map, he, Option.map_some,
          (happend.view_eq_none (List.mem_of_getElem? he)).mpr hempty]
      have hsame : (c.slots.map (view (c.keyArena ++ key))).set slot (view (c.keyArena ++ key) new) =
          c.slots.map (view (c.keyArena ++ key)) := by
        obtain ⟨hlt, hget⟩ := List.getElem?_eq_some_iff.mp hslot
        rw [hnone, ← hget, List.set_getElem_self]
      have hset : Placed (c.hash H) (c.keyArena ++ key) (c.slots.set slot new) :=
        happend.set (fun hocc => absurd hocc (by simp [hnew_empty]))
          (by rw [hsame]; exact happend.probed)
      refine .lost hM hlost ⟨fun _ => hset, fun k v => ?_, ?_, ?_⟩
      · rw [h.stored, List.map_set, hsame, hviews]
      · have hcount : LongPretokenCache.used (c.slots.set slot new) =
            LongPretokenCache.used c.slots := by
          obtain ⟨hlt, rfl⟩ := List.getElem?_eq_some_iff.mp he
          simp [LongPretokenCache.used, List.countP_set hlt, hempty, hnew_empty]
        exact hcount.trans_le (hused.trans (Nat.le_succ _))
      · exact hload.trans_eq (by rw [List.length_set])
  · have hpanic : c.store (c.hash H key) key value
        ((probing (c.hash H) c.slots.length).index key i) = none := by
      rw [LongPretokenCache.store, toU32, toU32]
      by_cases ha : c.keyArena.length < 2 ^ 32
      · rw [if_pos ha, if_neg fun hk => hroom ⟨ha, hk⟩]
        rfl
      · rw [if_neg ha]
        rfl
    rw [hpanic]
    exact .panic hM hroom

/-- The loop of `insert` comes to its key or to an empty slot, or gives the sampled hash up. -/
lemma insertLoop (h : Holds H c M) (hne : c.slots ≠ [])
    (hload : (c.len + 1) * 4 ≤ c.slots.length * 3) (key : List UInt8) (value : ℕ × ℕ) :
    (c.fullHash = false ∧ loop (c.insertStep (c.hash H key) key value) c.slots.length
        (home c.slots (c.hash H key), 0) = some none) ∨
      ∃ r, Outcome H c.keyArena M key value r ∧ loop (c.insertStep (c.hash H key) key value)
        c.slots.length (home c.slots (c.hash H key), 0) = r.map some := by
  have hplaced := h.placed hne
  obtain ⟨i, hi, hfull, e, he, hmem, hstop⟩ := h.exists_stop hne key
  rw [hplaced.home_eq]
  set path : ℕ → ℕ × ℕ := fun j => ((probing (c.hash H) c.slots.length).index key j, j) with hpath
  have hturn : ∀ j < i, c.insertStep (c.hash H key) key value (path j) =
      if !c.fullHash && decide (j + 1 > maxSampledDisplacement) then some (.inr none)
      else some (.inl (path (j + 1))) := by
    intro j hj
    obtain ⟨e', k, v, he', hmem', hview, hkey⟩ := exists_of_full hfull hj
    simp only [insertStep, hpath, he', Option.bind_eq_bind, Option.bind_some,
      (view_eq_some.mp hview).1, hplaced.sameKey_eq hmem' hview, beq_eq_false_iff_ne.mpr hkey,
      hplaced.next_eq]
    rfl
  by_cases hswitch : c.fullHash = false ∧ maxSampledDisplacement < i
  · obtain ⟨hfull, hlong⟩ := hswitch
    refine .inl ⟨hfull, loop_of_path_break path (hlong.trans hi) (fun j hj => ?_) ?_⟩
    · rw [hturn j (hj.trans hlong), if_neg (by simp; omega)]
    · rw [hturn _ hlong, if_pos (by simp [hfull])]
      rfl
  · have hgo : ∀ j < i, c.insertStep (c.hash H key) key value (path j) =
        some (.inl (path (j + 1))) := by
      intro j hj
      refine (hturn j hj).trans (if_neg fun hcond => hswitch ?_)
      simp only [Bool.and_eq_true, Bool.not_eq_true', decide_eq_true_eq] at hcond
      exact ⟨hcond.1, by omega⟩
    obtain ⟨hempty, hM⟩ | ⟨hview, hM⟩ := hstop
    · refine .inr ⟨_, h.store hne hload hfull he hempty hM value,
        loop_of_path_break path hi hgo ?_⟩
      simp only [insertStep, hpath, he, Option.bind_eq_bind, Option.bind_some, hempty]
      cases c.store (c.hash H key) key value ((probing (c.hash H) c.slots.length).index key i) <;> rfl
    · refine .inr ⟨_, .replaced hM (h.overwrite hne hfull he hview value),
        loop_of_path_break path hi hgo ?_⟩
      simp only [insertStep, hpath, he, Option.bind_eq_bind, Option.bind_some,
        (view_eq_some.mp hview).1, hplaced.sameKey_eq hmem hview, BEq.rfl,
        write_of_getElem? he { e with value }]
      rfl

/-- A call of `insert` in terms of the map. -/
lemma insert (h : Holds H c M) (key : List UInt8) (value : ℕ × ℕ) :
    Outcome H c.keyArena M key value (c.insert H key value) := by
  obtain ⟨c₁, hgrow, harena, -, hne, hload, h₁⟩ := h.growCheck
  rw [LongPretokenCache.insert, insertWith, hgrow, Option.bind_eq_bind, Option.bind_some, ← harena]
  obtain ⟨-, hloop⟩ | ⟨r, hr, hloop⟩ := h₁.insertLoop hne hload key value
  · rw [hloop, Option.bind_eq_bind, Option.bind_some]
    obtain ⟨c₂, hswitch, harena₂, hfull₂, h₂⟩ := h₁.switchToFullHash hne
    obtain ⟨c₃, hgrow₃, harena₃, hfull₃, hne₃, hload₃, h₃⟩ := h₂.growCheck
    rw [hswitch, Option.bind_some, insertWith, hgrow₃, Option.bind_eq_bind, Option.bind_some,
      ← harena₂, ← harena₃]
    obtain ⟨hsampled, -⟩ | ⟨r, hr, hloop₃⟩ := h₃.insertLoop hne₃ hload₃ key value
    · rw [hfull₃, hfull₂] at hsampled
      cases hsampled
    · rw [hloop₃]
      cases r <;> exact hr
  · rw [hloop]
    cases r <;> exact hr

end Holds

/-! ### Runs -/

/-- The caches that a run reaches, and the maps they stand for: what was stored last under each
key. No new key is inserted when the arena ends at the offset that marks an empty slot. -/
inductive Reached (H : LongHash) : LongPretokenCache → (List UInt8 → Option (ℕ × ℕ)) → Prop
  | new : Reached H new fun _ => none
  | withCapacity (capacity : ℕ) : Reached H (withCapacity capacity) fun _ => none
  | insert {c c' : LongPretokenCache} {M : List UInt8 → Option (ℕ × ℕ)} {key : List UInt8}
      {value : ℕ × ℕ} {previous : Option (ℕ × ℕ)} (h : Reached H c M)
      (hroom : M key = none → c.keyArena.length ≠ emptyOffset)
      (hrun : c.insert H key value = some (c', previous)) :
      Reached H c' (Function.update M key (some value))

lemma Reached.holds (h : Reached H c M) : Holds H c M := by
  induction h with
  | new => exact holds_new
  | withCapacity capacity => exact holds_withCapacity capacity
  | @insert c c' M key value previous h hroom hrun ih =>
      have hcall := ih.insert key value
      rw [hrun] at hcall
      cases hcall with
      | replaced _ hholds => exact hholds
      | added _ _ _ hholds => exact hholds
      | lost hM hlost _ => exact absurd hlost (hroom hM)

/-- `LongPretokenCache` refines a finite map, in every run in which no new key is inserted when the
arena has exactly `u32::MAX` bytes: a lookup terminates and returns the value stored last for its
bytes, or none; `insert` returns unless the arena or the key has too many bytes, and reports the
previous value. -/
theorem reached_get (h : Reached H c M) (key : List UInt8) : c.get H key = some (M key) ∧
    ∀ value, (∀ c' previous, c.insert H key value = some (c', previous) → previous = M key) ∧
      (M key ≠ none ∨ c.keyArena.length < 2 ^ 32 ∧ key.length < 2 ^ 32 →
        ∃ c' previous, c.insert H key value = some (c', previous)) := by
  refine ⟨h.holds.get key, fun value => ?_⟩
  have hcall := h.holds.insert key value
  constructor
  · intro c' previous hrun
    rw [hrun] at hcall
    cases hcall with
    | replaced hM _ => exact hM.symm
    | added hM _ _ _ => exact hM.symm
    | lost hM _ _ => exact hM.symm
  · intro hroom
    cases hrun : c.insert H key value with
    | some r => exact ⟨r.1, r.2, rfl⟩
    | none =>
        rw [hrun] at hcall
        cases hcall with
        | panic hM hfull => exact absurd (hroom.resolve_left (not_not.mpr hM)) hfull

/-- A value that is stored is found. -/
theorem reached_get_new : ∃ c previous, new.insert longKeyHash [1, 2, 3] (4, 5) = some (c, previous) ∧
    c.get longKeyHash [1, 2, 3] = some (some (4, 5)) := by
  obtain ⟨-, hcalls⟩ := reached_get (H := longKeyHash) .new [1, 2, 3]
  obtain ⟨c, previous, hrun⟩ := (hcalls (4, 5)).2 (.inr (by simp [new]))
  have hreach := Reached.new.insert (fun _ => by simp [new, emptyOffset]) hrun
  refine ⟨c, previous, hrun, ?_⟩
  rw [(reached_get hreach [1, 2, 3]).1, Function.update_self]

/-- A new key that is inserted when the arena has `u32::MAX` bytes is lost. -/
lemma Holds.insert_lost (h : Holds H c M) (hM : M key = none) (harena : c.keyArena.length = emptyOffset)
    (hkey : key.length < 2 ^ 32) (value : ℕ × ℕ) : ∃ c',
    c.insert H key value = some (c', none) ∧ c'.get H key = some none := by
  have hcall := h.insert key value
  cases hrun : c.insert H key value with
  | none =>
      rw [hrun] at hcall
      cases hcall with
      | panic _ hroom => exact absurd ⟨harena.trans_lt (by decide), hkey⟩ hroom
  | some r =>
      obtain ⟨c', previous⟩ := r
      rw [hrun] at hcall
      cases hcall with
      | replaced hM' _ => exact absurd (hM.symm.trans hM') (by simp)
      | added _ hroom _ _ => exact absurd harena hroom.ne
      | lost _ _ hholds => exact ⟨c', rfl, hM ▸ hholds.get key⟩

/-- The first key fills the arena up to the offset of an empty slot, and the second one is lost. -/
theorem insert_replicate_lost : ∃ c₁ c₂,
    new.insert longKeyHash (List.replicate (2 ^ 32 - 1) 97) (0, 1) = some (c₁, none) ∧
    c₁.insert longKeyHash (List.replicate 16 98) (1, 1) = some (c₂, none) ∧
    c₂.get longKeyHash (List.replicate 16 98) = some none := by
  obtain ⟨key, hkey, hlen⟩ : ∃ key : List UInt8, List.replicate (2 ^ 32 - 1) 97 = key ∧
      key.length = 2 ^ 32 - 1 := ⟨_, rfl, List.length_replicate⟩
  have hne : List.replicate 16 98 ≠ key := fun heq => by simp [← heq] at hlen
  rw [hkey]
  have hcall := (holds_new (H := longKeyHash)).insert key (0, 1)
  cases hrun : new.insert longKeyHash key (0, 1) with
  | none =>
      rw [hrun] at hcall
      cases hcall with
      | panic _ hroom => exact absurd ⟨by simp [new], by omega⟩ hroom
  | some r =>
      obtain ⟨c₁, previous⟩ := r
      rw [hrun] at hcall
      cases hcall with
      | added _ _ harena hholds =>
          have hfull : c₁.keyArena.length = emptyOffset := by simp [harena, new, hlen, emptyOffset]
          obtain ⟨c₂, hrun₂, hget⟩ := hholds.insert_lost (Function.update_of_ne hne _ _) hfull
            (by simp) (1, 1)
          exact ⟨c₁, c₂, rfl, hrun₂, hget⟩
      | replaced hM _ => cases hM
      | lost _ hroom _ => simp [new, emptyOffset] at hroom

end LongPretokenCache

end Hypertok
