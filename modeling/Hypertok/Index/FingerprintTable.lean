import Hypertok.Format.Reader
import Hypertok.Machine.RobinHood

/-!
`FingerprintTable` of the `hypertok-hash` crate: the ids of byte strings, by Robin Hood
hashing. The hash function of the `wyhash` crate is a parameter.

* `FingerprintTable.insertLoop_returns`: an insertion ends, and keeps the slots on their paths.
* `FingerprintTable.build_returns`: a table that is built holds its keys.
* `FingerprintTable.fromBytes_toBytes`: its image gives the table back.
* `FingerprintTable.fromBytes_returns`, `holds_of_lookup`: what an image that is accepted holds.
* `FingerprintTable.build_correct`: the table is a correct map.
-/

namespace Hypertok

open Machine Run

/-- `WyHash`: the value after a seed, an integer and a byte string. -/
abbrev WyHash := ℕ → ℕ → List UInt8 → UInt64

/-- `hash_key`. -/
def hashKey (wyhash : WyHash) (key : List UInt8) (seed : ℕ) : ℕ :=
  (wyhash seed key.length key).toNat

/-- `fingerprint`. -/
def fingerprint (wyhash : WyHash) (key : List UInt8) : UInt8 :=
  UInt8.ofNat (hashKey wyhash key 0x48544b4650524e54 >>> 56)

/-- `table_hash`. -/
def tableHash (wyhash : WyHash) (key : List UInt8) : ℕ := hashKey wyhash key 0x48544b5441424c45

/-- `div_ceil`. -/
def divCeil (a b : ℕ) : ℕ := (a + b - 1) / b

/-- `map64`. -/
def map64 (value range : ℕ) : ℕ := (value * range) >>> 64

/-- `TableKey`. -/
structure TableKey where
  id : ℕ
  bytes : List UInt8
  deriving DecidableEq

/-- `TableBuildError`. -/
inductive TableBuildError
  | emptyKeySet
  | invalidLoadPermille (value : UInt16)
  | duplicateKey
  | idOverflow (id : ℕ)
  | sizeOverflow
  | displacementOverflow
  deriving DecidableEq

/-- `TableImageError`. -/
inductive TableImageError
  | truncated
  | badMagic
  | unsupportedVersion (version : ℕ)
  | invalidLoadPermille (value : UInt16)
  | sizeOverflow
  | lengthMismatch
  | nonCanonicalSlotCount
  | invalidOccupied (value : UInt8)
  | nonZeroEmptySlot
  | invalidId (id : ℕ)
  | duplicateId (id : ℕ)
  | keyCountMismatch (expected actual : ℕ)
  deriving DecidableEq

/-- `Slot`. -/
structure Slot where
  idPlusOne : UInt32
  displacement : UInt16
  fingerprint : UInt8
  occupied : UInt8
  deriving DecidableEq

namespace Slot

/-- `Slot::default()`. -/
def empty : Slot := ⟨0, 0, 0, 0⟩

/-- `incoming.displacement.checked_add(1)`. -/
def next (s : Slot) : Option Slot :=
  if s.displacement.toNat + 1 < 2 ^ 16 then some { s with displacement := s.displacement + 1 }
  else none

/-- How far the slot is from its home. -/
def dist (s : Slot) : Option ℕ := if s.occupied = 0 then none else some s.displacement.toNat

/-- The id of a slot in use, plus one. -/
def entry (s : Slot) : Option ℕ := if s.occupied = 0 then none else some s.idPlusOne.toNat

/-- A slot as the table writes it. -/
def Canonical (s : Slot) : Prop := s = empty ∨ s.occupied = 1

/-- The bytes of a slot. -/
def toBytes (s : Slot) : List UInt8 :=
  leBytes 4 s.idPlusOne.toNat ++ leBytes 2 s.displacement.toNat ++ [s.fingerprint, s.occupied]

/-- The slot of eight bytes. -/
def ofBytes {ε : Type} (raw : List UInt8) : Run ε Slot := do
  return {
    idPlusOne := UInt32.ofNat (leNat (← Run.expect (getRange raw 0 4)))
    displacement := UInt16.ofNat (leNat (← Run.expect (getRange raw 4 6)))
    fingerprint := ← Run.expect raw[6]?
    occupied := ← Run.expect raw[7]? }

@[simp] lemma length_toBytes (s : Slot) : s.toBytes.length = 8 := by simp [toBytes]

lemma ofBytes_toBytes {ε : Type} (s : Slot) : (ofBytes s.toBytes : Run ε Slot) = ok s := by
  have hparts : s.toBytes = [leBytes 4 s.idPlusOne.toNat, leBytes 2 s.displacement.toNat,
      [s.fingerprint], [s.occupied]].flatten := by simp [toBytes]
  have hid : getRange s.toBytes 0 4 = some (leBytes 4 s.idPlusOne.toNat) := by
    rw [hparts]
    exact getRange_flatten (i := 0) rfl rfl rfl
  have hdisp : getRange s.toBytes 4 6 = some (leBytes 2 s.displacement.toNat) := by
    rw [hparts]
    exact getRange_flatten (i := 1) rfl rfl rfl
  have hprint : s.toBytes[6]? = some s.fingerprint := by
    rw [hparts]
    exact getElem?_of_getRange (getRange_flatten (i := 2) rfl rfl rfl)
  have hocc : s.toBytes[7]? = some s.occupied := by
    rw [hparts]
    exact getElem?_of_getRange (getRange_flatten (i := 3) rfl rfl rfl)
  simp only [ofBytes, hid, hdisp, hprint, hocc, expect_some, Run.ok_bind, pure_eq,
    leNat_leBytes (show s.idPlusOne.toNat < 256 ^ 4 from UInt32.toNat_lt _),
    leNat_leBytes (show s.displacement.toNat < 256 ^ 2 from UInt16.toNat_lt _),
    UInt32.ofNat_toNat, UInt16.ofNat_toNat]

end Slot

/-- `FingerprintTable`. -/
structure FingerprintTable where
  slots : List Slot
  keyCount : UInt32
  loadPermille : UInt16

/-- `DEFAULT_TABLE_LOAD_PERMILLE`. -/
def defaultTableLoadPermille : UInt16 := 850

namespace FingerprintTable

variable (w : ℕ) (wyhash : WyHash)

/-- The position after another one. -/
def nextPosition (length position : ℕ) : ℕ := if position + 1 = length then 0 else position + 1

/-- The loop of `insert`, for at most as many turns. An empty slot is met in the first round. -/
def insertLoop : ℕ → List Slot → ℕ → Slot → Run TableBuildError (List Slot)
  | 0, _, _, _ => .stuck
  | turns + 1, slots, position, incoming => do
      let slot ← Run.expect slots[position]?
      if slot.occupied = 0 then return slots.set position incoming
      else if slot.displacement < incoming.displacement then do
        let next ← Run.orFail .displacementOverflow slot.next
        insertLoop turns (slots.set position incoming) (nextPosition slots.length position) next
      else do
        let next ← Run.orFail .displacementOverflow incoming.next
        insertLoop turns slots (nextPosition slots.length position) next

/-- `insert`. -/
def insert (slots : List Slot) (key : TableKey) : Run TableBuildError (List Slot) := do
  let position := map64 (tableHash wyhash key.bytes) slots.length
  let idPlusOne ← Run.orFail (.idOverflow key.id) (Uint.checkedAdd 32 key.id 1)
  insertLoop slots.length slots position
    ⟨UInt32.ofNat idPlusOne, 0, fingerprint wyhash key.bytes, 1⟩

/-- `build`. -/
def build (keys : List TableKey) (loadPermille : UInt16) :
    Run TableBuildError FingerprintTable := do
  Run.require (keys ≠ []) .emptyKeySet
  Run.require (1 ≤ loadPermille ∧ loadPermille < 1000) (.invalidLoadPermille loadPermille)
  Run.require (keys.length < 2 ^ 32) .sizeOverflow
  Run.require (keys.map TableKey.bytes).Nodup .duplicateKey
  let scaled ← Run.orFail .sizeOverflow (Uint.checkedMul w keys.length 1000)
  let slotCount := divCeil scaled loadPermille.toNat
  Run.require (slotCount < 2 ^ 32) .sizeOverflow
  let slots ← keys.foldlM (insert wyhash) (List.replicate slotCount Slot.empty)
  return ⟨slots, UInt32.ofNat keys.length, loadPermille⟩

variable (table : FingerprintTable)

/-- The loop of `lookup`. The turns that remain are the displacements that a `u16` can still
count. -/
def lookupLoop (key : List UInt8) (equals : ℕ → List UInt8 → Bool) : ℕ → ℕ → ℕ → Option ℕ
  | 0, _, _ => none
  | turns + 1, position, displacement => do
      let slot ← table.slots[position]?
      if slot.occupied = 0 ∨ slot.displacement.toNat < displacement then none
      else if slot.fingerprint = fingerprint wyhash key then
        if slot.idPlusOne = 0 then none
        else if equals (slot.idPlusOne.toNat - 1) key then some (slot.idPlusOne.toNat - 1)
        else lookupLoop key equals turns (nextPosition table.slots.length position) (displacement + 1)
      else lookupLoop key equals turns (nextPosition table.slots.length position) (displacement + 1)

/-- `lookup`. -/
def lookup (key : List UInt8) (equals : ℕ → List UInt8 → Bool) : Option ℕ :=
  table.lookupLoop wyhash key equals (2 ^ 16) (map64 (tableHash wyhash key) table.slots.length) 0

/-- `b"HTFT"`. -/
def magic : List UInt8 := [72, 84, 70, 84]

/-- `to_bytes`. A vector that is longer than an `isize` counts cannot be allocated. -/
def toBytes {ε : Type} : Run ε (List UInt8) := do
  Run.expect (if 16 + table.slots.length * 8 < 2 ^ (w - 1) then some () else none)
  Run.expect (if table.slots.length < 2 ^ 32 then some () else none)
  return [magic, leBytes 2 1, leBytes 2 table.loadPermille.toNat, leBytes 4 table.keyCount.toNat,
    leBytes 4 table.slots.length, (table.slots.map Slot.toBytes).flatten].flatten

/-- One turn of the loop of `from_bytes`. -/
def readSlot (vocabSize : ℕ) (st : List Slot × Finset ℕ × ℕ) (raw : List UInt8) :
    Run TableImageError (List Slot × Finset ℕ × ℕ) := do
  let slot ← Slot.ofBytes raw
  if slot.occupied = 0 then do
    Run.require (slot = Slot.empty) .nonZeroEmptySlot
    return (st.1 ++ [slot], st.2)
  else if slot.occupied = 1 then do
    Run.require (slot.idPlusOne ≠ 0) (.invalidId (2 ^ 32 - 1))
    let id := slot.idPlusOne.toNat - 1
    Run.require (id < vocabSize) (.invalidId id)
    Run.require (id ∉ st.2.1) (.duplicateId id)
    let occupiedCount ← Run.add 32 st.2.2 1
    return (st.1 ++ [slot], Insert.insert id st.2.1, occupiedCount)
  else .fail (.invalidOccupied slot.occupied)

/-- `from_bytes`. -/
def fromBytes (bytes : List UInt8) (vocabSize : ℕ) : Run TableImageError FingerprintTable := do
  Run.require (16 ≤ bytes.length) .truncated
  Run.require ((← Run.expect (getRange bytes 0 4)) = magic) .badMagic
  let version := leNat (← Run.expect (getRange bytes 4 6))
  Run.require (version = 1) (.unsupportedVersion version)
  let loadPermille := UInt16.ofNat (leNat (← Run.expect (getRange bytes 6 8)))
  Run.require (1 ≤ loadPermille ∧ loadPermille < 1000) (.invalidLoadPermille loadPermille)
  let keyCount := leNat (← Run.expect (getRange bytes 8 12))
  let slotCount := leNat (← Run.expect (getRange bytes 12 16))
  Run.require (slotCount < 2 ^ w) .sizeOverflow
  let expectedLength ← Run.orFail .sizeOverflow
    ((Uint.checkedMul w slotCount 8).bind fun length => Uint.checkedAdd w length 16)
  Run.require (bytes.length = expectedLength) .lengthMismatch
  Run.require (keyCount < 2 ^ w) .sizeOverflow
  let scaled ← Run.orFail .sizeOverflow (Uint.checkedMul w keyCount 1000)
  Run.require (slotCount = divCeil scaled loadPermille.toNat) .nonCanonicalSlotCount
  let raw ← Run.expect (getFrom bytes 16)
  let (slots, _, occupiedCount) ← (chunksExact 8 raw).foldlM (readSlot vocabSize) ([], ∅, 0)
  Run.require (occupiedCount = keyCount) (.keyCountMismatch keyCount occupiedCount)
  return ⟨slots, UInt32.ofNat keyCount, loadPermille⟩

/-! ### A table that is built -/

variable {w : ℕ} {wyhash : WyHash} {table : FingerprintTable} {slots : List Slot}

/-- The ids of the slots in use, plus one. -/
def used (slots : List Slot) : List ℕ := slots.filterMap Slot.entry

/-- A slot of the id and the fingerprint lies as far from the home as it says. -/
def Lies (slots : List Slot) (home : ℕ) (idPlusOne : UInt32) (f : UInt8) : Prop :=
  ∃ d s, slots[(home + d) % slots.length]? = some s ∧ s.dist = some d ∧ s.idPlusOne = idPlusOne ∧
    s.fingerprint = f

lemma dist_next {s s' : Slot} {d : ℕ} (hs : s.dist = some d) (h : s.next = some s') :
    s'.dist = some (d + 1) ∧ s'.idPlusOne = s.idPlusOne ∧ s'.fingerprint = s.fingerprint ∧
      s'.occupied = s.occupied := by
  rw [Slot.next, Option.ite_none_right_eq_some] at h
  obtain ⟨hlt, hs'⟩ := h
  obtain rfl := Option.some_inj.mp hs'
  rw [Slot.dist, Option.ite_none_left_eq_some] at hs
  obtain ⟨hocc, hd⟩ := hs
  refine ⟨?_, rfl, rfl, rfl⟩
  rw [Slot.dist, if_neg hocc, ← Option.some_inj.mp hd, UInt16.toNat_add]
  exact congrArg some (Nat.mod_eq_of_lt hlt)

lemma nextPosition_eq {length position : ℕ} (h : position < length) :
    nextPosition length position = (position + 1) % length := by
  rw [nextPosition]
  split_ifs with hlast
  · rw [hlast, Nat.mod_self]
  · rw [Nat.mod_eq_of_lt (by omega)]

/-- A slot is written over one that is empty, or less far from its home. -/
lemma Lies.set {home : ℕ} {idPlusOne : UInt32} {f : UInt8} (h : Lies slots home idPlusOne f)
    {p : ℕ} {e : Slot} (he : slots[p]? = some e) (s : Slot) :
    Lies (slots.set p s) home idPlusOne f ∨
      ∃ d, p = (home + d) % slots.length ∧ e.dist = some d ∧ e.idPlusOne = idPlusOne ∧
        e.fingerprint = f := by
  obtain ⟨d, t, ht, hrest⟩ := h
  by_cases hp : p = (home + d) % slots.length
  · rw [← hp, he, Option.some_inj] at ht
    subst ht
    exact .inr ⟨d, hp, hrest⟩
  · refine .inl ⟨d, t, ?_, hrest⟩
    rwa [List.length_set, List.getElem?_set_ne hp]

lemma entry_of_dist {s : Slot} {d : ℕ} (h : s.dist = some d) : s.entry = some s.idPlusOne.toNat := by
  rw [Slot.dist, Option.ite_none_left_eq_some] at h
  exact if_neg h.1

/-- The ids in use, where a slot is written. -/
lemma used_set {p d : ℕ} {e s : Slot} (he : slots[p]? = some e) (hs : s.dist = some d) :
    (used (slots.set p s) ++ e.entry.toList).Perm (s.idPlusOne.toNat :: used slots) := by
  obtain ⟨hp, rfl⟩ := List.getElem?_eq_some_iff.mp he
  have hset : (used (slots.set p s)).Perm (s.idPlusOne.toNat :: used (slots.eraseIdx p)) := by
    have hperm := (List.set_perm_cons_eraseIdx hp s).filterMap Slot.entry
    rwa [List.filterMap_cons, entry_of_dist hs] at hperm
  have hget : (slots[p].entry.toList ++ used (slots.eraseIdx p)).Perm (used slots) := by
    have hperm := (List.getElem_cons_eraseIdx_perm hp).filterMap Slot.entry
    rw [List.filterMap_cons] at hperm
    cases hentry : slots[p].entry with
    | none => rwa [hentry] at hperm
    | some id => rwa [hentry] at hperm
  exact (hset.append_right _).trans ((List.perm_append_comm.trans hget).cons _)

/-- What the loop of `insert` does with a slot that is carried to a position. -/
structure Inserted (slots : List Slot) (position d : ℕ) (incoming : Slot) (slots' : List Slot) :
    Prop where
  length : slots'.length = slots.length
  ordered : RobinHood.Ordered Slot.dist slots'
  keeps : ∀ home idPlusOne f, Lies slots home idPlusOne f → Lies slots' home idPlusOne f
  adds : ∀ home, position = (home + d) % slots.length →
    Lies slots' home incoming.idPlusOne incoming.fingerprint
  used : (used slots').Perm (incoming.idPlusOne.toNat :: used slots)
  canonical : incoming.occupied = 1 → (∀ s ∈ slots, s.Canonical) → ∀ s ∈ slots', s.Canonical

/-- There is an empty slot, less than so many positions on. -/
def Room (slots : List Slot) (position turns : ℕ) : Prop :=
  ∃ e < turns, ∃ s, slots[(position + e) % slots.length]? = some s ∧ s.occupied = 0

lemma Room.next {position turns : ℕ} (h : Room slots position (turns + 1))
    (hlt : position < slots.length) {slot : Slot} (hslot : slots[position]? = some slot)
    (hocc : slot.occupied ≠ 0) : Room slots (nextPosition slots.length position) turns := by
  obtain ⟨e, he, s, hs, hempty⟩ := h
  cases e with
  | zero =>
      rw [Nat.add_zero, Nat.mod_eq_of_lt hlt, hslot, Option.some_inj] at hs
      exact absurd (hs ▸ hempty) hocc
  | succ e =>
      refine ⟨e, Nat.lt_of_succ_lt_succ he, s, ?_, hempty⟩
      rwa [nextPosition_eq hlt, Nat.mod_add_mod, Nat.add_assoc, Nat.add_comm 1 e]

/-- A slot in use is written. -/
lemma Room.set {position turns p : ℕ} (h : Room slots position turns) {slot : Slot}
    (hslot : slots[p]? = some slot) (hocc : slot.occupied ≠ 0) (s : Slot) :
    Room (slots.set p s) position turns := by
  obtain ⟨e, he, t, ht, hempty⟩ := h
  refine ⟨e, he, t, ?_, hempty⟩
  rw [List.length_set, List.getElem?_set_ne, ht]
  rintro rfl
  rw [hslot, Option.some_inj] at ht
  exact hocc (ht ▸ hempty)

/-- The loop of `insert` ends at the next empty slot. It keeps the order, and all slots that lie
on their paths, and adds one. -/
lemma insertLoop_returns {turns position d : ℕ} {incoming : Slot}
    (hordered : RobinHood.Ordered Slot.dist slots) (hd : incoming.dist = some d)
    (hlt : position < slots.length) (hcarried : RobinHood.Carried Slot.dist slots position d)
    (hroom : Room slots position turns) :
    Returns (insertLoop turns slots position incoming) (Inserted slots position d incoming) := by
  induction turns generalizing slots position d incoming with
  | zero =>
      obtain ⟨e, he, -⟩ := hroom
      exact absurd he (Nat.not_lt_zero e)
  | succ turns ih =>
      obtain ⟨slot, hslot⟩ : ∃ slot, slots[position]? = some slot := ⟨_, List.getElem?_eq_getElem hlt⟩
      have hself : (slots.set position incoming)[position]? = some incoming :=
        List.getElem?_set_self hlt
      have hincoming : ∀ home, position = (home + d) % slots.length →
          Lies (slots.set position incoming) home incoming.idPlusOne incoming.fingerprint := by
        intro home hposition
        exact ⟨d, incoming, by rwa [List.length_set, ← hposition], hd, rfl, rfl⟩
      have hwritten : incoming.occupied = 1 → (∀ s ∈ slots, s.Canonical) →
          ∀ s ∈ slots.set position incoming, s.Canonical := by
        intro hone hall s hs
        rcases List.mem_or_eq_of_mem_set hs with hs | rfl
        · exact hall s hs
        · exact .inr hone
      have hstep : ∀ home x, position = (home + x) % slots.length →
          nextPosition slots.length position = (home + (x + 1)) % slots.length := by
        intro home x hposition
        rw [nextPosition_eq hlt, hposition, Nat.mod_add_mod, Nat.add_assoc]
      have hnextLt : nextPosition slots.length position < slots.length := by
        rw [nextPosition_eq hlt]
        exact Nat.mod_lt _ (Nat.zero_lt_of_lt hlt)
      have hused := used_set hslot hd
      rw [insertLoop, hslot, expect_some, Run.ok_bind]
      by_cases hempty : slot.occupied = 0
      · rw [if_pos hempty]
        have hnone : slot.dist = none := if_pos hempty
        have hentry : slot.entry = none := if_pos hempty
        rw [hentry, Option.toList_none, List.append_nil] at hused
        refine ⟨List.length_set, hordered.set_empty hslot hnone hd hcarried, ?_, hincoming, hused,
          hwritten⟩
        intro home idPlusOne f hlies
        refine (hlies.set hslot incoming).resolve_right ?_
        rintro ⟨d', -, hd', -⟩
        rw [hnone] at hd'
        cases hd'
      rw [if_neg hempty]
      have hdist : slot.dist = some slot.displacement.toNat := if_neg hempty
      have hdistEq : d = incoming.displacement.toNat := by
        rw [Slot.dist, Option.ite_none_left_eq_some] at hd
        exact (Option.some_inj.mp hd.2).symm
      have hroom' := hroom.next hlt hslot hempty
      by_cases hswap : slot.displacement < incoming.displacement
      · -- the slot is taken, and what was in it is carried on
        rw [if_pos hswap]
        refine .bind_orFail fun next hnext => ?_
        obtain ⟨hnextDist, hnextId, hnextPrint, hnextOcc⟩ := dist_next hdist hnext
        have hltDist : slot.displacement.toNat < d :=
          hdistEq ▸ UInt16.lt_iff_toNat_lt.mp hswap
        have hlen : (slots.set position incoming).length = slots.length := List.length_set
        have hat : RobinHood.AtLeast Slot.dist (slots.set position incoming) position
            slot.displacement.toNat := ⟨incoming, d, hself, hd, hltDist.le⟩
        have hcarried' := hat.carried (hlt.trans_eq hlen.symm)
        rw [hlen, ← nextPosition_eq hlt] at hcarried'
        refine (ih (hordered.set_swap hslot hdist hltDist hd hcarried) hnextDist
          (hnextLt.trans_eq hlen.symm) hcarried' (hroom'.set hslot hempty incoming)).mono
          fun slots' h => ?_
        have hnew := h.adds
        rw [hlen, hnextId, hnextPrint] at hnew
        refine ⟨h.length.trans hlen, h.ordered, fun home idPlusOne f hlies => ?_,
          fun home hposition => h.keeps _ _ _ (hincoming home hposition), ?_, fun hone hall => ?_⟩
        · rcases hlies.set hslot incoming with hlies | ⟨x, hposition, hx, rfl, rfl⟩
          · exact h.keeps home idPlusOne f hlies
          · obtain rfl := Option.some_inj.mp (hdist.symm.trans hx)
            exact hnew home (hstep home _ hposition)
        · have hentry : slot.entry = some slot.idPlusOne.toNat := if_neg hempty
          have hperm := h.used
          rw [hnextId] at hperm
          rw [hentry] at hused
          exact hperm.trans ((List.perm_append_singleton _ _).symm.trans hused)
        · have hslotCanonical := hall slot (List.mem_of_getElem? hslot)
          refine h.canonical ?_ (hwritten hone hall)
          rcases hslotCanonical with rfl | hslotOcc
          · exact absurd rfl hempty
          · exact hnextOcc.trans hslotOcc
      · rw [if_neg hswap]
        refine .bind_orFail fun next hnext => ?_
        obtain ⟨hnextDist, hnextId, hnextPrint, hnextOcc⟩ := dist_next hd hnext
        have hleDist : d ≤ slot.displacement.toNat := by
          rw [hdistEq]
          exact UInt16.le_iff_toNat_le.mp (UInt16.not_lt.mp hswap)
        have hat : RobinHood.AtLeast Slot.dist slots position d :=
          ⟨slot, _, hslot, hdist, hleDist⟩
        have hcarried' := hat.carried hlt
        rw [← nextPosition_eq hlt] at hcarried'
        refine (ih hordered hnextDist hnextLt hcarried' hroom').mono fun slots' h => ?_
        have hnew := h.adds
        rw [hnextId, hnextPrint] at hnew
        have hperm := h.used
        rw [hnextId] at hperm
        exact ⟨h.length, h.ordered, h.keeps, fun home hposition => hnew home (hstep home d hposition),
          hperm, fun hone => h.canonical (hnextOcc.trans hone)⟩

/-- The home of a key. -/
def home (wyhash : WyHash) (length : ℕ) (key : List UInt8) : ℕ :=
  map64 (tableHash wyhash key) length

lemma map64_lt {value range : ℕ} (hvalue : value < 2 ^ 64) (hrange : 0 < range) :
    map64 value range < range := by
  rw [map64, Nat.shiftRight_eq_div_pow]
  exact Nat.div_lt_of_lt_mul (Nat.mul_lt_mul_of_pos_right hvalue hrange)

lemma home_lt {length : ℕ} (hn : 0 < length) (key : List UInt8) :
    home wyhash length key < length := map64_lt (UInt64.toNat_lt _) hn

/-- On the path of a slot that is in order, the search goes on until it finds the id. -/
lemma lookupLoop_of_lies {key : List UInt8} {id : ℕ} {idPlusOne : UInt32}
    (hordered : RobinHood.Ordered Slot.dist table.slots) (hn : 0 < table.slots.length)
    (hne : ∀ s ∈ table.slots, s.occupied ≠ 0 → s.idPlusOne ≠ 0)
    {start d j : ℕ} {s : Slot} (hs : table.slots[(start + d) % table.slots.length]? = some s)
    (hd : s.dist = some d) (hid : s.idPlusOne = idPlusOne) (hidEq : idPlusOne.toNat = id + 1)
    (hprint : s.fingerprint = fingerprint wyhash key) (hj : j ≤ d) {turns : ℕ}
    (hturns : d < turns + j) :
    table.lookupLoop wyhash key (fun id' _ => id' == id) turns ((start + j) % table.slots.length) j =
      some id := by
  induction turns generalizing j with
  | zero => omega
  | succ turns ih =>
      have hat : RobinHood.AtLeast Slot.dist table.slots ((start + d) % table.slots.length) d :=
        ⟨s, d, hs, hd, le_rfl⟩
      obtain ⟨t, d', ht, hd', hle⟩ := hordered.path hn hat hj
      have hlt := Nat.mod_lt (start + j) hn
      have hnext : nextPosition table.slots.length ((start + j) % table.slots.length) =
          (start + (j + 1)) % table.slots.length := by
        rw [nextPosition_eq hlt, Nat.mod_add_mod, Nat.add_assoc]
      rw [Slot.dist, Option.ite_none_left_eq_some] at hd'
      obtain ⟨hocc, hdisp⟩ := hd'
      have hcontinue : ¬ (t.occupied = 0 ∨ t.displacement.toNat < j) := by
        rw [Option.some_inj] at hdisp
        simp only [hocc, false_or]
        omega
      simp only [lookupLoop, ht, Option.bind_eq_bind, Option.bind_some, if_neg hcontinue, hnext]
      have hrest : j < d → table.lookupLoop wyhash key (fun id' _ => id' == id) turns
          ((start + (j + 1)) % table.slots.length) (j + 1) = some id := fun hlt =>
        ih hlt (by omega)
      by_cases hjd : j = d
      · subst hjd
        obtain rfl := Option.some_inj.mp (hs.symm.trans ht)
        have hset := hne s (List.mem_of_getElem? hs) hocc
        rw [if_pos hprint, if_neg hset, hid, hidEq, Nat.add_sub_cancel, beq_self_eq_true, if_pos rfl]
      · split_ifs with hp hzero heq
        · exact absurd hzero (hne t (List.mem_of_getElem? ht) hocc)
        · exact congrArg some (eq_of_beq heq)
        · exact hrest (by omega)
        · exact hrest (by omega)

/-- The slots after some insertions. -/
structure Built (wyhash : WyHash) (n : ℕ) (done : List TableKey) (slots : List Slot) : Prop where
  length : slots.length = n
  ordered : RobinHood.Ordered Slot.dist slots
  lies : ∀ key ∈ done, ∃ idPlusOne : UInt32, idPlusOne.toNat = key.id + 1 ∧
    Lies slots (home wyhash n key.bytes) idPlusOne (fingerprint wyhash key.bytes)
  used : (used slots).Perm (done.map fun key => key.id + 1)
  canonical : ∀ s ∈ slots, s.Canonical

lemma Built.replicate (n : ℕ) : Built wyhash n [] (List.replicate n Slot.empty) where
  length := List.length_replicate
  ordered := RobinHood.ordered_replicate rfl
  lies := fun _ => nofun
  used := by
    have hentry : Slot.empty.entry = none := rfl
    rw [FingerprintTable.used, List.filterMap_replicate_of_none hentry, List.map_nil]
  canonical := fun _ hs => .inl (List.eq_of_mem_replicate hs)

lemma mem_used {s : Slot} (hs : s ∈ slots) (hocc : s.occupied ≠ 0) :
    s.idPlusOne.toNat ∈ used slots := List.mem_filterMap.mpr ⟨s, hs, if_neg hocc⟩

/-- The slots in use have the ids of the keys. -/
lemma Built.ids {n : ℕ} {done : List TableKey} (h : Built wyhash n done slots) {s : Slot}
    (hs : s ∈ slots) (hocc : s.occupied ≠ 0) : ∃ key ∈ done, s.idPlusOne.toNat = key.id + 1 := by
  obtain ⟨key, hkey, hid⟩ := List.mem_map.mp (h.used.subset (mem_used hs hocc))
  exact ⟨key, hkey, hid.symm⟩

/-- While keys are missing, some slot is empty. -/
lemma Built.room {n : ℕ} {done : List TableKey} (h : Built wyhash n done slots)
    (hlt : done.length < n) {position : ℕ} (hposition : position < n) :
    Room slots position slots.length := by
  have hused : (FingerprintTable.used slots).length ≠ slots.length := by
    rw [h.used.length_eq, List.length_map, h.length]
    exact hlt.ne
  have hsome : ¬ ∀ s ∈ slots, s.entry.isSome := fun hall =>
    hused (List.filterMap_length_eq_length.mpr hall)
  simp only [not_forall] at hsome
  obtain ⟨s, hs, hentry⟩ := hsome
  obtain ⟨q, hq, rfl⟩ := List.getElem_of_mem hs
  have hoff : (position + (q + slots.length - position) % slots.length) % slots.length = q := by
    rw [Nat.add_mod_mod, Nat.add_sub_cancel' (by rw [h.length]; omega), Nat.add_mod_right,
      Nat.mod_eq_of_lt hq]
  refine ⟨(q + slots.length - position) % slots.length, Nat.mod_lt _ (Nat.zero_lt_of_lt hq),
    slots[q], ?_, ?_⟩
  · rw [hoff, List.getElem?_eq_getElem hq]
  · by_contra hocc
    exact hentry (by rw [Slot.entry, if_neg hocc]; rfl)

/-- One more key is inserted. -/
lemma Built.insert {n : ℕ} {done : List TableKey} (h : Built wyhash n done slots)
    (hn : done.length < n) (key : TableKey) :
    Returns (FingerprintTable.insert wyhash slots key) (Built wyhash n (done ++ [key])) := by
  refine .bind_orFail fun idPlusOne hid => ?_
  rw [Uint.checkedAdd, Option.ite_none_right_eq_some] at hid
  obtain ⟨hidLt, hid⟩ := hid
  obtain rfl := Option.some_inj.mp hid
  have hlt : home wyhash n key.bytes < n := home_lt (Nat.zero_lt_of_lt hn) _
  have hidNat : (UInt32.ofNat (key.id + 1)).toNat = key.id + 1 := UInt32.toNat_ofNat_of_lt' hidLt
  have hrun := @insertLoop_returns _ _ _ 0 ⟨UInt32.ofNat (key.id + 1), 0,
    fingerprint wyhash key.bytes, 1⟩ h.ordered rfl (hlt.trans_eq h.length.symm) .zero
    (h.room hn hlt)
  rw [← h.length] at hrun ⊢
  refine hrun.mono fun slots' hinserted => ?_
  have hadds := hinserted.adds
  have hused := hinserted.used
  rw [hidNat] at hused
  refine ⟨hinserted.length, hinserted.ordered, fun key' hkey' => ?_, ?_,
    hinserted.canonical rfl h.canonical⟩
  · rcases List.mem_append.mp hkey' with hkey' | hkey'
    · obtain ⟨idPlusOne, hid, hlies⟩ := h.lies key' hkey'
      rw [← h.length] at hlies
      exact ⟨idPlusOne, hid, hinserted.keeps _ _ _ hlies⟩
    · obtain rfl := List.mem_singleton.mp hkey'
      refine ⟨_, hidNat, hadds _ ?_⟩
      rw [← h.length] at hlt
      rw [Nat.add_zero, Nat.mod_eq_of_lt hlt]
  · rw [List.map_append, List.map_singleton]
    exact (hused.trans (h.used.cons _)).trans (List.perm_append_singleton _ _).symm

/-- The table finds its keys, and has no other ids. -/
structure Holds (wyhash : WyHash) (table : FingerprintTable) (keys : List TableKey) : Prop where
  lookup : ∀ key ∈ keys, table.lookup wyhash key.bytes (fun id _ => id == key.id) = some key.id
  ids : ∀ s ∈ table.slots, s.occupied ≠ 0 → ∃ key ∈ keys, s.idPlusOne.toNat = key.id + 1

/-- What `from_bytes` checks of a table, its ids apart. -/
structure Canonical (w : ℕ) (table : FingerprintTable) : Prop where
  load : 1 ≤ table.loadPermille ∧ table.loadPermille < 1000
  keyCount : table.keyCount.toNat = (used table.slots).length
  scaled : table.keyCount.toNat * 1000 < 2 ^ w
  length : table.slots.length = divCeil (table.keyCount.toNat * 1000) table.loadPermille.toNat
  length_lt : table.slots.length < 2 ^ 32
  slots : ∀ s ∈ table.slots, s.Canonical

lemma lt_divCeil {k load : ℕ} (hk : 0 < k) (hload : 0 < load) (hlt : load < 1000) :
    k < divCeil (k * 1000) load := by
  have hle : k * load ≤ k * 999 := Nat.mul_le_mul_left k (Nat.le_of_lt_succ hlt)
  rw [divCeil, Nat.lt_iff_add_one_le, Nat.le_div_iff_mul_le hload, Nat.succ_mul]
  omega

/-- The loop of `build` inserts all the keys. -/
lemma insertAll_returns {n : ℕ} {keys : List TableKey} (hlt : keys.length < n) :
    Returns (keys.foldlM (FingerprintTable.insert wyhash) (List.replicate n Slot.empty))
      (Built wyhash n keys) := by
  have hloop := Returns.foldlM (f := FingerprintTable.insert wyhash) (l := keys)
    (s := List.replicate n Slot.empty)
    (I := fun rest slots => ∃ done, done ++ rest = keys ∧ Built wyhash n done slots)
    ⟨[], rfl, .replicate n⟩ ?_
  · refine hloop.mono fun slots h => ?_
    obtain ⟨done, hdone, hbuilt⟩ := h
    rw [List.append_nil] at hdone
    exact hdone ▸ hbuilt
  · rintro key rest slots ⟨done, hdone, hbuilt⟩
    have hlen := congrArg List.length hdone
    rw [List.length_append, List.length_cons] at hlen
    refine (hbuilt.insert (by omega) key).mono fun slots' hnext => ?_
    exact ⟨done ++ [key], by rw [← hdone, List.append_assoc, List.singleton_append], hnext⟩

/-- `build` ends, and a table that is built holds its keys. -/
theorem build_returns (w : ℕ) (keys : List TableKey) (loadPermille : UInt16) :
    Returns (build w wyhash keys loadPermille) fun table =>
      (keys.map TableKey.bytes).Nodup ∧ Holds wyhash table keys ∧ Canonical w table ∧
        (used table.slots).Perm (keys.map fun key => key.id + 1) := by
  refine .bind_require fun hkeys => .bind_require fun hload => .bind_require fun hcount =>
    .bind_require fun hnodup => .bind_orFail fun scaled hscaled => .bind_require fun hslots => ?_
  rw [Uint.checkedMul, Option.ite_none_right_eq_some] at hscaled
  obtain rfl := Option.some_inj.mp hscaled.2
  have hlt : keys.length < divCeil (keys.length * 1000) loadPermille.toNat :=
    lt_divCeil (List.length_pos_iff.mpr hkeys) (UInt16.le_iff_toNat_le.mp hload.1)
      (UInt16.lt_iff_toNat_lt.mp hload.2)
  refine (insertAll_returns hlt).bind fun slots hbuilt => ?_
  have hkeyCount : (UInt32.ofNat keys.length).toNat = keys.length := UInt32.toNat_ofNat_of_lt' hcount
  have husedLength : (used slots).length = keys.length := by
    rw [hbuilt.used.length_eq, List.length_map]
  refine ⟨hnodup, ⟨fun key hkey => ?_, fun s hs hocc => hbuilt.ids hs hocc⟩,
    ⟨hload, hkeyCount.trans husedLength.symm, ?_, ?_, ?_, hbuilt.canonical⟩, hbuilt.used⟩
  · obtain ⟨idPlusOne, hid, d, s, hs, hd, hsid, hprint⟩ := hbuilt.lies key hkey
    have hne : ∀ s ∈ slots, s.occupied ≠ 0 → s.idPlusOne ≠ 0 := by
      intro s hs hocc hzero
      obtain ⟨key, -, hkey⟩ := hbuilt.ids hs hocc
      rw [hzero] at hkey
      cases hkey
    have hlen : slots.length = divCeil (keys.length * 1000) loadPermille.toNat := hbuilt.length
    have hpos : 0 < slots.length := hlen ▸ Nat.zero_lt_of_lt hlt
    have hdLt : d < 2 ^ 16 := by
      rw [Slot.dist, Option.ite_none_left_eq_some] at hd
      rw [← Option.some_inj.mp hd.2]
      exact UInt16.toNat_lt _
    rw [← hlen] at hs
    have hfound := @lookupLoop_of_lies _ ⟨slots, UInt32.ofNat keys.length, loadPermille⟩ _ _ _
      hbuilt.ordered hpos hne _ _ _ _ hs hd hsid hid hprint (Nat.zero_le d) _ hdLt
    rwa [Nat.add_zero, Nat.mod_eq_of_lt (home_lt hpos _)] at hfound
  · rw [hkeyCount]
    exact hscaled.1
  · rw [hkeyCount]
    exact hbuilt.length
  · exact hbuilt.length.trans_lt hslots

/-- The search asks about ids of the table only. -/
lemma lookup_congr {key : List UInt8} {equals equals' : ℕ → List UInt8 → Bool}
    (h : ∀ s ∈ table.slots, s.occupied ≠ 0 →
      equals (s.idPlusOne.toNat - 1) key = equals' (s.idPlusOne.toNat - 1) key) :
    table.lookup wyhash key equals = table.lookup wyhash key equals' := by
  have hloop : ∀ turns position displacement,
      table.lookupLoop wyhash key equals turns position displacement =
        table.lookupLoop wyhash key equals' turns position displacement := by
    intro turns
    induction turns with
    | zero => exact fun _ _ => rfl
    | succ turns ih =>
        intro position displacement
        cases hs : table.slots[position]? with
        | none => simp only [lookupLoop, hs, Option.bind_eq_bind, Option.bind_none]
        | some s =>
            simp only [lookupLoop, hs, Option.bind_eq_bind, Option.bind_some, ih]
            by_cases hocc : s.occupied = 0
            · simp only [hocc, true_or, if_true]
            · rw [h s (List.mem_of_getElem? hs) hocc]
  exact hloop _ _ _

/-- What the search finds is an id of the table, and it passes the comparison. -/
lemma lookup_eq_some {key : List UInt8} {equals : ℕ → List UInt8 → Bool} {id : ℕ}
    (h : table.lookup wyhash key equals = some id) : equals id key = true ∧
      ∃ s ∈ table.slots, s.occupied ≠ 0 ∧ s.idPlusOne ≠ 0 ∧ s.idPlusOne.toNat - 1 = id := by
  have hloop : ∀ turns position displacement,
      table.lookupLoop wyhash key equals turns position displacement = some id →
      equals id key = true ∧
        ∃ s ∈ table.slots, s.occupied ≠ 0 ∧ s.idPlusOne ≠ 0 ∧ s.idPlusOne.toNat - 1 = id := by
    intro turns
    induction turns with
    | zero => exact fun _ _ => nofun
    | succ turns ih =>
        intro position displacement h
        obtain ⟨s, hs, h⟩ := Option.bind_eq_some_iff.mp h
        split_ifs at h with hstop hprint hzero hequals
        · obtain rfl := Option.some_inj.mp h
          exact ⟨hequals, s, List.mem_of_getElem? hs, fun hocc => hstop (.inl hocc), hzero, rfl⟩
        · exact ih _ _ h
        · exact ih _ _ h
  exact hloop _ _ _ h

/-- The comparison of candidates: an id has the bytes of its keys. -/
def Confirms (keys : List TableKey) (equals : ℕ → List UInt8 → Bool) : Prop :=
  ∀ key ∈ keys, ∀ bytes, equals key.id bytes = true ↔ ∃ key' ∈ keys, key'.id = key.id ∧
    key'.bytes = bytes

/-- With such a comparison the search finds the keys, and nothing else. -/
lemma Holds.lookup_iff {keys : List TableKey} (h : Holds wyhash table keys)
    (hnodup : (keys.map TableKey.bytes).Nodup) {equals : ℕ → List UInt8 → Bool}
    (hequals : Confirms keys equals) {bytes : List UInt8} {id : ℕ} :
    table.lookup wyhash bytes equals = some id ↔ ∃ key ∈ keys, key.id = id ∧ key.bytes = bytes := by
  constructor
  · intro hfound
    obtain ⟨hconfirmed, s, hs, hocc, -, hid⟩ := lookup_eq_some hfound
    obtain ⟨key, hkey, hkeyId⟩ := h.ids s hs hocc
    obtain rfl : key.id = id := by omega
    exact (hequals key hkey bytes).mp hconfirmed
  · rintro ⟨key, hkey, rfl, rfl⟩
    rw [← h.lookup key hkey]
    refine lookup_congr fun s hs hocc => ?_
    obtain ⟨key', hkey', hid⟩ := h.ids s hs hocc
    rw [hid, Nat.add_sub_cancel, Bool.eq_iff_iff, hequals key' hkey', beq_iff_eq]
    constructor
    · rintro ⟨key₂, hkey₂, hid, hsame⟩
      obtain rfl := List.inj_on_of_nodup_map hnodup hkey₂ hkey hsame
      exact hid.symm
    · exact fun hid => ⟨key, hkey, hid.symm, rfl⟩

/-! ### Its image -/

/-- The loop of `from_bytes` gives back the slots that were written. -/
lemma readSlots_eq {vocabSize count : ℕ} {done : List Slot} {ids : Finset ℕ}
    (hslots : ∀ s ∈ slots, s.Canonical)
    (hused : ∀ x ∈ used slots, 0 < x ∧ x - 1 < vocabSize ∧ x - 1 ∉ ids)
    (hnodup : (used slots).Nodup) (hcount : count + (used slots).length < 2 ^ 32) :
    ∃ ids', (slots.map Slot.toBytes).foldlM (readSlot vocabSize) (done, ids, count) =
      ok (done ++ slots, ids', count + (used slots).length) := by
  induction slots generalizing done ids count with
  | nil => exact ⟨ids, by rw [List.append_nil]; rfl⟩
  | cons s slots ih =>
      obtain ⟨hs, hrest⟩ := List.forall_mem_cons.mp hslots
      rw [List.map_cons, List.foldlM_cons, readSlot, Slot.ofBytes_toBytes, Run.ok_bind]
      rcases hs with rfl | hocc
      · have hentry : used (Slot.empty :: slots) = used slots := rfl
        rw [hentry] at hused hnodup hcount ⊢
        obtain ⟨ids', hread⟩ := @ih _ (done ++ [Slot.empty]) _ hrest hused hnodup hcount
        refine ⟨ids', ?_⟩
        rw [List.append_assoc, List.singleton_append] at hread
        rw [if_pos (show Slot.empty.occupied = 0 from rfl), require_of rfl, Run.ok_bind, pure_eq,
          Run.ok_bind]
        exact hread
      · have hne : s.occupied ≠ 0 := by
          rw [hocc]
          decide
        have hentry : used (s :: slots) = s.idPlusOne.toNat :: used slots :=
          List.filterMap_cons_some (if_neg hne)
        rw [hentry] at hused hnodup hcount ⊢
        obtain ⟨⟨hpos, hlt, hnew⟩, hused⟩ := List.forall_mem_cons.mp hused
        obtain ⟨hhead, hnodup⟩ := List.nodup_cons.mp hnodup
        rw [List.length_cons] at hcount ⊢
        have hset : s.idPlusOne ≠ 0 := fun hzero => by
          rw [hzero] at hpos
          exact absurd hpos (Nat.lt_irrefl 0)
        have hfresh : ∀ x ∈ used slots, 0 < x ∧ x - 1 < vocabSize ∧
            x - 1 ∉ Insert.insert (s.idPlusOne.toNat - 1) ids := by
          intro x hx
          obtain ⟨hx0, hxlt, hxids⟩ := hused x hx
          refine ⟨hx0, hxlt, fun hmem => ?_⟩
          rcases Finset.mem_insert.mp hmem with heq | hmem
          · obtain rfl : x = s.idPlusOne.toNat := by omega
            exact hhead hx
          · exact hxids hmem
        obtain ⟨ids', hread⟩ := @ih (count + 1) (done ++ [s]) _ hrest hfresh hnodup
          (by omega)
        refine ⟨ids', ?_⟩
        rw [List.append_assoc, List.singleton_append, Nat.add_assoc, Nat.add_comm 1] at hread
        rw [if_neg hne, if_pos hocc, require_of hset, Run.ok_bind]
        simp only [require_of hlt, require_of hnew, Run.ok_bind,
          add_of_lt (show count + 1 < 2 ^ 32 by omega), pure_eq]
        exact hread

/-- `from_bytes` gives back a table that was written, if its ids are all different and below the
bound. -/
theorem fromBytes_toBytes (h : Canonical w table) {vocabSize : ℕ}
    (hused : ∀ x ∈ used table.slots, 0 < x ∧ x - 1 < vocabSize) (hnodup : (used table.slots).Nodup)
    (hw : 16 + table.slots.length * 8 < 2 ^ (w - 1)) {ε : Type} :
    ∃ bytes, (table.toBytes w : Run ε (List UInt8)) = ok bytes ∧
      fromBytes w bytes vocabSize = ok table := by
  set parts := [magic, leBytes 2 1, leBytes 2 table.loadPermille.toNat,
    leBytes 4 table.keyCount.toNat, leBytes 4 table.slots.length,
    (table.slots.map Slot.toBytes).flatten] with hparts
  refine ⟨parts.flatten, ?_, ?_⟩
  · rw [toBytes, if_pos hw, if_pos h.length_lt]
    rfl
  have hlength : parts.flatten.length = table.slots.length * 8 + 16 := by
    have hslots : (table.slots.map Slot.toBytes).flatten.length = table.slots.length * 8 := by
      rw [List.length_flatten, List.map_map, List.map_eq_replicate_iff.mpr fun s _ => s.length_toBytes,
        List.sum_replicate, smul_eq_mul]
    rw [hparts]
    simp only [List.flatten_cons, List.flatten_nil, List.append_nil, List.length_append, hslots,
      length_leBytes, magic, List.length_cons, List.length_nil]
    omega
  have hmagic : getRange parts.flatten 0 4 = some magic :=
    getRange_flatten (i := 0) rfl rfl rfl
  have hversion : getRange parts.flatten 4 6 = some (leBytes 2 1) :=
    getRange_flatten (i := 1) rfl rfl rfl
  have hload : getRange parts.flatten 6 8 = some (leBytes 2 table.loadPermille.toNat) :=
    getRange_flatten (i := 2) rfl rfl rfl
  have hcount : getRange parts.flatten 8 12 = some (leBytes 4 table.keyCount.toNat) :=
    getRange_flatten (i := 3) rfl rfl rfl
  have hslots : getRange parts.flatten 12 16 = some (leBytes 4 table.slots.length) :=
    getRange_flatten (i := 4) rfl rfl rfl
  have hraw : getFrom parts.flatten 16 = some (table.slots.map Slot.toBytes).flatten :=
    getFrom_flatten (l := [magic, leBytes 2 1, leBytes 2 table.loadPermille.toNat,
      leBytes 4 table.keyCount.toNat, leBytes 4 table.slots.length]) rfl _
  have hchunks : chunksExact 8 (table.slots.map Slot.toBytes).flatten =
      table.slots.map Slot.toBytes :=
    chunksExact_flatten (by decide) (by simp)
  have hpow : 2 ^ (w - 1) ≤ 2 ^ w := Nat.pow_le_pow_right Nat.two_pos (Nat.sub_le w 1)
  have hcountEq := h.keyCount
  have hscaled := h.scaled
  have hkeyCount : table.keyCount.toNat < 2 ^ 32 := UInt32.toNat_lt _
  obtain ⟨ids, hread⟩ := @readSlots_eq _ vocabSize 0 [] ∅
    h.slots (fun x hx => ⟨(hused x hx).1, (hused x hx).2, Finset.notMem_empty _⟩) hnodup
    (by omega)
  have hlen : 16 ≤ parts.flatten.length := hlength ▸ Nat.le_add_left _ _
  simp only [fromBytes, hmagic, hversion, hload, hcount, hslots, hraw, hchunks, expect_some,
    Run.ok_bind, leNat_leBytes (show table.keyCount.toNat < 256 ^ 4 from hkeyCount),
    leNat_leBytes (show table.loadPermille.toNat < 256 ^ 2 from UInt16.toNat_lt _),
    leNat_leBytes (show table.slots.length < 256 ^ 4 from h.length_lt),
    leNat_leBytes (show 1 < 256 ^ 2 by decide), UInt32.ofNat_toNat, UInt16.ofNat_toNat,
    require_of hlen, require_of h.load, require_of (show table.slots.length < 2 ^ w by omega),
    Uint.checkedMul, Uint.checkedAdd, if_pos (show table.slots.length * 8 < 2 ^ w by omega),
    if_pos (show table.slots.length * 8 + 16 < 2 ^ w by omega), Option.bind_some, orFail_some,
    require_of hlength, require_of (show table.keyCount.toNat < 2 ^ w by omega),
    if_pos h.scaled, require_of h.length, hread, List.nil_append, Nat.zero_add, ← h.keyCount,
    require_of, pure_eq]

/-- The loop of `from_bytes` has read canonical slots, and has met their ids. -/
structure Read (vocabSize : ℕ) (st : List Slot × Finset ℕ × ℕ) : Prop where
  slots : ∀ s ∈ st.1, s.Canonical
  ids : ∀ id, id ∈ st.2.1 ↔ id + 1 ∈ used st.1
  range : ∀ x ∈ used st.1, 0 < x ∧ x < 2 ^ 32 ∧ x - 1 < vocabSize
  nodup : (used st.1).Nodup
  count : st.2.2 = (used st.1).length

/-- There are fewer different ids than a `u32` counts. -/
lemma Read.count_lt {vocabSize : ℕ} {st : List Slot × Finset ℕ × ℕ} (h : Read vocabSize st) {x : ℕ}
    (hx : x ∉ used st.1) (hpos : 0 < x) (hlt : x < 2 ^ 32) : st.2.2 + 1 < 2 ^ 32 := by
  have hsub : (x :: used st.1).toFinset ⊆ Finset.Ioo 0 (2 ^ 32) := by
    intro y hy
    rw [List.mem_toFinset, List.mem_cons] at hy
    rw [Finset.mem_Ioo]
    rcases hy with rfl | hy
    · exact ⟨hpos, hlt⟩
    · exact ⟨(h.range y hy).1, (h.range y hy).2.1⟩
  have hcard := Finset.card_le_card hsub
  rw [List.toFinset_card_of_nodup (List.nodup_cons.mpr ⟨hx, h.nodup⟩), List.length_cons,
    Nat.card_Ioo, ← h.count] at hcard
  omega

lemma Slot.ofBytes_of_length {ε : Type} {raw : List UInt8} (h : raw.length = 8) :
    ∃ s, (Slot.ofBytes raw : Run ε Slot) = ok s := by
  rw [Slot.ofBytes, getRange_of_le (by omega) (by omega), getRange_of_le (by omega) (by omega),
    List.getElem?_eq_getElem (show 6 < raw.length by omega),
    List.getElem?_eq_getElem (show 7 < raw.length by omega)]
  exact ⟨_, rfl⟩

lemma Read.step {vocabSize : ℕ} {st : List Slot × Finset ℕ × ℕ} {raw : List UInt8}
    (h : Read vocabSize st) (hraw : raw.length = 8) :
    Returns (readSlot vocabSize st raw) fun st' =>
      st'.1.length = st.1.length + 1 ∧ Read vocabSize st' := by
  obtain ⟨s, hs⟩ := Slot.ofBytes_of_length (ε := TableImageError) hraw
  rw [readSlot, hs, Run.ok_bind]
  have happend : used (st.1 ++ [s]) = used st.1 ++ s.entry.toList := by
    rw [used, List.filterMap_append]
    cases hentry : s.entry with
    | none => rw [List.filterMap_cons_none hentry]; rfl
    | some x => rw [List.filterMap_cons_some hentry]; rfl
  have hslots : s.Canonical → ∀ t ∈ st.1 ++ [s], t.Canonical := by
    intro hs t ht
    rcases List.mem_append.mp ht with ht | ht
    · exact h.slots t ht
    · exact List.mem_singleton.mp ht ▸ hs
  split_ifs with hempty hocc
  · refine .bind_require fun hs => ?_
    have hentry : s.entry = none := if_pos hempty
    rw [hentry, Option.toList_none, List.append_nil] at happend
    refine ⟨List.length_append, hslots (.inl hs), ?_, ?_, ?_, ?_⟩ <;> simp only [happend]
    · exact h.ids
    · exact h.range
    · exact h.nodup
    · exact h.count
  · refine .bind_require fun hset => .bind_require fun hid => .bind_require fun hnew => ?_
    have hentry : s.entry = some s.idPlusOne.toNat := if_neg hempty
    have hpos : 0 < s.idPlusOne.toNat := by
      refine Nat.pos_of_ne_zero fun hzero => hset ?_
      exact UInt32.toNat_inj.mp hzero
    have hfresh : s.idPlusOne.toNat ∉ used st.1 := by
      rwa [h.ids, Nat.sub_add_cancel hpos] at hnew
    refine .bind_add (h.count_lt hfresh hpos (UInt32.toNat_lt _)) ?_
    rw [hentry, Option.toList_some] at happend
    refine ⟨List.length_append, hslots (.inr hocc), fun id => ?_, ?_, ?_, ?_⟩ <;>
      simp only [happend]
    · have hsucc : id = s.idPlusOne.toNat - 1 ↔ id + 1 = s.idPlusOne.toNat := by omega
      rw [Finset.mem_insert, List.mem_append, List.mem_singleton, h.ids, hsucc, or_comm]
    · intro x hx
      rcases List.mem_append.mp hx with hx | hx
      · exact h.range x hx
      · rw [List.mem_singleton.mp hx]
        exact ⟨hpos, UInt32.toNat_lt _, hid⟩
    · exact List.nodup_append.mpr ⟨h.nodup, List.nodup_singleton _, fun x hx y hy heq =>
        hfresh (List.mem_singleton.mp hy ▸ heq ▸ hx)⟩
    · rw [List.length_append, List.length_singleton, h.count]
  · exact .fail _

/-- `from_bytes` does not panic, and the ids of a table that it accepts are all different and
below the bound. -/
theorem fromBytes_returns (w : ℕ) (bytes : List UInt8) (vocabSize : ℕ) :
    Returns (fromBytes w bytes vocabSize) fun table =>
      Canonical w table ∧ (used table.slots).Nodup ∧
        ∀ x ∈ used table.slots, 0 < x ∧ x - 1 < vocabSize := by
  refine .bind_require fun hlen => ?_
  rw [getRange_of_le (by decide) (by omega), expect_some, Run.ok_bind]
  refine .bind_require fun _ => ?_
  rw [getRange_of_le (by decide) (by omega), expect_some, Run.ok_bind]
  refine .bind_require fun _ => ?_
  rw [getRange_of_le (by decide) (by omega), expect_some, Run.ok_bind]
  refine .bind_require fun hload => ?_
  rw [getRange_of_le (by decide) (by omega), expect_some, Run.ok_bind,
    getRange_of_le (by decide) (by omega), expect_some, Run.ok_bind]
  set keyCount := leNat ((bytes.take 12).drop 8) with hkeyCount
  set slotCount := leNat ((bytes.take 16).drop 12) with hslotCount
  refine .bind_require fun _ => .bind_orFail fun expectedLength hexpected => .bind_require
    fun hlength => .bind_require fun _ => .bind_orFail fun scaled hscaled => .bind_require
    fun hcanonical => ?_
  obtain ⟨size, hsize, hexpected⟩ := Option.bind_eq_some_iff.mp hexpected
  rw [Uint.checkedMul, Option.ite_none_right_eq_some] at hsize hscaled
  rw [Uint.checkedAdd, Option.ite_none_right_eq_some] at hexpected
  obtain rfl := Option.some_inj.mp hsize.2
  obtain rfl := Option.some_inj.mp hscaled.2
  obtain rfl := Option.some_inj.mp hexpected.2
  have hlt : ∀ {start : ℕ}, start + 4 ≤ bytes.length →
      leNat ((bytes.take (start + 4)).drop start) < 2 ^ 32 := by
    intro start hle
    have hbound := leNat_lt ((bytes.take (start + 4)).drop start)
    rw [List.length_drop, List.length_take, Nat.min_eq_left hle, Nat.add_sub_cancel_left] at hbound
    exact hbound
  have hkeyNat : (UInt32.ofNat keyCount).toNat = keyCount :=
    UInt32.toNat_ofNat_of_lt' (hlt (by omega))
  rw [getFrom_of_le hlen, expect_some, Run.ok_bind]
  have hchunks : (chunksExact 8 (bytes.drop 16)).length = slotCount := by
    rw [length_chunksExact, List.length_drop, hlength, Nat.add_sub_cancel,
      Nat.mul_div_cancel _ (by decide)]
  have hread := Returns.foldlM (f := readSlot vocabSize) (l := chunksExact 8 (bytes.drop 16))
    (s := ([], ∅, 0)) (I := fun rest st => (∀ raw ∈ rest, raw.length = 8) ∧
      st.1.length + rest.length = slotCount ∧ Read vocabSize st) ⟨?_, ?_, ?_⟩ ?_
  · refine hread.bind fun st hst => .bind_require fun hcount => ?_
    obtain ⟨-, hslots, hst⟩ := hst
    rw [List.length_nil, Nat.add_zero] at hslots
    refine ⟨⟨hload, ?_, ?_, ?_, ?_, hst.slots⟩, hst.nodup, fun x hx => ?_⟩
    · rw [hkeyNat, ← hcount]
      exact hst.count
    · rw [hkeyNat]
      exact hscaled.1
    · rw [hkeyNat]
      exact hslots.trans hcanonical
    · exact hslots.trans_lt (hlt (by omega))
    · exact ⟨(hst.range x hx).1, (hst.range x hx).2.2⟩
  · exact fun raw hraw => length_of_mem_chunksExact hraw
  · rw [List.length_nil, Nat.zero_add]
    exact hchunks
  · exact ⟨fun _ => nofun, fun id => by simp [used], by simp [used], List.nodup_nil, rfl⟩
  · rintro raw rest st ⟨hraw, hslots, hst⟩
    obtain ⟨hhead, hrest⟩ := List.forall_mem_cons.mp hraw
    rw [List.length_cons] at hslots
    exact (hst.step hhead).mono fun st' h => ⟨hrest, by omega, h.2⟩

/-- A table that was accepted, and that finds as many keys as it has, holds the keys. -/
theorem holds_of_lookup {keys : List TableKey} (h : Canonical w table)
    (hcount : table.keyCount.toNat = keys.length)
    (hids : (keys.map TableKey.id).Nodup)
    (hlookup : ∀ key ∈ keys,
      table.lookup wyhash key.bytes (fun id _ => id == key.id) = some key.id) :
    Holds wyhash table keys := by
  refine ⟨hlookup, fun s hs hocc => ?_⟩
  have hsub : (keys.map fun key => key.id + 1) ⊆ used table.slots := by
    intro x hx
    obtain ⟨key, hkey, rfl⟩ := List.mem_map.mp hx
    obtain ⟨-, s, hs, hocc, hset, hid⟩ := lookup_eq_some (hlookup key hkey)
    have hpos : 0 < s.idPlusOne.toNat :=
      Nat.pos_of_ne_zero fun hzero => hset (UInt32.toNat_inj.mp hzero)
    rw [← hid, Nat.sub_add_cancel hpos]
    exact mem_used hs hocc
  have hnodup : (keys.map fun key => key.id + 1).Nodup := by
    have hmap := hids.map Nat.succ_injective
    rwa [List.map_map] at hmap
  have hperm : (keys.map fun key => key.id + 1).Perm (used table.slots) := by
    refine (hnodup.subperm hsub).perm_of_length_le ?_
    rw [List.length_map, ← hcount, h.keyCount]
  obtain ⟨key, hkey, hid⟩ := List.mem_map.mp (hperm.symm.subset (mem_used hs hocc))
  exact ⟨key, hkey, hid.symm⟩

/-- `build` ends; a table that it gives finds its keys and nothing else; and the image of the
table gives the table back. -/
theorem build_correct (w : ℕ) (wyhash : WyHash) (keys : List TableKey) (loadPermille : UInt16) :
    build w wyhash keys loadPermille ≠ stuck ∧
      ∀ table, build w wyhash keys loadPermille = ok table →
        (∀ equals, Confirms keys equals →
          (∀ key ∈ keys, table.lookup wyhash key.bytes equals = some key.id) ∧
            ∀ bytes, bytes ∉ keys.map TableKey.bytes → table.lookup wyhash bytes equals = none) ∧
        ∀ vocabSize, (keys.map TableKey.id).Nodup → (∀ key ∈ keys, key.id < vocabSize) →
          16 + table.slots.length * 8 < 2 ^ (w - 1) →
            ∃ bytes, (table.toBytes w : Run TableImageError (List UInt8)) = ok bytes ∧
              fromBytes w bytes vocabSize = ok table := by
  have hbuild := @build_returns wyhash w keys loadPermille
  refine ⟨hbuild.ne_stuck, fun table htable => ?_⟩
  obtain ⟨hnodup, hholds, hcanonical, hused⟩ := hbuild.of_eq htable
  refine ⟨fun equals hequals => ⟨fun key hkey => ?_, fun bytes hbytes => ?_⟩,
    fun vocabSize hids hrange hw => ?_⟩
  · exact (hholds.lookup_iff hnodup hequals).mpr ⟨key, hkey, rfl, rfl⟩
  · refine Option.eq_none_iff_forall_ne_some.mpr fun id hfound => ?_
    obtain ⟨key, hkey, -, rfl⟩ := (hholds.lookup_iff hnodup hequals).mp hfound
    exact hbytes (List.mem_map_of_mem hkey)
  · have hmap : (keys.map fun key => key.id + 1).Nodup := by
      have hsucc := hids.map Nat.succ_injective
      rwa [List.map_map] at hsucc
    refine fromBytes_toBytes hcanonical (fun x hx => ?_) (hused.nodup_iff.mpr hmap) hw
    obtain ⟨key, hkey, rfl⟩ := List.mem_map.mp (hused.subset hx)
    exact ⟨Nat.succ_pos _, hrange key hkey⟩

/-- Two keys with the same hash. -/
def collidingKeys : List TableKey := [⟨0, [97]⟩, ⟨1, [98]⟩]

/-- What the ids of `collidingKeys` spell. -/
def collidingEquals (id : ℕ) (key : List UInt8) : Bool := [[97], [98]][id]? = some key

lemma confirms_collidingKeys : Confirms collidingKeys collidingEquals := by
  intro key hkey bytes
  rcases List.mem_cons.mp hkey with rfl | hkey
  · simp [collidingEquals, collidingKeys]
  · obtain rfl := List.mem_singleton.mp hkey
    simp [collidingEquals, collidingKeys]

/-- The table of the keys that collide. -/
theorem build_correct_collidingKeys :
    ∃ table, build 64 (fun _ _ _ => 0) collidingKeys 999 = ok table ∧
      table.lookup (fun _ _ _ => 0) [98] collidingEquals = some 1 ∧
      table.lookup (fun _ _ _ => 0) [99] collidingEquals = none ∧
      ∃ bytes, (table.toBytes 64 : Run TableImageError (List UInt8)) = ok bytes ∧
        fromBytes 64 bytes 2 = ok table := by
  have hbuild : build 64 (fun _ _ _ => 0) collidingKeys 999 =
      ok ⟨[⟨1, 0, 0, 1⟩, ⟨2, 1, 0, 1⟩, ⟨0, 0, 0, 0⟩], 2, 999⟩ := rfl
  obtain ⟨hlookup, himage⟩ := (build_correct 64 (fun _ _ _ => 0) collidingKeys 999).2 _ hbuild
  obtain ⟨hkeys, hnone⟩ := hlookup collidingEquals confirms_collidingKeys
  exact ⟨_, hbuild, hkeys ⟨1, [98]⟩ (.tail _ (.head _)), hnone [99] (by decide),
    himage 2 (by decide) (by decide) (by decide)⟩

end FingerprintTable

end Hypertok
