import Mathlib.Tactic

/-!
The decode memo: outputs under the identity of the container that was decoded, each with a snapshot
of the contents it is for.

* `Holds`: the invariant. Every record has the output of its snapshot, a container leads to a record
  in a slot only, and the counters are the sums over the slots in use.
* `Holds.removeRecord`, `Holds.update`, `Holds.insertRecord`: what happens to the records.
* `reached_decode`: in every run a call returns what the decoder returns, and the accounting is that
  of the slots.
-/

namespace Hypertok

/-! ### Containers -/

/-- An element of a container: a number that is an unsigned integer of 32 bits, where minus zero is
zero, or any other value. -/
inductive JsValue
  | u32 (n : UInt32)
  | other (tag : ℕ)
  deriving DecidableEq

/-- What `getOwnPropertyDescriptor` says of an index. -/
structure Descriptor where
  accessor : Bool
  enumerable : Bool
  configurable : Bool
  writable : Bool
  deriving DecidableEq

/-- An index of an array: its own property, if it has one, and the value that it reads as. -/
structure Element where
  own : Option Descriptor
  value : JsValue

/-- A container of ids: a `Uint32Array` that is not shared, an array under the prototype of arrays,
or any other object. -/
inductive Container
  | uint32Array (ids : List UInt32)
  | array (lengthWritable : Bool) (elements : List Element)
  | other (values : List JsValue)

namespace Container

/-- The values that the indices of the container read as. -/
def contents : Container → List JsValue
  | uint32Array ids => ids.map .u32
  | array _ elements => elements.map Element.value
  | other values => values

/-- `nonSharedUint32Array`. -/
def nonSharedUint32Array : Container → Bool
  | uint32Array _ => true
  | _ => false

/-- `memoContainer`. -/
def memoContainer : Container → Bool
  | array .. => true
  | c => c.nonSharedUint32Array

/-- `plainDenseArray`: the length and all indices are plain data properties. -/
def plainDenseArray : Container → Bool
  | array lengthWritable elements =>
      lengthWritable && elements.all fun e => e.own == some ⟨false, true, true, true⟩
  | _ => false

/-- The loop of `snapshot`. -/
def snapshotIds : List JsValue → Option (List UInt32)
  | [] => some []
  | .u32 n :: values => (snapshotIds values).map (n :: ·)
  | .other _ :: _ => none

/-- `snapshot`. -/
def snapshot (c : Container) (maxIds : ℕ) : Option (List UInt32) :=
  if c.contents.length = 0 ∨ c.contents.length > maxIds then none
  else if !c.nonSharedUint32Array && !c.plainDenseArray then none
  else snapshotIds c.contents

/-- `sameContents`, for a container that `memoContainer` takes. -/
def sameContents (c : Container) (expected : List UInt32) : Bool :=
  c.contents == expected.map JsValue.u32

lemma eq_map_of_snapshotIds {values : List JsValue} {ids : List UInt32}
    (h : snapshotIds values = some ids) : values = ids.map .u32 := by
  induction values generalizing ids with
  | nil =>
      cases h
      rfl
  | cons v values ih =>
      cases v with
      | u32 n =>
          obtain ⟨ids, hids, rfl⟩ := Option.map_eq_some_iff.mp h
          rw [ih hids, List.map_cons]
      | other tag => cases h

lemma contents_of_snapshot {c : Container} {maxIds : ℕ} {ids : List UInt32}
    (h : c.snapshot maxIds = some ids) : c.contents = ids.map .u32 := by
  rw [snapshot] at h
  split_ifs at h
  exact eq_map_of_snapshotIds h

end Container

/-! ### The memo -/

/-- The options of `createDecodeMemo`, which `positiveInteger` has checked. -/
structure MemoLimits where
  maxEntries : ℕ
  maxIds : ℕ
  maxOutputCodeUnits : ℕ
  maxEntries_pos : 0 < maxEntries
  maxIds_pos : 0 < maxIds
  maxOutputCodeUnits_pos : 0 < maxOutputCodeUnits

/-- `PROBE_ENTRIES`. -/
def probeEntries : ℕ := 8

/-- A record; its key is held weakly. -/
structure MemoRecord (β : Type) where
  key : ℕ
  snapshot : List UInt32
  output : β

/-- What the weak map has for a container: `PENDING`, `UNCACHEABLE` or a record. -/
inductive MemoEntry
  | pending
  | uncacheable
  | stored (record : ℕ)
  deriving DecidableEq

/-- The variables of `createDecodeMemo`. Containers are numbers, and records are positions in the
heap of all records made so far. -/
structure Memo (β : Type) where
  heap : List (MemoRecord β)
  records : ℕ → Option MemoEntry
  slots : List (Option ℕ)
  nextSlot : ℕ
  entries : ℤ
  snapshotBytes : ℤ
  outputCodeUnits : ℤ
  hits : ℕ
  misses : ℕ
  mismatches : ℕ
  uncacheable : ℕ
  evictions : ℕ
  tracking : Bool
  probes : List ℕ
  observedContainers : List ℕ
  observedContainerCount : ℕ
  capacityBypassed : Bool

namespace Memo

/-- What a memo is made with: its limits, the decoder, which may throw, and the length of an output
that is a string. -/
structure Setting (ε β : Type) where
  limits : MemoLimits
  decoder : List JsValue → Except ε β
  units : β → Option ℕ

variable {ε β : Type}

/-- The variables at first. -/
def new (S : Setting ε β) : Memo β where
  heap := []
  records _ := none
  slots := List.replicate S.limits.maxEntries none
  nextSlot := 0
  entries := 0
  snapshotBytes := 0
  outputCodeUnits := 0
  hits := 0
  misses := 0
  mismatches := 0
  uncacheable := 0
  evictions := 0
  tracking := false
  probes := []
  observedContainers := []
  observedContainerCount := 0
  capacityBypassed := false

/-- `records.set`. -/
def setEntry (m : Memo β) (key : ℕ) (e : Option MemoEntry) : Memo β :=
  { m with records := Function.update m.records key e }

lemma setEntry_records (m : Memo β) (key : ℕ) (e : Option MemoEntry) :
    (m.setEntry key e).records = Function.update m.records key e := rfl

/-- `snapshot.byteLength`. -/
def byteLength (record : MemoRecord β) : ℤ := 4 * record.snapshot.length

/-- `output.length`. -/
def outputLength (S : Setting ε β) (record : MemoRecord β) : ℤ := ((S.units record.output).getD 0 : ℕ)

/-- `removeRecord`; `deref` of the key gives nothing when the container is collected. -/
def removeRecord (S : Setting ε β) (alive : ℕ → Bool) (m : Memo β) (r : ℕ) : Option (Memo β) := do
  let record ← m.heap[r]?
  let found := alive record.key && m.records record.key == some (.stored r)
  let m := if found then m.setEntry record.key none else m
  some { m with
    snapshotBytes := m.snapshotBytes - byteLength record
    outputCodeUnits := m.outputCodeUnits - outputLength S record
    entries := m.entries - 1 }

/-- The loop of `bypassCapacity`. -/
def removeAll (S : Setting ε β) (alive : ℕ → Bool) : List (Option ℕ) → Memo β → Option (Memo β)
  | [], m => some m
  | none :: slots, m => removeAll S alive slots m
  | some r :: slots, m => do removeAll S alive slots (← m.removeRecord S alive r)

/-- `bypassCapacity`. -/
def bypassCapacity (S : Setting ε β) (alive : ℕ → Bool) (m : Memo β) : Option (Memo β) := do
  let m ← removeAll S alive m.slots m
  some { m with
    slots := List.replicate m.slots.length none
    nextSlot := 0
    capacityBypassed := true }

/-- The container is marked as `UNCACHEABLE`. -/
def refuse (m : Memo β) (key : ℕ) : Memo β :=
  { m with uncacheable := m.uncacheable + 1 }.setEntry key (some .uncacheable)

/-- A record that exists gets a new snapshot and output. -/
def update (S : Setting ε β) (m : Memo β) (r : ℕ) (snapshot : List UInt32) (output : β) :
    Option (Memo β) := do
  let existing ← m.heap[r]?
  let record := { existing with snapshot, output }
  some { m with
    heap := m.heap.set r record
    snapshotBytes := m.snapshotBytes + (byteLength record - byteLength existing)
    outputCodeUnits := m.outputCodeUnits + (outputLength S record - outputLength S existing) }

/-- The record in the next slot is removed. -/
def displace (S : Setting ε β) (alive : ℕ → Bool) (m : Memo β) : Option (Memo β) :=
  match m.slots[m.nextSlot]?.join with
  | none => some m
  | some r => do
      let m ← m.removeRecord S alive r
      some { m with evictions := m.evictions + 1 }

/-- A new record goes to the next slot. -/
def insertRecord (S : Setting ε β) (alive : ℕ → Bool) (m : Memo β) (record : MemoRecord β) :
    Option (Memo β) := do
  let m ← m.displace S alive
  some { m with
    heap := m.heap ++ [record]
    slots := m.slots.set m.nextSlot (some m.heap.length)
    nextSlot := (m.nextSlot + 1) % S.limits.maxEntries
    records := Function.update m.records record.key (some (.stored m.heap.length))
    snapshotBytes := m.snapshotBytes + byteLength record
    outputCodeUnits := m.outputCodeUnits + outputLength S record
    entries := m.entries + 1 }

/-- The output is a string that is not too long. -/
def shortString (S : Setting ε β) (output : β) : Bool :=
  (S.units output).any (· ≤ S.limits.maxOutputCodeUnits)

/-- `store`, past its checks. -/
def storeSnapshot (S : Setting ε β) (alive : ℕ → Bool) (m : Memo β) (key : ℕ)
    (snapshot : List UInt32) (output : β) : Option (Memo β) :=
  match m.records key with
  | some (.stored r) => m.update S r snapshot output
  | _ => m.insertRecord S alive ⟨key, snapshot, output⟩

/-- `store`: whether the output is stored. -/
def store (S : Setting ε β) (alive : ℕ → Bool) (m : Memo β) (key : ℕ) (input : Container)
    (output : β) : Option (Memo β × Bool) :=
  if !shortString S output then some (m.refuse key, false)
  else
    match input.snapshot S.limits.maxIds with
    | none => some (m.refuse key, false)
    | some snapshot => (m.storeSnapshot S alive key snapshot output).map (·, true)

/-- The length of the input is within the limits. -/
def fitsIds (S : Setting ε β) (input : Container) : Bool :=
  0 < input.contents.length && input.contents.length ≤ S.limits.maxIds

/-- `prime`. -/
def prime (S : Setting ε β) (m : Memo β) (key : ℕ) (input : Container) (output : β) : Memo β :=
  if !shortString S output || !fitsIds S input then m.refuse key else m.setEntry key (some .pending)

/-- `decode` before two probes of one container have been seen, once the decoder has returned. -/
def probe (S : Setting ε β) (alive : ℕ → Bool) (m : Memo β) (key : ℕ) (input : Container)
    (output : β) : Option (Memo β) :=
  if m.probes.contains key then do
    let (m, tracking) ← m.store S alive key input output
    let m := { m with tracking, probes := [] }
    some (if tracking then
      { m with observedContainers := key :: m.observedContainers, observedContainerCount := 1 }
      else m)
  else if m.probes.length < probeEntries && input.memoContainer && shortString S output &&
      fitsIds S input then
    some { m with probes := m.probes ++ [key] }
  else some m

/-- `decode` on a miss, once the decoder has returned. -/
def learn (S : Setting ε β) (alive : ℕ → Bool) (m : Memo β) (key : ℕ) (input : Container)
    (record : Option MemoEntry) (output : β) : Option (Memo β) :=
  match record with
  | some .uncacheable => some { m with uncacheable := m.uncacheable + 1 }
  | none =>
      if input.memoContainer then some (m.prime S key input output)
      else (m.store S alive key input output).map Prod.fst
  | some _ => (m.store S alive key input output).map Prod.fst

/-- A call of the decoder, and what follows when it returns. -/
def callDecoder (S : Setting ε β) (m : Memo β) (input : Container)
    (next : Memo β → β → Option (Memo β)) : Option (Memo β × Except ε β) :=
  let m := { m with misses := m.misses + 1 }
  match S.decoder input.contents with
  | .error e => some (m, .error e)
  | .ok output => (next m output).map (·, .ok output)

/-- The container is counted among those that were seen. -/
def observe (m : Memo β) (key : ℕ) : Memo β :=
  { m with
    observedContainers := key :: m.observedContainers
    observedContainerCount := m.observedContainerCount + 1 }

/-- `decode` from the lookup on. -/
def lookup (S : Setting ε β) (alive : ℕ → Bool) (m : Memo β) (key : ℕ) (input : Container) :
    Option (Memo β × Except ε β) :=
  match if input.memoContainer then m.records key else none with
  | some (.stored r) => do
      let record ← m.heap[r]?
      if input.sameContents record.snapshot then
        some ({ m with hits := m.hits + 1 }, .ok record.output)
      else
        callDecoder S { m with mismatches := m.mismatches + 1 } input fun m =>
          m.learn S alive key input (some (.stored r))
  | entry => m.callDecoder S input fun m => m.learn S alive key input entry

/-- `decode` of a container, given what it is like at the time of the call. -/
def decode (S : Setting ε β) (alive : ℕ → Bool) (m : Memo β) (key : ℕ) (input : Container) :
    Option (Memo β × Except ε β) :=
  if !m.tracking then m.callDecoder S input fun m => m.probe S alive key input
  else if m.capacityBypassed then m.callDecoder S input fun m _ => some m
  else if input.memoContainer && !m.observedContainers.contains key then
    if (m.observe key).observedContainerCount > S.limits.maxEntries then do
      let m ← (m.observe key).bypassCapacity S alive
      m.callDecoder S input fun m _ => some m
    else (m.observe key).lookup S alive key input
  else m.lookup S alive key input

/-! ### The invariant -/

/-- A quantity of a record in the heap. -/
def measure (m : Memo β) (f : MemoRecord β → ℤ) (r : ℕ) : ℤ := (m.heap[r]?.map f).getD 0

/-- The records of `live` are those in slots. Every record has the output of its snapshot, the weak
map leads to a live record under its own key, and the counters are sums over `live`. -/
structure Holds (S : Setting ε β) (alive : ℕ → Bool) (m : Memo β) (live : List ℕ) : Prop where
  nodup : live.Nodup
  allocated : ∀ r ∈ live, r < m.heap.length
  sound : ∀ record ∈ m.heap, S.decoder (record.snapshot.map .u32) = .ok record.output
  stored : ∀ key r, m.records key = some (.stored r) →
    r ∈ live ∧ ∃ record, m.heap[r]? = some record ∧ record.key = key
  dead : ∀ key, alive key = false → m.records key = none
  entries : m.entries = live.length
  snapshotBytes : m.snapshotBytes = (live.map (m.measure byteLength)).sum
  outputCodeUnits : m.outputCodeUnits = (live.map (m.measure (outputLength S))).sum

/-- The records in the slots. -/
def live (slots : List (Option ℕ)) : List ℕ := slots.filterMap id

/-- The invariant of the memo. -/
structure Valid (S : Setting ε β) (alive : ℕ → Bool) (m : Memo β) : Prop where
  holds : Holds S alive m (live m.slots)
  length : m.slots.length = S.limits.maxEntries
  nextSlot : m.nextSlot < S.limits.maxEntries

variable {S : Setting ε β} {alive : ℕ → Bool} {m : Memo β} {l l' : List ℕ} {r key : ℕ}

namespace Holds

lemma perm (h : Holds S alive m l) (hl : l.Perm l') : Holds S alive m l' where
  nodup := hl.nodup h.nodup
  allocated r hr := h.allocated r (hl.mem_iff.mpr hr)
  sound := h.sound
  stored key r hr := (h.stored key r hr).imp_left hl.mem_iff.mp
  dead := h.dead
  entries := hl.length_eq ▸ h.entries
  snapshotBytes := h.snapshotBytes.trans (hl.map _).sum_eq
  outputCodeUnits := h.outputCodeUnits.trans (hl.map _).sum_eq

/-- A record is taken out of the slots. -/
lemma removeRecord (h : Holds S alive m (r :: l)) : ∃ m', m.removeRecord S alive r = some m' ∧
    Holds S alive m' l ∧ m'.slots = m.slots ∧ m'.nextSlot = m.nextSlot := by
  obtain ⟨hr, hnodup⟩ := List.nodup_cons.mp h.nodup
  obtain ⟨record, hget⟩ : ∃ record, m.heap[r]? = some record :=
    ⟨_, List.getElem?_eq_getElem (h.allocated r List.mem_cons_self)⟩
  have hmeasure : ∀ f, m.measure f r = f record := fun f => by rw [measure, hget]; rfl
  set found := alive record.key && m.records record.key == some (.stored r) with hfound
  set records := if found then Function.update m.records record.key none else m.records with hrec
  have hsub : ∀ key e, records key = some e → m.records key = some e := by
    intro key e he
    rw [hrec] at he
    split_ifs at he with hf
    · by_cases hid : key = record.key
      · simp [hid] at he
      · rwa [Function.update_of_ne hid] at he
    · exact he
  have hgone : ∀ key, records key ≠ some (.stored r) := by
    intro key he
    have hid := hsub key _ he
    obtain ⟨-, record', hget', rfl⟩ := h.stored key r hid
    obtain rfl := Option.some_inj.mp (hget.symm.trans hget')
    have halive : alive record.key = true := by
      by_contra hdead
      rw [h.dead _ (Bool.eq_false_iff.mpr hdead)] at hid
      cases hid
    have hf : found = true := by simp [hfound, halive, hid]
    rw [hrec, if_pos hf, Function.update_self] at he
    cases he
  refine ⟨{ m with
    records
    snapshotBytes := m.snapshotBytes - byteLength record
    outputCodeUnits := m.outputCodeUnits - outputLength S record
    entries := m.entries - 1 }, ?_, ⟨hnodup, fun r' hr' => h.allocated r' (.tail _ hr'), h.sound,
      fun key r' hid => ?_, fun key hid => ?_, ?_, ?_, ?_⟩, rfl, rfl⟩
  · rw [Memo.removeRecord, hget, Option.bind_eq_bind, Option.bind_some, ← hfound, hrec]
    cases found <;> rfl
  · obtain ⟨hmem, hkey⟩ := h.stored key r' (hsub key _ hid)
    obtain rfl | hmem := List.mem_cons.mp hmem
    · exact absurd hid (hgone key)
    · exact ⟨hmem, hkey⟩
  · refine Option.eq_none_iff_forall_ne_some.mpr fun e he => ?_
    have := hsub key e he
    rw [h.dead key hid] at this
    cases this
  · have := h.entries
    rw [List.length_cons, Nat.cast_succ] at this
    exact sub_eq_of_eq_add this
  · have := h.snapshotBytes
    rw [List.map_cons, List.sum_cons, hmeasure] at this
    exact sub_eq_of_eq_add' this
  · have := h.outputCodeUnits
    rw [List.map_cons, List.sum_cons, hmeasure] at this
    exact sub_eq_of_eq_add' this

/-- The counters and the weak map, when the heap and the records are as before. -/
lemma congr {m' : Memo β} (h : Holds S alive m l) (hheap : m'.heap = m.heap)
    (hstored : ∀ key r, m'.records key = some (.stored r) → m.records key = some (.stored r))
    (hdead : ∀ key, alive key = false → m'.records key = none) (hentries : m'.entries = m.entries)
    (hbytes : m'.snapshotBytes = m.snapshotBytes)
    (hunits : m'.outputCodeUnits = m.outputCodeUnits) : Holds S alive m' l := by
  have hmeasure : m'.measure = m.measure := by
    funext f r
    rw [measure, measure, hheap]
  refine ⟨h.nodup, hheap ▸ h.allocated, hheap ▸ h.sound, fun key r hid => ?_, hdead,
    hentries.trans h.entries, ?_, ?_⟩
  · rw [hheap]
    exact h.stored key r (hstored key r hid)
  · rw [hbytes, hmeasure, h.snapshotBytes]
  · rw [hunits, hmeasure, h.outputCodeUnits]

/-- A container is given an entry that is not a record. -/
lemma setEntry (h : Holds S alive m l) (halive : alive key = true) {e : MemoEntry}
    (he : ∀ r, e ≠ .stored r) : Holds S alive (m.setEntry key (some e)) l := by
  refine h.congr rfl (fun key' r hid => ?_) (fun key' hid => ?_) rfl rfl rfl
  · by_cases heq : key' = key
    · rw [setEntry_records, heq, Function.update_self, Option.some_inj] at hid
      exact absurd hid (he r)
    · rwa [setEntry_records, Function.update_of_ne heq] at hid
  · rw [setEntry_records, Function.update_of_ne]
    · exact h.dead key' hid
    · rintro rfl
      rw [hid] at halive
      cases halive

lemma refuse (h : Holds S alive m l) (halive : alive key = true) : Holds S alive (m.refuse key) l :=
  (h.congr rfl (fun _ _ => id) h.dead rfl rfl rfl : Holds S alive
    { m with uncacheable := m.uncacheable + 1 } l).setEntry halive nofun

/-- All records are taken out of the slots. -/
lemma removeAll {slots : List (Option ℕ)} (h : Holds S alive m (live slots)) :
    ∃ m', Memo.removeAll S alive slots m = some m' ∧ Holds S alive m' [] ∧ m'.slots = m.slots := by
  induction slots generalizing m with
  | nil => exact ⟨m, rfl, h, rfl⟩
  | cons slot slots ih =>
      cases slot with
      | none => exact ih h
      | some r =>
          obtain ⟨m₁, hrun, h₁, hslots, -⟩ := h.removeRecord
          obtain ⟨m', hrun', h', hslots'⟩ := ih h₁
          refine ⟨m', ?_, h', hslots'.trans hslots⟩
          rw [Memo.removeAll, hrun]
          exact hrun'

lemma sum_measure {g g' : ℕ → ℤ} (hl : l.Nodup) (hr : r ∈ l) (h : ∀ r' ≠ r, g' r' = g r') :
    (l.map g').sum = (l.map g).sum + (g' r - g r) := by
  have hperm := List.perm_cons_erase hr
  have hrest : ∀ r' ∈ l.erase r, g' r' = g r' := fun r' hr' => h r' (hl.mem_erase_iff.mp hr').1
  rw [(hperm.map g').sum_eq, (hperm.map g).sum_eq, List.map_cons, List.map_cons, List.sum_cons,
    List.sum_cons, List.map_congr_left hrest]
  ring

/-- A record in a slot gets a new snapshot and its output. -/
lemma update (h : Holds S alive m l) (hr : m.records key = some (.stored r))
    {snapshot : List UInt32} {output : β} (hsound : S.decoder (snapshot.map .u32) = .ok output) :
    ∃ m', m.update S r snapshot output = some m' ∧ Holds S alive m' l ∧ m'.slots = m.slots ∧
      m'.nextSlot = m.nextSlot := by
  obtain ⟨hmem, existing, hget, -⟩ := h.stored key r hr
  have hlt := h.allocated r hmem
  set record : MemoRecord β := { existing with snapshot, output } with hrecord
  have hself : (m.heap.set r record)[r]? = some record := List.getElem?_set_self hlt
  have hother : ∀ r' ≠ r, (m.heap.set r record)[r']? = m.heap[r']? :=
    fun r' hne => List.getElem?_set_ne hne.symm
  have hsum : ∀ f : MemoRecord β → ℤ,
      (l.map fun r' => ((m.heap.set r record)[r']?.map f).getD 0).sum =
        (l.map (m.measure f)).sum + (f record - f existing) := by
    intro f
    rw [sum_measure (g := m.measure f) h.nodup hmem fun r' hne => by rw [hother r' hne]; rfl, hself,
      measure, hget]
    rfl
  rw [Memo.update, hget, Option.bind_eq_bind, Option.bind_some]
  refine ⟨_, rfl, ⟨h.nodup, fun r' hr' => ?_, fun x hx => ?_, fun key' r' hkey' => ?_, h.dead,
    h.entries, ?_, ?_⟩, rfl, rfl⟩
  · rw [List.length_set]
    exact h.allocated r' hr'
  · obtain hx | rfl := List.mem_or_eq_of_mem_set hx
    · exact h.sound x hx
    · exact hsound
  · obtain ⟨hmem', x, hx, hkey⟩ := h.stored key' r' hkey'
    refine ⟨hmem', ?_⟩
    by_cases heq : r' = r
    · subst heq
      obtain rfl := Option.some_inj.mp (hget.symm.trans hx)
      exact ⟨record, hself, hkey⟩
    · exact ⟨x, (hother r' heq).trans hx, hkey⟩
  · exact (congrArg (· + _) h.snapshotBytes).trans (hsum byteLength).symm
  · exact (congrArg (· + _) h.outputCodeUnits).trans (hsum (outputLength S)).symm

/-- A new record for a container. -/
lemma push (h : Holds S alive m l) (halive : alive key = true) {snapshot : List UInt32} {output : β}
    (hsound : S.decoder (snapshot.map .u32) = .ok output) {m' : Memo β}
    (hheap : m'.heap = m.heap ++ [⟨key, snapshot, output⟩])
    (hrecords : m'.records = Function.update m.records key (some (.stored m.heap.length)))
    (hentries : m'.entries = m.entries + 1)
    (hbytes : m'.snapshotBytes = m.snapshotBytes + byteLength ⟨key, snapshot, output⟩)
    (hunits : m'.outputCodeUnits = m.outputCodeUnits + outputLength S ⟨key, snapshot, output⟩) :
    Holds S alive m' (m.heap.length :: l) := by
  have hself : m'.heap[m.heap.length]? = some ⟨key, snapshot, output⟩ := by
    rw [hheap, List.getElem?_append_right le_rfl, Nat.sub_self]
    rfl
  have hold : ∀ r ∈ l, m'.heap[r]? = m.heap[r]? := fun r hr => by
    rw [hheap, List.getElem?_append_left (h.allocated r hr)]
  have hsum : ∀ f : MemoRecord β → ℤ, ((m.heap.length :: l).map (m'.measure f)).sum =
      (l.map (m.measure f)).sum + f ⟨key, snapshot, output⟩ := by
    intro f
    have hmeasure : ∀ r ∈ l, m'.measure f r = m.measure f r := fun r hr => by
      rw [measure, measure, hold r hr]
    rw [List.map_cons, List.sum_cons, List.map_congr_left hmeasure, measure, hself, add_comm]
    rfl
  refine ⟨List.nodup_cons.mpr ⟨fun hmem => (h.allocated _ hmem).false, h.nodup⟩, fun r hr => ?_,
    fun x hx => ?_, fun key' r hkey' => ?_, fun key' hdead => ?_, ?_, ?_, ?_⟩
  · rw [hheap, List.length_append, List.length_singleton]
    obtain rfl | hr := List.mem_cons.mp hr
    · exact Nat.lt_succ_self _
    · exact Nat.lt_succ_of_lt (h.allocated r hr)
  · rw [hheap, List.mem_append, List.mem_singleton] at hx
    obtain hx | rfl := hx
    · exact h.sound x hx
    · exact hsound
  · rw [hrecords] at hkey'
    by_cases heq : key' = key
    · subst heq
      rw [Function.update_self, Option.some_inj, MemoEntry.stored.injEq] at hkey'
      subst hkey'
      exact ⟨List.mem_cons_self, _, hself, rfl⟩
    · rw [Function.update_of_ne heq] at hkey'
      obtain ⟨hmem, x, hx, hkey⟩ := h.stored key' r hkey'
      exact ⟨.tail _ hmem, x, (hold r hmem).trans hx, hkey⟩
  · rw [hrecords, Function.update_of_ne]
    · exact h.dead key' hdead
    · rintro rfl
      rw [hdead] at halive
      cases halive
  · rw [hentries, h.entries, List.length_cons, Nat.cast_succ]
  · rw [hbytes, hsum, h.snapshotBytes]
  · rw [hunits, hsum, h.outputCodeUnits]

end Holds

namespace Valid

/-- The other variables do not matter. -/
lemma of_eq {m' : Memo β} (h : Valid S alive m)
    (heq : (m'.heap, m'.records, m'.slots, m'.nextSlot, m'.entries, m'.snapshotBytes,
      m'.outputCodeUnits) = (m.heap, m.records, m.slots, m.nextSlot, m.entries, m.snapshotBytes,
      m.outputCodeUnits)) : Valid S alive m' := by
  simp only [Prod.mk.injEq] at heq
  obtain ⟨hheap, hrecords, hslots, hnext, hentries, hbytes, hunits⟩ := heq
  refine ⟨hslots ▸ h.holds.congr hheap (fun key r => ?_) (fun key hdead => ?_) hentries hbytes hunits,
    hslots ▸ h.length, hnext ▸ h.nextSlot⟩
  · rw [hrecords]
    exact id
  · rw [hrecords, h.holds.dead key hdead]

lemma bypassCapacity (h : Valid S alive m) :
    ∃ m', m.bypassCapacity S alive = some m' ∧ Valid S alive m' := by
  obtain ⟨m₁, hrun, h₁, hslots⟩ := h.holds.removeAll
  refine ⟨_, by rw [Memo.bypassCapacity, hrun]; rfl, ?_, ?_, S.limits.maxEntries_pos⟩
  · have hlive : live (List.replicate m₁.slots.length none) = [] := by simp [live]
    rw [hlive]
    exact h₁.congr rfl (fun _ _ => id) h₁.dead rfl rfl rfl
  · rw [List.length_replicate, hslots, h.length]

/-- A record for a container that has none goes to the next slot. -/
lemma insertRecord (h : Valid S alive m) (halive : alive key = true) {snapshot : List UInt32}
    {output : β} (hsound : S.decoder (snapshot.map .u32) = .ok output) :
    ∃ m', m.insertRecord S alive ⟨key, snapshot, output⟩ = some m' ∧ Valid S alive m' := by
  have hlt : m.nextSlot < m.slots.length := h.length ▸ h.nextSlot
  have hperm : (m.slots[m.nextSlot] :: m.slots.eraseIdx m.nextSlot).Perm m.slots :=
    List.getElem_cons_eraseIdx_perm hlt
  obtain ⟨m₁, hrun, h₁, hslots, hnext⟩ : ∃ m₁, m.displace S alive = some m₁ ∧
      Holds S alive m₁ (live (m.slots.eraseIdx m.nextSlot)) ∧ m₁.slots = m.slots ∧
      m₁.nextSlot = m.nextSlot := by
    have hholds := h.holds.perm (hperm.filterMap id).symm
    have hjoin : m.slots[m.nextSlot]?.join = m.slots[m.nextSlot] := by
      rw [List.getElem?_eq_getElem hlt, Option.join_some]
    rw [displace, hjoin]
    cases hslot : m.slots[m.nextSlot] with
    | none =>
        rw [hslot] at hholds
        exact ⟨m, rfl, hholds, rfl, rfl⟩
    | some r =>
        rw [hslot] at hholds
        obtain ⟨m₁, hrun, h₁, hslots, hnext⟩ := hholds.removeRecord
        simp only [hrun, Option.bind_eq_bind, Option.bind_some]
        exact ⟨_, rfl, h₁.congr rfl (fun _ _ => id) h₁.dead rfl rfl rfl, hslots, hnext⟩
  refine ⟨_, by rw [Memo.insertRecord, hrun]; rfl, ⟨?_, ?_, Nat.mod_lt _ S.limits.maxEntries_pos⟩⟩
  · have hset : (live (m₁.slots.set m₁.nextSlot (some m₁.heap.length))).Perm
        (m₁.heap.length :: live (m.slots.eraseIdx m.nextSlot)) := by
      rw [hslots, hnext]
      exact (List.set_perm_cons_eraseIdx hlt _).filterMap id
    exact (h₁.push halive hsound rfl rfl rfl rfl rfl).perm hset.symm
  · rw [List.length_set, hslots, h.length]

lemma setEntry (h : Valid S alive m) (halive : alive key = true) {e : MemoEntry}
    (he : ∀ r, e ≠ .stored r) : Valid S alive (m.setEntry key (some e)) :=
  ⟨h.holds.setEntry halive he, h.length, h.nextSlot⟩

lemma refuse (h : Valid S alive m) (halive : alive key = true) : Valid S alive (m.refuse key) :=
  (h.of_eq rfl : Valid S alive { m with uncacheable := m.uncacheable + 1 }).setEntry halive
    fun _ => MemoEntry.noConfusion

lemma storeSnapshot (h : Valid S alive m) (halive : alive key = true) {snapshot : List UInt32}
    {output : β} (hsound : S.decoder (snapshot.map .u32) = .ok output) :
    ∃ m', m.storeSnapshot S alive key snapshot output = some m' ∧ Valid S alive m' := by
  rw [Memo.storeSnapshot]
  split
  · rename_i r hr
    obtain ⟨m', hrun, h', hslots, hnext⟩ := h.holds.update hr hsound
    exact ⟨m', hrun, hslots ▸ h', hslots ▸ h.length, hnext ▸ h.nextSlot⟩
  · exact h.insertRecord halive hsound

variable {input : Container} {output : β}

/-- What is stored is the output of the contents at the time of the call. -/
lemma store (h : Valid S alive m) (halive : alive key = true)
    (hdecoder : S.decoder input.contents = .ok output) :
    ∃ m' stored, m.store S alive key input output = some (m', stored) ∧ Valid S alive m' := by
  rw [Memo.store]
  split_ifs
  · exact ⟨_, _, rfl, h.refuse halive⟩
  · cases hsnapshot : input.snapshot S.limits.maxIds with
    | none => exact ⟨_, _, rfl, h.refuse halive⟩
    | some snapshot =>
        rw [Container.contents_of_snapshot hsnapshot] at hdecoder
        obtain ⟨m', hrun, h'⟩ := h.storeSnapshot halive hdecoder
        exact ⟨m', true, by simp only [hrun, Option.map_some], h'⟩

lemma prime (h : Valid S alive m) (halive : alive key = true) :
    Valid S alive (m.prime S key input output) := by
  rw [Memo.prime]
  split_ifs
  · exact h.refuse halive
  · exact h.setEntry halive fun _ => MemoEntry.noConfusion

lemma probe (h : Valid S alive m) (halive : alive key = true)
    (hdecoder : S.decoder input.contents = .ok output) :
    ∃ m', m.probe S alive key input output = some m' ∧ Valid S alive m' := by
  rw [Memo.probe]
  split_ifs
  · obtain ⟨m₁, stored, hrun, h₁⟩ := h.store halive hdecoder
    rw [hrun]
    cases stored
    · exact ⟨_, rfl, h₁.of_eq rfl⟩
    · exact ⟨_, rfl, h₁.of_eq rfl⟩
  · exact ⟨_, rfl, h.of_eq rfl⟩
  · exact ⟨m, rfl, h⟩

lemma learn (h : Valid S alive m) (halive : alive key = true)
    (hdecoder : S.decoder input.contents = .ok output) (record : Option MemoEntry) :
    ∃ m', m.learn S alive key input record output = some m' ∧ Valid S alive m' := by
  have hstore : ∃ m', (m.store S alive key input output).map Prod.fst = some m' ∧
      Valid S alive m' := by
    obtain ⟨m', stored, hrun, h'⟩ := h.store halive hdecoder
    exact ⟨m', by rw [hrun, Option.map_some], h'⟩
  cases record with
  | none =>
      rw [Memo.learn]
      split_ifs
      · exact ⟨_, rfl, h.prime halive⟩
      · exact hstore
  | some entry =>
      cases entry with
      | uncacheable => exact ⟨_, rfl, h.of_eq rfl⟩
      | pending => exact hstore
      | stored r => exact hstore

/-- A call of the decoder returns what it returns. -/
lemma callDecoder (h : Valid S alive m) {next : Memo β → β → Option (Memo β)}
    (hnext : ∀ m output, Valid S alive m → S.decoder input.contents = .ok output →
      ∃ m', next m output = some m' ∧ Valid S alive m') :
    ∃ m', m.callDecoder S input next = some (m', S.decoder input.contents) ∧ Valid S alive m' := by
  have hmiss : Valid S alive { m with misses := m.misses + 1 } := h.of_eq rfl
  rw [Memo.callDecoder]
  cases hdecoder : S.decoder input.contents with
  | error e => exact ⟨_, rfl, hmiss⟩
  | ok output =>
      obtain ⟨m', hrun, h'⟩ := hnext _ output hmiss hdecoder
      exact ⟨m', by simp only [hrun, Option.map_some], h'⟩

/-- A record answers for its snapshot only. -/
lemma lookup (h : Valid S alive m) (halive : alive key = true) :
    ∃ m', m.lookup S alive key input = some (m', S.decoder input.contents) ∧ Valid S alive m' := by
  rw [Memo.lookup]
  split
  · rename_i r hr
    obtain ⟨-, record, hget, -⟩ := h.holds.stored key r (Option.ite_none_right_eq_some.mp hr).2
    rw [hget, Option.bind_eq_bind, Option.bind_some]
    split_ifs with hsame
    · have hcontents := eq_of_beq hsame
      rw [hcontents, h.holds.sound record (List.mem_of_getElem? hget)]
      exact ⟨_, rfl, h.of_eq rfl⟩
    · have hmismatch : Valid S alive { m with mismatches := m.mismatches + 1 } := h.of_eq rfl
      exact hmismatch.callDecoder fun _ _ h hdecoder => h.learn halive hdecoder _
  · exact h.callDecoder fun _ _ h hdecoder => h.learn halive hdecoder _

lemma decode (h : Valid S alive m) (halive : alive key = true) (input : Container) :
    ∃ m', m.decode S alive key input = some (m', S.decoder input.contents) ∧ Valid S alive m' := by
  have hobserve : Valid S alive (m.observe key) := h.of_eq rfl
  rw [Memo.decode]
  split_ifs
  · exact h.callDecoder fun _ _ h hdecoder => h.probe halive hdecoder
  · exact h.callDecoder fun m _ h _ => ⟨m, rfl, h⟩
  · obtain ⟨m₁, hrun, h₁⟩ := hobserve.bypassCapacity
    rw [hrun]
    exact h₁.callDecoder fun m _ h _ => ⟨m, rfl, h⟩
  · exact hobserve.lookup halive
  · exact h.lookup halive

end Valid

/-! ### Runs -/

/-- Containers are collected: the weak map and the weak set forget them. -/
def collect (m : Memo β) (dead : ℕ → Bool) : Memo β :=
  { m with
    records := fun key => if dead key then none else m.records key
    observedContainers := m.observedContainers.filter fun key => !dead key }

/-- The memos that a run reaches, with the containers that are not collected. A call may find any
contents in its container. -/
inductive Reached (S : Setting ε β) : (ℕ → Bool) → Memo β → Prop
  | new : Reached S (fun _ => true) (new S)
  | collect {alive : ℕ → Bool} {m : Memo β} (h : Reached S alive m) (dead : ℕ → Bool) :
      Reached S (fun key => alive key && !dead key) (m.collect dead)
  | decode {alive : ℕ → Bool} {m m' : Memo β} {key : ℕ} {input : Container} {result : Except ε β}
      (h : Reached S alive m) (halive : alive key = true)
      (hrun : m.decode S alive key input = some (m', result)) : Reached S alive m'

lemma Reached.valid (h : Reached S alive m) : Valid S alive m := by
  induction h with
  | new =>
      have hlive : live (List.replicate S.limits.maxEntries none) = [] := by simp [live]
      refine ⟨?_, List.length_replicate, S.limits.maxEntries_pos⟩
      rw [Memo.new, hlive]
      exact ⟨.nil, by simp, by simp, by simp, fun _ _ => rfl, rfl, rfl, rfl⟩
  | @collect alive m h dead ih =>
      have hsub : ∀ key e, (m.collect dead).records key = some e → m.records key = some e :=
        fun key e he => (Option.ite_none_left_eq_some.mp he).2
      obtain ⟨hnodup, hallocated, hsound, hstored, hdead, hentries, hbytes, hunits⟩ := ih.holds
      refine ⟨⟨hnodup, hallocated, hsound, fun key r hr => hstored key r (hsub key _ hr),
        fun key hkey => ?_, hentries, hbytes, hunits⟩, ih.length, ih.nextSlot⟩
      refine Option.eq_none_iff_forall_ne_some.mpr fun e he => ?_
      obtain ⟨hlives, hget⟩ := Option.ite_none_left_eq_some.mp he
      have hgone : alive key = false := by simpa [hlives] using hkey
      rw [hdead key hgone] at hget
      cases hget
  | decode h halive hrun ih =>
      obtain ⟨m', hrun', h'⟩ := ih.decode halive _
      obtain rfl := (Prod.mk.inj (Option.some_inj.mp (hrun.symm.trans hrun'))).1
      exact h'

/-- The records in the slots. -/
def liveRecords (m : Memo β) : List (MemoRecord β) := (live m.slots).filterMap (m.heap[·]?)

lemma sum_liveRecords (f : MemoRecord β → ℤ) (hl : ∀ r ∈ l, r < m.heap.length) :
    ((l.filterMap (m.heap[·]?)).map f).sum = (l.map (m.measure f)).sum ∧
      (l.filterMap (m.heap[·]?)).length = l.length := by
  induction l with
  | nil => exact ⟨rfl, rfl⟩
  | cons r l ih =>
      obtain ⟨hr, hl⟩ := List.forall_mem_cons.mp hl
      obtain ⟨record, hget⟩ : ∃ record, m.heap[r]? = some record :=
        ⟨_, List.getElem?_eq_getElem hr⟩
      rw [List.filterMap_cons_some hget, List.map_cons, List.sum_cons, List.map_cons, List.sum_cons,
        List.length_cons, List.length_cons, (ih hl).1, (ih hl).2, measure, hget]
      exact ⟨rfl, rfl⟩

/-- The memo is transparent: after any run of calls, with containers that are changed and collected
between them, a call returns or throws what the decoder does on the contents of its container at
the time of the call. The accounting is that of the records in the slots. -/
theorem reached_decode (h : Reached S alive m) :
    (∀ key input, alive key = true →
      ∃ m', m.decode S alive key input = some (m', S.decoder input.contents)) ∧
    m.entries = m.liveRecords.length ∧
    m.snapshotBytes = (m.liveRecords.map byteLength).sum ∧
    m.outputCodeUnits = (m.liveRecords.map (outputLength S)).sum := by
  have hvalid := h.valid
  have hallocated := hvalid.holds.allocated
  refine ⟨fun key input halive => ?_, ?_, ?_, ?_⟩
  · obtain ⟨m', hrun, -⟩ := hvalid.decode halive input
    exact ⟨m', hrun⟩
  · rw [liveRecords, (sum_liveRecords byteLength hallocated).2, hvalid.holds.entries]
  · rw [liveRecords, (sum_liveRecords _ hallocated).1, hvalid.holds.snapshotBytes]
  · rw [liveRecords, (sum_liveRecords _ hallocated).1, hvalid.holds.outputCodeUnits]

/-- A decoder that counts the ids, with room for one container. -/
def counting : Setting Unit ℕ where
  limits := ⟨1, 4, 4, by decide, by decide, by decide⟩
  decoder values := .ok values.length
  units := some

/-- A container is decoded twice, and once more when an id has been added. -/
theorem reached_decode_counting : ∃ m₁ m₂ m₃,
    (new counting).decode counting (fun _ => true) 0 (.uint32Array [5, 6]) = some (m₁, .ok 2) ∧
    m₁.decode counting (fun _ => true) 0 (.uint32Array [5, 6]) = some (m₂, .ok 2) ∧
    m₂.decode counting (fun _ => true) 0 (.uint32Array [5, 6, 7]) = some (m₃, .ok 3) := by
  obtain ⟨m₁, h₁⟩ := (reached_decode (S := counting) .new).1 0 (.uint32Array [5, 6]) rfl
  have hreach₁ := Reached.decode .new rfl h₁
  obtain ⟨m₂, h₂⟩ := (reached_decode hreach₁).1 0 (.uint32Array [5, 6]) rfl
  obtain ⟨m₃, h₃⟩ := (reached_decode (hreach₁.decode rfl h₂)).1 0 (.uint32Array [5, 6, 7]) rfl
  exact ⟨m₁, m₂, m₃, h₁, h₂, h₃⟩

end Memo

end Hypertok
