import Hypertok.Machine.Loop
import Hypertok.Machine.Pack
import Hypertok.Machine.Probe

/-!
`ShortPretokenCache`: a flat table with linear probing over aligned pairs of slots,
which grows at three quarters of its capacity.

* `Valid`: the invariant. Every entry is found from the home pair of its key, and a
  quarter of the slots is empty, so that every walk ends.
* `Valid.walk`: a walk from the home pair of a key sees only other keys before it
  stops. The specifications of the operations follow: `Valid.getOrSlot`,
  `Valid.insertAt`, `Valid.insert`, `Valid.replace`.
-/

namespace Hypertok

open Machine

/-- `Entry`. -/
structure Entry where
  key : ℕ
  val : ℕ
  ext : ℕ
  deriving DecidableEq, Repr

/-- `EMPTY_KEY`. -/
def emptyKey : ℕ := 0

/-- A zeroed slot. -/
def Entry.zeroed : Entry := ⟨emptyKey, 0, 0⟩

/-- `ShortPretokenCache`. The capacity is the length of `slots`. -/
structure ShortPretokenCache where
  slots : List Entry
  mask : ℕ
  len : ℕ

namespace ShortPretokenCache

/-! ### The code -/

/-- `with_pow2_capacity`. -/
def withPow2Capacity (cap : ℕ) : ShortPretokenCache :=
  ⟨List.replicate cap .zeroed, cap - 1, 0⟩

/-- One turn of the loop of `with_at_least`. -/
def capStep (n cap : ℕ) : Option (ℕ ⊕ ℕ) :=
  if (n + 1) * 4 > cap * 3 then some (.inl (cap * 2)) else some (.inr cap)

/-- `with_at_least`. -/
def withAtLeast (n minSlots : ℕ) : Option ShortPretokenCache := do
  let cap ← loop (capStep n) ((n + 1) * 4 + 1) (nextPowerOfTwo (max minSlots (1 <<< 16)))
  some (withPow2Capacity cap)

/-- `(h as usize) & mask & !1`, the first slot of a pair. -/
def homePair (mask h : ℕ) : ℕ := (h &&& mask) / 2 * 2

/-- The walk over pairs of slots that `get_or_slot`, `first_empty` and `replace` share,
for at most `n` pairs: `visit` sees a pair and stops the walk or lets it go on. -/
def walk {β : Type} (slots : List Entry) (mask : ℕ) (visit : ℕ → Entry → Entry → Option β) :
    ℕ → ℕ → Option β
  | 0, _ => none
  | n + 1, idx => do
      let e0 ← slots[idx]?
      let e1 ← slots[idx + 1]?
      match visit idx e0 e1 with
      | some r => some r
      | none => walk slots mask visit n ((idx + 2) &&& mask)

/-- What `get_or_slot` does at a pair. -/
def visitGetOrSlot (key idx : ℕ) (e0 e1 : Entry) : Option (Except ℕ (ℕ × ℕ)) :=
  if e0.key = key then some (.ok (e0.val, e0.ext))
  else if e1.key = key then some (.ok (e1.val, e1.ext))
  else if e0.key = emptyKey then some (.error idx)
  else if e1.key = emptyKey then some (.error (idx + 1))
  else none

/-- `get_or_slot`: the value of the key, or the slot where it belongs. -/
def getOrSlot (c : ShortPretokenCache) (key h : ℕ) : Option (Except ℕ (ℕ × ℕ)) :=
  walk c.slots c.mask (visitGetOrSlot key) c.slots.length (homePair c.mask h)

/-- What `first_empty` does at a pair. -/
def visitFirstEmpty (idx : ℕ) (e0 e1 : Entry) : Option ℕ :=
  if e0.key = emptyKey then some idx
  else if e1.key = emptyKey then some (idx + 1)
  else none

/-- `first_empty`. -/
def firstEmpty (slots : List Entry) (mask h : ℕ) : Option ℕ :=
  walk slots mask visitFirstEmpty slots.length (homePair mask h)

/-- The loop of `grow` over the old slots, into the new ones. -/
def rehash (hash : ℕ → ℕ) (mask : ℕ) : List Entry → List Entry → Option (List Entry)
  | [], slots => some slots
  | e :: old, slots =>
      if e.key = emptyKey then rehash hash mask old slots
      else do
        let idx ← firstEmpty slots mask (hash e.key)
        rehash hash mask old (← write slots idx e)

/-- `grow`. -/
def grow (hash : ℕ → ℕ) (c : ShortPretokenCache) : Option ShortPretokenCache := do
  let newCap := c.slots.length * 2
  let slots ← rehash hash (newCap - 1) c.slots (List.replicate newCap .zeroed)
  some { slots, mask := newCap - 1, len := c.len }

/-- The growth check of `insert`. -/
def growCheck (hash : ℕ → ℕ) (c : ShortPretokenCache) : Option ShortPretokenCache :=
  if (c.len + 1) * 4 > c.slots.length * 3 then c.grow hash else some c

/-- `insert`. -/
def insert (hash : ℕ → ℕ) (c : ShortPretokenCache) (e : Entry) (h : ℕ) :
    Option ShortPretokenCache := do
  let c ← c.growCheck hash
  let idx ← firstEmpty c.slots c.mask h
  some { c with slots := ← write c.slots idx e, len := c.len + 1 }

/-- The slot that `insert_at` writes, after its growth check. -/
def growSlot (hash : ℕ → ℕ) (c : ShortPretokenCache) (slot h : ℕ) :
    Option (ShortPretokenCache × ℕ) :=
  if (c.len + 1) * 4 > c.slots.length * 3 then do
    let c ← c.grow hash
    some (c, ← firstEmpty c.slots c.mask h)
  else some (c, slot)

/-- `insert_at`. -/
def insertAt (hash : ℕ → ℕ) (c : ShortPretokenCache) (slot : ℕ) (e : Entry) (h : ℕ) :
    Option ShortPretokenCache := do
  let (c, slot) ← c.growSlot hash slot h
  some { c with slots := ← write c.slots slot e, len := c.len + 1 }

/-- What `replace` does at a pair: overwrite one of the two slots, or insert. -/
def visitReplace (key idx : ℕ) (e0 e1 : Entry) : Option (Option ℕ) :=
  if e0.key = key then some (some idx)
  else if e1.key = key then some (some (idx + 1))
  else if e0.key = emptyKey ∨ e1.key = emptyKey then some none
  else none

/-- `replace`. -/
def replace (hash : ℕ → ℕ) (c : ShortPretokenCache) (e : Entry) (h : ℕ) :
    Option ShortPretokenCache := do
  match ← walk c.slots c.mask (visitReplace e.key) c.slots.length (homePair c.mask h) with
  | some slot => some { c with slots := ← write c.slots slot e }
  | none => c.insert hash e h

/-- `ProbeView::probe_pair`: the value lanes, and whether they are those of the key. -/
def probePair (c : ShortPretokenCache) (key h : ℕ) : Option (ℕ × ℕ × Bool) := do
  let idx := homePair c.mask h
  let e0 ← c.slots[idx]?
  let e1 ← c.slots[idx + 1]?
  let m0 := e0.key == key
  let m1 := e1.key == key
  let (val, ext) := if m0 then (e0.val, e0.ext) else (e1.val, e1.ext)
  some (val, ext, m0 || m1)

/-! ### The invariant -/

/-- The table as one with linear probing, from the home pair on. -/
def probing (hash : ℕ → ℕ) (mask cap : ℕ) : Probing Entry ℕ where
  key e := if e.key = emptyKey then none else some e.key
  index key i := (homePair mask (hash key) + i) % cap

/-- The slots in use. -/
def used (slots : List Entry) : ℕ := slots.countP fun e => e.key ≠ emptyKey

/-- The slots are probed well, under a mask of their number. -/
structure Placed (hash : ℕ → ℕ) (mask : ℕ) (slots : List Entry) : Prop where
  pow : ∃ e, slots.length = 2 ^ (e + 1) ∧ mask = 2 ^ (e + 1) - 1
  probed : (probing hash mask slots.length).WellProbed slots

/-- The invariant of the cache. -/
structure Valid (hash : ℕ → ℕ) (c : ShortPretokenCache) : Prop where
  placed : Placed hash c.mask c.slots
  len : used c.slots = c.len
  load : c.len * 4 ≤ c.slots.length * 3

variable {hash : ℕ → ℕ} {mask cap : ℕ} {slots : List Entry} {c : ShortPretokenCache} {e : Entry}
  {key : ℕ}

lemma probing_key_eq_none : (probing hash mask cap).key e = none ↔ e.key = emptyKey := by
  simp [probing]

lemma probing_key_eq_some : (probing hash mask cap).key e = some key ↔
    e.key = key ∧ key ≠ emptyKey := by
  simp only [probing, Option.ite_none_left_eq_some, Option.some.injEq]
  constructor <;> rintro ⟨h₁, h₂⟩
  · exact ⟨h₂, h₂ ▸ h₁⟩
  · exact ⟨h₁ ▸ h₂, h₁⟩

lemma probing_stores : (probing hash mask cap).Stores slots key e ↔
    e ∈ slots ∧ e.key = key ∧ key ≠ emptyKey := by
  simp only [Probing.Stores, probing_key_eq_some, List.mem_iff_getElem?, exists_and_right]

lemma occupied_probing : (probing hash mask cap).occupied slots = used slots := by
  refine List.countP_congr fun e _ => ?_
  by_cases h : e.key = emptyKey <;> simp [probing, h]

/-- Every position of a probe sequence is a slot. -/
lemma getElem?_probe (hash : ℕ → ℕ) (mask key i : ℕ) (hne : slots ≠ []) :
    ∃ e, slots[(probing hash mask slots.length).index key i]? = some e :=
  ⟨_, List.getElem?_eq_getElem (Nat.mod_lt _ (List.length_pos_iff.mpr hne))⟩

namespace Placed

variable (h : Placed hash mask slots)
include h

lemma ne_nil : slots ≠ [] := by
  rintro rfl
  obtain ⟨e, hlen, -⟩ := h.pow
  exact absurd hlen.symm (Nat.two_pow_pos _).ne'

/-- Both slots of a pair are in the table, whatever the hash. -/
lemma homePair_lt (x : ℕ) : homePair mask x + 1 < slots.length := by
  obtain ⟨e, hlen, hmask⟩ := h.pow
  have : x &&& mask < 2 ^ (e + 1) := by
    rw [hmask, Nat.and_two_pow_sub_one_eq_mod]
    exact Nat.mod_lt _ (Nat.two_pow_pos _)
  rw [homePair, hlen]
  omega

lemma home_eq : homePair mask (hash key) = (probing hash mask slots.length).index key 0 := by
  simp only [probing, Nat.add_zero,
    Nat.mod_eq_of_lt ((Nat.lt_succ_self _).trans (h.homePair_lt (hash key)))]

/-- Even probes are at the first slot of a pair, and the next probe is at the second. -/
lemma index_pair (key j : ℕ) :
    (probing hash mask slots.length).index key (2 * j + 1) =
        (probing hash mask slots.length).index key (2 * j) + 1 ∧
      ((probing hash mask slots.length).index key (2 * j) + 2) &&& mask =
        (probing hash mask slots.length).index key (2 * (j + 1)) := by
  obtain ⟨e, hlen, hmask⟩ := h.pow
  have heven : slots.length % 2 = 0 := by rw [hlen, pow_succ, Nat.mul_mod_left]
  have hidx : (homePair mask (hash key) + 2 * j) % slots.length % 2 = 0 := by
    rw [Nat.mod_mod_of_dvd _ (Nat.dvd_of_mod_eq_zero heven), homePair]
    omega
  have hlt := Nat.mod_lt (homePair mask (hash key) + 2 * j) (List.length_pos_iff.mpr h.ne_nil)
  refine ⟨?_, ?_⟩
  · simp only [probing, ← Nat.add_assoc]
    rw [Nat.add_mod, Nat.mod_eq_of_lt (b := slots.length) (a := 1) (by omega),
      Nat.mod_eq_of_lt (by omega)]
  · have hand : ∀ x, x &&& mask = x % slots.length := fun x => by
      rw [hmask, Nat.and_two_pow_sub_one_eq_mod, hlen]
    rw [hand]
    simp only [probing, Nat.mod_add_mod, Nat.add_assoc, Nat.mul_succ]

/-- A walk stops, before or at the first pair with an empty slot, having passed only
slots with other keys. -/
theorem exists_walk {β : Type} (key : ℕ) (visit : ℕ → Entry → Entry → Option β)
    (hroom : used slots < slots.length)
    (hvisit : ∀ (idx : ℕ) e0 e1, slots[idx]? = some e0 → slots[idx + 1]? = some e1 →
      visit idx e0 e1 = none → (e0.key ≠ emptyKey ∧ e0.key ≠ key) ∧
        (e1.key ≠ emptyKey ∧ e1.key ≠ key)) :
    ∃ j e0 e1 r, (probing hash mask slots.length).Full slots key (2 * j) ∧
      slots[(probing hash mask slots.length).index key (2 * j)]? = some e0 ∧
      slots[(probing hash mask slots.length).index key (2 * j) + 1]? = some e1 ∧
      visit ((probing hash mask slots.length).index key (2 * j)) e0 e1 = some r ∧
      walk slots mask visit slots.length (homePair mask (hash key)) = some r := by
  set P := probing hash mask slots.length with hP
  have hrun : ∀ n j, P.Full slots key (2 * j) →
      (∃ i e, 2 * j ≤ i ∧ i < 2 * j + n ∧ slots[P.index key i]? = some e ∧ e.key = emptyKey) →
      ∃ k e0 e1 r, P.Full slots key (2 * k) ∧ slots[P.index key (2 * k)]? = some e0 ∧
        slots[P.index key (2 * k) + 1]? = some e1 ∧ visit (P.index key (2 * k)) e0 e1 = some r ∧
        walk slots mask visit n (P.index key (2 * j)) = some r := by
    intro n
    induction n with
    | zero =>
        rintro j - ⟨i, e, hle, hlt, -⟩
        omega
    | succ n ih =>
        rintro j hfull ⟨i, e, hle, hlt, he, hempty⟩
        obtain ⟨hsucc, hnext⟩ := h.index_pair key j
        obtain ⟨e0, h0⟩ := getElem?_probe hash mask key (2 * j) h.ne_nil
        obtain ⟨e1, h1⟩ := getElem?_probe hash mask key (2 * j + 1) h.ne_nil
        rw [← hP] at hsucc hnext h0 h1
        rw [hsucc] at h1
        have hwalk : walk slots mask visit (n + 1) (P.index key (2 * j)) =
            match visit (P.index key (2 * j)) e0 e1 with
            | some r => some r
            | none => walk slots mask visit n (P.index key (2 * (j + 1))) := by
          rw [← hnext, walk, h0, h1]
          rfl
        rw [hwalk]
        cases hv : visit (P.index key (2 * j)) e0 e1 with
        | some r => exact ⟨j, e0, e1, r, hfull, h0, h1, hv, rfl⟩
        | none =>
            obtain ⟨⟨hne0, hk0⟩, hne1, hk1⟩ := hvisit _ e0 e1 h0 h1 hv
            refine ih (j + 1) ?_ ⟨i, e, ?_, by omega, he, hempty⟩
            · -- both slots of the pair hold other keys
              refine (hfull.succ h0 (probing_key_eq_some.mpr ⟨rfl, hne0⟩) hk0).succ ?_
                (probing_key_eq_some.mpr ⟨rfl, hne1⟩) hk1
              rwa [hsucc]
            · -- so the empty slot comes later
              by_contra hlt'
              obtain rfl | rfl : i = 2 * j ∨ i = 2 * j + 1 := by omega
              · rw [h0, Option.some_inj] at he
                exact hne0 (he ▸ hempty)
              · rw [hsucc, h1, Option.some_inj] at he
                exact hne1 (he ▸ hempty)
  obtain ⟨i, e, hi, he, hkey⟩ : ∃ i e, i < slots.length ∧ slots[P.index key i]? = some e ∧
      e.key = emptyKey := by
    obtain ⟨j, e, hj, hkey⟩ := Probing.exists_empty (P := P) (occupied_probing.trans_lt hroom)
    obtain ⟨i, hi, hij⟩ := Probing.linear_surjective (homePair mask (hash key))
      (List.getElem?_eq_some_iff.mp hj).1
    exact ⟨i, e, hi, (congrArg (slots[·]?) hij).trans hj, probing_key_eq_none.mp hkey⟩
  rw [h.home_eq, ← hP]
  exact hrun slots.length 0 Probing.Full.zero ⟨i, e, by omega, by omega, he, hkey⟩

/-- An entry for a new key goes to the first empty slot of its walk. -/
lemma insert {i : ℕ} {e₀ : Entry} (hfull : (probing hash mask slots.length).Full slots e.key i)
    (he₀ : slots[(probing hash mask slots.length).index e.key i]? = some e₀)
    (hempty : e₀.key = emptyKey) (hne : e.key ≠ emptyKey) :
    let slots' := slots.set ((probing hash mask slots.length).index e.key i) e
    Placed hash mask slots' ∧ used slots' = used slots + 1 ∧
      ∀ x, x.key ≠ emptyKey → (x ∈ slots' ↔ x = e ∨ x ∈ slots) := by
  intro slots'
  have hkey : (probing hash mask slots.length).key e = some e.key :=
    probing_key_eq_some.mpr ⟨rfl, hne⟩
  have hnone : (probing hash mask slots.length).key e₀ = none := probing_key_eq_none.mpr hempty
  obtain ⟨hprobed, hstores⟩ := h.probed.insert hfull he₀ hnone hkey
  have hlen : slots'.length = slots.length := List.length_set
  refine ⟨⟨by rw [hlen]; exact h.pow, by rwa [hlen]⟩, ?_, fun x hx => ?_⟩
  · have := Probing.occupied_set (s := e) he₀ hnone (by rw [hkey]; rfl)
    rwa [occupied_probing, occupied_probing] at this
  · have := hstores x.key x
    simp only [probing_stores, hx, ne_eq, not_false_eq_true, and_true] at this
    rw [this]
    constructor
    · rintro (⟨-, rfl⟩ | hmem)
      · exact .inl rfl
      · exact .inr hmem
    · rintro (rfl | hmem)
      · exact .inl ⟨rfl, rfl⟩
      · exact .inr hmem

/-- The entry of a stored key is overwritten in place. -/
lemma overwrite {i : ℕ} {e₀ : Entry} (hfull : (probing hash mask slots.length).Full slots e.key i)
    (he₀ : slots[(probing hash mask slots.length).index e.key i]? = some e₀)
    (hkey₀ : e₀.key = e.key) (hne : e.key ≠ emptyKey) :
    let slots' := slots.set ((probing hash mask slots.length).index e.key i) e
    Placed hash mask slots' ∧ used slots' = used slots ∧
      ∀ x, x.key ≠ emptyKey → (x ∈ slots' ↔ x = e ∨ x.key ≠ e.key ∧ x ∈ slots) := by
  intro slots'
  have hkey : (probing hash mask slots.length).key e = some e.key :=
    probing_key_eq_some.mpr ⟨rfl, hne⟩
  have hk₀ : (probing hash mask slots.length).key e₀ = some e.key :=
    probing_key_eq_some.mpr ⟨hkey₀, hne⟩
  obtain ⟨hprobed, hstores⟩ := h.probed.replace hfull he₀ hk₀ hkey
  have hlen : slots'.length = slots.length := List.length_set
  refine ⟨⟨by rw [hlen]; exact h.pow, by rwa [hlen]⟩, ?_, fun x hx => ?_⟩
  · obtain ⟨hlt, hget⟩ := List.getElem?_eq_some_iff.mp he₀
    have hpos : 0 < used slots :=
      List.countP_pos_iff.mpr ⟨e₀, List.mem_of_getElem? he₀, by simpa [hkey₀] using hne⟩
    have hset := List.countP_set (p := fun x : Entry => x.key ≠ emptyKey) (a := e) hlt
    simp only [hget, hkey₀, hne, ne_eq, not_false_eq_true, decide_true, if_true] at hset
    simp only [used, slots', ne_eq] at hpos ⊢
    omega
  · have := hstores x.key x
    simp only [probing_stores, hx, ne_eq, not_false_eq_true, and_true] at this
    rw [this]
    constructor
    · rintro (⟨-, rfl⟩ | hmem)
      · exact .inl rfl
      · exact .inr hmem
    · rintro (rfl | hmem)
      · exact .inl ⟨rfl, rfl⟩
      · exact .inr hmem

/-- A key that is not stored has an empty slot on its walk, which `first_empty` finds. -/
lemma firstEmpty (key : ℕ) (hroom : used slots < slots.length)
    (hnew : ∀ x ∈ slots, x.key ≠ key) :
    ∃ i e₀, (probing hash mask slots.length).Full slots key i ∧
      slots[(probing hash mask slots.length).index key i]? = some e₀ ∧ e₀.key = emptyKey ∧
      firstEmpty slots mask (hash key) = some ((probing hash mask slots.length).index key i) := by
  obtain ⟨j, e0, e1, r, hfull, h0, h1, hv, hwalk⟩ :=
    h.exists_walk key visitFirstEmpty hroom fun idx e0 e1 h0 h1 hv => by
      simp only [visitFirstEmpty] at hv
      split_ifs at hv with hk0 hk1
      exact ⟨⟨hk0, hnew e0 (List.mem_of_getElem? h0)⟩, hk1, hnew e1 (List.mem_of_getElem? h1)⟩
  rw [← ShortPretokenCache.firstEmpty] at hwalk
  simp only [visitFirstEmpty] at hv
  split_ifs at hv with hk0 hk1
  · cases hv
    exact ⟨2 * j, e0, hfull, h0, hk0, hwalk⟩
  · cases hv
    have hsucc := (h.index_pair key j).1
    refine ⟨2 * j + 1, e1, hfull.succ h0 (probing_key_eq_some.mpr ⟨rfl, hk0⟩)
      (hnew e0 (List.mem_of_getElem? h0)), hsucc ▸ h1, hk1, hsucc ▸ hwalk⟩

/-- No key is stored twice. -/
lemma pairwise : slots.Pairwise fun x y => x.key ≠ emptyKey → x.key ≠ y.key := by
  refine List.pairwise_iff_getElem.mpr fun i j hi hj hij hne heq => ?_
  have hx := List.getElem?_eq_getElem hi
  have hy := List.getElem?_eq_getElem hj
  have hkx : (probing hash mask slots.length).key slots[i] = some slots[i].key :=
    probing_key_eq_some.mpr ⟨rfl, hne⟩
  have hky : (probing hash mask slots.length).key slots[j] = some slots[i].key :=
    probing_key_eq_some.mpr ⟨heq.symm, hne⟩
  obtain ⟨n, hn, hfull⟩ := h.probed i _ _ hx hkx
  have hji := h.probed.pos_eq hfull (by rw [hn]; exact hx) hkx hy hky
  omega

omit h in
/-- `grow` copies the entries whose keys are not in the new table yet. -/
lemma rehash {old : List Entry} (h : Placed hash mask slots)
    (hold : old.Pairwise fun x y => x.key ≠ emptyKey → x.key ≠ y.key)
    (hnew : ∀ x ∈ old, x.key ≠ emptyKey → ∀ y ∈ slots, y.key ≠ x.key)
    (hroom : used slots + used old < slots.length) :
    ∃ slots', rehash hash mask old slots = some slots' ∧ Placed hash mask slots' ∧
      slots'.length = slots.length ∧ used slots' = used slots + used old ∧
      ∀ x, x.key ≠ emptyKey → (x ∈ slots' ↔ x ∈ old ∨ x ∈ slots) := by
  induction old generalizing slots with
  | nil => exact ⟨slots, rfl, h, rfl, rfl, by simp⟩
  | cons e old ih =>
      obtain ⟨he, hold⟩ := List.pairwise_cons.mp hold
      by_cases hkey : e.key = emptyKey
      · have hused : used (e :: old) = used old := by simp [used, hkey]
        rw [hused] at hroom
        obtain ⟨slots', hrun, hplaced, hlen, hu, hmem⟩ :=
          ih h hold (fun x hx => hnew x (by simp [hx])) hroom
        refine ⟨slots', by rw [ShortPretokenCache.rehash, if_pos hkey, hrun], hplaced, hlen,
          by rw [hused, hu], fun x hx => ?_⟩
        have hxe : x ≠ e := fun hxe => hx (hxe ▸ hkey)
        simp [hmem x hx, hxe]
      · have hused : used (e :: old) = used old + 1 := by simp [used, hkey]
        rw [hused] at hroom
        obtain ⟨i, e₀, hfull, he₀, hempty, hfirst⟩ :=
          h.firstEmpty e.key (by omega) (hnew e (by simp) hkey)
        obtain ⟨hplaced, hu, hmem⟩ := h.insert hfull he₀ hempty hkey
        have hnew' : ∀ x ∈ old, x.key ≠ emptyKey →
            ∀ y ∈ slots.set ((probing hash mask slots.length).index e.key i) e, y.key ≠ x.key := by
          intro x hx hxk y hy heq
          obtain rfl | hy := (hmem y (heq ▸ hxk)).mp hy
          · exact he x hx hkey heq
          · exact hnew x (by simp [hx]) hxk y hy heq
        obtain ⟨slots', hrun, hplaced', hlen, hu', hmem'⟩ := ih hplaced hold hnew' (by
          rw [hu, List.length_set]
          omega)
        refine ⟨slots', ?_, hplaced', by rw [hlen, List.length_set], by omega, fun x hx => ?_⟩
        · rw [ShortPretokenCache.rehash, if_neg hkey]
          simp only [hfirst, write_of_getElem? he₀, Option.bind_eq_bind, Option.bind_some, hrun]
        · rw [hmem' x hx, hmem x hx, List.mem_cons]
          tauto

end Placed

/-- A table of empty slots. -/
lemma placed_replicate {n : ℕ} (hn : ∃ e, n = 2 ^ (e + 1)) :
    Placed hash (n - 1) (List.replicate n .zeroed) := by
  obtain ⟨e, rfl⟩ := hn
  exact ⟨⟨e, by simp⟩, Probing.wellProbed_replicate (by simp [probing, Entry.zeroed])⟩

@[simp] lemma used_replicate (n : ℕ) : used (List.replicate n .zeroed) = 0 := by
  simp [used, Entry.zeroed, List.countP_replicate]

namespace Valid

variable (h : Valid hash c)
include h

lemma room : used c.slots < c.slots.length := by
  have hpos := List.length_pos_iff.mpr h.placed.ne_nil
  have := h.load
  rw [h.len]
  omega

/-- `get_or_slot` finds the entry of the key, or the empty slot where it belongs. -/
theorem getOrSlot (key : ℕ) :
    (∃ e ∈ c.slots, e.key = key ∧ c.getOrSlot key (hash key) = some (.ok (e.val, e.ext))) ∨
      ∃ i e₀, (probing hash c.mask c.slots.length).Full c.slots key i ∧
        c.slots[(probing hash c.mask c.slots.length).index key i]? = some e₀ ∧
        e₀.key = emptyKey ∧ c.getOrSlot key (hash key) =
          some (.error ((probing hash c.mask c.slots.length).index key i)) := by
  obtain ⟨j, e0, e1, r, hfull, h0, h1, hv, hwalk⟩ :=
    h.placed.exists_walk key (visitGetOrSlot key) h.room
      fun idx e0 e1 h0 h1 hv => by
        simp only [visitGetOrSlot] at hv
        split_ifs at hv with hk0 hk1 he0 he1
        exact ⟨⟨he0, hk0⟩, he1, hk1⟩
  rw [← ShortPretokenCache.getOrSlot] at hwalk
  simp only [visitGetOrSlot] at hv
  split_ifs at hv with hk0 hk1 he0 he1
  · cases hv
    exact .inl ⟨e0, List.mem_of_getElem? h0, hk0, hwalk⟩
  · cases hv
    exact .inl ⟨e1, List.mem_of_getElem? h1, hk1, hwalk⟩
  · cases hv
    exact .inr ⟨2 * j, e0, hfull, h0, he0, hwalk⟩
  · cases hv
    have hsucc := (h.placed.index_pair key j).1
    exact .inr ⟨2 * j + 1, e1, hfull.succ h0 (probing_key_eq_some.mpr ⟨rfl, he0⟩) hk0,
      hsucc ▸ h1, he1, hsucc ▸ hwalk⟩

/-- The branch-free probe of a pair returns an entry of the key, or nothing. -/
lemma probePair (key x : ℕ) : ∃ val ext found,
    c.probePair key x = some (val, ext, found) ∧
      (found = true → ∃ e ∈ c.slots, e.key = key ∧ e.val = val ∧ e.ext = ext) := by
  obtain ⟨e0, h0⟩ : ∃ e, c.slots[homePair c.mask x]? = some e :=
    ⟨_, List.getElem?_eq_getElem ((Nat.lt_succ_self _).trans (h.placed.homePair_lt x))⟩
  obtain ⟨e1, h1⟩ : ∃ e, c.slots[homePair c.mask x + 1]? = some e :=
    ⟨_, List.getElem?_eq_getElem (h.placed.homePair_lt x)⟩
  simp only [ShortPretokenCache.probePair, h0, h1, Option.bind_eq_bind, Option.bind_some]
  by_cases hk0 : e0.key = key
  · exact ⟨_, _, _, rfl, fun _ => ⟨e0, List.mem_of_getElem? h0, hk0, by simp [hk0], by simp [hk0]⟩⟩
  · refine ⟨_, _, _, rfl, fun hfound => ⟨e1, List.mem_of_getElem? h1, ?_, by simp [hk0], by simp [hk0]⟩⟩
    simpa [hk0] using hfound

/-- `grow` doubles the capacity and keeps the entries. -/
lemma grow : ∃ c', c.grow hash = some c' ∧ Placed hash c'.mask c'.slots ∧
    used c'.slots = c.len ∧ c'.len = c.len ∧ c'.slots.length = c.slots.length * 2 ∧
    ∀ x, x.key ≠ emptyKey → (x ∈ c'.slots ↔ x ∈ c.slots) := by
  have hnew : Placed hash (c.slots.length * 2 - 1)
      (List.replicate (c.slots.length * 2) Entry.zeroed) := by
    obtain ⟨e, hlen, -⟩ := h.placed.pow
    exact placed_replicate ⟨e + 1, by rw [hlen, ← pow_succ]⟩
  have hzero : ∀ x : Entry, x.key ≠ emptyKey →
      x ∉ List.replicate (c.slots.length * 2) Entry.zeroed := fun x hx hmem =>
    hx (by rw [List.eq_of_mem_replicate hmem, Entry.zeroed])
  obtain ⟨slots', hrun, hplaced, hlen, hu, hmem⟩ :=
    Placed.rehash hnew h.placed.pairwise
      (fun x _ hx y hy heq => hzero y (heq ▸ hx) hy) (by
        have := h.room
        simp only [used_replicate, List.length_replicate]
        omega)
  refine ⟨⟨slots', c.slots.length * 2 - 1, c.len⟩, ?_, hplaced, ?_, rfl, by simpa using hlen,
    fun x hx => ?_⟩
  · simp only [ShortPretokenCache.grow, hrun, Option.bind_eq_bind, Option.bind_some]
  · rw [hu, used_replicate, Nat.zero_add, h.len]
  · rw [hmem x hx]
    simp [hzero x hx]

/-- The growth check of an insertion leaves room for one more entry. -/
lemma growCheck : ∃ c', c.growCheck hash = some c' ∧ Placed hash c'.mask c'.slots ∧
    used c'.slots = c.len ∧ c'.len = c.len ∧ (c.len + 1) * 4 ≤ c'.slots.length * 3 ∧
    ∀ x, x.key ≠ emptyKey → (x ∈ c'.slots ↔ x ∈ c.slots) := by
  by_cases hfull : (c.len + 1) * 4 > c.slots.length * 3
  · obtain ⟨c', hrun, hplaced, hu, hlen, hcap, hmem⟩ := h.grow
    refine ⟨c', by rw [ShortPretokenCache.growCheck, if_pos hfull, hrun], hplaced, hu, hlen, ?_, hmem⟩
    have hpos := List.length_pos_iff.mpr h.placed.ne_nil
    have := h.load
    obtain ⟨e, hpow, -⟩ := h.placed.pow
    rw [pow_succ] at hpow
    omega
  · exact ⟨c, by rw [ShortPretokenCache.growCheck, if_neg hfull], h.placed, h.len, rfl, not_lt.mp hfull, fun x _ => Iff.rfl⟩

omit h in
/-- Writing an entry for a new key, where there is room. -/
lemma of_insert {n i : ℕ} {e₀ : Entry} (hplaced : Placed hash c.mask c.slots)
    (hu : used c.slots = c.len) (hload : (c.len + 1) * 4 ≤ c.slots.length * 3)
    (hfull : (probing hash c.mask c.slots.length).Full c.slots e.key i)
    (he₀ : c.slots[(probing hash c.mask c.slots.length).index e.key i]? = some e₀)
    (hempty : e₀.key = emptyKey) (hne : e.key ≠ emptyKey)
    (hn : (probing hash c.mask c.slots.length).index e.key i = n) :
    write c.slots n e = some (c.slots.set n e) ∧
      Valid hash ⟨c.slots.set n e, c.mask, c.len + 1⟩ ∧
      ∀ x, x.key ≠ emptyKey → (x ∈ c.slots.set n e ↔ x = e ∨ x ∈ c.slots) := by
  subst hn
  obtain ⟨hplaced', hu', hmem⟩ := hplaced.insert hfull he₀ hempty hne
  exact ⟨write_of_getElem? he₀ e, ⟨hplaced', by rw [hu', hu], by rwa [List.length_set]⟩, hmem⟩

/-- `insert` adds an entry for a new key. -/
theorem insert (hne : e.key ≠ emptyKey) (hnew : ∀ x ∈ c.slots, x.key ≠ e.key) :
    ∃ c', c.insert hash e (hash e.key) = some c' ∧ Valid hash c' ∧
      ∀ x, x.key ≠ emptyKey → (x ∈ c'.slots ↔ x = e ∨ x ∈ c.slots) := by
  obtain ⟨c', hrun, hplaced, hu, hlen, hload, hmem⟩ := h.growCheck
  obtain ⟨i, e₀, hfull, he₀, hempty, hfirst⟩ := hplaced.firstEmpty e.key
    (by omega) fun x hx heq => hnew x ((hmem x (heq ▸ hne)).mp hx) heq
  rw [← hlen] at hu hload
  obtain ⟨hwrite, hvalid, hmem'⟩ := of_insert hplaced hu hload hfull he₀ hempty hne rfl
  refine ⟨_, ?_, hvalid, fun x hx => by rw [hmem' x hx, hmem x hx]⟩
  simp only [ShortPretokenCache.insert, hrun, hfirst, hwrite, Option.bind_eq_bind,
    Option.bind_some]

/-- `insert_at` adds an entry for a key that `get_or_slot` has missed. -/
theorem insertAt {i : ℕ} {e₀ : Entry} (hne : e.key ≠ emptyKey)
    (hfull : (probing hash c.mask c.slots.length).Full c.slots e.key i)
    (he₀ : c.slots[(probing hash c.mask c.slots.length).index e.key i]? = some e₀)
    (hempty : e₀.key = emptyKey) :
    ∃ c', c.insertAt hash ((probing hash c.mask c.slots.length).index e.key i) e (hash e.key) =
        some c' ∧ Valid hash c' ∧
      ∀ x, x.key ≠ emptyKey → (x ∈ c'.slots ↔ x = e ∨ x ∈ c.slots) := by
  by_cases hgrow : (c.len + 1) * 4 > c.slots.length * 3
  · -- the walk stopped at an empty slot, so the key is not stored
    have hnew : ∀ x ∈ c.slots, x.key ≠ e.key := fun x hx heq =>
      h.placed.probed.not_stores hfull he₀ (probing_key_eq_none.mpr hempty) x
        (probing_stores.mpr ⟨hx, heq, hne⟩)
    obtain ⟨c', hrun, hvalid, hmem⟩ := h.insert hne hnew
    refine ⟨c', ?_, hvalid, hmem⟩
    rw [← hrun, ShortPretokenCache.insertAt, growSlot, if_pos hgrow, ShortPretokenCache.insert,
      ShortPretokenCache.growCheck, if_pos hgrow]
    simp only [Option.bind_eq_bind, Option.bind_assoc, Option.bind_some]
  · obtain ⟨hwrite, hvalid, hmem⟩ :=
      of_insert h.placed h.len (not_lt.mp hgrow) hfull he₀ hempty hne rfl
    refine ⟨_, ?_, hvalid, hmem⟩
    simp only [ShortPretokenCache.insertAt, growSlot, if_neg hgrow, hwrite, Option.bind_eq_bind,
      Option.bind_some]

/-- `replace` writes an entry over the one of its key, or adds it. -/
theorem replace (hne : e.key ≠ emptyKey) :
    ∃ c', c.replace hash e (hash e.key) = some c' ∧ Valid hash c' ∧
      ∀ x, x.key ≠ emptyKey → (x ∈ c'.slots ↔ x = e ∨ x.key ≠ e.key ∧ x ∈ c.slots) := by
  obtain ⟨j, e0, e1, r, hfull, h0, h1, hv, hwalk⟩ :=
    h.placed.exists_walk e.key (visitReplace e.key) h.room
      fun idx e0 e1 h0 h1 hv => by
        simp only [visitReplace] at hv
        split_ifs at hv with hk0 hk1 hempty
        rw [not_or] at hempty
        exact ⟨⟨hempty.1, hk0⟩, hempty.2, hk1⟩
  simp only [ShortPretokenCache.replace, hwalk, Option.bind_eq_bind, Option.bind_some]
  have hsucc := (h.placed.index_pair e.key j).1
  -- an entry of the key is overwritten
  have hover : ∀ {i : ℕ} {e₀ : Entry},
      (probing hash c.mask c.slots.length).Full c.slots e.key i →
      c.slots[(probing hash c.mask c.slots.length).index e.key i]? = some e₀ → e₀.key = e.key →
      ∃ c', (write c.slots ((probing hash c.mask c.slots.length).index e.key i) e).bind
          (fun slots => some { c with slots }) = some c' ∧ Valid hash c' ∧
        ∀ x, x.key ≠ emptyKey → (x ∈ c'.slots ↔ x = e ∨ x.key ≠ e.key ∧ x ∈ c.slots) := by
    intro i e₀ hfull he₀ hkey
    obtain ⟨hplaced, hu, hmem⟩ := h.placed.overwrite hfull he₀ hkey hne
    refine ⟨_, by rw [write_of_getElem? he₀, Option.bind_some], ⟨hplaced, ?_, ?_⟩, hmem⟩
    · exact hu.trans h.len
    · simpa using h.load
  simp only [visitReplace] at hv
  split_ifs at hv with hk0 hk1 hempty
  · cases hv
    exact hover hfull h0 hk0
  · by_cases he0 : e0.key = emptyKey
    · -- an empty slot before the entry: the invariant excludes it
      refine absurd ?_ (h.placed.probed.not_stores hfull h0 (probing_key_eq_none.mpr he0) e1)
      exact probing_stores.mpr ⟨List.mem_of_getElem? h1, hk1, hne⟩
    · cases hv
      rw [← hsucc] at h1 ⊢
      exact hover (hfull.succ h0 (probing_key_eq_some.mpr ⟨rfl, he0⟩) hk0) h1 hk1
  · cases hv
    have hnew : ∀ x ∈ c.slots, x.key ≠ e.key := by
      intro x hx heq
      have hstored : (probing hash c.mask c.slots.length).Stores c.slots e.key x :=
        probing_stores.mpr ⟨hx, heq, hne⟩
      by_cases he0 : e0.key = emptyKey
      · exact h.placed.probed.not_stores hfull h0 (probing_key_eq_none.mpr he0) x hstored
      · have hfull' := hfull.succ h0 (probing_key_eq_some.mpr ⟨rfl, he0⟩) hk0
        exact h.placed.probed.not_stores hfull' (hsucc ▸ h1)
          (probing_key_eq_none.mpr (hempty.resolve_left he0)) x hstored
    obtain ⟨c', hrun, hvalid, hmem⟩ := h.insert hne hnew
    refine ⟨c', hrun, hvalid, fun x hx => ?_⟩
    rw [hmem x hx]
    constructor
    · rintro (rfl | hx')
      · exact .inl rfl
      · exact .inr ⟨hnew x hx', hx'⟩
    · rintro (rfl | ⟨-, hx'⟩)
      · exact .inl rfl
      · exact .inr hx'

end Valid

/-- Doubling reaches a capacity for `n` entries, and stays a power of two. -/
lemma loop_capStep (n e : ℕ) :
    ∃ cap, loop (capStep n) ((n + 1) * 4 + 1) (2 ^ (e + 1)) = some cap ∧
      ∃ e', cap = 2 ^ (e' + 1) := by
  refine loop_eq_some (I := fun m cap => (∃ e', cap = 2 ^ (e' + 1)) ∧ m = (n + 1) * 4 - cap * 3)
    ?_ ⟨⟨e, rfl⟩, rfl⟩ (by omega)
  rintro m _ ⟨⟨e', rfl⟩, rfl⟩
  have hpos := Nat.two_pow_pos (e' + 1)
  by_cases hfull : (n + 1) * 4 > 2 ^ (e' + 1) * 3
  · refine .inl ⟨_, if_pos hfull, _, ?_, ⟨e' + 1, (pow_succ _ _).symm⟩, rfl⟩
    omega
  · exact .inr ⟨_, if_neg hfull, e', rfl⟩

/-- A new table is empty. -/
theorem withAtLeast_valid (hash : ℕ → ℕ) (n minSlots : ℕ) :
    ∃ c, withAtLeast n minSlots = some c ∧ Valid hash c ∧ ∀ x ∈ c.slots, x.key = emptyKey := by
  obtain ⟨e, hpow, hge, -⟩ := nextPowerOfTwo_spec (max minSlots (1 <<< 16))
  obtain ⟨e, rfl⟩ : ∃ e', e = e' + 1 := by
    refine Nat.exists_eq_succ_of_ne_zero ?_
    rintro rfl
    have := (le_max_right minSlots (1 <<< 16)).trans hge
    simp at this
  obtain ⟨cap, hloop, e', rfl⟩ := loop_capStep n e
  refine ⟨withPow2Capacity (2 ^ (e' + 1)), ?_, ⟨placed_replicate ⟨e', rfl⟩, by simp [withPow2Capacity],
    Nat.zero_le _⟩, fun x hx => ?_⟩
  · simp only [withAtLeast, hpow, hloop, Option.bind_eq_bind, Option.bind_some]
  · rw [List.eq_of_mem_replicate hx, Entry.zeroed]

end ShortPretokenCache

end Hypertok
