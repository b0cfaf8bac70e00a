import Hypertok.Machine.Run

/-!
Byte strings: ranges of them, integers in little-endian order, and writes in place.

* `getRange`: the bytes of a range, if the range lies in the string.
* `leNat`, `leBytes`: integers in little-endian order; `leNat_leBytes` reads back what was
  written.
* `overwrite`: `copy_from_slice`; `getRange_overwrite` reads back what was written, and
  `getRange_overwrite_of_disjoint` what was not. `overwriteAll` is a sequence of writes.
* `chunksExact`: the chunks of one length.
-/

namespace Machine

variable {α : Type}

/-! ### Ranges -/

/-- `get(start..stop)`. -/
def getRange (xs : List α) (start stop : ℕ) : Option (List α) :=
  if start ≤ stop ∧ stop ≤ xs.length then some ((xs.take stop).drop start) else none

/-- `get(start..)`. -/
def getFrom (xs : List α) (start : ℕ) : Option (List α) :=
  if start ≤ xs.length then some (xs.drop start) else none

lemma getRange_eq_some {xs r : List α} {start stop : ℕ} : getRange xs start stop = some r ↔
    (start ≤ stop ∧ stop ≤ xs.length) ∧ (xs.take stop).drop start = r := by
  simp [getRange]

lemma getRange_of_le {xs : List α} {start stop : ℕ} (h : start ≤ stop) (h' : stop ≤ xs.length) :
    getRange xs start stop = some ((xs.take stop).drop start) := if_pos ⟨h, h'⟩

lemma length_of_getRange {xs r : List α} {start stop : ℕ} (h : getRange xs start stop = some r) :
    r.length = stop - start := by
  obtain ⟨⟨hle, hlen⟩, rfl⟩ := getRange_eq_some.mp h
  simp [hlen]

lemma getFrom_of_le {xs : List α} {start : ℕ} (h : start ≤ xs.length) :
    getFrom xs start = some (xs.drop start) := if_pos h

/-- The range is read where the list has it. -/
lemma getRange_append (xs ys zs : List α) :
    getRange (xs ++ (ys ++ zs)) xs.length (xs.length + ys.length) = some ys := by
  rw [getRange_of_le (Nat.le_add_right _ _) (by simp), List.take_append, List.take_append]
  simp

/-- The range of one part of a concatenation. -/
lemma getRange_flatten {parts : List (List α)} {i start stop : ℕ} {part : List α}
    (h : parts[i]? = some part) (hstart : (parts.take i).flatten.length = start)
    (hstop : start + part.length = stop) : getRange parts.flatten start stop = some part := by
  subst hstart hstop
  obtain ⟨hi, rfl⟩ := List.getElem?_eq_some_iff.mp h
  have hsplit : parts.flatten = (parts.take i).flatten ++ (parts[i] ++ (parts.drop (i + 1)).flatten) := by
    rw [← List.flatten_cons, ← List.flatten_append, ← List.drop_eq_getElem_cons, List.take_append_drop]
  rw [hsplit, getRange_append]

/-- The last part of a concatenation. -/
lemma getFrom_flatten {l : List (List α)} {start : ℕ} (hstart : l.flatten.length = start)
    (part : List α) : getFrom (l ++ [part]).flatten start = some part := by
  subst hstart
  rw [List.flatten_append, List.flatten_singleton, getFrom_of_le (by simp), List.drop_left]

/-- A range of the first of two lists. -/
lemma getRange_append_left {xs ys : List α} {start stop : ℕ} (h : stop ≤ xs.length) :
    getRange (xs ++ ys) start stop = getRange xs start stop := by
  rw [getRange, getRange, List.take_append_of_le_length h, List.length_append]
  congr 1
  exact propext (and_congr_right fun _ => ⟨fun _ => h, fun _ => by omega⟩)

/-- A range of the first elements. -/
lemma getRange_take {xs : List α} {n start stop : ℕ} (h : stop ≤ n) :
    getRange (xs.take n) start stop = getRange xs start stop := by
  rw [getRange, getRange, List.take_take, List.length_take, Nat.min_eq_left h]
  congr 1
  exact propext (and_congr_right fun _ => ⟨fun _ => by omega, fun _ => by omega⟩)

/-- A range of the last elements. -/
lemma getRange_drop {xs : List α} {n start stop : ℕ} (h : n ≤ xs.length) :
    getRange (xs.drop n) start stop = getRange xs (n + start) (n + stop) := by
  rw [getRange, getRange, List.take_drop, List.drop_drop, List.length_drop]
  congr 1
  exact propext ⟨fun _ => by omega, fun _ => by omega⟩

/-- What is left from the start of a range on. -/
lemma drop_of_getRange {xs r : List α} {start stop : ℕ} (h : getRange xs start stop = some r) :
    xs.drop start = r ++ xs.drop stop := by
  obtain ⟨⟨hle, -⟩, rfl⟩ := getRange_eq_some.mp h
  rw [List.drop_take, ← Nat.add_sub_cancel' hle, ← List.drop_drop, Nat.add_sub_cancel_left,
    List.take_append_drop]

lemma drop_of_getElem? {xs : List α} {i : ℕ} {x : α} (h : xs[i]? = some x) :
    xs.drop i = [x] ++ xs.drop (i + 1) := by
  obtain ⟨hi, rfl⟩ := List.getElem?_eq_some_iff.mp h
  rw [List.drop_eq_getElem_cons hi, List.singleton_append]

lemma getElem?_of_getRange {xs : List α} {i : ℕ} {x : α} (h : getRange xs i (i + 1) = some [x]) :
    xs[i]? = some x := by
  obtain ⟨-, hx⟩ := getRange_eq_some.mp h
  have hget := congrArg (·[0]?) hx
  simpa [List.getElem?_take] using hget

/-- Two lists with the same elements in a range. -/
lemma getRange_congr {xs ys : List α} {start stop : ℕ} (hlen : xs.length = ys.length)
    (h : ∀ i, start ≤ i → i < stop → xs[i]? = ys[i]?) :
    getRange xs start stop = getRange ys start stop := by
  rw [getRange, getRange, hlen]
  split_ifs with hle
  · refine congrArg some (List.ext_getElem? fun i => ?_)
    rw [List.getElem?_drop, List.getElem?_drop, List.getElem?_take, List.getElem?_take]
    split_ifs with hi
    · exact h _ (Nat.le_add_right _ _) hi
    · rfl
  · rfl

/-! ### Integers -/

/-- The integer of bytes in little-endian order. -/
def leNat : List UInt8 → ℕ
  | [] => 0
  | b :: bs => b.toNat + 256 * leNat bs

/-- `to_le_bytes`, for an integer of `k` bytes. -/
def leBytes : ℕ → ℕ → List UInt8
  | 0, _ => []
  | k + 1, n => UInt8.ofNat (n % 256) :: leBytes k (n / 256)

@[simp] lemma length_leBytes (k n : ℕ) : (leBytes k n).length = k := by
  induction k generalizing n with
  | zero => rfl
  | succ k ih => rw [leBytes, List.length_cons, ih]

lemma leNat_lt (bs : List UInt8) : leNat bs < 256 ^ bs.length := by
  induction bs with
  | nil => exact Nat.one_pos
  | cons b bs ih =>
      have hb := b.toNat_lt
      rw [leNat, List.length_cons, Nat.pow_succ]
      omega

lemma leNat_leBytes {k n : ℕ} (h : n < 256 ^ k) : leNat (leBytes k n) = n := by
  induction k generalizing n with
  | zero =>
      rw [Nat.pow_zero, Nat.lt_one_iff] at h
      rw [h]
      rfl
  | succ k ih =>
      rw [leBytes, leNat, ih (Nat.div_lt_of_lt_mul (by rwa [← Nat.pow_succ']))]
      have hbyte : (UInt8.ofNat (n % 256)).toNat = n % 256 := by simp
      rw [hbyte, Nat.mod_add_div]

lemma leBytes_leNat (bs : List UInt8) : leBytes bs.length (leNat bs) = bs := by
  induction bs with
  | nil => rfl
  | cons b bs ih =>
      have hb := b.toNat_lt
      have hmod : (b.toNat + 256 * leNat bs) % 256 = b.toNat := by omega
      have hdiv : (b.toNat + 256 * leNat bs) / 256 = leNat bs := by omega
      rw [List.length_cons, leBytes, leNat, hmod, hdiv, ih, UInt8.ofNat_toNat]

/-! ### Writes -/

/-- `xs[start..start + ys.len()].copy_from_slice(ys)`, where the range lies in the list. -/
def overwrite (xs : List α) (start : ℕ) (ys : List α) : Option (List α) :=
  if start + ys.length ≤ xs.length then
    some (xs.take start ++ ys ++ xs.drop (start + ys.length))
  else none

lemma overwrite_eq_some {xs ys zs : List α} {start : ℕ} : overwrite xs start ys = some zs ↔
    start + ys.length ≤ xs.length ∧ xs.take start ++ ys ++ xs.drop (start + ys.length) = zs := by
  simp [overwrite]

lemma length_overwrite {xs ys zs : List α} {start : ℕ} (h : overwrite xs start ys = some zs) :
    zs.length = xs.length := by
  obtain ⟨hle, rfl⟩ := overwrite_eq_some.mp h
  simp only [List.length_append, List.length_take, List.length_drop]
  omega

/-- The range that was written. -/
lemma getRange_overwrite {xs ys zs : List α} {start : ℕ} (h : overwrite xs start ys = some zs) :
    getRange zs start (start + ys.length) = some ys := by
  obtain ⟨hle, rfl⟩ := overwrite_eq_some.mp h
  have hstart : (xs.take start).length = start := by
    rw [List.length_take]
    omega
  have happend := getRange_append (xs.take start) ys (xs.drop (start + ys.length))
  rwa [hstart, ← List.append_assoc] at happend

/-- A range next to the one that was written. -/
lemma getRange_overwrite_of_disjoint {xs ys zs : List α} {start a b : ℕ}
    (h : overwrite xs start ys = some zs) (hab : b ≤ start ∨ start + ys.length ≤ a) :
    getRange zs a b = getRange xs a b := by
  refine getRange_congr (length_overwrite h) fun i ha hb => ?_
  obtain ⟨hle, rfl⟩ := overwrite_eq_some.mp h
  have hstart : (xs.take start).length = start := by
    rw [List.length_take]
    omega
  obtain hi | hi : i < start ∨ start + ys.length ≤ i := by omega
  · rw [List.append_assoc, List.getElem?_append_left (by omega), List.getElem?_take, if_pos hi]
  · rw [List.getElem?_append_right (by rw [List.length_append, hstart]; exact hi),
      List.getElem?_drop, List.length_append, hstart, Nat.add_sub_cancel' hi]

/-- Writes one after the other. -/
def overwriteAll (xs : List α) (writes : List (ℕ × List α)) : Option (List α) :=
  writes.foldlM (fun xs p => overwrite xs p.1 p.2) xs

lemma overwriteAll_cons {xs zs : List α} {p : ℕ × List α} {writes : List (ℕ × List α)} :
    overwriteAll xs (p :: writes) = some zs ↔
      ∃ ys, overwrite xs p.1 p.2 = some ys ∧ overwriteAll ys writes = some zs := by
  simp [overwriteAll, List.foldlM_cons, Option.bind_eq_some_iff]

lemma length_overwriteAll {xs zs : List α} {writes : List (ℕ × List α)}
    (h : overwriteAll xs writes = some zs) : zs.length = xs.length := by
  induction writes generalizing xs with
  | nil =>
      cases h
      rfl
  | cons p writes ih =>
      obtain ⟨ys, hp, hrest⟩ := overwriteAll_cons.mp h
      rw [ih hrest, length_overwrite hp]

/-- A range next to all that was written. -/
lemma getRange_overwriteAll_of_disjoint {xs zs : List α} {writes : List (ℕ × List α)} {a b : ℕ}
    (h : overwriteAll xs writes = some zs)
    (hab : ∀ p ∈ writes, b ≤ p.1 ∨ p.1 + p.2.length ≤ a) :
    getRange zs a b = getRange xs a b := by
  induction writes generalizing xs with
  | nil =>
      cases h
      rfl
  | cons p writes ih =>
      obtain ⟨hhead, hrest⟩ := List.forall_mem_cons.mp hab
      obtain ⟨ys, hp, hwrites⟩ := overwriteAll_cons.mp h
      rw [ih hwrites hrest, getRange_overwrite_of_disjoint hp hhead]

/-- Writes from the left to the right are all read back. -/
lemma getRange_overwriteAll {xs zs : List α} {writes : List (ℕ × List α)}
    (h : overwriteAll xs writes = some zs)
    (hwrites : writes.Pairwise fun p q => p.1 + p.2.length ≤ q.1) :
    ∀ p ∈ writes, getRange zs p.1 (p.1 + p.2.length) = some p.2 := by
  induction writes generalizing xs with
  | nil => exact fun _ => nofun
  | cons p writes ih =>
      obtain ⟨hp, hrest⟩ := List.pairwise_cons.mp hwrites
      obtain ⟨ys, hhead, htail⟩ := overwriteAll_cons.mp h
      refine List.forall_mem_cons.mpr ⟨?_, ih htail hrest⟩
      rw [getRange_overwriteAll_of_disjoint htail fun q hq => .inl (hp q hq),
        getRange_overwrite hhead]

/-! ### Chunks -/

/-- `chunks_exact(k)`. -/
def chunksExact (k : ℕ) (xs : List α) : List (List α) :=
  (List.range (xs.length / k)).map fun i => (xs.drop (i * k)).take k

@[simp] lemma length_chunksExact (k : ℕ) (xs : List α) :
    (chunksExact k xs).length = xs.length / k := by
  simp [chunksExact]

lemma getElem?_chunksExact {k : ℕ} {xs c : List α} {i : ℕ} :
    (chunksExact k xs)[i]? = some c ↔ i < xs.length / k ∧ (xs.drop (i * k)).take k = c := by
  rw [chunksExact, List.getElem?_map, Option.map_eq_some_iff]
  constructor
  · rintro ⟨j, hj, h⟩
    obtain ⟨hlt, rfl⟩ := List.getElem?_eq_some_iff.mp hj
    rw [List.length_range] at hlt
    rw [List.getElem_range] at h
    exact ⟨hlt, h⟩
  · rintro ⟨hi, h⟩
    exact ⟨i, List.getElem?_range hi, h⟩

/-- A chunk is a range of the list. -/
lemma getRange_of_chunksExact {k : ℕ} {xs c : List α} {i : ℕ} (h : (chunksExact k xs)[i]? = some c) :
    getRange xs (i * k) (i * k + k) = some c := by
  obtain ⟨hi, rfl⟩ := getElem?_chunksExact.mp h
  have hle : i * k + k ≤ xs.length := by
    calc i * k + k = (i + 1) * k := (Nat.succ_mul i k).symm
      _ ≤ xs.length / k * k := Nat.mul_le_mul_right k hi
      _ ≤ xs.length := Nat.div_mul_le_self _ _
  rw [getRange_of_le (Nat.le_add_right _ _) hle, ← List.take_drop]

/-- The chunks of a concatenation are its parts. -/
lemma chunksExact_flatten {k : ℕ} (hk : 0 < k) {cs : List (List α)} (h : ∀ c ∈ cs, c.length = k) :
    chunksExact k cs.flatten = cs := by
  have hlen : ∀ l : List (List α), (∀ c ∈ l, c.length = k) → l.flatten.length = l.length * k := by
    intro l hl
    rw [List.length_flatten, List.map_eq_replicate_iff.mpr hl, List.sum_replicate, smul_eq_mul]
  refine List.ext_getElem (by rw [length_chunksExact, hlen cs h, Nat.mul_div_cancel _ hk])
    fun i hi hi' => ?_
  have hpart := getRange_flatten (List.getElem?_eq_getElem hi') rfl rfl
  have hchunk := getRange_of_chunksExact (List.getElem?_eq_getElem hi)
  rw [hlen _ fun c hc => h c (List.mem_of_mem_take hc), List.length_take, Nat.min_eq_left hi'.le,
    h _ (List.getElem_mem hi')] at hpart
  exact Option.some_inj.mp (hchunk.symm.trans hpart)

lemma length_of_mem_chunksExact {k : ℕ} {xs c : List α} (h : c ∈ chunksExact k xs) :
    c.length = k := by
  obtain ⟨i, hi⟩ := List.mem_iff_getElem?.mp h
  rw [length_of_getRange (getRange_of_chunksExact hi), Nat.add_sub_cancel_left]

end Machine
