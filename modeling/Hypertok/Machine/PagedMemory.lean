import Mathlib.Tactic

/-!
Memory that is mapped by pages, and slices of it.

* `PagedMemory.read`: a load of some bytes, which fails if it touches a page that is not mapped.
* `Slice`: an address with the bytes that a load finds there.
* `Slice.get?`: a part of a slice.
* `Slice.read_page`: a load that begins with a slice and ends in the page where it begins.
-/

namespace Machine

/-- Memory in pages of one size. -/
structure PagedMemory (page : ℕ) where
  mapped : ℕ → Bool
  byte : ℕ → UInt8

variable {page : ℕ}

/-- A load of `n` bytes. -/
def PagedMemory.read (mem : PagedMemory page) (ptr n : ℕ) : Option (List UInt8) :=
  if ∀ i < n, mem.mapped ((ptr + i) / page) then
    some ((List.range n).map fun i => mem.byte (ptr + i))
  else none

variable {mem : PagedMemory page} {ptr n : ℕ} {bytes : List UInt8}

lemma PagedMemory.read_eq_some : mem.read ptr n = some bytes ↔
    (∀ i < n, mem.mapped ((ptr + i) / page)) ∧
      (List.range n).map (fun i => mem.byte (ptr + i)) = bytes := by
  rw [PagedMemory.read, Option.ite_none_right_eq_some, Option.some_inj]

lemma PagedMemory.length_read (h : mem.read ptr n = some bytes) : bytes.length = n := by
  rw [← (read_eq_some.mp h).2, List.length_map, List.length_range]

/-- A load of less. -/
lemma PagedMemory.read_of_le (h : mem.read ptr n = some bytes) {start k : ℕ} (hk : start + k ≤ n) :
    mem.read (ptr + start) k = some ((bytes.drop start).take k) := by
  obtain ⟨hmapped, rfl⟩ := read_eq_some.mp h
  refine read_eq_some.mpr ⟨fun i hi => ?_, List.ext_getElem ?_ fun i hi hi' => ?_⟩
  · rw [Nat.add_assoc]
    exact hmapped _ (by omega)
  · simp
    omega
  · simp [Nat.add_assoc]

/-- A slice, `ptr` with `bytes.len()`. -/
structure Slice (mem : PagedMemory page) where
  ptr : ℕ
  bytes : List UInt8
  read_eq : mem.read ptr bytes.length = some bytes

/-- `&s[start..stop]`. -/
def Slice.get? (s : Slice mem) (start stop : ℕ) : Option (Slice mem) :=
  if h : start ≤ stop ∧ stop ≤ s.bytes.length then
    some {
      ptr := s.ptr + start
      bytes := (s.bytes.drop start).take (stop - start)
      read_eq := by
        have hlen : ((s.bytes.drop start).take (stop - start)).length = stop - start := by
          rw [List.length_take, List.length_drop]
          omega
        rw [hlen]
        exact PagedMemory.read_of_le s.read_eq (by omega) }
  else none

lemma Slice.get?_eq {s : Slice mem} {start stop : ℕ} (h : start ≤ stop) (h' : stop ≤ s.bytes.length) :
    ∃ t, s.get? start stop = some t ∧ t.ptr = s.ptr + start ∧
      t.bytes = (s.bytes.drop start).take (stop - start) :=
  ⟨_, dif_pos ⟨h, h'⟩, rfl, rfl⟩

/-- A load from the front of a slice, which may go on behind it. -/
lemma Slice.read_page {s : Slice mem} (hpos : 0 < s.bytes.length) (hle : s.bytes.length ≤ n)
    (hpage : s.ptr % page + n ≤ page) : ∃ more, mem.read s.ptr n = some (s.bytes ++ more) := by
  obtain ⟨hmapped, hbytes⟩ := PagedMemory.read_eq_some.mp s.read_eq
  have hsame : ∀ i < n, (s.ptr + i) / page = s.ptr / page := by
    intro i hi
    rw [← Nat.div_add_mod s.ptr page, Nat.add_assoc, Nat.mul_add_div (by omega),
      Nat.div_eq_of_lt (by omega : s.ptr % page + i < page), Nat.mul_add_div (by omega),
      Nat.div_eq_of_lt (Nat.mod_lt _ (by omega))]
  refine ⟨(List.range' s.bytes.length (n - s.bytes.length)).map fun i => mem.byte (s.ptr + i),
    PagedMemory.read_eq_some.mpr ⟨fun i hi => ?_, ?_⟩⟩
  · rw [hsame i hi, ← hsame 0 (by omega)]
    exact hmapped 0 hpos
  · have hsplit : List.range n =
        List.range s.bytes.length ++ List.range' s.bytes.length (n - s.bytes.length) := by
      have happend := @List.range'_append_1 0 s.bytes.length (n - s.bytes.length)
      rw [Nat.zero_add, Nat.add_sub_cancel' hle] at happend
      rw [List.range_eq_range', List.range_eq_range', happend]
    rw [hsplit, List.map_append, hbytes]

end Machine
