import Mathlib.Data.List.Sort
import Mathlib.Tactic

/-!
A min-heap, as its entries in increasing order. Equal entries are
indistinguishable, so this is all that a program sees of a binary heap.
-/

namespace Machine

variable {α : Type*} [LinearOrder α]

/-- A min-heap. -/
structure MinHeap (α : Type*) [LinearOrder α] where
  /-- The entries. -/
  entries : List α
  sorted : entries.Pairwise (· ≤ ·)

namespace MinHeap

instance : Membership α (MinHeap α) := ⟨fun h x => x ∈ h.entries⟩

lemma mem_def {x : α} {h : MinHeap α} : x ∈ h ↔ x ∈ h.entries := Iff.rfl

/-- The number of entries. -/
def size (h : MinHeap α) : ℕ := h.entries.length

/-- The heap of the entries of a list. -/
def ofList (l : List α) : MinHeap α :=
  ⟨l.insertionSort (· ≤ ·), l.pairwise_insertionSort (· ≤ ·)⟩

/-- A further entry. -/
def push (h : MinHeap α) (x : α) : MinHeap α :=
  ⟨h.entries.orderedInsert (· ≤ ·) x, h.sorted.orderedInsert x h.entries⟩

/-- The least entry and the heap of the others. -/
def pop (h : MinHeap α) : Option (α × MinHeap α) :=
  match h with
  | ⟨[], _⟩ => none
  | ⟨x :: xs, hs⟩ => some (x, ⟨xs, hs.of_cons⟩)

@[simp] lemma mem_ofList {x : α} {l : List α} : x ∈ ofList l ↔ x ∈ l :=
  List.mem_insertionSort (· ≤ ·)

@[simp] lemma size_ofList (l : List α) : (ofList l).size = l.length :=
  List.length_insertionSort (· ≤ ·) l

@[simp] lemma mem_push {x y : α} {h : MinHeap α} : y ∈ h.push x ↔ y = x ∨ y ∈ h :=
  List.mem_orderedInsert (· ≤ ·)

@[simp] lemma size_push (h : MinHeap α) (x : α) : (h.push x).size = h.size + 1 :=
  List.orderedInsert_length (· ≤ ·) h.entries x

lemma pop_eq_none {h : MinHeap α} (hp : h.pop = none) (x : α) : x ∉ h := by
  match h, hp with
  | ⟨[], _⟩, _ => exact List.not_mem_nil

/-- The entry popped is the least one, and the others stay. -/
lemma pop_eq_some {h h' : MinHeap α} {x : α} (hp : h.pop = some (x, h')) :
    (∀ y, y ∈ h ↔ y = x ∨ y ∈ h') ∧ (∀ y ∈ h, x ≤ y) ∧ h.size = h'.size + 1 := by
  match h, hp with
  | ⟨z :: zs, hs⟩, hp =>
      obtain ⟨rfl, rfl⟩ := by simpa [pop] using hp
      refine ⟨fun y => List.mem_cons, fun y hy => ?_, rfl⟩
      obtain rfl | hy := List.mem_cons.mp hy
      · exact le_rfl
      · exact List.rel_of_pairwise_cons hs hy

end MinHeap

end Machine
