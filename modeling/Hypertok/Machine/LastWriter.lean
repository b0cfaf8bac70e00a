import Mathlib.Data.List.AList
import Mathlib.Tactic

/-!
A map filled by a list of writes, of which the last write of a key stays.

* `lastValue`: the value that the last write gives. `lookup_foldl_insert` and
  `getElem?_foldl_set`: what an association list and a list of slots hold after the writes.
* `lastValue_filter`: the writes that come last can be chosen.
-/

namespace Machine

variable {α κ β : Type*} [DecidableEq κ]

/-- The value that the last of the writes gives a key. -/
def lastValue : List (κ × β) → κ → Option β
  | [], _ => none
  | x :: writes, k => (lastValue writes k).or (if x.1 = k then some x.2 else none)

variable {writes writes' : List (κ × β)} {k : κ} {v : β}

lemma lastValue_append :
    lastValue (writes ++ writes') k = (lastValue writes' k).or (lastValue writes k) := by
  induction writes with
  | nil => rw [List.nil_append, lastValue, Option.or_none]
  | cons x writes ih => rw [List.cons_append, lastValue, ih, lastValue, Option.or_assoc]

lemma mem_of_lastValue (h : lastValue writes k = some v) : (k, v) ∈ writes := by
  induction writes with
  | nil => cases h
  | cons x writes ih =>
      rw [lastValue, Option.or_eq_some_iff] at h
      obtain h | ⟨-, h⟩ := h
      · exact List.mem_cons_of_mem _ (ih h)
      · obtain ⟨rfl, hv⟩ := Option.ite_none_right_eq_some.mp h
        rw [← Option.some_inj.mp hv]
        exact List.mem_cons_self

lemma lastValue_eq_none : lastValue writes k = none ↔ ∀ v, (k, v) ∉ writes := by
  induction writes with
  | nil => simp [lastValue]
  | cons x writes ih =>
      rw [lastValue, Option.or_eq_none_iff, ih]
      constructor
      · rintro ⟨hwrites, hx⟩ v hv
        obtain rfl | hv := List.mem_cons.mp hv
        · simp at hx
        · exact hwrites v hv
      · intro h
        refine ⟨fun v hv => h v (List.mem_cons_of_mem _ hv), if_neg ?_⟩
        rintro rfl
        exact h x.2 List.mem_cons_self

lemma exists_lastValue (h : (k, v) ∈ writes) : ∃ v', lastValue writes k = some v' := by
  cases hlast : lastValue writes k with
  | none => exact absurd h (lastValue_eq_none.mp hlast v)
  | some v' => exact ⟨v', rfl⟩

/-- Where the writes of a key agree, it has their value. -/
lemma lastValue_eq (h : (k, v) ∈ writes) (hunique : ∀ v', (k, v') ∈ writes → v' = v) :
    lastValue writes k = some v := by
  obtain ⟨v', hv'⟩ := exists_lastValue h
  rw [hv', hunique v' (mem_of_lastValue hv')]

/-- The writes that come last can be chosen. -/
lemma lastValue_filter {l : List α} {f : α → κ × β} {p : α → Bool} {x : α} (hx : x ∈ l)
    (hp : p x = true)
    (hunique : ∀ y ∈ l, p y = true → (f y).1 = (f x).1 → (f y).2 = (f x).2) :
    lastValue ((l.filter (fun y => !p y) ++ l.filter p).map f) (f x).1 = some (f x).2 := by
  have hlast : lastValue ((l.filter p).map f) (f x).1 = some (f x).2 := by
    refine lastValue_eq (List.mem_map_of_mem (List.mem_filter.mpr ⟨hx, hp⟩)) fun v hv => ?_
    obtain ⟨y, hy, heq⟩ := List.mem_map.mp hv
    obtain ⟨hy, hpy⟩ := List.mem_filter.mp hy
    have hkey : (f y).1 = (f x).1 := by rw [heq]
    rw [← hunique y hy hpy hkey, heq]
  rw [List.map_append, lastValue_append, hlast, Option.some_or]

/-- A choice of the last writes is an order of them. -/
lemma perm_filter (l : List α) (p : α → Bool) :
    (l.filter (fun y => !p y) ++ l.filter p).Perm l :=
  List.perm_append_comm.trans (List.filter_append_perm p l)

/-- An association list after the writes. -/
lemma lookup_foldl_insert {m : AList fun _ : κ => β} :
    (writes.foldl (fun m x => m.insert x.1 x.2) m).lookup k =
      (lastValue writes k).or (m.lookup k) := by
  induction writes generalizing m with
  | nil => rfl
  | cons x writes ih =>
      rw [List.foldl_cons, ih, lastValue, Option.or_assoc]
      congr 1
      by_cases hx : x.1 = k
      · subst hx
        rw [AList.lookup_insert, if_pos rfl, Option.some_or]
      · rw [AList.lookup_insert_ne (Ne.symm hx), if_neg hx, Option.none_or]

/-- A list of slots after the writes. -/
lemma getElem?_foldl_set {writes : List (ℕ × β)} {slots : List β} {i : ℕ} (hi : i < slots.length) :
    (writes.foldl (fun slots x => slots.set x.1 x.2) slots)[i]? =
      (lastValue writes i).or slots[i]? := by
  induction writes generalizing slots with
  | nil => rfl
  | cons x writes ih =>
      rw [List.foldl_cons, ih (by rwa [List.length_set]), lastValue, Option.or_assoc]
      congr 1
      by_cases hx : x.1 = i
      · rw [if_pos hx, hx, List.getElem?_set_self hi, Option.some_or]
      · rw [if_neg hx, List.getElem?_set_ne hx, Option.none_or]

end Machine
