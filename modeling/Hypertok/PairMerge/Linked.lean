import Hypertok.Machine.Loop
import Hypertok.PairMerge.Basic

/-!
A word held in an array of symbols and a doubly linked list over index arrays.

The cells of the list are the positions that are still alive, with their
symbols, in increasing order. Merging a pair writes the product over the left
cell and unlinks the right one.

* `Linked`: the arrays `next`, `prev` and `syms` hold a given list of cells.
* `Linked.unlink`: what the assignments of a merge do to the cells.
* `step_of_min`: merging the pair of minimal rank and, among these, of minimal
  position is a step of the reference algorithm.
* `Compacting`: the symbols of the cells can be copied to the front of the array
  in place, because no cell lies before the place it is copied to.
-/

namespace PairMerge

open Machine

variable {α : Type*}

/-- The position of the first cell, `stop` if there is none. -/
def headPos (stop : ℕ) : List (ℕ × α) → ℕ
  | [] => stop
  | x :: _ => x.1

/-- The position of the last cell, `start` if there is none. -/
def lastPos (start : ℕ) (cells : List (ℕ × α)) : ℕ := headPos start cells.reverse

@[simp] lemma headPos_nil (stop : ℕ) : headPos stop ([] : List (ℕ × α)) = stop := rfl

@[simp] lemma headPos_cons (stop : ℕ) (x : ℕ × α) (vs : List (ℕ × α)) :
    headPos stop (x :: vs) = x.1 := rfl

@[simp] lemma lastPos_nil (start : ℕ) : lastPos start ([] : List (ℕ × α)) = start := rfl

@[simp] lemma lastPos_append_cons (start : ℕ) (us vs : List (ℕ × α)) (x : ℕ × α) :
    lastPos start (us ++ x :: vs) = lastPos x.1 vs := by
  rcases List.eq_nil_or_concat vs with rfl | ⟨ws, y, rfl⟩ <;> simp [lastPos]

@[simp] lemma lastPos_cons (start : ℕ) (x : ℕ × α) (vs : List (ℕ × α)) :
    lastPos start (x :: vs) = lastPos x.1 vs :=
  lastPos_append_cons start [] vs x

lemma headPos_of_head? {stop : ℕ} {vs : List (ℕ × α)} {x : ℕ × α} (h : x ∈ vs.head?) :
    headPos stop vs = x.1 := by
  obtain ⟨vs, rfl⟩ := List.head?_eq_some_iff.mp h
  rfl

lemma lastPos_of_getLast? {start : ℕ} {us : List (ℕ × α)} {x : ℕ × α} (h : x ∈ us.getLast?) :
    lastPos start us = x.1 :=
  headPos_of_head? (by rwa [List.head?_reverse])

/-- A pointer other than `stop` leads to a cell. -/
lemma exists_of_headPos_ne {stop : ℕ} {vs : List (ℕ × α)} (h : headPos stop vs ≠ stop) :
    ∃ x ∈ vs.head?, headPos stop vs = x.1 := by
  cases vs with
  | nil => simp at h
  | cons x vs => exact ⟨x, rfl, rfl⟩

lemma exists_of_lastPos_ne {start : ℕ} {us : List (ℕ × α)} (h : lastPos start us ≠ start) :
    ∃ x ∈ us.getLast?, lastPos start us = x.1 := by
  obtain ⟨x, hx, heq⟩ := exists_of_headPos_ne h
  exact ⟨x, by rwa [← List.head?_reverse], heq⟩

/-- Two ways to single out an element of a list. -/
lemma append_cons_eq_append_cons {β : Type*} {us us' vs vs' : List β} {x x' : β}
    (h : us ++ x :: vs = us' ++ x' :: vs') :
    (∃ w, us = us' ++ x' :: w ∧ vs' = w ++ x :: vs) ∨ (us = us' ∧ x = x' ∧ vs = vs') ∨
      ∃ w, us' = us ++ x :: w ∧ vs = w ++ x' :: vs' := by
  obtain ⟨w, h₁, h₂⟩ | ⟨w, h₁, h₂⟩ := List.append_eq_append_iff.mp h
  · cases w with
    | nil => simp_all
    | cons y w =>
        obtain ⟨rfl, rfl⟩ := by simpa using h₂
        exact .inr (.inr ⟨w, h₁, rfl⟩)
  · cases w with
    | nil => simp_all
    | cons y w =>
        obtain ⟨rfl, rfl⟩ := by simpa using h₂
        exact .inl ⟨w, h₁, rfl⟩

/-- An element other than the last one has a neighbour. -/
lemma exists_append_of_mem_dropLast {β : Type*} {l : List β} {x : β} (h : x ∈ l.dropLast) :
    ∃ us y vs, l = us ++ x :: y :: vs := by
  have hl : l ≠ [] := by
    rintro rfl
    simp at h
  obtain ⟨us, vs, hsplit⟩ := List.append_of_mem h
  have hlast : l = us ++ x :: (vs ++ [l.getLast hl]) := by
    rw [← List.cons_append, ← List.append_assoc, ← hsplit, List.dropLast_append_getLast]
  cases vs with
  | nil => exact ⟨us, _, [], hlast⟩
  | cons y vs => exact ⟨us, y, _, hlast⟩

/-- Merging the pair of minimal rank and, among these, of minimal position is a
step. -/
theorem step_of_min {ρ : Type*} [LinearOrder ρ] {M : Table ρ α} {us vs : List (ℕ × α)}
    {i d : ℕ} {a b c : α} {r : ρ}
    (hinc : ((us ++ (i, a) :: (d, b) :: vs).map Prod.fst).Pairwise (· < ·))
    (hab : M a b = some (r, c))
    (hmin : ∀ us' x y vs', us ++ (i, a) :: (d, b) :: vs = us' ++ x :: y :: vs' →
      ∀ q ∈ M x.2 y.2, r < q.1 ∨ r = q.1 ∧ i ≤ x.1) :
    Step M ((us ++ (i, a) :: (d, b) :: vs).map Prod.snd)
      ((us ++ (i, c) :: vs).map Prod.snd) := by
  have hleft : Above M r ((us ++ [(i, a)]).map Prod.snd) := by
    refine (List.isChain_map _).mpr (List.isChain_iff_forall_rel_of_append_cons_cons.mpr ?_)
    intro x y us' vs' h q hq
    have hsplit : us ++ (i, a) :: (d, b) :: vs = us' ++ x :: y :: (vs' ++ (d, b) :: vs) := by
      have := congrArg (· ++ (d, b) :: vs) h
      simpa using this
    have hxi : x.1 < i := by
      have hx : x ∈ us := by
        obtain ⟨w, rfl, -⟩ | ⟨-, -, h⟩ | ⟨w, -, h⟩ := append_cons_eq_append_cons h
        · simp
        · cases h
        · simp at h
      simp only [List.map_append, List.map_cons, List.pairwise_append] at hinc
      exact hinc.2.2 x.1 (List.mem_map_of_mem hx) i (by simp)
    rcases hmin _ _ _ _ hsplit q hq with hlt | ⟨-, hle⟩
    · exact hlt
    · omega
  have hright : AtLeast M r (((d, b) :: vs).map Prod.snd) := by
    refine (List.isChain_map _).mpr (List.isChain_iff_forall_rel_of_append_cons_cons.mpr ?_)
    intro x y us' vs' h q hq
    rcases hmin (us ++ (i, a) :: us') x y vs' (by simp [h]) q hq with hlt | ⟨heq, -⟩
    · exact hlt.le
    · exact heq.le
  simp only [List.map_append, List.map_cons, List.map_nil] at hleft hright ⊢
  exact .merge hab hleft hright

/-- The arrays hold the cells: a cell points to the next one and to the previous
one, the last to `stop` and the first back to `start`. -/
structure Linked (next prev : List ℕ) (syms : List α) (start stop : ℕ)
    (cells : List (ℕ × α)) : Prop where
  increasing : (cells.map Prod.fst).Pairwise (· < ·)
  sym : ∀ x ∈ cells, syms[x.1]? = some x.2
  next : ∀ us x vs, cells = us ++ x :: vs → next[x.1]? = some (headPos stop vs)
  prev : ∀ us x vs, cells = us ++ x :: vs → prev[x.1]? = some (lastPos start us)

/-- The pointers back to the right cell of a merged pair, redirected to the left
cell `i`. -/
def relink (i : ℕ) (vs : List (ℕ × α)) (prev : List ℕ) : List ℕ :=
  match vs with
  | [] => prev
  | y :: _ => prev.set y.1 i

@[simp] lemma relink_nil (i : ℕ) (prev : List ℕ) : relink i ([] : List (ℕ × α)) prev = prev := rfl

@[simp] lemma relink_cons (i : ℕ) (y : ℕ × α) (vs : List (ℕ × α)) (prev : List ℕ) :
    relink i (y :: vs) prev = prev.set y.1 i := rfl

@[simp] lemma length_relink (i : ℕ) (vs : List (ℕ × α)) (prev : List ℕ) :
    (relink i vs prev).length = prev.length := by
  cases vs <;> simp

namespace Linked

variable {next prev : List ℕ} {syms : List α} {start stop : ℕ} {us vs cells : List (ℕ × α)}
  {x : ℕ × α} {i d : ℕ} {a b : α}

/-- Positions before and after a cell. -/
lemma lt_of_mem (h : Linked next prev syms start stop (us ++ x :: vs)) :
    (∀ y ∈ us, y.1 < x.1) ∧ ∀ y ∈ vs, x.1 < y.1 := by
  have := h.increasing
  simp only [List.map_append, List.map_cons, List.pairwise_append, List.pairwise_cons,
    List.mem_map, List.mem_cons] at this
  exact ⟨fun y hy => this.2.2 _ ⟨y, hy, rfl⟩ _ (.inl rfl), fun y hy => this.2.1.1 _ ⟨y, hy, rfl⟩⟩

/-- A position has one cell. -/
lemma eq_of_pos (h : Linked next prev syms start stop (us ++ x :: vs)) {us' vs' : List (ℕ × α)}
    {y : ℕ × α} (hy : us ++ x :: vs = us' ++ y :: vs') (hpos : y.1 = x.1) :
    us = us' ∧ x = y ∧ vs = vs' := by
  obtain ⟨w, rfl, -⟩ | heq | ⟨w, rfl, rfl⟩ := append_cons_eq_append_cons hy
  · exact absurd hpos (h.lt_of_mem.1 y (by simp)).ne
  · exact heq
  · exact absurd hpos (h.lt_of_mem.2 y (by simp)).ne'

/-- A cell off the list may point anywhere. -/
lemma set_next (h : Linked next prev syms start stop cells) (hd : ∀ x ∈ cells, x.1 ≠ d) (q : ℕ) :
    Linked (next.set d q) prev syms start stop cells where
  increasing := h.increasing
  sym := h.sym
  prev := h.prev
  next us x vs hx := by
    rw [List.getElem?_set_ne (hd x (by simp [hx])).symm]
    exact h.next us x vs hx

lemma set_prev (h : Linked next prev syms start stop cells) (hd : ∀ x ∈ cells, x.1 ≠ d) (q : ℕ) :
    Linked next (prev.set d q) syms start stop cells where
  increasing := h.increasing
  sym := h.sym
  next := h.next
  prev us x vs hx := by
    rw [List.getElem?_set_ne (hd x (by simp [hx])).symm]
    exact h.prev us x vs hx

/-- Merging the cells at `i` and `d` into one cell at `i`. -/
theorem unlink (h : Linked next prev syms start stop (us ++ (i, a) :: (d, b) :: vs)) (c : α) :
    Linked (next.set i (headPos stop vs)) (relink i vs prev) (syms.set i c) start stop
      (us ++ (i, c) :: vs) := by
  have hi := h.lt_of_mem
  have hd := (show Linked next prev syms start stop ((us ++ [(i, a)]) ++ (d, b) :: vs) by
    simpa using h).lt_of_mem
  have hid : i < d := hi.2 (d, b) (by simp)
  refine ⟨?_, ?_, ?_, ?_⟩
  · have := h.increasing
    simp only [List.map_append, List.map_cons, List.pairwise_append, List.pairwise_cons,
      List.mem_cons] at this ⊢
    exact ⟨this.1, ⟨fun p hp => this.2.1.1 p (.inr hp), this.2.1.2.2⟩,
      fun p hp q hq => this.2.2 p hp q (by tauto)⟩
  · intro y hy
    simp only [List.mem_append, List.mem_cons] at hy
    obtain hy | rfl | hy := hy
    · rw [List.getElem?_set_ne (hi.1 y hy).ne']
      exact h.sym y (by simp [hy])
    · exact getElem?_set_self' (h.sym (i, a) (by simp)) c
    · rw [List.getElem?_set_ne (hi.2 y (by simp [hy])).ne]
      exact h.sym y (by simp [hy])
  · intro us' x' vs' hx
    obtain ⟨w, rfl, rfl⟩ | ⟨rfl, rfl, rfl⟩ | ⟨w, rfl, rfl⟩ := append_cons_eq_append_cons hx
    · rw [List.getElem?_set_ne (hi.1 x' (by simp)).ne',
        h.next us' x' (w ++ (i, a) :: (d, b) :: vs) (by simp)]
      cases w <;> simp
    · exact getElem?_set_self' (h.next us (i, a) _ rfl) _
    · rw [List.getElem?_set_ne (hi.2 x' (by simp)).ne]
      exact h.next (us ++ (i, a) :: (d, b) :: w) x' vs' (by simp)
  · -- Only the cell after the pair gets a new predecessor.
    have hfix : ∀ p, (∀ y ∈ vs, p < y.1) → (relink i vs prev)[p]? = prev[p]? := by
      intro p hp
      cases vs with
      | nil => rfl
      | cons y vs => exact List.getElem?_set_ne (hp y (by simp)).ne'
    intro us' x' vs' hx
    obtain ⟨w, rfl, rfl⟩ | ⟨rfl, rfl, rfl⟩ | ⟨w, rfl, rfl⟩ := append_cons_eq_append_cons hx
    · have hx' := hi.1 x' (by simp)
      rw [hfix _ fun y hy => hx'.trans (hi.2 y (by simp [hy]))]
      exact h.prev us' x' (w ++ (i, a) :: (d, b) :: vs) (by simp)
    · rw [hfix _ fun y hy => hi.2 y (by simp [hy])]
      exact h.prev us (i, a) _ rfl
    · have hprev := h.prev (us ++ (i, a) :: (d, b) :: w) x' vs' (by simp)
      cases w with
      | nil => exact (getElem?_set_self' hprev i).trans (by simp)
      | cons y w =>
          have hy : y.1 < x'.1 := by
            have := h.increasing
            simp only [List.map_append, List.map_cons, List.pairwise_append, List.pairwise_cons,
              List.mem_cons, List.cons_append] at this
            exact this.2.1.2.2.1 _ (by simp)
          simpa [List.getElem?_set_ne hy.ne] using hprev

/-- The unlinked position is not on the list. -/
lemma off_unlink (h : Linked next prev syms start stop (us ++ (i, a) :: (d, b) :: vs)) (c : α) :
    ∀ x ∈ us ++ (i, c) :: vs, x.1 ≠ d := by
  have hd := (show Linked next prev syms start stop ((us ++ [(i, a)]) ++ (d, b) :: vs) by
    simpa using h).lt_of_mem
  intro x hx
  simp only [List.mem_append, List.mem_cons] at hx
  obtain hx | rfl | hx := hx
  · exact (hd.1 x (by simp [hx])).ne
  · exact (hd.1 (i, a) (by simp)).ne
  · exact (hd.2 x hx).ne'

/-- The adjacent cells after a merge: the merged cell with either neighbour, and
the pairs of cells that were adjacent before and touch neither cell of the merged
pair nor start at its left neighbour. -/
lemma pair_unlink (h : Linked next prev syms start stop (us ++ (i, a) :: (d, b) :: vs)) {c : α}
    {us' vs' : List (ℕ × α)} {x y : ℕ × α} (hx : us ++ (i, c) :: vs = us' ++ x :: y :: vs') :
    (x ∈ us.getLast? ∧ y = (i, c)) ∨ (x = (i, c) ∧ y ∈ vs.head?) ∨
      (x.1 ≠ i ∧ x.1 ≠ d ∧ ∀ z ∈ us.getLast?, z.1 ≠ x.1) ∧
        ∃ us'' vs'', us ++ (i, a) :: (d, b) :: vs = us'' ++ x :: y :: vs'' := by
  have hi := h.lt_of_mem
  have hd := (show Linked next prev syms start stop ((us ++ [(i, a)]) ++ (d, b) :: vs) by
    simpa using h).lt_of_mem
  have hid : i < d := hi.2 (d, b) (by simp)
  obtain ⟨w, rfl, hw⟩ | ⟨rfl, rfl, rfl⟩ | ⟨w, rfl, rfl⟩ := append_cons_eq_append_cons hx
  · cases w with
    | nil =>
        obtain ⟨rfl, rfl⟩ := by simpa using hw
        exact .inl ⟨by simp, rfl⟩
    | cons z w =>
        obtain ⟨rfl, rfl⟩ := by simpa using hw
        have hxi := hi.1 x (by simp)
        have hxy := (show Linked next prev syms start stop
          (us' ++ x :: (y :: w ++ (i, a) :: (d, b) :: vs)) by simpa using h).lt_of_mem.2
        refine .inr (.inr ⟨⟨hxi.ne, (hxi.trans hid).ne, fun z hz => (hxy z ?_).ne'⟩,
          us', w ++ (i, a) :: (d, b) :: vs, by simp⟩)
        have := List.mem_of_getLast? (show (y :: w).getLast? = some z by simpa using hz)
        simp only [List.cons_append, List.mem_cons, List.mem_append] at this ⊢
        tauto
  · exact .inr (.inl ⟨rfl, by simp⟩)
  · have hdx := hd.2 x (by simp)
    exact .inr (.inr ⟨⟨(hid.trans hdx).ne', hdx.ne',
      fun z hz => ((hi.1 z (List.mem_of_getLast? hz)).trans (hid.trans hdx)).ne⟩,
      us ++ (i, a) :: (d, b) :: w, vs', by simp⟩)

end Linked

/-! ### The list before the first merge -/

/-- Every symbol of the word in a cell of its own. -/
def initCells (word : List α) : List (ℕ × α) := (List.range word.length).zip word

@[simp] lemma length_initCells (word : List α) : (initCells word).length = word.length := by
  simp [initCells]

@[simp] lemma map_snd_initCells (word : List α) : (initCells word).map Prod.snd = word :=
  List.map_snd_zip (by simp)

@[simp] lemma map_fst_initCells (word : List α) :
    (initCells word).map Prod.fst = List.range word.length :=
  List.map_fst_zip (by simp)

lemma initCells_getElem? {word : List α} {k : ℕ} {x : ℕ × α}
    (h : (initCells word)[k]? = some x) : x.1 = k ∧ word[k]? = some x.2 := by
  obtain ⟨h₁, h₂⟩ := List.getElem?_zip_eq_some.mp h
  obtain ⟨hk, hx⟩ := List.getElem?_eq_some_iff.mp h₁
  exact ⟨by simpa using hx.symm, h₂⟩

lemma headPos_initCells (stop : ℕ) {word : List α} (h : 0 < word.length) :
    headPos stop (initCells word) = 0 := by
  cases word with
  | nil => simp at h
  | cons a word => simp [initCells, List.range_succ_eq_map]

/-- Adjacent cells hold adjacent symbols. -/
lemma initCells_pair {word : List α} {us vs : List (ℕ × α)} {x y : ℕ × α}
    (h : initCells word = us ++ x :: y :: vs) :
    x.1 = us.length ∧ word[us.length]? = some x.2 ∧ word[us.length + 1]? = some y.2 := by
  obtain ⟨hx, hx'⟩ := initCells_getElem?
    (show (initCells word)[us.length]? = some x by simp [h])
  obtain ⟨-, hy'⟩ := initCells_getElem?
    (show (initCells word)[us.length + 1]? = some y by simp [h])
  exact ⟨hx, hx', hy'⟩

/-- Every position but the last starts a pair. -/
lemma mem_dropLast_initCells {word : List α} {j : ℕ} (hj : j + 1 < word.length) :
    j ∈ (initCells word).dropLast.map Prod.fst := by
  rw [List.map_dropLast, map_fst_initCells]
  obtain ⟨n, hn⟩ : ∃ n, word.length = n + 1 := ⟨word.length - 1, by omega⟩
  rw [hn, List.range_succ, List.dropLast_concat]
  exact List.mem_range.mpr (by omega)

/-- The pointers of a list of consecutive cells. -/
theorem linked_initCells {next prev : List ℕ} {syms word : List α} {start stop : ℕ}
    (hsym : word <+: syms)
    (hnext : ∀ i < word.length, next[i]? = some (if i + 1 < word.length then i + 1 else stop))
    (hprev : ∀ i < word.length, prev[i]? = some (if i = 0 then start else i - 1)) :
    Linked next prev syms start stop (initCells word) := by
  have hmem : ∀ x ∈ initCells word, word[x.1]? = some x.2 := by
    intro x hx
    obtain ⟨k, hk⟩ := List.getElem?_of_mem hx
    obtain ⟨rfl, h⟩ := initCells_getElem? hk
    exact h
  refine ⟨by simpa using List.pairwise_lt_range, fun x hx => ?_, fun us x vs h => ?_,
    fun us x vs h => ?_⟩
  · obtain ⟨ws, rfl⟩ := hsym
    rw [List.getElem?_append_left (List.getElem?_eq_some_iff.mp (hmem x hx)).1]
    exact hmem x hx
  · have hlen := congrArg List.length h
    obtain ⟨hx, -⟩ := initCells_getElem? (show (initCells word)[us.length]? = some x by simp [h])
    simp only [length_initCells, List.length_append, List.length_cons] at hlen
    rw [hx, hnext _ (by omega)]
    cases vs with
    | nil => simp [hlen]
    | cons y vs =>
        obtain ⟨hy, -⟩ := initCells_getElem?
          (show (initCells word)[us.length + 1]? = some y by simp [h])
        simp [hlen, hy]
  · have hlen := congrArg List.length h
    obtain ⟨hx, -⟩ := initCells_getElem? (show (initCells word)[us.length]? = some x by simp [h])
    simp only [length_initCells, List.length_append, List.length_cons] at hlen
    rw [hx, hprev _ (by omega)]
    rcases List.eq_nil_or_concat us with rfl | ⟨us, y, rfl⟩
    · simp
    · obtain ⟨hy, -⟩ := initCells_getElem?
        (show (initCells word)[us.length]? = some y by simp [h])
      simp [hy]

/-! ### Compaction in place -/

/-- The symbols `done` have been copied to the front of the array, and the cells
of `rest` have not been overwritten. -/
structure Compacting (syms done : List α) (rest : List (ℕ × α)) : Prop where
  copied : done <+: syms
  sym : ∀ x ∈ rest, syms[x.1]? = some x.2
  increasing : (rest.map Prod.fst).Pairwise (· < ·)
  le : ∀ x ∈ rest, done.length ≤ x.1

lemma Linked.compacting {next prev : List ℕ} {syms : List α} {start stop : ℕ}
    {cells : List (ℕ × α)} (h : Linked next prev syms start stop cells) :
    Compacting syms [] cells :=
  ⟨List.nil_prefix, h.sym, h.increasing, by simp⟩

namespace Compacting

variable {syms done : List α} {rest : List (ℕ × α)} {x : ℕ × α}

/-- The copy of one symbol. -/
lemma copy (h : Compacting syms done (x :: rest)) :
    Compacting (syms.set done.length x.2) (done ++ [x.2]) rest := by
  have hle : done.length ≤ x.1 := h.le x (by simp)
  have hlt : ∀ y ∈ rest, x.1 < y.1 := fun y hy =>
    (List.pairwise_cons.mp h.increasing).1 y.1 (List.mem_map_of_mem hy)
  have hx : x.1 < syms.length := (List.getElem?_eq_some_iff.mp (h.sym x (by simp))).1
  refine ⟨?_, ?_, (List.pairwise_cons.mp h.increasing).2, ?_⟩
  · obtain ⟨ws, rfl⟩ := h.copied
    cases ws with
    | nil => simp at hx; omega
    | cons w ws => exact ⟨ws, by simp⟩
  · intro y hy
    rw [List.getElem?_set_ne (hle.trans_lt (hlt y hy)).ne]
    exact h.sym y (by simp [hy])
  · intro y hy
    have := hlt y hy
    simp
    omega

/-- The place of the next copy lies in the array. -/
lemma length_lt (h : Compacting syms done (x :: rest)) : done.length < syms.length :=
  (h.le x (by simp)).trans_lt (List.getElem?_eq_some_iff.mp (h.sym x (by simp))).1

lemma take_eq (h : Compacting syms done rest) : syms.take done.length = done :=
  (List.prefix_iff_eq_take.mp h.copied).symm

end Compacting

end PairMerge
