import Mathlib.Tactic

/-!
Cutting a list in pieces. What is in front of a position and what is behind it decide whether
there is a cut.

* `cut`: the pieces.
* `exists_of_mem_cut`: a piece lies between two cuts, or ends of the list.
* `cut_append`: a cut separates the pieces, if the cuts of neither side look across it.
* `cut_flatMap`: cuts between the images of elements are cuts between the elements.
-/

namespace Machine

variable {α β : Type*} {cutAt cutAt' : List α → List α → Bool}

/-- The pieces of `piece` and `back`, behind the last cut; `front` ends with `piece`. -/
def cutFrom (cutAt : List α → List α → Bool) : List α → List α → List α → List (List α)
  | _, [], [] => []
  | _, a :: piece, [] => [a :: piece]
  | front, [], b :: back => cutFrom cutAt (front ++ [b]) [b] back
  | front, a :: piece, b :: back =>
      if cutAt front (b :: back) then (a :: piece) :: cutFrom cutAt (front ++ [b]) [b] back
      else cutFrom cutAt (front ++ [b]) (a :: piece ++ [b]) back

/-- The pieces of a list. -/
def cut (cutAt : List α → List α → Bool) (s : List α) : List (List α) := cutFrom cutAt [] [] s

lemma cutFrom_nil {front piece : List α} (h : piece ≠ []) :
    cutFrom cutAt front piece [] = [piece] := by
  obtain ⟨a, piece, rfl⟩ := List.exists_cons_of_ne_nil h
  rw [cutFrom]

lemma cutFrom_cons_of_cut {front piece back : List α} {b : α} (h : piece ≠ [])
    (hcut : cutAt front (b :: back) = true) :
    cutFrom cutAt front piece (b :: back) = piece :: cutFrom cutAt (front ++ [b]) [b] back := by
  obtain ⟨a, piece, rfl⟩ := List.exists_cons_of_ne_nil h
  rw [cutFrom, if_pos hcut]

lemma cutFrom_cons_of_not {front piece back : List α} {b : α}
    (h : piece ≠ [] → cutAt front (b :: back) = false) :
    cutFrom cutAt front piece (b :: back) =
      cutFrom cutAt (front ++ [b]) (piece ++ [b]) back := by
  cases piece with
  | nil => rfl
  | cons a piece => rw [cutFrom, h (List.cons_ne_nil a piece), if_neg Bool.false_ne_true]

/-- Nothing is lost, and nothing is moved. -/
lemma flatten_cutFrom (front piece back : List α) :
    (cutFrom cutAt front piece back).flatten = piece ++ back := by
  induction back generalizing front piece with
  | nil =>
      cases piece with
      | nil => rfl
      | cons a piece => simp [cutFrom]
  | cons b back ih =>
      by_cases h : piece ≠ [] ∧ cutAt front (b :: back) = true
      · rw [cutFrom_cons_of_cut h.1 h.2, List.flatten_cons, ih, List.singleton_append]
      · rw [cutFrom_cons_of_not fun hne => Bool.eq_false_iff.mpr fun hc => h ⟨hne, hc⟩, ih,
          List.append_assoc, List.singleton_append]

@[simp] lemma flatten_cut (s : List α) : (cut cutAt s).flatten = s := flatten_cutFrom [] [] s

/-- A piece lies between two cuts. -/
lemma exists_of_mem_cutFrom {base piece back p : List α}
    (hbase : base = [] ∨ cutAt base (piece ++ back) = true)
    (hp : p ∈ cutFrom cutAt (base ++ piece) piece back) :
    p ≠ [] ∧ ∃ u w, base ++ piece ++ back = u ++ p ++ w ∧
      (u = [] ∨ cutAt u (p ++ w) = true) ∧ (w = [] ∨ cutAt (u ++ p) w = true) := by
  induction back generalizing base piece with
  | nil =>
      cases piece with
      | nil => cases hp
      | cons a piece =>
          obtain rfl := List.mem_singleton.mp (cutFrom_nil (List.cons_ne_nil a piece) ▸ hp)
          exact ⟨List.cons_ne_nil a piece, base, [], rfl, hbase, .inl rfl⟩
  | cons b back ih =>
      by_cases h : piece ≠ [] ∧ cutAt (base ++ piece) (b :: back) = true
      · rw [cutFrom_cons_of_cut h.1 h.2] at hp
        obtain rfl | hp := List.mem_cons.mp hp
        · exact ⟨h.1, base, b :: back, rfl, hbase, .inr h.2⟩
        · obtain ⟨hne, u, w, heq, hu, hw⟩ := @ih (base ++ piece) _ (.inr h.2) hp
          refine ⟨hne, u, w, ?_, hu, hw⟩
          rw [← heq, List.append_assoc _ [b], List.singleton_append]
      · rw [cutFrom_cons_of_not fun hne => Bool.eq_false_iff.mpr fun hc => h ⟨hne, hc⟩,
          List.append_assoc] at hp
        have hbase' : base = [] ∨ cutAt base ((piece ++ [b]) ++ back) = true := by
          rwa [List.append_assoc, List.singleton_append]
        obtain ⟨hne, u, w, heq, hu, hw⟩ := ih hbase' hp
        refine ⟨hne, u, w, ?_, hu, hw⟩
        rw [← heq]
        simp

lemma exists_of_mem_cut {s p : List α} (hp : p ∈ cut cutAt s) :
    p ≠ [] ∧ ∃ u w, s = u ++ p ++ w ∧
      (u = [] ∨ cutAt u (p ++ w) = true) ∧ (w = [] ∨ cutAt (u ++ p) w = true) :=
  @exists_of_mem_cutFrom _ _ [] [] _ _ (.inl rfl) hp

/-- Pieces depend on the cuts behind their start alone. -/
lemma cutFrom_congr {front front' piece back : List α}
    (h : ∀ u v, u ++ v = back → piece ++ u ≠ [] → v ≠ [] →
      cutAt (front ++ u) v = cutAt' (front' ++ u) v) :
    cutFrom cutAt front piece back = cutFrom cutAt' front' piece back := by
  induction back generalizing front front' piece with
  | nil => cases piece <;> rfl
  | cons b back ih =>
      have htail : ∀ piece', cutFrom cutAt (front ++ [b]) (piece' ++ [b]) back =
          cutFrom cutAt' (front' ++ [b]) (piece' ++ [b]) back := by
        refine fun piece' => ih fun u v huv _ hv => ?_
        have hb := h (b :: u) v (by rw [List.cons_append, huv]) (by simp) hv
        rwa [List.append_assoc, List.append_assoc, List.singleton_append]
      cases piece with
      | nil => exact htail []
      | cons a piece =>
          have hhere := h [] (b :: back) rfl (by simp) (List.cons_ne_nil b back)
          rw [List.append_nil, List.append_nil] at hhere
          rw [cutFrom, cutFrom, hhere, htail (a :: piece)]
          exact ite_congr rfl (fun _ => congrArg _ (htail [])) fun _ => rfl

/-- The pieces in front of a cut, and those behind it. -/
lemma cutFrom_append {front piece x y : List α} (hne : piece ++ x ≠ []) (hy : y ≠ [])
    (hcut : cutAt (front ++ x) y = true)
    (hx : ∀ u v, u ++ v = x → piece ++ u ≠ [] → v ≠ [] →
      cutAt (front ++ u) (v ++ y) = cutAt (front ++ u) v) :
    cutFrom cutAt front piece (x ++ y) =
      cutFrom cutAt front piece x ++ cutFrom cutAt (front ++ x) [] y := by
  induction x generalizing front piece with
  | nil =>
      obtain ⟨b, y, rfl⟩ := List.exists_cons_of_ne_nil hy
      rw [List.append_nil] at hne hcut ⊢
      rw [List.nil_append, cutFrom_nil hne, cutFrom_cons_of_cut hne hcut]
      rfl
  | cons b x ih =>
      have htail : ∀ piece', cutFrom cutAt (front ++ [b]) (piece' ++ [b]) (x ++ y) =
          cutFrom cutAt (front ++ [b]) (piece' ++ [b]) x ++
            cutFrom cutAt (front ++ b :: x) [] y := by
        intro piece'
        have hsplit : front ++ b :: x = front ++ [b] ++ x := by simp
        rw [hsplit] at hcut ⊢
        refine ih (by simp) hcut fun u v huv _ hv => ?_
        have hb := hx (b :: u) v (by rw [List.cons_append, huv]) (by simp) hv
        rwa [List.append_assoc, List.singleton_append]
      rw [List.cons_append]
      cases piece with
      | nil => exact htail []
      | cons a piece =>
          have hhere := hx [] (b :: x) rfl (by simp) (List.cons_ne_nil b x)
          rw [List.append_nil, List.cons_append] at hhere
          rw [cutFrom, cutFrom, hhere]
          by_cases hcut' : cutAt front (b :: x) = true
          · rw [if_pos hcut', if_pos hcut', List.cons_append]
            exact congrArg _ (htail [])
          · rw [if_neg hcut', if_neg hcut']
            exact htail (a :: piece)

/-- A cut separates the pieces, if the other cuts do not look across it. -/
theorem cut_append {x y : List α} (hx : x ≠ []) (hy : y ≠ []) (hcut : cutAt x y = true)
    (hleft : ∀ u v, u ++ v = x → u ≠ [] → v ≠ [] → cutAt u (v ++ y) = cutAt u v)
    (hright : ∀ u v, u ++ v = y → u ≠ [] → v ≠ [] → cutAt (x ++ u) v = cutAt u v) :
    cut cutAt (x ++ y) = cut cutAt x ++ cut cutAt y := by
  have happend := @cutFrom_append _ _ [] [] _ _ hx hy hcut hleft
  rw [cut, happend]
  exact congrArg _ (cutFrom_congr hright)

/-- No cut is inside `v`. -/
lemma cutFrom_append_of_not {front piece v back : List α}
    (h : ∀ u w, u ++ w = v → piece ++ u ≠ [] → w ≠ [] → cutAt (front ++ u) (w ++ back) = false) :
    cutFrom cutAt front piece (v ++ back) = cutFrom cutAt (front ++ v) (piece ++ v) back := by
  induction v generalizing front piece with
  | nil => rw [List.nil_append, List.append_nil, List.append_nil]
  | cons b v ih =>
      have hnot : piece ≠ [] → cutAt front (b :: (v ++ back)) = false := by
        intro hne
        have hb := h [] (b :: v) rfl (by rwa [List.append_nil]) (List.cons_ne_nil b v)
        rwa [List.append_nil, List.cons_append] at hb
      rw [List.cons_append, cutFrom_cons_of_not hnot, ih]
      · simp
      · intro u w huw _ hw
        have hb := h (b :: u) w (by rw [List.cons_append, huw]) (by simp) hw
        rwa [List.append_assoc, List.singleton_append]

section

variable {f : β → List α} {cutElem : List β → List β → Bool} (hf : ∀ b, f b ≠ [])
  (houter : ∀ (front : List β) b (back : List β),
    cutAt (front.flatMap f) ((b :: back).flatMap f) = cutElem front (b :: back))
  (hinner : ∀ (front : List β) b (back : List β) u v, u ++ v = f b → u ≠ [] → v ≠ [] →
    cutAt (front.flatMap f ++ u) (v ++ back.flatMap f) = false)
include hf houter hinner

lemma cutFrom_flatMap (front piece back : List β) :
    cutFrom cutAt (front.flatMap f) (piece.flatMap f) (back.flatMap f) =
      (cutFrom cutElem front piece back).map (List.flatMap f) := by
  have hne : ∀ {s : List β}, s ≠ [] → s.flatMap f ≠ [] := by
    intro s hs
    obtain ⟨b, s, rfl⟩ := List.exists_cons_of_ne_nil hs
    rw [List.flatMap_cons]
    exact List.append_ne_nil_of_left_ne_nil (hf b) _
  induction back generalizing front piece with
  | nil =>
      cases piece with
      | nil => rfl
      | cons b piece =>
          rw [List.flatMap_nil, cutFrom_nil (hne (List.cons_ne_nil b piece)), cutFrom]
          rfl
  | cons b back ih =>
      have hb := houter front b back
      obtain ⟨a, v, hv⟩ := List.exists_cons_of_ne_nil (hf b)
      have hnext : ∀ piece', cutFrom cutAt (front.flatMap f ++ f b) (piece'.flatMap f ++ f b)
          (back.flatMap f) = (cutFrom cutElem (front ++ [b]) (piece' ++ [b]) back).map
            (List.flatMap f) := by
        intro piece'
        have hstep := ih (front ++ [b]) (piece' ++ [b])
        rwa [List.flatMap_append, List.flatMap_append, List.flatMap_singleton] at hstep
      by_cases hcut : piece ≠ [] ∧ cutElem front (b :: back) = true
      · have hrest : cutFrom cutAt (front.flatMap f ++ [a]) [a] (v ++ back.flatMap f) =
            cutFrom cutAt (front.flatMap f ++ f b) (f b) (back.flatMap f) := by
          rw [cutFrom_append_of_not, hv, List.append_assoc]
          · rfl
          · intro u w huw _ hw
            have hin := hinner front b back (a :: u) w
              (by rw [hv, List.cons_append, huw]) (List.cons_ne_nil a u) hw
            rwa [List.append_assoc, List.singleton_append]
        rw [hcut.2] at hb
        have hfirst := hnext []
        rw [List.flatMap_nil, List.nil_append, List.nil_append] at hfirst
        rw [cutFrom_cons_of_cut hcut.1 hcut.2, List.map_cons, ← hfirst, ← hrest]
        rw [List.flatMap_cons, hv, List.cons_append] at hb ⊢
        exact cutFrom_cons_of_cut (hne hcut.1) hb
      · have hnot : piece ≠ [] → cutElem front (b :: back) = false :=
          fun hne' => Bool.eq_false_iff.mpr fun hc => hcut ⟨hne', hc⟩
        rw [cutFrom_cons_of_not hnot, ← hnext piece, List.flatMap_cons, cutFrom_append_of_not]
        intro u w huw hu hw
        cases u with
        | nil =>
            rw [List.append_nil] at hu ⊢
            rw [List.nil_append] at huw
            have hpiece : piece ≠ [] := by
              rintro rfl
              exact hu rfl
            rw [huw, ← List.flatMap_cons, hb, hnot hpiece]
        | cons a u => exact hinner front b back (a :: u) w huw (List.cons_ne_nil a u) hw

/-- Where no cut is inside the image of an element, the pieces are those of the elements. -/
theorem cut_flatMap (s : List β) :
    cut cutAt (s.flatMap f) = (cut cutElem s).map (List.flatMap f) :=
  cutFrom_flatMap hf houter hinner [] [] s

end

end Machine
