import Hypertok.Machine.Utf8

/-!
Leftmost-longest matching of patterns in a text, as an automaton of all patterns does it: the match
starts as far left as any, and is the longest there; of two equal patterns the first is reported.

* `longestAt`, `findFirst`: the match at the front of a text, and the first one behind a gap.
* `findFirst_append`: a text in two parts, where the match lies in the first, in the second, or
  across.
* `exists_text_of_append`: a text in the UTF-8 bytes of a text is a part of the text.
-/

namespace Machine

universe u v

section

variable {α : Type u} {β : Type v} [DecidableEq α] (content : β → List α)

/-- The longer of two patterns, or the first. -/
def longer (best : Option β) (p : β) : Option β :=
  match best with
  | none => some p
  | some q => if (content q).length < (content p).length then some p else some q

/-- The longest pattern at the front of a text. -/
def longestAt (patterns : List β) (x : List α) : Option β :=
  (patterns.filter fun p => (content p).isPrefixOf x).foldl (longer content) none

/-- The gap before the first match, the pattern, and what is behind the match. -/
def findFirst (patterns : List β) : List α → Option (List α × β × List α)
  | [] => none
  | a :: x =>
      match longestAt content patterns (a :: x) with
      | some p => some ([], p, (a :: x).drop (content p).length)
      | none => (findFirst patterns x).map fun (gap, p, rest) => (a :: gap, p, rest)

variable {content} {patterns : List β} {p : β} {x y gap rest : List α}

omit [DecidableEq α] in
lemma foldl_longer (ps : List β) (best : Option β) :
    (ps.foldl (longer content) best = none → best = none ∧ ps = []) ∧
      ∀ p, ps.foldl (longer content) best = some p → (p ∈ ps ∨ best = some p) ∧
        ∀ q, (q ∈ ps ∨ best = some q) → (content q).length ≤ (content p).length := by
  induction ps generalizing best with
  | nil =>
      refine ⟨fun h => ⟨h, rfl⟩, fun p h => ⟨.inr h, ?_⟩⟩
      rintro q (hq | hq)
      · cases hq
      · rw [List.foldl_nil, hq, Option.some_inj] at h
        rw [h]
  | cons r ps ih =>
      rw [List.foldl_cons]
      obtain ⟨s, hs⟩ : ∃ s, longer content best r = some s := by
        cases best with
        | none => exact ⟨r, rfl⟩
        | some q => rw [longer]; split_ifs <;> exact ⟨_, rfl⟩
      have hbest : (s = r ∨ best = some s) ∧
          ∀ q, (q = r ∨ best = some q) → (content q).length ≤ (content s).length := by
        cases best with
        | none =>
            obtain rfl : r = s := Option.some_inj.mp hs
            simp
        | some q =>
            rw [longer] at hs
            split_ifs at hs with hlt <;> obtain rfl := Option.some_inj.mp hs <;> simp <;> omega
      rw [hs]
      refine ⟨fun h => absurd ((ih (some s)).1 h).1 (Option.some_ne_none s), fun p h => ?_⟩
      obtain ⟨hmem, hmax⟩ := (ih (some s)).2 p h
      constructor
      · rcases hmem with hmem | hmem
        · exact .inl (List.mem_cons_of_mem r hmem)
        · obtain rfl := Option.some_inj.mp hmem
          exact hbest.1.imp (fun h => by rw [h]; exact List.mem_cons_self) id
      · rintro q (hq | hq)
        · obtain rfl | hq := List.mem_cons.mp hq
          · exact (hbest.2 q (.inl rfl)).trans (hmax s (.inr rfl))
          · exact hmax q (.inl hq)
        · exact (hbest.2 q (.inr hq)).trans (hmax s (.inr rfl))

lemma longestAt_eq_none : longestAt content patterns x = none ↔
    ∀ p ∈ patterns, ¬ content p <+: x := by
  constructor
  · intro h p hp hprefix
    have hnil := ((foldl_longer _ none).1 h).2
    have hmem : p ∈ patterns.filter fun p => (content p).isPrefixOf x :=
      List.mem_filter.mpr ⟨hp, List.isPrefixOf_iff_prefix.mpr hprefix⟩
    rw [hnil] at hmem
    cases hmem
  · intro h
    rw [longestAt, List.filter_eq_nil_iff.mpr fun p hp =>
      List.isPrefixOf_iff_prefix.not.mpr (h p hp)]
    rfl

lemma of_longestAt (h : longestAt content patterns x = some p) :
    p ∈ patterns ∧ content p <+: x := by
  have hmem := ((foldl_longer _ none).2 p h).1.resolve_right (Option.some_ne_none p).symm
  obtain ⟨hp, hprefix⟩ := List.mem_filter.mp hmem
  exact ⟨hp, List.isPrefixOf_iff_prefix.mp hprefix⟩

/-- The patterns that can match decide. -/
lemma longestAt_congr (h : ∀ p ∈ patterns, content p <+: x ↔ content p <+: y) :
    longestAt content patterns x = longestAt content patterns y := by
  rw [longestAt, longestAt]
  refine congrArg _ (List.filter_congr fun p hp => ?_)
  rw [Bool.eq_iff_iff, List.isPrefixOf_iff_prefix, List.isPrefixOf_iff_prefix]
  exact h p hp

/-- A match that ends before the border is that of the text before it. -/
lemma longestAt_append (h : longestAt content patterns (x ++ y) = some p)
    (hlen : (content p).length ≤ x.length) : longestAt content patterns x = some p := by
  rw [← h]
  refine longestAt_congr fun q hq => ⟨fun hx => hx.trans (List.prefix_append x y), fun hxy => ?_⟩
  have hle := ((foldl_longer _ none).2 p h).2 q
    (.inl (List.mem_filter.mpr ⟨hq, List.isPrefixOf_iff_prefix.mpr hxy⟩))
  exact List.prefix_of_prefix_length_le hxy (List.prefix_append x y) (hle.trans hlen)

lemma longestAt_append_none (h : longestAt content patterns (x ++ y) = none) :
    longestAt content patterns x = none :=
  longestAt_eq_none.mpr fun p hp hx =>
    longestAt_eq_none.mp h p hp (hx.trans (List.prefix_append x y))

lemma findFirst_cons_of_some {a : α} (h : longestAt content patterns (a :: x) = some p) :
    findFirst content patterns (a :: x) = some ([], p, (a :: x).drop (content p).length) := by
  rw [findFirst, h]

lemma findFirst_cons_of_none {a : α} (h : longestAt content patterns (a :: x) = none) :
    findFirst content patterns (a :: x) =
      (findFirst content patterns x).map fun (gap, p, rest) => (a :: gap, p, rest) := by
  rw [findFirst, h]

/-- The text is the gap, the match and the rest. -/
theorem findFirst_eq_append (h : findFirst content patterns x = some (gap, p, rest)) :
    p ∈ patterns ∧ x = gap ++ (content p ++ rest) := by
  induction x generalizing gap with
  | nil => cases h
  | cons a x ih =>
      cases hat : longestAt content patterns (a :: x) with
      | some q =>
          rw [findFirst_cons_of_some hat] at h
          cases h
          obtain ⟨hp, hprefix⟩ := of_longestAt hat
          exact ⟨hp, (List.prefix_iff_eq_append.mp hprefix).symm⟩
      | none =>
          rw [findFirst_cons_of_none hat] at h
          obtain ⟨⟨gap, q, rest⟩, hfind, hsame⟩ := Option.map_eq_some_iff.mp h
          cases hsame
          obtain ⟨hp, rfl⟩ := ih hfind
          exact ⟨hp, rfl⟩

/-- No match in a text is none in its parts. -/
lemma findFirst_append_none (h : findFirst content patterns (x ++ y) = none) :
    findFirst content patterns x = none ∧ findFirst content patterns y = none := by
  induction x with
  | nil => exact ⟨rfl, h⟩
  | cons a x ih =>
      cases hat : longestAt content patterns (a :: x ++ y) with
      | some q =>
          rw [List.cons_append] at h hat
          rw [findFirst_cons_of_some hat] at h
          cases h
      | none =>
          rw [findFirst_cons_of_none (longestAt_append_none hat)]
          rw [List.cons_append] at h hat
          rw [findFirst_cons_of_none hat, Option.map_eq_none_iff] at h
          rw [(ih h).1, (ih h).2]
          exact ⟨rfl, rfl⟩

/-- The first match of a text in two parts: before the border, behind it, or across. -/
theorem findFirst_append (h : findFirst content patterns (x ++ y) = some (gap, p, rest)) :
    (∃ rest', rest = rest' ++ y ∧ findFirst content patterns x = some (gap, p, rest')) ∨
      (∃ gap', gap = x ++ gap' ∧ findFirst content patterns x = none ∧
        findFirst content patterns y = some (gap', p, rest)) ∨
      gap.length < x.length ∧ x.length < gap.length + (content p).length := by
  induction x generalizing gap with
  | nil => exact .inr (.inl ⟨gap, rfl, rfl, h⟩)
  | cons a x ih =>
      rw [List.cons_append] at h
      cases hat : longestAt content patterns (a :: (x ++ y)) with
      | some q =>
          rw [findFirst_cons_of_some hat] at h
          cases h
          by_cases hlen : (content p).length ≤ (a :: x).length
          · left
            refine ⟨(a :: x).drop (content p).length, ?_, ?_⟩
            · rw [← List.cons_append, List.drop_append_of_le_length hlen]
            · rw [findFirst_cons_of_some (longestAt_append hat hlen)]
          · right; right
            simpa using hlen
      | none =>
          rw [findFirst_cons_of_none (longestAt_append_none hat)]
          rw [findFirst_cons_of_none hat] at h
          obtain ⟨⟨gap, q, rest⟩, hfind, hsame⟩ := Option.map_eq_some_iff.mp h
          cases hsame
          obtain ⟨rest', rfl, hx⟩ | ⟨gap', rfl, hx, hy⟩ | ⟨hlt, hcross⟩ := ih hfind
          · exact .inl ⟨rest', rfl, by rw [hx]; rfl⟩
          · exact .inr (.inl ⟨gap', rfl, by rw [hx]; rfl, hy⟩)
          · refine .inr (.inr ?_)
            rw [List.length_cons, List.length_cons]
            omega

end

/-! ### The bytes of a text -/

/-- A character is read from its bytes. -/
lemma utf8EncodeChar_append_inj {c d : Char} {x y : List UInt8}
    (h : String.utf8EncodeChar c ++ x = String.utf8EncodeChar d ++ y) : c = d ∧ x = y := by
  have hc := utf8CharLen_of_charAt (charAt_utf8EncodeChar c x)
  have hd := utf8CharLen_of_charAt (charAt_utf8EncodeChar d y)
  rw [h, hd, Option.some_inj] at hc
  obtain ⟨hchar, hrest⟩ := List.append_inj h hc.symm
  have hsame : textBytes [c] = textBytes [d] := by
    rw [textBytes_cons, textBytes_cons, hchar]
  exact ⟨List.singleton_inj.mp (textBytes_inj hsame), hrest⟩

/-- The front of the bytes that is a text is the front of the text. -/
lemma textBytes_prefix_iff {x y : List Char} : textBytes x <+: textBytes y ↔ x <+: y := by
  constructor
  · intro h
    induction x generalizing y with
    | nil => exact List.nil_prefix
    | cons c x ih =>
        obtain ⟨z, hz⟩ := h
        rw [textBytes_cons, List.append_assoc] at hz
        cases y with
        | nil =>
            have := length_utf8EncodeChar_pos c
            have := congrArg List.length hz
            simp only [List.length_append, textBytes_nil, List.length_nil] at this
            omega
        | cons d y =>
            rw [textBytes_cons] at hz
            obtain ⟨rfl, hrest⟩ := utf8EncodeChar_append_inj hz
            exact List.cons_prefix_cons.mpr ⟨rfl, ih ⟨z, hrest⟩⟩
  · rintro ⟨z, rfl⟩
    rw [textBytes_append]
    exact List.prefix_append _ _

/-- The first byte of a character continues none. -/
lemma not_isContinuation_of_append {c : Char} {x y : List UInt8} {b : UInt8}
    (h : String.utf8EncodeChar c ++ x = b :: y) : ¬ isContinuation b = true := by
  have hchar := charAt_utf8EncodeChar c x
  have hb : (String.utf8EncodeChar c ++ x)[0]? = some b := by rw [h]; rfl
  rw [hchar.isContinuation_iff (length_utf8EncodeChar_pos c) hb]
  exact lt_irrefl 0

/-- A text in the bytes of a text is a part of the text. -/
theorem exists_text_of_append {x c : List Char} {gap rest : List UInt8} (hc : c ≠ [])
    (h : textBytes x = gap ++ (textBytes c ++ rest)) :
    ∃ g r, gap = textBytes g ∧ rest = textBytes r ∧ x = g ++ (c ++ r) := by
  induction x generalizing gap with
  | nil =>
      have hnil := (List.append_eq_nil_iff.mp (List.append_eq_nil_iff.mp h.symm).2).1
      exact absurd (textBytes_eq_nil.mp hnil) hc
  | cons d x ih =>
      cases gap with
      | nil =>
          obtain ⟨r, hr⟩ := textBytes_prefix_iff.mp ⟨rest, h.symm⟩
          rw [← hr, textBytes_append, List.nil_append, List.append_cancel_left_eq] at h
          exact ⟨[], r, rfl, h.symm, hr.symm⟩
      | cons b gap =>
          rw [textBytes_cons] at h
          obtain ⟨tail, htail, hx⟩ | ⟨tail, htail, hgap⟩ := List.append_eq_append_iff.mp h
          · obtain ⟨g, r, rfl, rfl, rfl⟩ := ih hx
            exact ⟨d :: g, r, by rw [htail, textBytes_cons], rfl, rfl⟩
          · cases tail with
            | nil =>
                rw [List.append_nil] at htail
                obtain ⟨g, r, hg, rfl, rfl⟩ := @ih [] hgap.symm
                obtain rfl : g = [] := textBytes_eq_nil.mp hg.symm
                exact ⟨[d], r, by rw [← htail, textBytes_cons, textBytes_nil, List.append_nil], rfl,
                  rfl⟩
            | cons a tail =>
                -- the match would start inside the character
                cases c with
                | nil => exact absurd rfl hc
                | cons f c =>
                    have hcont := isContinuation_of_append htail.symm (List.cons_ne_nil b gap)
                    rw [textBytes_cons, List.append_assoc] at hgap
                    exact absurd hcont (not_isContinuation_of_append hgap)

end Machine
