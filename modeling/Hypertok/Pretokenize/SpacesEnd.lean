import Mathlib.Data.List.DropRight
import Hypertok.Pretokenize.Cl100k

/-!
The alternative `\s++$`, which `cl100k.rs` has and `olmo3.rs` does not: the spaces at the end of a
text are one token in the one, and are split behind their last newline in the other.

* `first_regex_eq`: what the regexes of the family match, of which only the spaces differ.
* `spacesAfterNewline`: the texts that end in spaces behind a newline.
* `segments_eq_iff`: the two regexes segment all other texts alike, and these not.
-/

namespace Hypertok

namespace Cl100kFamily

open Machine Regex

variable {table : ClassTable} {c d : Char} {t p w x y rest : List Char}

/-! ### The alternatives before the spaces -/

/-- What is left by the alternatives that the regexes of the family have before the spaces. -/
def frontRest (table : ClassTable) (numberRest : List Char → List Char) (c : Char)
    (t : List Char) : Option (List Char) :=
  (if c = '\'' then contractionRest foldCase t else none).or ((wordRest table c t).or
    ((if table.isA .number c then some (numberRest t) else none).or (punctuationRest table c t)))

/-- A character that is no space is matched by one of them. -/
lemma frontRest_ne_none (numberRest : List Char → List Char)
    (hc : table.isA .whitespace c = false) : frontRest table numberRest c t ≠ none := by
  intro hnone
  obtain ⟨-, hnone⟩ := Option.or_eq_none_iff.mp hnone
  obtain ⟨hword, hnone⟩ := Option.or_eq_none_iff.mp hnone
  obtain ⟨hnumber, hother⟩ := Option.or_eq_none_iff.mp hnone
  cases hcls : table.classOf c.toNat with
  | letter =>
      rw [wordRest, isA_eq hcls, if_pos (decide_eq_true rfl)] at hword
      cases hword
  | number =>
      rw [isA_eq hcls, if_pos (decide_eq_true rfl)] at hnumber
      cases hnumber
  | whitespace =>
      rw [isA_eq hcls] at hc
      cases hc
  | other =>
      rw [punctuationRest, isA_eq hcls, if_pos (decide_eq_true rfl)] at hother
      cases hother

/-- What a regex of the family matches. -/
lemma first_regex_eq {number : List UInt8 → ℕ → Option ℕ} {endFirst : Bool}
    (scheme : Scheme table number endFirst) (c : Char) (t : List Char) :
    first scheme.regex (c :: t) =
      some ((frontRest table scheme.numberRest c t).getD (wsRest table endFirst c t)) := by
  have hregex : first scheme.regex (c :: t) =
      (frontRest table scheme.numberRest c t).or (first (anyOf scheme.spaces) (c :: t)) := by
    rw [scheme.first_regex, scheme.first_contraction, frontRest, Option.or_assoc, Option.or_assoc,
      Option.or_assoc]
  rw [hregex]
  cases hfront : frontRest table scheme.numberRest c t with
  | some rest => rfl
  | none =>
      have hc : table.isA .whitespace c = true :=
        Bool.eq_true_of_not_eq_false fun hc => frontRest_ne_none _ hc hfront
      rw [scheme.first_spaces c t hc]
      rfl

/-! ### The ends of the tokens -/

/-- A piece with a character that is no space: newlines follow it just if it is punctuation, and
then all newlines that there are. -/
def Ending (table : ClassTable) (piece rest : List Char) : Prop :=
  ∃ p d nl, piece = p ++ d :: nl ∧ table.isA .whitespace d = false ∧
    if table.isA .other d then
      (∀ n ∈ nl, isNewline n = true) ∧ ∀ n ∈ rest.head?, isNewline n = false
    else nl = []

/-- A run of letters, or of numbers. -/
lemma ending_run (p : List Char) {run : List Char} (hne : run ≠ [])
    (hrun : ∀ d ∈ run, table.isA .letter d = true ∨ table.isA .number d = true) :
    Ending table (p ++ run) rest := by
  refine ⟨p ++ run.dropLast, run.getLast hne, [], ?_, ?_⟩
  · rw [List.append_assoc, List.dropLast_append_getLast]
  · have hlast := hrun _ (List.getLast_mem hne)
    cases hcls : table.classOf (run.getLast hne).toNat <;>
      simp only [isA_eq hcls] at hlast ⊢ <;> simp at hlast ⊢

/-- A character that is folded to a letter of a contraction is a letter, if `U+017F` is. -/
lemma letter_of_foldCase (hs : table.isA .letter '\u017f' = true) {a : Char}
    (ha : a ∈ ['s', 'd', 'm', 't', 'l', 'v', 'r', 'e']) (h : foldCase d = a) :
    table.isA .letter d = true := by
  have hascii : ∀ n < 0x80, (Char.ofNat n).toLower ∈ ['s', 'd', 'm', 't', 'l', 'v', 'r', 'e'] →
      asciiClass n = .letter := by decide +kernel
  have hsmall : ∀ a ∈ ['s', 'd', 'm', 't', 'l', 'v', 'r', 'e'], a.toNat < 0x80 := by simp
  by_cases hd : d = '\u017f'
  · rw [hd, hs]
  · rw [foldCase, if_neg hd] at h
    have hlt : d.toNat < 0x80 := by
      by_contra hge
      have := folds_toLower.nonAscii d (Nat.not_lt.mp hge)
      rw [h] at this
      exact absurd (hsmall a ha) (Nat.not_lt.mpr this)
    rw [ClassTable.isA_ascii hlt]
    refine decide_eq_true (hascii _ hlt ?_)
    rwa [Char.ofNat_toNat, h]

/-- A contraction has letters. -/
lemma exists_of_contractionRest (hs : table.isA .letter '\u017f' = true)
    (h : contractionRest foldCase t = some rest) :
    ∃ run, t = run ++ rest ∧ run ≠ [] ∧ ∀ d ∈ run, table.isA .letter d = true := by
  cases t with
  | nil => cases h
  | cons d t =>
      rw [contractionRest] at h
      split_ifs at h with hone htwo
      · obtain rfl := Option.some_inj.mp h
        refine ⟨[d], rfl, List.cons_ne_nil d [], List.forall_mem_singleton.mpr ?_⟩
        rcases hone with hd | hd | hd | hd <;> exact letter_of_foldCase hs (by simp) hd
      · cases t with
        | nil => simp at htwo
        | cons e t =>
            obtain rfl := Option.some_inj.mp h
            simp only [List.head?_cons, Option.map_some, Option.some_inj] at htwo
            refine ⟨[d, e], rfl, List.cons_ne_nil d [e], List.forall_mem_cons.mpr ?_⟩
            rcases htwo with ⟨hd, he⟩ | ⟨hd, he⟩ | ⟨hd, he⟩ <;>
              exact ⟨letter_of_foldCase hs (by simp) hd,
                List.forall_mem_singleton.mpr (letter_of_foldCase hs (by simp) he)⟩

lemma exists_of_lettersRest (h : lettersRest table t = some rest) :
    ∃ run, t = run ++ rest ∧ run ≠ [] ∧ ∀ d ∈ run, table.isA .letter d = true := by
  cases t with
  | nil => cases h
  | cons d t =>
      obtain ⟨hd, h⟩ := Option.ite_none_right_eq_some.mp h
      obtain rfl := Option.some_inj.mp h
      refine ⟨d :: t.takeWhile (table.isA .letter), ?_, List.cons_ne_nil _ _, ?_⟩
      · rw [List.cons_append, List.takeWhile_append_dropWhile]
      · exact List.forall_mem_cons.mpr ⟨hd, fun e => List.mem_takeWhile_imp⟩

lemma exists_of_dropNumbers (table : ClassTable) (n : ℕ) (t : List Char) :
    ∃ run, t = run ++ dropNumbers table n t ∧ ∀ d ∈ run, table.isA .number d = true := by
  induction n generalizing t with
  | zero => exact ⟨[], by rw [dropNumbers, List.nil_append], List.forall_mem_nil _⟩
  | succ n ih =>
      cases t with
      | nil => exact ⟨[], by rw [dropNumbers, List.nil_append], List.forall_mem_nil _⟩
      | cons c t =>
          rw [dropNumbers]
          split_ifs with hc
          · obtain ⟨run, hrun, hnumbers⟩ := ih t
            refine ⟨c :: run, ?_, List.forall_mem_cons.mpr ⟨hc, hnumbers⟩⟩
            rw [List.cons_append, ← hrun]
          · exact ⟨[], rfl, List.forall_mem_nil _⟩

/-- Punctuation ends in its newlines. -/
lemma ending_otherRest (p : List Char) (hd : table.isA .other d = true) :
    ∃ piece, p ++ d :: t = piece ++ otherRest table t ∧
      Ending table piece (otherRest table t) := by
  have hws : ∀ e : Char, table.isA .other e = true → table.isA .whitespace e = false := by
    intro e he
    rw [isA_eq (of_decide_eq_true he)]
    rfl
  have hrun : ∀ e ∈ d :: t.takeWhile (table.isA .other), table.isA .other e = true :=
    List.forall_mem_cons.mpr ⟨hd, fun e => List.mem_takeWhile_imp⟩
  have hne := List.cons_ne_nil d (t.takeWhile (table.isA .other))
  have hlast := hrun _ (List.getLast_mem hne)
  refine ⟨p ++ (d :: t.takeWhile (table.isA .other) ++
    (t.dropWhile (table.isA .other)).takeWhile isNewline), ?_,
    p ++ (d :: t.takeWhile (table.isA .other)).dropLast,
    (d :: t.takeWhile (table.isA .other)).getLast hne,
    (t.dropWhile (table.isA .other)).takeWhile isNewline, ?_, hws _ hlast, ?_⟩
  · rw [otherRest, List.append_assoc, List.append_assoc, List.takeWhile_append_dropWhile,
      List.cons_append, List.takeWhile_append_dropWhile]
  · conv_lhs => rw [← List.dropLast_append_getLast hne]
    simp only [List.append_assoc, List.singleton_append]
  · rw [if_pos hlast]
    exact ⟨fun n => List.mem_takeWhile_imp, fun n => of_mem_head?_dropWhile⟩

/-- The pieces of the alternatives before the spaces. -/
lemma ending_of_frontRest (hs : table.isA .letter '\u017f' = true)
    (h : frontRest table (dropNumbers table 2) c t = some rest) :
    ∃ piece, c :: t = piece ++ rest ∧ Ending table piece rest := by
  rw [frontRest] at h
  rcases Option.or_eq_some_iff.mp h with h | ⟨-, h⟩
  · obtain ⟨-, h⟩ := Option.ite_none_right_eq_some.mp h
    obtain ⟨run, rfl, hne, hrun⟩ := exists_of_contractionRest hs h
    exact ⟨[c] ++ run, rfl, ending_run [c] hne fun d hd => .inl (hrun d hd)⟩
  rcases Option.or_eq_some_iff.mp h with h | ⟨-, h⟩
  · rw [wordRest] at h
    split_ifs at h with hc
    · have hletters : lettersRest table (c :: t) = some rest := by rw [lettersRest, if_pos hc, h]
      obtain ⟨run, hsplit, hne, hrun⟩ := exists_of_lettersRest hletters
      exact ⟨[] ++ run, hsplit, ending_run [] hne fun d hd => .inl (hrun d hd)⟩
    · obtain ⟨run, rfl, hne, hrun⟩ := exists_of_lettersRest h
      exact ⟨[c] ++ run, rfl, ending_run [c] hne fun d hd => .inl (hrun d hd)⟩
  rcases Option.or_eq_some_iff.mp h with h | ⟨-, h⟩
  · obtain ⟨hc, h⟩ := Option.ite_none_right_eq_some.mp h
    obtain rfl := Option.some_inj.mp h
    obtain ⟨run, hsplit, hrun⟩ := exists_of_dropNumbers table 2 t
    refine ⟨[] ++ c :: run, ?_, ending_run [] (List.cons_ne_nil c run) ?_⟩
    · rw [List.nil_append, List.cons_append, ← hsplit]
    · intro d hd
      rcases List.mem_cons.mp hd with rfl | hd
      · exact .inr hc
      · exact .inr (hrun d hd)
  · rw [punctuationRest] at h
    split_ifs at h with hc hspace
    · obtain rfl := Option.some_inj.mp h
      exact ending_otherRest [] hc
    · cases t with
      | nil => cases h
      | cons d t =>
          obtain ⟨hd, h⟩ := Option.ite_none_right_eq_some.mp h
          obtain rfl := Option.some_inj.mp h
          exact ending_otherRest [c] hd

/-! ### The spaces at the end -/

/-- The spaces at the end of a text, without the newlines that belong to punctuation. -/
def spacesAtEnd (table : ClassTable) (text : List Char) : List Char :=
  if (text.rdropWhile (table.isA .whitespace)).getLast?.any (table.isA .other) then
    (text.rtakeWhile (table.isA .whitespace)).dropWhile isNewline
  else text.rtakeWhile (table.isA .whitespace)

/-- They have a newline, and do not end in one. -/
def spacesAfterNewline (table : ClassTable) (text : List Char) : Bool :=
  (spacesAtEnd table text).any isNewline && !(spacesAtEnd table text).getLast?.any isNewline

lemma spacesAtEnd_append (hd : table.isA .whitespace d = false)
    (hw : ∀ e ∈ w, table.isA .whitespace e = true) :
    spacesAtEnd table (p ++ d :: w) = if table.isA .other d then w.dropWhile isNewline else w := by
  have hnot : ¬ table.isA .whitespace d = true := Bool.eq_false_iff.mp hd
  have hreverse : (p ++ d :: w).reverse = w.reverse ++ d :: p.reverse := by simp
  have hw' : ∀ e ∈ w.reverse, table.isA .whitespace e = true := fun e he =>
    hw e (List.mem_reverse.mp he)
  have htake : (p ++ d :: w).rtakeWhile (table.isA .whitespace) = w := by
    rw [List.rtakeWhile, hreverse, List.takeWhile_append_of_pos hw',
      List.takeWhile_cons_of_neg hnot, List.append_nil, List.reverse_reverse]
  have hdrop : (p ++ d :: w).rdropWhile (table.isA .whitespace) = p ++ [d] := by
    rw [List.rdropWhile, hreverse, List.dropWhile_append_of_pos hw',
      List.dropWhile_cons_of_neg hnot, List.reverse_cons, List.reverse_reverse]
  rw [spacesAtEnd, htake, hdrop, List.getLast?_concat, Option.any_some]

lemma spacesAtEnd_of_spaces (hw : ∀ e ∈ w, table.isA .whitespace e = true) :
    spacesAtEnd table w = w := by
  have htake : w.rtakeWhile (table.isA .whitespace) = w := List.rtakeWhile_eq_self_iff.mpr hw
  have hdrop : w.rdropWhile (table.isA .whitespace) = [] := List.rdropWhile_eq_nil_iff.mpr hw
  rw [spacesAtEnd, htake, hdrop]
  rfl

/-- The last character that is not of a class. -/
lemma exists_last {q : Char → Bool} (hy : ∃ d ∈ y, q d = false) :
    ∃ p d w, y = p ++ d :: w ∧ q d = false ∧ ∀ e ∈ w, q e = true := by
  induction y using List.reverseRecOn with
  | nil => simp at hy
  | append_singleton y e ih =>
      by_cases he : q e = true
      · obtain ⟨d, hd, hnot⟩ := hy
        have hd' : d ∈ y := by
          rcases List.mem_append.mp hd with hd | hd
          · exact hd
          · rw [List.mem_singleton.mp hd, he] at hnot
            cases hnot
        obtain ⟨p, d, w, rfl, hd, hw⟩ := ih ⟨d, hd', hnot⟩
        refine ⟨p, d, w ++ [e], by simp, hd, ?_⟩
        exact List.forall_mem_append.mpr ⟨hw, List.forall_mem_singleton.mpr he⟩
      · exact ⟨y, e, [], rfl, Bool.eq_false_iff.mpr he, List.forall_mem_nil _⟩

/-- What is before another character does not matter. -/
lemma spacesAtEnd_append_left (x : List Char) (hy : ∃ d ∈ y, table.isA .whitespace d = false) :
    spacesAtEnd table (x ++ y) = spacesAtEnd table y := by
  obtain ⟨p, d, w, rfl, hd, hw⟩ := exists_last hy
  rw [← List.append_assoc, spacesAtEnd_append hd hw, spacesAtEnd_append hd hw]

/-- A token before the spaces does not matter. -/
lemma spacesAtEnd_of_ending {piece : List Char} (h : Ending table piece rest) :
    spacesAtEnd table (piece ++ rest) = spacesAtEnd table rest := by
  by_cases hrest : ∃ d ∈ rest, table.isA .whitespace d = false
  · exact spacesAtEnd_append_left piece hrest
  · have hspaces : ∀ e ∈ rest, table.isA .whitespace e = true := fun e he =>
      Bool.eq_true_of_not_eq_false fun h => hrest ⟨e, he, h⟩
    obtain ⟨p, d, nl, rfl, hd, hnl⟩ := h
    rw [spacesAtEnd_of_spaces hspaces, List.append_assoc, List.cons_append]
    split_ifs at hnl with hother
    · have hw : ∀ e ∈ nl ++ rest, table.isA .whitespace e = true :=
        List.forall_mem_append.mpr ⟨fun n hn => isA_of_isNewline table (hnl.1 n hn), hspaces⟩
      rw [spacesAtEnd_append hd hw, if_pos hother, List.dropWhile_append_of_pos hnl.1,
        dropWhile_eq_self hnl.2]
    · rw [hnl, List.nil_append, spacesAtEnd_append hd hspaces, if_neg hother]

/-! ### The spaces that remain -/

lemma afterNewline_of_forall (h : ∀ e ∈ w, isNewline e = false) : afterNewline table w = none := by
  induction w with
  | nil => rfl
  | cons e w ih =>
      obtain ⟨he, hw⟩ := List.forall_mem_cons.mp h
      rw [afterNewline, ih hw, he, Option.none_or, if_neg Bool.false_ne_true, ite_self]

/-- The last newline of spaces. -/
lemma afterNewline_append (hp : ∀ e ∈ p, table.isA .whitespace e = true)
    (hc : isNewline c = true) (hw : ∀ e ∈ w, isNewline e = false) :
    afterNewline table (p ++ c :: w) = some w := by
  induction p with
  | nil =>
      rw [List.nil_append, afterNewline, if_pos (isA_of_isNewline table hc),
        afterNewline_of_forall hw, if_pos hc, Option.none_or]
  | cons e p ih =>
      obtain ⟨he, hp⟩ := List.forall_mem_cons.mp hp
      rw [List.cons_append, afterNewline, if_pos he, ih hp, Option.some_or]

/-- A character that is no space is behind the newlines of the spaces. -/
lemma mem_of_afterNewline (hd : d ∈ t) (hnot : table.isA .whitespace d = false)
    (h : afterNewline table t = some rest) : d ∈ rest := by
  induction t with
  | nil => cases hd
  | cons c t ih =>
      obtain ⟨hc, h⟩ := Option.ite_none_right_eq_some.mp h
      have hd' : d ∈ t := by
        refine (List.mem_cons.mp hd).resolve_left ?_
        rintro rfl
        rw [hc] at hnot
        cases hnot
      rcases Option.or_eq_some_iff.mp h with h | ⟨-, h⟩
      · exact ih hd' h
      · obtain ⟨-, h⟩ := Option.ite_none_right_eq_some.mp h
        exact Option.some_inj.mp h ▸ hd'

lemma mem_dropWhile_spaces (hd : d ∈ t) (hnot : table.isA .whitespace d = false) :
    d ∈ t.dropWhile (table.isA .whitespace) := by
  rw [← List.takeWhile_append_dropWhile (p := table.isA .whitespace) (l := t)] at hd
  refine (List.mem_append.mp hd).resolve_left fun htake => ?_
  rw [List.mem_takeWhile_imp htake] at hnot
  cases hnot

/-- Where the text goes on behind the spaces, both rules leave it. -/
lemma mem_wsRest (endFirst : Bool) (hc : table.isA .whitespace c = true) (hd : d ∈ c :: t)
    (hnot : table.isA .whitespace d = false) :
    wsRest table endFirst c t = (afterNewline table (c :: t)).getD (spacesRest table t) ∧
      d ∈ wsRest table endFirst c t := by
  have hd' : d ∈ t := by
    refine (List.mem_cons.mp hd).resolve_left ?_
    rintro rfl
    rw [hc] at hnot
    cases hnot
  have hmem := mem_dropWhile_spaces hd' hnot
  have hne : t.dropWhile (table.isA .whitespace) ≠ [] := List.ne_nil_of_mem hmem
  have hrest : wsRest table endFirst c t =
      (afterNewline table (c :: t)).getD (spacesRest table t) := by
    rw [wsRest, if_neg fun h => hne h.2]
  refine ⟨hrest, ?_⟩
  rw [hrest]
  cases hafter : afterNewline table (c :: t) with
  | some r => exact mem_of_afterNewline hd hnot hafter
  | none =>
      rw [Option.getD_none, spacesRest, if_neg hne]
      cases (t.takeWhile (table.isA .whitespace)).getLast? with
      | none => exact hmem
      | some e => exact List.mem_cons_of_mem e hmem

/-- Spaces up to the end: `cl100k.rs` leaves nothing, the others what is behind the last newline. -/
lemma wsRest_of_spaces (h : ∀ e ∈ c :: t, table.isA .whitespace e = true) :
    wsRest table true c t = [] ∧
      (wsRest table false c t = [] ↔ spacesAfterNewline table (c :: t) = false) := by
  have hdrop : t.dropWhile (table.isA .whitespace) = [] :=
    List.dropWhile_eq_nil_iff.mpr (List.forall_mem_cons.mp h).2
  have hspaces : spacesRest table t = [] := by rw [spacesRest, if_pos hdrop]
  refine ⟨by rw [wsRest, if_pos ⟨rfl, hdrop⟩], ?_⟩
  rw [wsRest, if_neg fun h => Bool.false_ne_true h.1, hspaces, spacesAfterNewline,
    spacesAtEnd_of_spaces h]
  generalize c :: t = w at h
  by_cases hany : ∃ n ∈ w, (!isNewline n) = false
  · obtain ⟨p, n, v, rfl, hn, hv⟩ := exists_last hany
    simp only [Bool.not_eq_false', Bool.not_eq_true'] at hn hv
    rw [afterNewline_append (fun e he => h e (List.mem_append_left _ he)) hn hv, Option.getD_some]
    cases v using List.reverseRecOn with
    | nil => simp [hn]
    | append_singleton v e =>
        have hsplit : p ++ n :: (v ++ [e]) = (p ++ n :: v) ++ [e] := by simp
        rw [hsplit, List.getLast?_concat, Option.any_some, hv e (by simp)]
        simp [hn]
  · have hnone : ∀ e ∈ w, isNewline e = false := fun e he =>
      Bool.eq_false_iff.mpr fun hn => hany ⟨e, he, by rw [hn]; rfl⟩
    rw [afterNewline_of_forall hnone, Option.getD_none, List.any_eq_false.mpr fun e he => by
      rw [hnone e he]; exact Bool.false_ne_true]
    simp

/-! ### The two segmentations -/

/-- The regexes of `cl100k.rs` and `olmo3.rs` cut a text in the same pieces just if it does not end
in spaces behind a newline. -/
theorem segments_eq_iff (hs : table.isA .letter '\u017f' = true) {text : List Char}
    {pieces pieces' : List (List Char)} (h : Segments (cl100k table).regex text pieces)
    (h' : Segments (olmo3 table).regex text pieces') :
    pieces = pieces' ↔ spacesAfterNewline table text = false := by
  induction h generalizing pieces' with
  | nil => exact iff_of_true (Segments.unique .nil h') rfl
  | @cons piece rest pieces hpiece hmatch h ih =>
      obtain ⟨c, p, rfl⟩ := List.exists_cons_of_ne_nil hpiece
      rw [List.cons_append] at hmatch h' ⊢
      cases pieces' with
      | nil => exact absurd h'.flatten.symm (List.cons_ne_nil c _)
      | cons piece' pieces' =>
          obtain ⟨rest', hsplit, -, hmatch', hrest'⟩ := h'.exists_rest
          rw [first_regex_eq, Option.some_inj] at hmatch hmatch'
          change (frontRest table (dropNumbers table 2) c (p ++ rest)).getD _ = rest at hmatch
          change (frontRest table (dropNumbers table 2) c (p ++ rest)).getD _ = rest' at hmatch'
          -- where both match the same, the spaces at the end are those of the rest
          have hsame : rest' = rest →
              spacesAtEnd table (c :: (p ++ rest)) = spacesAtEnd table rest →
              ((c :: p) :: pieces = piece' :: pieces' ↔
                spacesAfterNewline table (c :: (p ++ rest)) = false) := by
            rintro rfl hspaces
            rw [← List.cons_append] at hsplit
            rw [spacesAfterNewline, hspaces, List.append_cancel_right hsplit, List.cons.injEq]
            exact (and_iff_right rfl).trans (ih hrest')
          cases hfront : frontRest table (dropNumbers table 2) c (p ++ rest) with
          | some r =>
              rw [hfront, Option.getD_some] at hmatch hmatch'
              obtain ⟨front, hsplit', hending⟩ := ending_of_frontRest hs (hmatch ▸ hfront)
              refine hsame (hmatch'.symm.trans hmatch) ?_
              rw [hsplit', spacesAtEnd_of_ending hending]
          | none =>
              rw [hfront, Option.getD_none] at hmatch hmatch'
              have hc : table.isA .whitespace c = true :=
                Bool.eq_true_of_not_eq_false fun hc => frontRest_ne_none _ hc hfront
              by_cases hend : ∃ d ∈ c :: (p ++ rest), table.isA .whitespace d = false
              · obtain ⟨d, hd, hnot⟩ := hend
                obtain ⟨heq, hmem⟩ := mem_wsRest true hc hd hnot
                refine hsame ?_ (spacesAtEnd_append_left (c :: p) ⟨d, hmatch ▸ hmem, hnot⟩)
                rw [← hmatch, ← hmatch', heq, (mem_wsRest false hc hd hnot).1]
              · have hspaces : ∀ e ∈ c :: (p ++ rest), table.isA .whitespace e = true :=
                  fun e he => Bool.eq_true_of_not_eq_false fun h => hend ⟨e, he, h⟩
                obtain ⟨hnil, hiff⟩ := wsRest_of_spaces hspaces
                obtain rfl := hnil.symm.trans hmatch
                obtain rfl := Segments.unique .nil h
                rw [← hiff, hmatch', List.cons.injEq]
                constructor
                · rintro ⟨-, rfl⟩
                  exact hrest'.flatten.symm
                · rintro rfl
                  rw [← List.cons_append] at hsplit
                  exact ⟨List.append_cancel_right hsplit, Segments.unique .nil hrest'⟩

end Cl100kFamily

end Hypertok
