import Hypertok.Machine.Split
import Hypertok.Pretokenize.Cl100k

/-!
The three splits of DeepSeek: at `\p{N}{1,3}`, then at the runs of the CJK ranges, and then at the
main regex, each of them in the pieces of the one before.

* `stages_region`: the first two splits cut a text in its regions, the CJK runs and what is between
  the numbers besides.
* `referenceTokens_number`, `referenceTokens_region`: so the pieces of all three are found from left
  to right.
* `first_of_lm`, `first_of_whitespace`, `first_of_punctSym`, `first_of_other`: what the main regex
  matches.
-/

namespace Hypertok

open Machine Regex

namespace DeepSeekV3

/-- `is_deepseek_cjk`. -/
def isDeepseekCjk (cp : ℕ) : Bool :=
  0x4E00 ≤ cp && cp ≤ 0x9FA5 || 0x3040 ≤ cp && cp ≤ 0x30FF

/-- `u8::is_ascii_punctuation`. -/
def isAsciiPunctuation (b : UInt8) : Bool :=
  33 ≤ b && b ≤ 47 || 58 ≤ b && b ≤ 64 || 91 ≤ b && b ≤ 96 || 123 ≤ b && b ≤ 126

end DeepSeekV3

/-- `ds_class_of`: it agrees with ASCII in the punctuation too, and no number and no space is in the
CJK ranges. -/
structure DeepSeekTable extends DsClassTable where
  punct : ∀ cp < 0x80, classOf cp = .punctSym ↔
    DeepSeekV3.isAsciiPunctuation (UInt8.ofNat cp) = true
  cjk : ∀ cp, DeepSeekV3.isDeepseekCjk cp = true → classOf cp ≠ .number ∧ classOf cp ≠ .whitespace

namespace DeepSeekV3

variable (table : DeepSeekTable)

/-! ### The splits -/

/-- `DS_SPLIT_1`: `\p{N}{1,3}`. -/
def split1 : Regex Char := Cl100kFamily.upToThree table.marksJoin

/-- `[\u{4e00}-\u{9fa5}\u{3040}-\u{309f}\u{30a0}-\u{30ff}]`. -/
def cjkChar : Regex Char :=
  one fun c => 0x4e00 ≤ c.toNat && c.toNat ≤ 0x9fa5 || 0x3040 ≤ c.toNat && c.toNat ≤ 0x309f ||
    0x30a0 ≤ c.toNat && c.toNat ≤ 0x30ff

/-- `DS_SPLIT_2`: a run of the CJK ranges. -/
def split2 : Regex Char := plus cjkChar

/-- The characters of the first class of `DS_SPLIT_3`. -/
def punctuationChars : List Char :=
  ['!', '\u0022', '#', '$', '%', '&', '\'', '(', ')', '*', '+', ',', '-', '.', '/', ':', ';', '<',
    '=', '>', '?', '@', '[', '\\', ']', '^', '_', '\u0060', '{', '|', '}', '~']

/-- `[A-Za-z]`. -/
def isAsciiLetter (c : Char) : Bool :=
  'A' ≤ c && c ≤ 'Z' || 'a' ≤ c && c ≤ 'z'

/-- `[^\r\n\p{L}\p{P}\p{S}]`. -/
def isPrefix (c : Char) : Bool := !(isNewline c || table.isA .letter c || table.isA .punctSym c)

/-- `[\p{L}\p{M}]`. -/
def isLmChar (c : Char) : Bool := table.isA .letter c || table.isA .mark c

/-- `DS_SPLIT_3`: the punctuation of ASCII before letters of ASCII, then
`[^\r\n\p{L}\p{P}\p{S}]?[\p{L}\p{M}]+| ?[\p{P}\p{S}]+[\r\n]*|\s*[\r\n]+|\s+(?!\S)|\s+`. -/
def split3 : Regex Char :=
  anyOf (seq (one (punctuationChars.contains ·)) (plus (one isAsciiLetter)) ::
    seq (opt (one (isPrefix table))) (plus (one (isLmChar table))) ::
    seq (opt (lit ' ')) (seq (plus (one (table.isA .punctSym))) (star Cl100kFamily.newline)) ::
    Cl100kFamily.spacesQwen2 table.marksJoin)

/-- `reference_tokens`: each split of the pieces of the one before. -/
def referenceTokens (t : List Char) : List (List Char) :=
  ((split (split1 table) t).flatMap (split split2)).flatMap (split (split3 table))

/-! ### The regions -/

/-- `is_deepseek_cjk`, of a character. -/
def isCjk (c : Char) : Bool := isDeepseekCjk c.toNat

/-- A character of a CJK run, or of what is between the numbers besides. -/
def inRegion (cjkRegion : Bool) (c : Char) : Bool :=
  isCjk c = cjkRegion && !table.isA .number c

/-- The pieces of the first two splits. -/
def stages (t : List Char) : List (List Char) := (split (split1 table) t).flatMap (split split2)

variable {table} {c : Char} {t p rest : List Char}

lemma isA_number_marksJoin (table : DeepSeekTable) (c : Char) :
    table.marksJoin.isA .number c = table.isA .number c := by
  cases hcls : table.classOf c.toNat <;>
    rw [DsClassTable.isA_eq hcls, DsClassTable.isA_marksJoin hcls] <;> rfl

lemma isA_whitespace_marksJoin (table : DeepSeekTable) (c : Char) :
    table.marksJoin.isA .whitespace c = table.isA .whitespace c := by
  cases hcls : table.classOf c.toNat <;>
    rw [DsClassTable.isA_eq hcls, DsClassTable.isA_marksJoin hcls] <;> rfl

lemma not_number_of_isCjk (table : DeepSeekTable) (h : isCjk c = true) :
    table.isA .number c = false := decide_eq_false (table.cjk _ h).1

lemma first_split1 (table : DeepSeekTable) (c : Char) (t : List Char) :
    first (split1 table) (c :: t) =
      if table.isA .number c then some (dropNumbers table.marksJoin 2 t) else none := by
  rw [split1, Cl100kFamily.first_upToThree, isA_number_marksJoin]

lemma cjkChar_eq : cjkChar = one isCjk := by
  refine congrArg one (funext fun c => ?_)
  rw [Bool.eq_iff_iff]
  simp only [isCjk, isDeepseekCjk, Bool.or_eq_true, Bool.and_eq_true, decide_eq_true_eq]
  omega

lemma first_split2 (c : Char) (t : List Char) :
    first split2 (c :: t) = if isCjk c then some (t.dropWhile isCjk) else none := by
  rw [split2, cjkChar_eq, first_plus_one_cons]

/-- A predicate that no character meets at which a match starts. -/
lemma first_none_of_suffix {r : Regex Char} {q : Char → Bool}
    (hfirst : ∀ c t, q c = true → first r (c :: t) = none) (hp : ∀ c ∈ p, q c = true) :
    ∀ y, y <:+ p → y ≠ [] → first r (y ++ rest) = none := by
  intro y hy hne
  obtain ⟨c, y, rfl⟩ := List.exists_cons_of_ne_nil hne
  exact hfirst c _ (hp c (hy.subset List.mem_cons_self))

/-- What is between the numbers is a piece of the first split. -/
lemma split1_run (hne : p ≠ []) (hp : ∀ c ∈ p, table.isA .number c = false)
    (hrest : ∀ c ∈ rest.head?, table.isA .number c = true) :
    split (split1 table) (p ++ rest) = p :: split (split1 table) rest := by
  refine split_of_gap hne (first_none_of_suffix (q := fun c => !table.isA .number c)
    (fun c t hc => ?_) fun c hc => ?_) fun c t hct => ?_
  · rw [first_split1, (Bool.not_eq_true' _).mp hc, if_neg Bool.false_ne_true]
  · rw [hp c hc]
    rfl
  · subst hct
    refine ⟨_, (first_split1 table c t).trans (if_pos (hrest c rfl)), ?_⟩
    exact Cl100kFamily.length_dropNumbers_le table.marksJoin 2 t

/-- A region is a piece of the second split. -/
lemma split2_run {cjkRegion : Bool} (hne : p ≠ []) (hp : ∀ c ∈ p, isCjk c = cjkRegion)
    (hrest : ∀ c ∈ rest.head?, isCjk c = !cjkRegion) :
    split split2 (p ++ rest) = p :: split split2 rest := by
  cases cjkRegion with
  | true =>
      obtain ⟨c, p, rfl⟩ := List.exists_cons_of_ne_nil hne
      have hdrop : (p ++ rest).dropWhile isCjk = rest := by
        rw [List.dropWhile_append_of_pos fun d hd => hp d (.tail _ hd), dropWhile_eq_self hrest]
      have hfirst : first split2 (c :: (p ++ rest)) = some rest := by
        rw [first_split2, if_pos (hp c List.mem_cons_self), hdrop]
      have hlen : rest.length ≤ (p ++ rest).length := by
        rw [List.length_append]
        exact Nat.le_add_left _ _
      obtain ⟨piece, -, hpiece, hsplit⟩ := split_of_first hfirst hlen
      rw [← List.cons_append] at hpiece
      rw [List.cons_append, hsplit, List.append_cancel_right hpiece]
  | false =>
      refine split_of_gap hne (first_none_of_suffix (q := fun c => !isCjk c) (fun c t hc => ?_)
        fun c hc => ?_) fun c t hct => ?_
      · rw [first_split2, (Bool.not_eq_true' _).mp hc, if_neg Bool.false_ne_true]
      · rw [hp c hc]
        rfl
      · subst hct
        refine ⟨_, (first_split2 c t).trans (if_pos (hrest c rfl)), List.length_dropWhile_le _ _⟩

/-- A region is a piece of the first two splits. -/
lemma stages_region {cjkRegion : Bool} (hne : p ≠ [])
    (hp : ∀ c ∈ p, inRegion table cjkRegion c = true)
    (hrest : ∀ c ∈ rest.head?, inRegion table cjkRegion c = false) :
    stages table (p ++ rest) = p :: stages table rest := by
  have hp' : ∀ c ∈ p, isCjk c = cjkRegion ∧ table.isA .number c = false := by
    intro c hc
    obtain ⟨hcjk, hnumber⟩ := Bool.and_eq_true_iff.mp (hp c hc)
    exact ⟨of_decide_eq_true hcjk, (Bool.not_eq_true' _).mp hnumber⟩
  -- the run up to the next number, of which the region is the front
  have hsplit : rest = rest.takeWhile (fun c => !table.isA .number c) ++
      rest.dropWhile (fun c => !table.isA .number c) := List.takeWhile_append_dropWhile.symm
  have hrun : ∀ c ∈ rest.takeWhile (fun c => !table.isA .number c), table.isA .number c = false :=
    fun c hc => (Bool.not_eq_true' _).mp (List.mem_takeWhile_imp (p := fun c => !table.isA .number c) hc)
  have hstop : ∀ c ∈ (rest.dropWhile fun c => !table.isA .number c).head?,
      table.isA .number c = true := fun c hc => (Bool.not_eq_false' _).mp
        (of_mem_head?_dropWhile (p := fun c => !table.isA .number c) hc)
  generalize rest.takeWhile (fun c => !table.isA .number c) = u at hsplit hrun
  generalize rest.dropWhile (fun c => !table.isA .number c) = v at hsplit hstop
  subst hsplit
  have hu : ∀ c ∈ u.head?, isCjk c = !cjkRegion := by
    intro c hc
    have hnumber := hrun c (List.mem_of_mem_head? hc)
    have hhead : c ∈ (u ++ v).head? := by
      obtain ⟨u', rfl⟩ := List.head?_eq_some_iff.mp hc
      rfl
    have hregion := hrest c hhead
    rw [inRegion, hnumber, Bool.not_false, Bool.and_true, decide_eq_false_iff_not] at hregion
    exact Bool.eq_not_of_ne hregion
  have hfront : stages table (p ++ (u ++ v)) = p :: (split split2 u ++ stages table v) := by
    have hrun' : ∀ c ∈ p ++ u, table.isA .number c = false :=
      List.forall_mem_append.mpr ⟨fun c hc => (hp' c hc).2, hrun⟩
    rw [stages, ← List.append_assoc, split1_run (List.append_ne_nil_of_left_ne_nil hne u) hrun' hstop,
      List.flatMap_cons, split2_run hne (fun c hc => (hp' c hc).1) hu]
    rfl
  rw [hfront]
  by_cases hnil : u = []
  · subst hnil
    rw [split_nil]
    rfl
  · have hrest' : stages table (u ++ v) = split split2 u ++ stages table v := by
      rw [stages, split1_run hnil hrun hstop, List.flatMap_cons]
      rfl
    rw [hrest']

/-- A number is a piece of the first two splits. -/
lemma stages_number (hc : table.isA .number c = true) :
    ∃ m, m ≠ [] ∧ c :: t = m ++ dropNumbers table.marksJoin 2 t ∧
      (∀ d ∈ m, table.isA .number d = true) ∧
      stages table (c :: t) = m :: stages table (dropNumbers table.marksJoin 2 t) := by
  have hnumbers : ∀ (n : ℕ) (t : List Char), ∃ m, t = m ++ dropNumbers table.marksJoin n t ∧
      ∀ d ∈ m, table.isA .number d = true := by
    intro n
    induction n with
    | zero => exact fun t => ⟨[], by cases t <;> rfl, List.forall_mem_nil _⟩
    | succ n ih =>
        intro t
        cases t with
        | nil => exact ⟨[], rfl, List.forall_mem_nil _⟩
        | cons d t =>
            rw [dropNumbers, isA_number_marksJoin]
            split_ifs with hd
            · obtain ⟨m, hm, hall⟩ := ih t
              refine ⟨d :: m, ?_, List.forall_mem_cons.mpr ⟨hd, hall⟩⟩
              rw [List.cons_append, ← hm]
            · exact ⟨[], rfl, List.forall_mem_nil _⟩
  obtain ⟨m, hm, hall⟩ := hnumbers 2 t
  have hall' : ∀ d ∈ c :: m, table.isA .number d = true := List.forall_mem_cons.mpr ⟨hc, hall⟩
  have hfirst : first (split1 table) (c :: t) = some (dropNumbers table.marksJoin 2 t) := by
    rw [first_split1, if_pos hc]
  obtain ⟨piece, -, hpiece, hsplit⟩ := split_of_first hfirst
    (Cl100kFamily.length_dropNumbers_le table.marksJoin 2 t)
  have hpiece' : c :: t = (c :: m) ++ dropNumbers table.marksJoin 2 t := by
    rw [List.cons_append, ← hm]
  obtain rfl := List.append_cancel_right (hpiece.symm.trans hpiece')
  refine ⟨c :: m, List.cons_ne_nil c m, hpiece', hall', ?_⟩
  have hgap : split split2 ((c :: m) ++ []) = (c :: m) :: split split2 [] := by
    refine @split2_run _ _ false (List.cons_ne_nil c m) (fun d hd => ?_)
      fun d hd => absurd hd (Option.not_mem_none d)
    refine Bool.eq_false_iff.mpr fun hcjk => ?_
    have hnot := not_number_of_isCjk table hcjk
    rw [hall' d hd] at hnot
    cases hnot
  rw [List.append_nil, split_nil] at hgap
  rw [stages, hsplit, List.flatMap_cons, hgap]
  rfl

/-! ### The main regex -/

/-- What a run of letters and marks leaves. -/
def lmRest (table : DeepSeekTable) : List Char → Option (List Char)
  | [] => none
  | d :: t => if isLmChar table d then some (t.dropWhile (isLmChar table)) else none

/-- What a run of punctuation leaves behind its first character, with the newlines. -/
def psRest (table : DeepSeekTable) (t : List Char) : List Char :=
  (t.dropWhile (table.isA .punctSym)).dropWhile isNewline

/-- What a run of punctuation leaves. -/
def punctsRest (table : DeepSeekTable) : List Char → Option (List Char)
  | [] => none
  | d :: t => if table.isA .punctSym d then some (psRest table t) else none

/-- What letters of ASCII leave. -/
def asciiRest : List Char → Option (List Char)
  | [] => none
  | d :: t => if isAsciiLetter d then some (t.dropWhile isAsciiLetter) else none

lemma first_letters (table : DeepSeekTable) (t : List Char) :
    first (plus (one (isLmChar table))) t = lmRest table t := by
  cases t with
  | nil => rfl
  | cons d t => exact first_plus_one_cons

lemma first_puncts (table : DeepSeekTable) (t : List Char) :
    first (seq (plus (one (table.isA .punctSym))) (star Cl100kFamily.newline)) t =
      punctsRest table t := by
  cases t with
  | nil => rfl
  | cons d t =>
      have hd : first (plus (one (table.isA .punctSym))) (d :: t) =
          if table.isA .punctSym d then some (t.dropWhile (table.isA .punctSym)) else none :=
        first_plus_one_cons
      rw [punctsRest]
      by_cases hA : table.isA .punctSym d = true
      · rw [if_pos hA] at hd ⊢
        exact first_seq_of_first hd first_star_one
      · rw [if_neg hA] at hd ⊢
        exact first_seq_none hd

/-- The alternatives of the main regex. -/
lemma first_split3 (table : DeepSeekTable) (c : Char) (t : List Char) :
    first (split3 table) (c :: t) =
      (if punctuationChars.contains c then asciiRest t else none).or
        (((if isPrefix table c then lmRest table t else none).or (lmRest table (c :: t))).or
          (((if c = ' ' then punctsRest table t else none).or (punctsRest table (c :: t))).or
            (first (anyOf (Cl100kFamily.spacesQwen2 table.marksJoin)) (c :: t)))) := by
  have hascii : first (plus (one isAsciiLetter)) t = asciiRest t := by
    cases t with
    | nil => rfl
    | cons d t => exact first_plus_one_cons
  rw [split3, first_anyOf_cons, first_anyOf_cons, first_anyOf_cons, first_seq_one_cons, hascii,
    first_seq_opt, first_seq_one_cons, first_letters, first_letters, first_seq_opt, lit,
    first_seq_one_cons, first_puncts, first_puncts]
  simp only [decide_eq_true_eq]

/-- The punctuation of the first alternative. -/
lemma contains_punctuationChars (table : DeepSeekTable) (c : Char) :
    punctuationChars.contains c = (decide (c.toNat < 0x80) && table.isA .punctSym c) := by
  have hascii : ∀ n : Fin 0x80, punctuationChars.contains (Char.ofNat n) =
      isAsciiPunctuation (UInt8.ofNat n) := by decide +kernel
  have hhigh : punctuationChars.all (·.toNat < 0x80) = true := by decide
  by_cases hc : c.toNat < 0x80
  · have hbyte := hascii ⟨c.toNat, hc⟩
    rw [Char.ofNat_toNat] at hbyte
    rw [hbyte, decide_eq_true hc, Bool.true_and, Bool.eq_iff_iff, ← table.punct _ hc]
    exact decide_eq_true_iff.symm
  · rw [decide_eq_false hc, Bool.false_and, List.contains_eq_any_beq]
    refine Bool.eq_false_iff.mpr fun hany => hc ?_
    obtain ⟨d, hd, heq⟩ := List.any_eq_true.mp hany
    rw [eq_of_beq heq]
    exact of_decide_eq_true (List.all_eq_true.mp hhigh d hd)

section

variable {cls : DsCharClass} (hcls : table.classOf c.toNat = cls)
include hcls

lemma isLmChar_eq : isLmChar table c = (decide (cls = .letter) || decide (cls = .mark)) := by
  rw [isLmChar, DsClassTable.isA_eq hcls, DsClassTable.isA_eq hcls]

lemma contains_eq_false (hne : cls ≠ .punctSym) : punctuationChars.contains c = false := by
  rw [contains_punctuationChars table, DsClassTable.isA_eq hcls, decide_eq_false hne,
    Bool.and_false]

lemma isNewline_eq_false (hne : cls ≠ .whitespace) : isNewline c = false := by
  refine Bool.eq_false_iff.mpr fun hn => hne ?_
  have hspace := Cl100kFamily.isA_of_isNewline table.marksJoin hn
  rw [isA_whitespace_marksJoin, DsClassTable.isA_eq hcls] at hspace
  exact of_decide_eq_true hspace

lemma ne_space (hne : cls ≠ .whitespace) : c ≠ ' ' := by
  rintro rfl
  have hspace := isA_eq (classOf_space table.marksJoin) .whitespace
  rw [isA_whitespace_marksJoin, DsClassTable.isA_eq hcls] at hspace
  exact hne (of_decide_eq_true hspace)

end

/-- A letter or a mark: a mark that is a prefix makes the same word as the mark in the run. -/
lemma first_of_lm (hc : isLmChar table c = true) :
    first (split3 table) (c :: t) = some (t.dropWhile (isLmChar table)) := by
  have hword : (if isPrefix table c then lmRest table t else none).or (lmRest table (c :: t)) =
      some (t.dropWhile (isLmChar table)) := by
    rw [lmRest.eq_2, if_pos hc]
    split_ifs
    · cases t with
      | nil => rfl
      | cons d t =>
          rw [lmRest]
          by_cases hd : isLmChar table d = true
          · rw [if_pos hd, List.dropWhile_cons_of_pos hd, Option.some_or]
          · rw [if_neg hd, Option.none_or]
    · rfl
  have hpunct : table.classOf c.toNat ≠ .punctSym := by
    intro hcls
    rw [isLmChar_eq hcls] at hc
    cases hc
  rw [first_split3, contains_eq_false rfl hpunct, if_neg Bool.false_ne_true, Option.none_or, hword,
    Option.some_or]

/-- A character of punctuation. -/
lemma first_of_punctSym (hcls : table.classOf c.toNat = .punctSym) :
    first (split3 table) (c :: t) =
      (if c.toNat < 0x80 then asciiRest t else none).or (some (psRest table t)) := by
  have hfront : isPrefix table c = false := by
    rw [isPrefix, DsClassTable.isA_eq hcls .punctSym, decide_eq_true rfl, Bool.or_true]
    rfl
  have hcontains : punctuationChars.contains c = decide (c.toNat < 0x80) := by
    rw [contains_punctuationChars table, DsClassTable.isA_eq hcls, decide_eq_true rfl,
      Bool.and_true]
  rw [first_split3, hcontains, hfront, if_neg Bool.false_ne_true, Option.none_or,
    lmRest.eq_2, isLmChar_eq hcls, if_neg (ne_space hcls (by decide)), Option.none_or,
    punctsRest.eq_2, DsClassTable.isA_eq hcls]
  simp

/-- A space. -/
lemma first_of_whitespace (hcls : table.classOf c.toNat = .whitespace) :
    first (split3 table) (c :: t) =
      (if isNewline c then none else lmRest table t).or
        ((if c = ' ' then punctsRest table t else none).or
          (some (Cl100kFamily.wsRest table.marksJoin false c t))) := by
  have hspace : table.marksJoin.isA .whitespace c = true := DsClassTable.isA_marksJoin hcls _
  have hfront : isPrefix table c = !isNewline c := by
    rw [isPrefix, DsClassTable.isA_eq hcls, DsClassTable.isA_eq hcls]
    cases isNewline c <;> rfl
  rw [first_split3, contains_eq_false hcls (by decide), if_neg Bool.false_ne_true, Option.none_or,
    hfront, lmRest.eq_2, isLmChar_eq hcls, punctsRest.eq_2, DsClassTable.isA_eq hcls,
    Cl100kFamily.first_spacesQwen2 hspace]
  cases isNewline c <;> simp

/-- Another character, which is a prefix or is not matched. -/
lemma first_of_other (hcls : table.classOf c.toNat = .other ∨ table.classOf c.toNat = .number) :
    first (split3 table) (c :: t) = lmRest table t := by
  have hne : table.classOf c.toNat ≠ .whitespace ∧ table.classOf c.toNat ≠ .punctSym := by
    obtain hcls | hcls := hcls
    · rw [hcls]
      decide
    · rw [hcls]
      decide
  have hfront : isPrefix table c = true := by
    rw [isPrefix, isNewline_eq_false rfl hne.1]
    obtain hcls | hcls := hcls
    · rw [DsClassTable.isA_eq hcls, DsClassTable.isA_eq hcls]
      rfl
    · rw [DsClassTable.isA_eq hcls, DsClassTable.isA_eq hcls]
      rfl
  have hlm : isLmChar table c = false := by
    obtain hcls | hcls := hcls
    · exact isLmChar_eq hcls
    · exact isLmChar_eq hcls
  have hspaces : first (anyOf (Cl100kFamily.spacesQwen2 table.marksJoin)) (c :: t) = none := by
    have hspace : table.marksJoin.isA .whitespace c = false := by
      rw [isA_whitespace_marksJoin]
      exact decide_eq_false hne.1
    rw [Cl100kFamily.spacesQwen2, first_anyOf_cons, first_anyOf_cons, first_anyOf_cons,
      first_anyOf_nil, Cl100kFamily.first_newlines, Cl100kFamily.afterNewline, spacesBefore, oneOf,
      first_seq_plus_one_cons, first_plus_one_cons, hspace]
    rfl
  rw [first_split3, contains_eq_false rfl hne.2, if_neg Bool.false_ne_true, Option.none_or, hfront,
    if_pos rfl, lmRest.eq_2, hlm, if_neg Bool.false_ne_true, Option.or_none,
    if_neg (ne_space rfl hne.1), punctsRest.eq_2, hspaces]
  have hpunct : table.isA .punctSym c = false := decide_eq_false hne.2
  rw [hpunct, if_neg Bool.false_ne_true, Option.none_or, Option.none_or, Option.or_none]

/-! ### The tokens -/

/-- A match of the main regex takes something. -/
lemma length_lmRest_le (h : lmRest table t = some rest) : rest.length ≤ t.length := by
  cases t with
  | nil => cases h
  | cons d t =>
      obtain ⟨-, h⟩ := Option.ite_none_right_eq_some.mp h
      cases h
      exact (List.length_dropWhile_le _ _).trans (Nat.le_succ _)

lemma length_psRest_le (table : DeepSeekTable) (t : List Char) :
    (psRest table t).length ≤ t.length :=
  (List.length_dropWhile_le _ _).trans (List.length_dropWhile_le _ _)

lemma length_punctsRest_le (h : punctsRest table t = some rest) : rest.length ≤ t.length := by
  cases t with
  | nil => cases h
  | cons d t =>
      obtain ⟨-, h⟩ := Option.ite_none_right_eq_some.mp h
      cases h
      exact (length_psRest_le table t).trans (Nat.le_succ _)

lemma length_asciiRest_le (h : asciiRest t = some rest) : rest.length ≤ t.length := by
  cases t with
  | nil => cases h
  | cons d t =>
      obtain ⟨-, h⟩ := Option.ite_none_right_eq_some.mp h
      cases h
      exact (List.length_dropWhile_le _ _).trans (Nat.le_succ _)

/-- Only the other characters are not matched, when no letter and no mark follows. -/
lemma exists_first (hnumber : table.isA .number c = false)
    (hgap : ¬ (table.isA .other c = true ∧ lmRest table t = none)) :
    ∃ rest, first (split3 table) (c :: t) = some rest ∧ rest.length ≤ t.length := by
  cases hcls : table.classOf c.toNat with
  | letter | mark =>
      exact ⟨_, first_of_lm (isLmChar_eq hcls), List.length_dropWhile_le _ _⟩
  | number =>
      rw [DsClassTable.isA_eq hcls] at hnumber
      cases hnumber
  | whitespace =>
      rw [first_of_whitespace hcls]
      cases hword : (if isNewline c then none else lmRest table t) with
      | some rest =>
          obtain ⟨-, hword⟩ := Option.ite_none_left_eq_some.mp hword
          exact ⟨rest, rfl, length_lmRest_le hword⟩
      | none =>
          cases hpuncts : (if c = ' ' then punctsRest table t else none) with
          | some rest =>
              obtain ⟨-, hpuncts⟩ := Option.ite_none_right_eq_some.mp hpuncts
              exact ⟨rest, rfl, length_punctsRest_le hpuncts⟩
          | none => exact ⟨_, rfl, Cl100kFamily.length_wsRest_le table.marksJoin false c t⟩
  | punctSym =>
      rw [first_of_punctSym hcls]
      cases hletters : (if c.toNat < 0x80 then asciiRest t else none) with
      | some rest =>
          obtain ⟨-, hletters⟩ := Option.ite_none_right_eq_some.mp hletters
          exact ⟨rest, rfl, length_asciiRest_le hletters⟩
      | none => exact ⟨_, rfl, length_psRest_le table t⟩
  | other =>
      rw [first_of_other (.inl hcls)]
      cases hword : lmRest table t with
      | some rest => exact ⟨rest, rfl, length_lmRest_le hword⟩
      | none => exact absurd ⟨DsClassTable.isA_eq hcls .other, hword⟩ hgap

/-- The first piece of the main regex ends where `rest` is left. -/
def FirstPiece (table : DeepSeekTable) (p rest : List Char) : Prop :=
  ∃ piece, piece ≠ [] ∧ p = piece ++ rest ∧
    split (split3 table) p = piece :: split (split3 table) rest

lemma firstPiece_of_first (h : first (split3 table) (c :: t) = some rest)
    (hlen : rest.length ≤ t.length) : FirstPiece table (c :: t) rest :=
  split_of_first h hlen

/-- What a gap leaves behind its first character. -/
def gapRest (table : DeepSeekTable) : List Char → List Char
  | [] => []
  | d :: t => if table.isA .other d && (lmRest table t).isNone then gapRest table t else d :: t

/-- A gap up to the next match. -/
lemma firstPiece_of_gap (hc : table.isA .other c = true) (hword : lmRest table p = none)
    (hp : ∀ d ∈ p, table.isA .number d = false) : FirstPiece table (c :: p) (gapRest table p) := by
  have hgap : ∃ g, c :: p = (c :: g) ++ gapRest table p ∧
      (∀ y, y <:+ c :: g → y ≠ [] → first (split3 table) (y ++ gapRest table p) = none) ∧
      ∀ a x, gapRest table p = a :: x →
        ∃ rest, first (split3 table) (a :: x) = some rest ∧ rest.length ≤ x.length := by
    induction p generalizing c with
    | nil =>
        refine ⟨[], rfl, fun y hy hne => ?_, fun a x h => absurd h.symm (List.cons_ne_nil a x)⟩
        obtain rfl := (List.suffix_cons_iff.mp hy).resolve_right fun h =>
          hne (List.suffix_nil.mp h)
        rw [gapRest, List.append_nil, first_of_other (.inl (of_decide_eq_true hc)), hword]
    | cons d t ih =>
        obtain ⟨hd, ht⟩ := List.forall_mem_cons.mp hp
        have hself : first (split3 table) (c :: d :: t) = none := by
          rw [first_of_other (.inl (of_decide_eq_true hc)), hword]
        by_cases hnext : table.isA .other d = true ∧ lmRest table t = none
        · have hrest : gapRest table (d :: t) = gapRest table t := by
            rw [gapRest, hnext.1, hnext.2]
            rfl
          obtain ⟨g, hg, hnone, hmatch⟩ := ih hnext.1 hnext.2 ht
          rw [hrest]
          refine ⟨d :: g, by rw [hg]; rfl, fun y hy hne => ?_, hmatch⟩
          obtain rfl | hy := List.suffix_cons_iff.mp hy
          · rw [List.cons_append, ← hg]
            exact hself
          · exact hnone y hy hne
        · have hrest : gapRest table (d :: t) = d :: t := by
            rw [gapRest, if_neg]
            rw [Bool.and_eq_true, Option.isNone_iff_eq_none]
            exact hnext
          rw [hrest]
          refine ⟨[], rfl, fun y hy hne => ?_, fun a x h => ?_⟩
          · obtain rfl := (List.suffix_cons_iff.mp hy).resolve_right fun h =>
              hne (List.suffix_nil.mp h)
            exact hself
          · obtain ⟨rfl, rfl⟩ := List.cons.inj h
            exact exists_first hd hnext
  obtain ⟨g, hg, hnone, hmatch⟩ := hgap
  refine ⟨c :: g, List.cons_ne_nil c g, hg, ?_⟩
  rw [hg, split_of_gap (List.cons_ne_nil c g) hnone hmatch]

lemma isA_number_of_inRegion {cjkRegion : Bool} (h : inRegion table cjkRegion c = true) :
    table.isA .number c = false := (Bool.not_eq_true' _).mp (Bool.and_eq_true_iff.mp h).2

lemma referenceTokens_nil (table : DeepSeekTable) : referenceTokens table [] = [] := by
  rw [referenceTokens, split_nil]
  rfl

/-- The pieces of a region are split off. -/
lemma referenceTokens_append {cjkRegion : Bool}
    (hp : ∀ c ∈ p, inRegion table cjkRegion c = true)
    (hrest : ∀ c ∈ rest.head?, inRegion table cjkRegion c = false) :
    referenceTokens table (p ++ rest) = split (split3 table) p ++ referenceTokens table rest := by
  by_cases hne : p = []
  · subst hne
    rw [split_nil]
    rfl
  · change (stages table (p ++ rest)).flatMap _ = _
    rw [stages_region hne hp hrest, List.flatMap_cons]
    rfl

/-- The first token of a region. -/
lemma referenceTokens_region {cjkRegion : Bool} {u : List Char}
    (hp : ∀ c ∈ p, inRegion table cjkRegion c = true)
    (hrest : ∀ c ∈ rest.head?, inRegion table cjkRegion c = false) (h : FirstPiece table p u) :
    ∃ piece, piece ≠ [] ∧ p ++ rest = piece ++ (u ++ rest) ∧
      referenceTokens table (p ++ rest) = piece :: referenceTokens table (u ++ rest) := by
  obtain ⟨piece, hne, rfl, hsplit⟩ := h
  refine ⟨piece, hne, List.append_assoc _ _ _, ?_⟩
  rw [referenceTokens_append hp hrest, hsplit,
    referenceTokens_append (List.forall_mem_append.mp hp).2 hrest]
  rfl

/-- A number is a token. -/
lemma referenceTokens_number (hc : table.isA .number c = true) :
    ∃ piece, piece ≠ [] ∧ c :: t = piece ++ dropNumbers table.marksJoin 2 t ∧
      referenceTokens table (c :: t) =
        piece :: referenceTokens table (dropNumbers table.marksJoin 2 t) := by
  obtain ⟨m, hne, hm, hall, hstages⟩ := stages_number (t := t) hc
  have hnone : ∀ c t, table.isA .number c = true → (∀ d ∈ t.head?, table.isA .number d = true) →
      first (split3 table) (c :: t) = none := by
    intro c t hc ht
    rw [first_of_other (.inr (of_decide_eq_true hc))]
    cases t with
    | nil => rfl
    | cons d t =>
        have hd : isLmChar table d = false := isLmChar_eq (of_decide_eq_true (ht d rfl))
        rw [lmRest, hd, if_neg Bool.false_ne_true]
  have hgap : split (split3 table) (m ++ []) = m :: split (split3 table) [] := by
    refine split_of_gap hne (fun y hy hne => ?_) fun a x h => absurd h.symm (List.cons_ne_nil a x)
    have hy' : ∀ d ∈ y, table.isA .number d = true := fun d hd => hall d (hy.subset hd)
    obtain ⟨d, y, rfl⟩ := List.exists_cons_of_ne_nil hne
    rw [List.append_nil]
    exact hnone d y (hy' d List.mem_cons_self) fun e he =>
      hy' e (.tail _ (List.mem_of_mem_head? he))
  rw [List.append_nil, split_nil] at hgap
  refine ⟨m, hne, hm, ?_⟩
  change (stages table (c :: t)).flatMap _ = _
  rw [hstages, List.flatMap_cons, hgap]
  rfl

end DeepSeekV3

end Hypertok
