import Hypertok.Pretokenize.Cl100k

/-!
The runs of letters of `o200k_family.rs`. Two alternatives of its regexes match a run, with brackets
that overlap: `[\p{Lu}\p{Lt}\p{Lm}\p{Lo}\p{M}]*[\p{Ll}\p{Lm}\p{Lo}\p{M}]+` first, and then
`[\p{Lu}\p{Lt}\p{Lm}\p{Lo}\p{M}]+[\p{Ll}\p{Lm}\p{Lo}\p{M}]*`. The scanner reads the run once, and
remembers one position to go back to.

* `first_brackets`: what backtracking over both alternatives leaves.
* `scanCaseRun_at`: the run ends there.
-/

namespace Hypertok

open Machine Regex

/-- `O200kCharClass`. -/
inductive O200kCharClass
  | upper
  | lower
  | caseless
  | mark
  | number
  | whitespace
  | other
  deriving DecidableEq

/-- The class in the table of `class_of`. -/
def O200kCharClass.join : O200kCharClass → CharClass
  | upper | lower | caseless => .letter
  | number => .number
  | whitespace => .whitespace
  | mark | other => .other

/-- `KimiCharClass`. -/
inductive KimiCharClass
  | upper
  | lower
  | caseless
  | mark
  | number
  | whitespace
  | other
  | han
  | hanNumber
  | hanOther
  deriving DecidableEq

/-- `base`. -/
def KimiCharClass.base : KimiCharClass → O200kCharClass
  | upper => .upper
  | lower => .lower
  | caseless | han => .caseless
  | mark => .mark
  | number | hanNumber => .number
  | whitespace => .whitespace
  | other | hanOther => .other

/-- `is_han`. -/
def KimiCharClass.isHan : KimiCharClass → Bool
  | han | hanNumber | hanOther => true
  | _ => false

/-- The classes of ASCII. -/
def asciiO200kClass (cp : ℕ) : O200kCharClass :=
  if 65 ≤ cp ∧ cp ≤ 90 then .upper
  else if 97 ≤ cp ∧ cp ≤ 122 then .lower
  else if 48 ≤ cp ∧ cp ≤ 57 then .number
  else if cp = 32 ∨ 9 ≤ cp ∧ cp ≤ 13 then .whitespace
  else .other

/-- `o200k_class_of`, and the script Han: a classification of the codepoints that agrees with
ASCII. No space is of the script Han. -/
structure O200kTable where
  classOf : ℕ → O200kCharClass
  isHan : ℕ → Bool
  ascii : ∀ cp < 0x80, classOf cp = asciiO200kClass cp ∧ isHan cp = false
  han : ∀ cp, isHan cp = true → classOf cp ≠ .whitespace

namespace O200kTable

variable (table : O200kTable)

/-- `class_of`, of the same characters. -/
def base : ClassTable where
  classOf cp := (table.classOf cp).join
  ascii cp hcp := by
    have hall : ∀ cp < 0x80, (asciiO200kClass cp).join = asciiClass cp := by decide +kernel
    rw [(table.ascii cp hcp).1, hall cp hcp]

/-- `kimi_class_of`, as its table is generated from that of `o200k_class_of`. -/
def kimiClassOf (cp : ℕ) : KimiCharClass :=
  if table.isHan cp then
    match table.classOf cp with
    | .number => .hanNumber
    | .other | .mark => .hanOther
    | _ => .han
  else
    match table.classOf cp with
    | .upper => .upper
    | .lower => .lower
    | .caseless => .caseless
    | .mark => .mark
    | .number => .number
    | .whitespace => .whitespace
    | .other => .other

/-- `family_class_of`. -/
def familyClassOf (han : Bool) (cp : ℕ) : O200kCharClass × Bool :=
  if han then ((table.kimiClassOf cp).base, (table.kimiClassOf cp).isHan)
  else (table.classOf cp, false)

/-- `\p{Lu}`, `\p{Ll}` and so on. -/
def isA (cls : O200kCharClass) (c : Char) : Bool := table.classOf c.toNat = cls

/-- `\p{Han}`, of a scheme that has it. -/
def isHanChar (han : Bool) (c : Char) : Bool := han && table.isHan c.toNat

variable {table} {han : Bool} {cp : ℕ} {c : Char}

lemma familyClassOf_of_not_han (h : (han && table.isHan cp) = false) :
    table.familyClassOf han cp = (table.classOf cp, false) := by
  rw [familyClassOf]
  cases han with
  | false => rfl
  | true =>
      rw [Bool.true_and] at h
      rw [if_pos rfl, kimiClassOf, h, if_neg Bool.false_ne_true]
      cases table.classOf cp <;> rfl

lemma familyClassOf_of_han (h : (han && table.isHan cp) = true) :
    (table.familyClassOf han cp).2 = true ∧
      (table.familyClassOf han cp).1 = match table.classOf cp with
        | .number => .number
        | .other | .mark => .other
        | _ => .caseless := by
  obtain ⟨rfl, hhan⟩ := Bool.and_eq_true_iff.mp h
  rw [familyClassOf, if_pos rfl, kimiClassOf, if_pos hhan]
  cases table.classOf cp <;> exact ⟨rfl, rfl⟩

/-- The classes are joined alike in the schemes. -/
lemma join_familyClassOf (table : O200kTable) (han : Bool) (cp : ℕ) :
    (table.familyClassOf han cp).1.join = (table.classOf cp).join := by
  cases h : han && table.isHan cp with
  | false => rw [familyClassOf_of_not_han h]
  | true =>
      obtain ⟨-, hcls⟩ := familyClassOf_of_han h
      have hspace := table.han cp (Bool.and_eq_true_iff.mp h).2
      rw [hcls]
      cases hk : table.classOf cp with
      | whitespace => exact absurd hk hspace
      | _ => rfl

lemma isA_base (cls : CharClass) (c : Char) :
    table.base.isA cls c = decide ((table.classOf c.toNat).join = cls) := rfl

lemma not_han_of_ascii (hc : c.toNat < 0x80) : (han && table.isHan c.toNat) = false := by
  rw [(table.ascii _ hc).2, Bool.and_false]

end O200kTable

namespace O200kFamily

/-! ### The scan -/

/-- `is_upper_ascii`. -/
def isUpperAscii (b : UInt8) : Bool := b - 65 < 26

/-- What a character of a run of letters is to its case: a mark is like a letter without case. -/
inductive RunClass
  | upper
  | lower
  | caseless
  deriving DecidableEq

/-- The arms of `match family_class_of` for a run of letters. -/
def runClassOf (table : O200kTable) (han : Bool) (cp : ℕ) : Option RunClass :=
  match table.familyClassOf han cp with
  | (_, true) => none
  | (.upper, _) => some .upper
  | (.lower, _) => some .lower
  | (.caseless, _) | (.mark, _) => some .caseless
  | _ => none

/-- `CaseState`. -/
inductive CaseState
  | U (lastClEnd : ℕ)
  | L

/-- The state behind the first character, which ends at `stop`. -/
def CaseState.start (stop : ℕ) : RunClass → CaseState
  | .upper => .U 0
  | .lower => .L
  | .caseless => .U stop

/-- The state behind a further character, which ends at `stop`; an upper one ends the token in the
phase `L`. -/
def CaseState.next (stop : ℕ) : CaseState → RunClass → Option CaseState
  | .U last, .upper => some (.U last)
  | .L, .upper => none
  | _, .lower => some .L
  | .U _, .caseless => some (.U stop)
  | .L, .caseless => some .L

/-- Where the token ends when the run ends at `pos`. -/
def CaseState.stop (pos : ℕ) : CaseState → ℕ
  | .U last => if last ≠ 0 then last else pos
  | .L => pos

/-- `ascii_letter_state`. -/
def asciiLetterState (b : UInt8) : CaseState := if isUpperAscii b then .U 0 else .L

variable (table : O200kTable) (han : Bool)

/-- `letter_run_first`. -/
def letterRunFirst (bytes : List UInt8) (pos : ℕ) : Option (Option (ℕ × CaseState)) :=
  match bytes[pos]? with
  | none => some none
  | some b =>
      if isLetter b then some (some (pos + 1, asciiLetterState b))
      else if 0x80 ≤ b then do
        let (cp, l) ← decodeCp bytes pos
        return (runClassOf table han cp).map fun k => (pos + l, .start (pos + l) k)
      else some none

/-- A character of the run is read, which ends at `stop`. -/
def readCase (pos stop : ℕ) (st : CaseState) (k : RunClass) : (ℕ × CaseState) ⊕ ℕ :=
  match st.next stop k with
  | some st => .inl (stop, st)
  | none => .inr pos

/-- One turn of the loops of `scan_case_run`: of the inner one for a letter of ASCII, of the outer
one for another character. -/
def caseStep (bytes : List UInt8) : ℕ × CaseState → Option ((ℕ × CaseState) ⊕ ℕ)
  | (pos, st) =>
      match bytes[pos]? with
      | none => some (.inr (st.stop pos))
      | some b =>
          if isUpperAscii b then some (readCase pos (pos + 1) st .upper)
          else if isLetter b then some (readCase pos (pos + 1) st .lower)
          else if 0x80 ≤ b then do
            let (cp, l) ← decodeCp bytes pos
            return match runClassOf table han cp with
              | some k => readCase pos (pos + l) st k
              | none => .inr (st.stop pos)
          else some (.inr (st.stop pos))

/-- `scan_case_run`. -/
def scanCaseRun (bytes : List UInt8) (pos : ℕ) (st : CaseState) : Option ℕ :=
  loop (caseStep table han bytes) (bytes.length + 1) (pos, st)

/-- `try_suffix`. -/
def trySuffix (contractions : Bool) (bytes : List UInt8) (stop : ℕ) : ℕ :=
  if !contractions ∨ bytes[stop]? ≠ some 39 then stop
  else
    match contractionEnd Cl100kFamily.toAsciiLowercase bytes stop with
    | some stop => stop
    | none =>
        if bytes[stop + 1]?.map Cl100kFamily.toAsciiLowercase = some 0xC5 ∧
            bytes[stop + 2]? = some 0xBF then stop + 3
        else stop

/-! ### The brackets -/

/-- `[\p{Lu}\p{Lt}\p{Lm}\p{Lo}\p{M}]`, without the script Han where the scheme has it. -/
def isUlc (c : Char) : Bool :=
  (table.isA .upper c || table.isA .caseless c || table.isA .mark c) && !table.isHanChar han c

/-- `[\p{Ll}\p{Lm}\p{Lo}\p{M}]`, without the script Han where the scheme has it. -/
def isLlc (c : Char) : Bool :=
  (table.isA .lower c || table.isA .caseless c || table.isA .mark c) && !table.isHanChar han c

/-- The classes that `[ulc]` has. -/
def RunClass.inUlc : RunClass → Bool
  | upper | caseless => true
  | lower => false

/-- The classes that `[llc]` has. -/
def RunClass.inLlc : RunClass → Bool
  | lower | caseless => true
  | upper => false

/-- The class of a character in a run. -/
def runClass (c : Char) : Option RunClass := runClassOf table han c.toNat

variable {table han} {c : Char} {t : List Char} {bytes : List UInt8} {pos : ℕ}

lemma runClass_of_not_han (h : table.isHanChar han c = false) :
    runClass table han c = match table.classOf c.toNat with
      | .upper => some .upper
      | .lower => some .lower
      | .caseless | .mark => some .caseless
      | _ => none := by
  rw [runClass, runClassOf, O200kTable.familyClassOf_of_not_han h]
  cases table.classOf c.toNat <;> rfl

lemma runClass_of_han (h : table.isHanChar han c = true) : runClass table han c = none := by
  obtain ⟨hhan, -⟩ := O200kTable.familyClassOf_of_han h
  rw [runClass, runClassOf]
  rw [← Prod.mk.eta (p := table.familyClassOf han c.toNat), hhan]

/-- The characters of the brackets, by their class in a run. -/
lemma brackets_of_runClass (table : O200kTable) (han : Bool) (c : Char) :
    isUlc table han c = (runClass table han c).any RunClass.inUlc ∧
      isLlc table han c = (runClass table han c).any RunClass.inLlc := by
  cases h : table.isHanChar han c with
  | true =>
      rw [runClass_of_han h, isUlc, isLlc, h, Bool.not_true, Bool.and_false, Bool.and_false]
      exact ⟨rfl, rfl⟩
  | false =>
      rw [runClass_of_not_han h, isUlc, isLlc, h]
      simp only [O200kTable.isA]
      cases table.classOf c.toNat <;> exact ⟨rfl, rfl⟩

lemma isUlc_of_runClass {k : RunClass} (h : runClass table han c = some k) :
    isUlc table han c = k.inUlc := by
  rw [(brackets_of_runClass table han c).1, h, Option.any_some]

lemma isLlc_of_runClass {k : RunClass} (h : runClass table han c = some k) :
    isLlc table han c = k.inLlc := by
  rw [(brackets_of_runClass table han c).2, h, Option.any_some]

lemma brackets_of_none (h : runClass table han c = none) :
    isUlc table han c = false ∧ isLlc table han c = false := by
  have hpair := brackets_of_runClass table han c
  rwa [h] at hpair

/-! ### Backtracking -/

section

variable (table han)

/-- What the brackets of the first alternative leave: `[ulc]*` gives characters back until `[llc]+`
can follow. -/
def mixedRest : List Char → Option (List Char)
  | [] => none
  | c :: t =>
      match runClass table han c with
      | some .upper => mixedRest t
      | some .lower => some (t.dropWhile (isLlc table han))
      | some .caseless => (mixedRest t).or (some (t.dropWhile (isLlc table han)))
      | none => none

/-- What the rest of a run leaves: in the phase `L`, `none`, all that `[llc]*` takes; in the phase
`U`, what the first alternative leaves, or else what is left behind the last character without
case, if there is one, or else all that `[ulc]*` takes. -/
def runRest : Option (Option (List Char)) → List Char → List Char
  | none, t => t.dropWhile (isLlc table han)
  | some last, t => (mixedRest table han t).getD (last.getD (t.dropWhile (isUlc table han)))

/-- What the phase is behind a first character, where `t` is left. -/
def startRest (t : List Char) : RunClass → Option (Option (List Char))
  | .upper => some none
  | .lower => none
  | .caseless => some (some t)

/-- What the phase is behind a further character, where `t` is left; an upper one ends the token in
the phase `L`. -/
def nextRest (t : List Char) :
    Option (Option (List Char)) → RunClass → Option (Option (Option (List Char)))
  | some last, .upper => some (some last)
  | none, .upper => none
  | _, .lower => some none
  | some _, .caseless => some (some (some t))
  | none, .caseless => some none

/-- What the phase leaves where the run ends, and `t` is left. -/
def stopRest (t : List Char) : Option (Option (List Char)) → List Char
  | some (some rest) => rest
  | _ => t

/-- What a run of letters leaves. -/
def lettersRest : List Char → Option (List Char)
  | [] => none
  | c :: t => (runClass table han c).map fun k => runRest table han (startRest t k) t

end

/-- Where the first alternative fails, nothing that `[llc]*` takes follows. -/
lemma dropWhile_of_mixedRest (h : mixedRest table han t = none) :
    t.dropWhile (isLlc table han) = t ∧
      (t.dropWhile (isUlc table han)).dropWhile (isLlc table han) =
        t.dropWhile (isUlc table han) := by
  induction t with
  | nil => exact ⟨rfl, rfl⟩
  | cons c t ih =>
      rw [mixedRest] at h
      cases hk : runClass table han c with
      | none =>
          obtain ⟨hulc, hllc⟩ := brackets_of_none hk
          simp [hulc, hllc]
      | some k =>
          rw [hk] at h
          have hulc := isUlc_of_runClass hk
          have hllc := isLlc_of_runClass hk
          cases k with
          | upper => simp [hulc, hllc, RunClass.inUlc, RunClass.inLlc, (ih h).2]
          | lower => cases h
          | caseless => exact absurd (Option.or_eq_none_iff.mp h).2 (Option.some_ne_none _)

/-- A character of the run is read. -/
lemma runRest_cons {k : RunClass} (hk : runClass table han c = some k)
    (last : Option (Option (List Char))) :
    runRest table han last (c :: t) =
      match nextRest t last k with
      | some last => runRest table han last t
      | none => c :: t := by
  have hulc := isUlc_of_runClass hk
  have hllc := isLlc_of_runClass hk
  cases last with
  | none =>
      rw [runRest.eq_1, List.dropWhile_cons, hllc]
      cases k <;> rfl
  | some last =>
      rw [runRest.eq_2, mixedRest, hk, List.dropWhile_cons, hulc]
      cases k with
      | upper => rfl
      | lower => rfl
      | caseless =>
          rw [nextRest]
          dsimp only
          rw [runRest]
          cases hmixed : mixedRest table han t with
          | some rest => rfl
          | none =>
              rw [(dropWhile_of_mixedRest hmixed).1]
              rfl

/-- The run ends. -/
lemma runRest_of_head (h : ∀ c ∈ t.head?, runClass table han c = none)
    (last : Option (Option (List Char))) :
    runRest table han last t = stopRest t last := by
  have hmixed : mixedRest table han t = none ∧ t.dropWhile (isUlc table han) = t ∧
      t.dropWhile (isLlc table han) = t := by
    cases t with
    | nil => exact ⟨rfl, rfl, rfl⟩
    | cons c t =>
        obtain ⟨hulc, hllc⟩ := brackets_of_none (h c rfl)
        refine ⟨by rw [mixedRest, h c rfl], ?_, ?_⟩
        · exact List.dropWhile_cons_of_neg (by rw [hulc]; exact Bool.false_ne_true)
        · exact List.dropWhile_cons_of_neg (by rw [hllc]; exact Bool.false_ne_true)
  cases last with
  | none => exact hmixed.2.2
  | some last =>
      rw [runRest, hmixed.1, hmixed.2.1]
      cases last <;> rfl

section

variable (table han)

/-- `[ulc]`. -/
def ulc : Regex Char := one (isUlc table han)

/-- `[llc]`. -/
def llc : Regex Char := one (isLlc table han)

/-- `(?i:'s|'t|'re|'ve|'m|'ll|'d)?`, in the schemes that have it. -/
def suffix (contractions : Bool) : Regex Char :=
  if contractions then opt Cl100kFamily.quotedLetters else empty

/-- What the suffix leaves. -/
def suffixRest (contractions : Bool) : List Char → List Char
  | [] => []
  | c :: t =>
      if contractions ∧ c = '\'' then (contractionRest Cl100kFamily.foldCase t).getD (c :: t)
      else c :: t

end

lemma first_suffix (contractions : Bool) (t : List Char) :
    first (suffix contractions) t = some (suffixRest contractions t) := by
  cases contractions with
  | false => cases t <;> rfl
  | true =>
      rw [suffix, if_pos rfl, first_opt]
      cases t with
      | nil => rfl
      | cons c t =>
          rw [Cl100kFamily.first_quotedLetters, suffixRest]
          by_cases hc : c = '\''
          · rw [if_pos hc, if_pos ⟨rfl, hc⟩]
            cases contractionRest Cl100kFamily.foldCase t <;> rfl
          · rw [if_neg hc, if_neg fun h => hc h.2]
            rfl

/-- `[llc]+` and the suffix. -/
lemma first_llc_suffix (contractions : Bool) (t : List Char) :
    first (seq (plus (llc table han)) (suffix contractions)) t =
      match t with
      | [] => none
      | c :: t => if isLlc table han c then
          some (suffixRest contractions (t.dropWhile (isLlc table han))) else none := by
  cases t with
  | nil => rfl
  | cons c t =>
      rw [llc, first_seq_plus_one_cons]
      dsimp only
      split_ifs
      · exact findSome?_runRests_dropWhile (first_suffix contractions _)
      · rfl

/-- `[ulc]*[llc]+` and the suffix. -/
lemma first_mixed (contractions : Bool) (t : List Char) :
    first (seq (star (ulc table han)) (seq (plus (llc table han)) (suffix contractions))) t =
      (mixedRest table han t).map (suffixRest contractions) := by
  rw [first_seq, ulc, rests_star_one]
  induction t with
  | nil => rfl
  | cons c t ih =>
      have hf := @first_llc_suffix table han contractions (c :: t)
      rw [mixedRest]
      cases hk : runClass table han c with
      | none =>
          obtain ⟨hulc, hllc⟩ := brackets_of_none hk
          rw [runRests, hulc, if_neg Bool.false_ne_true, List.findSome?_singleton, hf]
          dsimp only
          rw [hllc, if_neg Bool.false_ne_true, Option.map_none]
      | some k =>
          have hulc := isUlc_of_runClass hk
          have hllc := isLlc_of_runClass hk
          cases k with
          | upper =>
              rw [findSome?_runRests_cons _ hulc, ih, hf]
              dsimp only
              rw [hllc, RunClass.inLlc, if_neg Bool.false_ne_true, Option.or_none]
          | lower =>
              rw [runRests, hulc, RunClass.inUlc, if_neg Bool.false_ne_true,
                List.findSome?_singleton, hf]
              dsimp only
              rw [hllc, RunClass.inLlc, if_pos rfl, Option.map_some]
          | caseless =>
              rw [findSome?_runRests_cons _ hulc, ih, hf]
              dsimp only
              rw [hllc, RunClass.inLlc, if_pos rfl]
              cases mixedRest table han t <;> rfl

/-- `[ulc]+[llc]*` and the suffix. -/
lemma first_uppers (contractions : Bool) (t : List Char) :
    first (seq (plus (ulc table han)) (seq (star (llc table han)) (suffix contractions))) t =
      match t with
      | [] => none
      | c :: t => if isUlc table han c then some (suffixRest contractions
          ((t.dropWhile (isUlc table han)).dropWhile (isLlc table han))) else none := by
  cases t with
  | nil => rfl
  | cons c t =>
      rw [ulc, first_seq_plus_one_cons]
      dsimp only
      split_ifs
      · refine findSome?_runRests_dropWhile ?_
        rw [first_seq, llc, rests_star_one]
        exact findSome?_runRests_dropWhile (first_suffix contractions _)
      · rfl

/-- Backtracking over both alternatives leaves what the run leaves. -/
theorem first_brackets (contractions : Bool) (t : List Char) :
    (first (seq (star (ulc table han)) (seq (plus (llc table han)) (suffix contractions))) t).or
      (first (seq (plus (ulc table han)) (seq (star (llc table han)) (suffix contractions))) t) =
      (lettersRest table han t).map (suffixRest contractions) := by
  rw [first_mixed, first_uppers]
  cases t with
  | nil => rfl
  | cons c t =>
      dsimp only
      rw [mixedRest, lettersRest]
      cases hk : runClass table han c with
      | none =>
          rw [(brackets_of_none hk).1, if_neg Bool.false_ne_true]
          rfl
      | some k =>
          rw [isUlc_of_runClass hk]
          cases k with
          | upper =>
              dsimp only
              rw [RunClass.inUlc, if_pos rfl, Option.map_some, startRest, runRest]
              cases hmixed : mixedRest table han t with
              | some rest => rfl
              | none =>
                  rw [(dropWhile_of_mixedRest hmixed).2]
                  rfl
          | lower => rfl
          | caseless =>
              dsimp only
              rw [RunClass.inUlc, if_pos rfl, Option.map_some, startRest, runRest]
              cases hmixed : mixedRest table han t with
              | some rest => rfl
              | none =>
                  rw [(dropWhile_of_mixedRest hmixed).1]
                  rfl

/-! ### The run in a text -/

/-- The variable of the scan stands for a phase. -/
def CaseState.Holds (bytes : List UInt8) : CaseState → Option (Option (List Char)) → Prop
  | .L, none => True
  | .U last, some none => last = 0
  | .U last, some (some rest) => last ≠ 0 ∧ At bytes last rest
  | _, _ => False

lemma holds_start {stop : ℕ} (h : At bytes stop t) (hne : stop ≠ 0) (k : RunClass) :
    (CaseState.start stop k).Holds bytes (startRest t k) := by
  cases k with
  | upper => exact rfl
  | lower => exact trivial
  | caseless => exact ⟨hne, h⟩

namespace CaseState.Holds

variable {st : CaseState} {last : Option (Option (List Char))}

lemma next {stop : ℕ} (hst : st.Holds bytes last) (h : At bytes stop t) (hne : stop ≠ 0)
    (k : RunClass) :
    (∃ st' last', st.next stop k = some st' ∧ nextRest t last k = some last' ∧
      st'.Holds bytes last') ∨
    st.next stop k = none ∧ nextRest t last k = none := by
  cases st with
  | U e =>
      cases last with
      | none => exact hst.elim
      | some last =>
          cases k with
          | upper => exact .inl ⟨_, _, rfl, rfl, hst⟩
          | lower => exact .inl ⟨_, none, rfl, rfl, trivial⟩
          | caseless => exact .inl ⟨_, some (some t), rfl, rfl, hne, h⟩
  | L =>
      cases last with
      | none =>
          cases k with
          | upper => exact .inr ⟨rfl, rfl⟩
          | lower => exact .inl ⟨_, none, rfl, rfl, trivial⟩
          | caseless => exact .inl ⟨_, none, rfl, rfl, trivial⟩
      | some last => cases last <;> exact hst.elim

lemma stop (hst : st.Holds bytes last) (h : At bytes pos t) :
    At bytes (st.stop pos) (stopRest t last) := by
  cases st with
  | U e =>
      cases last with
      | none => exact hst.elim
      | some last =>
          cases last with
          | none =>
              obtain rfl : e = 0 := hst
              exact h
          | some rest =>
              rw [CaseState.stop, if_pos hst.1]
              exact hst.2
  | L =>
      cases last with
      | none => exact h
      | some last => cases last <;> exact hst.elim

end CaseState.Holds

lemma runClass_ascii (table : O200kTable) (han : Bool) (hc : c.toNat < 0x80) :
    runClass table han c = if isUpperAscii (UInt8.ofNat c.toNat) then some .upper
      else if isLetter (UInt8.ofNat c.toNat) then some .lower else none := by
  have hall : ∀ n < 0x80, (match asciiO200kClass n with
      | .upper => some RunClass.upper
      | .lower => some .lower
      | .caseless | .mark => some .caseless
      | _ => none) = if isUpperAscii (UInt8.ofNat n) then some .upper
        else if isLetter (UInt8.ofNat n) then some .lower else none := by decide +kernel
  rw [runClass_of_not_han (O200kTable.not_han_of_ascii hc), (table.ascii _ hc).1]
  exact hall _ hc

/-- The upper letters of ASCII are letters. -/
lemma isLetter_of_isUpperAscii {b : UInt8} (hb : isUpperAscii b = true) : isLetter b = true := by
  have hall : ∀ n < 256, isUpperAscii (UInt8.ofNat n) = true → isLetter (UInt8.ofNat n) = true := by
    decide +kernel
  have hbyte := hall b.toNat b.toNat_lt
  rw [UInt8.ofNat_toNat] at hbyte
  exact hbyte hb

/-- The state of a letter of ASCII. -/
lemma runClass_of_isLetter (table : O200kTable) (han : Bool) (hc : c.toNat < 0x80)
    (hletter : isLetter (UInt8.ofNat c.toNat) = true) : ∃ k, runClass table han c = some k ∧
      ∀ stop, asciiLetterState (UInt8.ofNat c.toNat) = .start stop k := by
  rw [runClass_ascii table han hc, asciiLetterState]
  split_ifs
  · exact ⟨_, rfl, fun _ => rfl⟩
  · exact ⟨_, rfl, fun _ => rfl⟩

lemma runClass_of_not_isLetter (table : O200kTable) (han : Bool) (hc : c.toNat < 0x80)
    (hletter : ¬ isLetter (UInt8.ofNat c.toNat) = true) : runClass table han c = none := by
  rw [runClass_ascii table han hc, if_neg (mt isLetter_of_isUpperAscii hletter), if_neg hletter]

lemma isUpperAscii_of_le {b : UInt8} (hb : 0x80 ≤ b) : isUpperAscii b = false := by
  have hall : ∀ n < 256, 0x80 ≤ n → isUpperAscii (UInt8.ofNat n) = false := by decide +kernel
  have hbyte := hall b.toNat b.toNat_lt (UInt8.le_iff_toNat_le.mp hb)
  rwa [UInt8.ofNat_toNat] at hbyte

lemma isLetter_of_le {b : UInt8} (hb : 0x80 ≤ b) : isLetter b = false :=
  Bool.eq_false_iff.mpr fun hletter => UInt8.not_lt.mpr hb (recognizes_isLetter.lt hletter)

/-- The position behind a character. -/
lemma ne_zero_of_at {p : ℕ} (h : At bytes pos (c :: t)) (hp : At bytes p t) : p ≠ 0 := by
  have hlt := length_utf8EncodeChar_pos c
  have hpos := hp.pos_eq h.tail
  omega

/-- A turn at a character. -/
lemma caseStep_at (table : O200kTable) (han : Bool) (st : CaseState) (h : At bytes pos (c :: t)) :
    ∃ p, At bytes p t ∧ p ≠ 0 ∧ caseStep table han bytes (pos, st) =
      some (match runClass table han c with
        | some k => readCase pos p st k
        | none => .inr (st.stop pos)) := by
  by_cases hc : c.toNat < 0x80
  · obtain ⟨hget, hnext⟩ := h.ascii hc
    refine ⟨pos + 1, hnext, Nat.succ_ne_zero _, ?_⟩
    rw [caseStep, hget, runClass_ascii table han hc]
    dsimp only
    rw [if_neg (not_le_ofNat hc)]
    split_ifs <;> rfl
  · obtain ⟨⟨b, hget, hge⟩, l, hdecode, hnext⟩ := decodeCp_at h (Nat.not_lt.mp hc)
    refine ⟨pos + l, hnext, ne_zero_of_at h hnext, ?_⟩
    rw [caseStep, hget]
    dsimp only
    rw [isUpperAscii_of_le hge, isLetter_of_le hge, if_neg Bool.false_ne_true,
      if_neg Bool.false_ne_true, if_pos hge, hdecode]
    rfl

/-- The run ends where backtracking ends it. -/
theorem scanCaseRun_at {st : CaseState} {last : Option (Option (List Char))}
    (h : At bytes pos t) (hst : st.Holds bytes last) :
    ∃ q, scanCaseRun table han bytes pos st = some q ∧ At bytes q (runRest table han last t) := by
  have hstep : ∀ m (s : ℕ × CaseState), (∃ u last', At bytes s.1 u ∧ u.length = m ∧
        s.2.Holds bytes last' ∧ runRest table han last' u = runRest table han last t) →
      (∃ s', caseStep table han bytes s = some (.inl s') ∧ ∃ k < m, ∃ u last', At bytes s'.1 u ∧
        u.length = k ∧ s'.2.Holds bytes last' ∧
          runRest table han last' u = runRest table han last t) ∨
      ∃ q, caseStep table han bytes s = some (.inr q) ∧
        At bytes q (runRest table han last t) := by
    rintro m ⟨p, st'⟩ ⟨u, last', hu, rfl, hst', hrun⟩
    dsimp only at hu hst'
    have hhead : (∀ c ∈ u.head?, runClass table han c = none) →
        At bytes (st'.stop p) (runRest table han last t) := by
      intro hhead
      rw [← hrun, runRest_of_head hhead]
      exact hst'.stop hu
    cases u with
    | nil =>
        refine .inr ⟨_, ?_, hhead fun c hc => absurd hc (Option.not_mem_none c)⟩
        rw [caseStep, hu.nil]
    | cons c u =>
        obtain ⟨p', hp', hne, hstep⟩ := caseStep_at table han st' hu
        cases hk : runClass table han c with
        | none =>
            rw [hk] at hstep
            refine .inr ⟨_, hstep, hhead fun c' hc' => ?_⟩
            rwa [← Option.some_inj.mp hc']
        | some k =>
            rw [hk] at hstep
            dsimp only at hstep
            rw [runRest_cons hk] at hrun
            obtain ⟨st'', last'', hnext, hlast, hst''⟩ | ⟨hnext, hlast⟩ := hst'.next hp' hne k
            · rw [readCase, hnext] at hstep
              rw [hlast] at hrun
              exact .inl ⟨_, hstep, u.length, Nat.lt_succ_self _, u, last'', hp', rfl, hst'', hrun⟩
            · rw [readCase, hnext] at hstep
              rw [hlast] at hrun
              exact .inr ⟨_, hstep, hrun ▸ hu⟩
  exact loop_eq_some hstep ⟨t, last, h, rfl, hst, rfl⟩ (Nat.lt_succ_of_le h.length_le)

/-- The first character of a run. -/
lemma letterRunFirst_at (table : O200kTable) (han : Bool) (h : At bytes pos t) :
    (∃ c t' k p, t = c :: t' ∧ runClass table han c = some k ∧
      letterRunFirst table han bytes pos = some (some (p, .start p k)) ∧ At bytes p t' ∧ p ≠ 0) ∨
    letterRunFirst table han bytes pos = some none ∧
      ∀ c ∈ t.head?, runClass table han c = none := by
  cases t with
  | nil =>
      refine .inr ⟨?_, fun c hc => absurd hc (Option.not_mem_none c)⟩
      rw [letterRunFirst, h.nil]
  | cons c t =>
      by_cases hc : c.toNat < 0x80
      · obtain ⟨hget, hnext⟩ := h.ascii hc
        rw [letterRunFirst, hget]
        dsimp only
        by_cases hletter : isLetter (UInt8.ofNat c.toNat) = true
        · obtain ⟨k, hk, hstart⟩ := runClass_of_isLetter table han hc hletter
          rw [if_pos hletter, hstart (pos + 1)]
          exact .inl ⟨c, t, k, _, rfl, hk, rfl, hnext, Nat.succ_ne_zero _⟩
        · rw [if_neg hletter, if_neg (not_le_ofNat hc)]
          refine .inr ⟨rfl, fun c' hc' => ?_⟩
          rw [← Option.some_inj.mp hc']
          exact runClass_of_not_isLetter table han hc hletter
      · obtain ⟨⟨b, hget, hge⟩, l, hdecode, hnext⟩ := decodeCp_at h (Nat.not_lt.mp hc)
        have hrun : letterRunFirst table han bytes pos = some ((runClass table han c).map fun k =>
            (pos + l, .start (pos + l) k)) := by
          rw [letterRunFirst, hget]
          dsimp only
          rw [isLetter_of_le hge, if_neg Bool.false_ne_true, if_pos hge, hdecode]
          rfl
        rw [hrun]
        cases hk : runClass table han c with
        | none =>
            refine .inr ⟨rfl, fun c' hc' => ?_⟩
            rwa [← Option.some_inj.mp hc']
        | some k => exact .inl ⟨c, t, k, _, rfl, hk, rfl, hnext, ne_zero_of_at h hnext⟩

/-- The suffix ends where its regex does. -/
lemma trySuffix_at (contractions : Bool) (h : At bytes pos t) :
    At bytes (trySuffix contractions bytes pos) (suffixRest contractions t) := by
  cases t with
  | nil =>
      rw [trySuffix, if_pos (.inr (by rw [h.nil]; exact (Option.some_ne_none _).symm))]
      exact h
  | cons c t =>
      have hbyte : bytes[pos]? = some 39 ↔ (c :: t).head? = some '\'' :=
        h.byte_iff (d := '\'') (by decide)
      rw [List.head?_cons, Option.some_inj] at hbyte
      rw [trySuffix, suffixRest]
      by_cases hquote : contractions = true ∧ c = '\''
      · obtain ⟨rfl, rfl⟩ := hquote
        have hnext : At bytes (pos + 1) t := h.tail
        have hfold := Cl100kFamily.contractionRest_foldCase t
        have hlower : bytes[pos + 1]?.map Cl100kFamily.toAsciiLowercase = some 0xC5 ↔
            bytes[pos + 1]? = some 0xC5 := by
          have hall : ∀ n < 256, Cl100kFamily.toAsciiLowercase (UInt8.ofNat n) = 0xC5 →
              n = 0xC5 := by decide +kernel
          cases bytes[pos + 1]? with
          | none => simp
          | some b =>
              rw [Option.map_some, Option.some_inj, Option.some_inj]
              constructor
              · intro hb
                have hn := hall b.toNat b.toNat_lt
                rw [UInt8.ofNat_toNat] at hn
                exact UInt8.toNat_inj.mp (hn hb)
              · rintro rfl
                rfl
        have hlong := (and_congr_left' hlower).trans (Cl100kFamily.longS_iff hnext)
        have hcond : ¬ ((!true) = true ∨ bytes[pos]? ≠ some 39) := by
          rw [hbyte.mpr rfl]
          simp
        rw [if_neg hcond, if_pos (⟨rfl, rfl⟩ : true = true ∧ '\'' = '\'')]
        obtain ⟨q, rest, hend, hsome, hrest, -⟩ | ⟨hend, hnone⟩ :=
          contractionEnd_at Cl100kFamily.folds_toLower hnext
        · have hhead : t.head? ≠ some '\u017f' := by
            intro hhead
            obtain ⟨t', rfl⟩ := List.head?_eq_some_iff.mp hhead
            have hlong : contractionRest Char.toLower ('\u017f' :: t') = none := rfl
            exact absurd (hsome.symm.trans hlong) (Option.some_ne_none _)
          rw [if_neg hhead, hsome] at hfold
          rw [hend, hfold]
          exact hrest
        · rw [hend]
          dsimp only
          by_cases hhead : t.head? = some '\u017f'
          · rw [if_pos hhead] at hfold
            rw [if_pos (hlong.mpr hhead), hfold]
            obtain ⟨t', rfl⟩ := List.head?_eq_some_iff.mp hhead
            exact hnext.tail
          · rw [if_neg hhead, hnone] at hfold
            rw [if_neg (mt hlong.mp hhead), hfold]
            exact h
      · rw [if_neg hquote, if_pos]
        · exact h
        · rw [Ne, hbyte]
          cases contractions with
          | false => exact .inl rfl
          | true => exact .inr fun hc => hquote ⟨rfl, hc⟩

end O200kFamily

end Hypertok
