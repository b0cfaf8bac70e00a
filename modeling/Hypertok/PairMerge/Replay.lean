import Hypertok.PairMerge.Compare

/-!
Merge rules, and their reconstruction from products.

A list of rules is a table; the rules of a list whose ranks increase can be replayed:
the word `init c` of each product runs, under the rules before it, to the pair of
the rule.

* `bpe_rerank`: the algorithm sees the order of the ranks only; `bpe_rerank_of_steps`
  asks for the order on the words of the run.
* `Replays.bpe_init`: under replayed rules the word of a product runs to the product.
* `Replays.eq_of_bpe`: rules under which these words run to the products too, with the
  same products in the same order, are the replayed rules. So two such lists encode
  alike just when one is a replay.
-/

namespace PairMerge

open Relation

variable {α ρ σ : Type*}

/-- A merge rule. -/
structure Rule (ρ α : Type*) where
  rank : ρ
  left : α
  right : α
  product : α
  deriving DecidableEq, Repr

/-- The table of a list of rules; the first rule of a pair counts. -/
def ruleTable [DecidableEq α] (rules : List (Rule ρ α)) : Table ρ α := fun a b =>
  (rules.find? fun r => r.left = a ∧ r.right = b).map fun r => (r.rank, r.product)

section Table

variable [DecidableEq α] {rules rules' : List (Rule ρ α)} {a b : α} {q : ρ × α}

/-- An entry of the table comes from a rule. -/
lemma exists_rule (h : q ∈ ruleTable rules a b) :
    ∃ r ∈ rules, r.left = a ∧ r.right = b ∧ q = (r.rank, r.product) := by
  obtain ⟨r, hr, rfl⟩ := Option.mem_map.mp h
  have hpair := List.find?_some hr
  simp only [decide_eq_true_eq] at hpair
  exact ⟨r, List.mem_of_find?_eq_some hr, hpair.1, hpair.2, rfl⟩

/-- If a pair has one rule, its entry is that rule. -/
lemma mem_ruleTable (h : ∀ r ∈ rules, ∀ r' ∈ rules, r.left = r'.left → r.right = r'.right → r = r') :
    q ∈ ruleTable rules a b ↔ ∃ r ∈ rules, r.left = a ∧ r.right = b ∧ q = (r.rank, r.product) := by
  refine ⟨exists_rule, ?_⟩
  rintro ⟨r, hr, rfl, rfl, rfl⟩
  cases hfind : rules.find? fun x => x.left = r.left ∧ x.right = r.right with
  | none => simpa using List.find?_eq_none.mp hfind r hr
  | some x =>
      have hpair := List.find?_some hfind
      simp only [decide_eq_true_eq] at hpair
      have hx := h r hr x (List.mem_of_find?_eq_some hfind) hpair.1.symm hpair.2.symm
      rw [ruleTable, hfind, hx, Option.map_some, Option.mem_some_iff]

lemma ruleTable_eq_none :
    ruleTable rules a b = none ↔ ∀ r ∈ rules, r.left = a → r.right ≠ b := by
  simp [ruleTable]

lemma ruleTable_append (rules rules' : List (Rule ρ α)) (a b : α) :
    ruleTable (rules ++ rules') a b = (ruleTable rules a b).or (ruleTable rules' a b) := by
  simp only [ruleTable, List.find?_append]
  cases rules.find? fun r => r.left = a ∧ r.right = b <;> rfl

/-- A new last rule is in the table if its pair is not in the list. -/
lemma ruleTable_concat (h : ruleTable rules a b = none) (r : ρ) (c : α) :
    ruleTable (rules ++ [⟨r, a, b, c⟩]) a b = some (r, c) := by
  rw [ruleTable_append, h]
  simp [ruleTable]

lemma ruleTable_concat_of_ne {r : Rule ρ α} (h : ¬ (r.left = a ∧ r.right = b)) :
    ruleTable (rules ++ [r]) a b = ruleTable rules a b := by
  rw [ruleTable_append]
  simp [ruleTable, h]

/-- The rules of other pairs do not matter. -/
lemma ruleTable_filter {f : Rule ρ α → Bool} (h : ∀ r ∈ rules, r.left = a → r.right = b → f r) :
    ruleTable (rules.filter f) a b = ruleTable rules a b := by
  rw [ruleTable, ruleTable, List.find?_filter]
  refine congrArg _ (List.find?_congr fun r hr => ?_)
  by_cases hab : r.left = a ∧ r.right = b
  · simp [hab, h r hr hab.1 hab.2]
  · simp [hab]

end Table

variable [LinearOrder ρ] [LinearOrder σ]

/-! ### Ranks -/

/-- Two tables with the same products, whose ranks are in the same order. -/
structure SameOrder (M : Table ρ α) (N : Table σ α) : Prop where
  product : ∀ a b, (M a b).map Prod.snd = (N a b).map Prod.snd
  lt_iff : ∀ a b a' b', ∀ p ∈ M a b, ∀ q ∈ N a b, ∀ p' ∈ M a' b', ∀ q' ∈ N a' b',
    p.1 < p'.1 ↔ q.1 < q'.1

/-- Neighbours in `s` have the same products in both tables, and ranks in the same order. -/
structure SameOrderOn (M : Table ρ α) (N : Table σ α) (s : List α) : Prop where
  product : ∀ a b, [a, b] <:+: s → (M a b).map Prod.snd = (N a b).map Prod.snd
  lt_iff : ∀ a b a' b', [a, b] <:+: s → [a', b'] <:+: s → ∀ p ∈ M a b, ∀ q ∈ N a b,
    ∀ p' ∈ M a' b', ∀ q' ∈ N a' b', p.1 < p'.1 ↔ q.1 < q'.1

omit [LinearOrder ρ] [LinearOrder σ] in
/-- Neighbours are neighbours in a word around them. -/
lemma isChain_neighbours {s t : List α} (ht : t <:+: s) : t.IsChain fun a b => [a, b] <:+: s := by
  refine List.isChain_iff_forall_rel_of_append_cons_cons.mpr ?_
  rintro a b x y rfl
  exact (List.infix_append' x [a, b] y).trans (by simpa using ht)

namespace SameOrderOn

variable {M : Table ρ α} {N : Table σ α} {s t : List α} (h : SameOrderOn M N s)
include h

/-- Each entry of one table has its counterpart in the other. -/
lemma exists_mem {a b : α} (hab : [a, b] <:+: s) {q : σ × α} (hq : q ∈ N a b) :
    ∃ p ∈ M a b, p.2 = q.2 := by
  have hprod := h.product a b hab
  rw [Option.mem_def.mp hq, Option.map_some, Option.map_eq_some_iff] at hprod
  exact hprod

lemma step (hst : Step M s t) : Step N s t := by
  rcases hst with @⟨u, v, a, b, c, r, hab, hu, hv⟩
  have hin : [a, b] <:+: u ++ a :: b :: v := ⟨u, v, by simp⟩
  have hprod := h.product a b hin
  rw [hab, Option.map_some, eq_comm, Option.map_eq_some_iff] at hprod
  obtain ⟨⟨r', _⟩, hab', rfl⟩ := hprod
  have hleft : u ++ [a] <:+: u ++ a :: b :: v := ⟨[], b :: v, by simp⟩
  have hright : b :: v <:+: u ++ a :: b :: v := ⟨u ++ [a], [], by simp⟩
  refine .merge hab' (isChain_of_and (isChain_neighbours hleft) hu fun x y hin' hxy q hq => ?_)
    (isChain_of_and (isChain_neighbours hright) hv fun x y hin' hxy q hq => ?_)
  · obtain ⟨p, hp, -⟩ := h.exists_mem hin' hq
    exact (h.lt_iff a b x y hin hin' _ hab _ hab' p hp q hq).mp (hxy p hp)
  · obtain ⟨p, hp, -⟩ := h.exists_mem hin' hq
    refine not_lt.mp fun hlt => not_lt.mpr (hxy p hp) ?_
    exact (h.lt_iff x y a b hin' hin p hp q hq _ hab _ hab').mpr hlt

lemma final (hs : Final M s) : Final N s := by
  refine isChain_of_and (isChain_neighbours List.infix_rfl) hs fun a b hab hnone => ?_
  have hprod := h.product a b hab
  rwa [hnone, Option.map_none, eq_comm, Option.map_eq_none_iff] at hprod

end SameOrderOn

/-- Tables that agree on the words that `s` runs to, but for the ranks, agree on `s` if the
ranks are in the same order. -/
theorem bpe_rerank_of_steps {M : Table ρ α} {N : Table σ α} {s : List α}
    (h : ∀ t, Steps M s t → SameOrderOn M N t) : bpe N s = bpe M s := by
  have hrun : ∀ t, Steps M s t → Steps N s t := by
    intro t ht
    induction ht with
    | refl => exact .refl
    | tail ht hstep ih => exact ih.tail ((h _ ht).step hstep)
  exact eq_bpe (hrun _ (bpe_steps M s)) ((h _ (bpe_steps M s)).final (bpe_final M s))

/-- The algorithm sees the order of the ranks only. -/
theorem bpe_rerank {M : Table ρ α} {N : Table σ α} (h : SameOrder M N) (s : List α) :
    bpe N s = bpe M s :=
  bpe_rerank_of_steps fun _ _ =>
    ⟨fun a b _ => h.product a b, fun a b a' b' _ _ => h.lt_iff a b a' b'⟩

/-- The ranks of a list of rules increase. -/
def Ranked (rules : List (Rule ρ α)) : Prop := rules.Pairwise fun r r' => r.rank < r'.rank

/-- Other ranks in the same order. -/
def Rule.rerank (f : Rule ρ α → σ) (r : Rule ρ α) : Rule σ α :=
  ⟨f r, r.left, r.right, r.product⟩

omit [LinearOrder ρ] [LinearOrder σ] in
lemma ruleTable_rerank [DecidableEq α] (f : Rule ρ α → σ) (rules : List (Rule ρ α)) (a b : α) :
    ruleTable (rules.map (Rule.rerank f)) a b =
      (rules.find? fun r => r.left = a ∧ r.right = b).map fun r => (f r, r.product) := by
  simp only [ruleTable, List.find?_map, Option.map_map]
  rfl

/-- Rules may be given other ranks in the same order. -/
theorem bpe_ruleTable_rerank [DecidableEq α] {rules : List (Rule ρ α)} {f : Rule ρ α → σ}
    (h : Ranked rules) (hf : Ranked (rules.map (Rule.rerank f))) (s : List α) :
    bpe (ruleTable (rules.map (Rule.rerank f))) s = bpe (ruleTable rules) s := by
  have hlt : ∀ r ∈ rules, ∀ r' ∈ rules, (r.rank < r'.rank ↔ f r < f r') ∧
      (r'.rank < r.rank ↔ f r' < f r) := by
    have hpair : rules.Pairwise fun r r' => (r.rank < r'.rank ↔ f r < f r') ∧
        (r'.rank < r.rank ↔ f r' < f r) := by
      refine (h.and (List.pairwise_map.mp hf)).imp fun {r r'} hrr => ?_
      have hf' : f r < f r' := hrr.2
      exact ⟨iff_of_true hrr.1 hf', iff_of_false hrr.1.not_gt hf'.not_gt⟩
    intro r hr r' hr'
    exact hpair.forall_of_forall_of_flip (fun _ _ => by simp) (hpair.imp And.symm) hr hr'
  refine bpe_rerank ⟨fun a b => ?_, fun a b a' b' p hp q hq p' hp' q' hq' => ?_⟩ s
  · rw [ruleTable_rerank, ruleTable, Option.map_map, Option.map_map]
    rfl
  · rw [ruleTable_rerank] at hq hq'
    obtain ⟨r, hr, rfl⟩ := Option.mem_map.mp hp
    obtain ⟨r', hr', rfl⟩ := Option.mem_map.mp hp'
    rw [Option.mem_def.mp hr, Option.map_some, Option.mem_some_iff] at hq
    rw [Option.mem_def.mp hr', Option.map_some, Option.mem_some_iff] at hq'
    rw [← hq, ← hq']
    exact (hlt r (List.mem_of_find?_eq_some hr) r' (List.mem_of_find?_eq_some hr')).1

/-! ### Replay -/

variable [DecidableEq α] {init : α → List α} {rules rules' : List (Rule ρ α)}

/-- The rules before a place have lower ranks than the rules after it. -/
lemma extends_append (h : Ranked (rules ++ rules')) :
    Extends (ruleTable rules) (ruleTable (rules ++ rules')) := by
  refine ⟨fun a b q hq => ?_, fun a b q hq => ?_⟩
  · rw [ruleTable_append, Option.mem_def.mp hq]
    rfl
  · rw [ruleTable_append, Option.mem_def, Option.or_eq_some_iff] at hq
    refine hq.imp_right fun ⟨_, hq⟩ a' b' q' hq' => ?_
    obtain ⟨r, hr, -, -, rfl⟩ := exists_rule hq
    obtain ⟨r', hr', -, -, rfl⟩ := exists_rule hq'
    exact (List.pairwise_append.mp h).2.2 r' hr' r hr

/-- Under the rules before it, the word of each product runs to the pair of its rule. -/
inductive Replays (init : α → List α) : List (Rule ρ α) → Prop
  | nil : Replays init []
  | concat {rules : List (Rule ρ α)} {r : Rule ρ α} (h : Replays init rules)
      (hrank : ∀ r' ∈ rules, r'.rank < r.rank)
      (hrun : bpe (ruleTable rules) (init r.product) = [r.left, r.right]) :
      Replays init (rules ++ [r])

namespace Replays

lemma ranked (h : Replays init rules) : Ranked rules := by
  induction h with
  | nil => exact .nil
  | concat _ hrank _ ih =>
      refine List.pairwise_append.mpr ⟨ih, List.pairwise_singleton _ _, fun r' hr' r hr => ?_⟩
      rw [List.mem_singleton.mp hr]
      exact hrank r' hr'

/-- Under all rules the word of each product runs to the product. -/
theorem bpe_init (h : Replays init rules) :
    ∀ r ∈ rules, bpe (ruleTable rules) (init r.product) = [r.product] := by
  induction h with
  | nil => simp
  | @concat rules r h hrank hrun ih =>
      have hext := extends_append (h.concat hrank hrun).ranked
      intro r' hr'
      rcases List.mem_append.mp hr' with hold | hnew
      · exact eq_bpe (hext.steps (ih r' hold ▸ bpe_steps _ _)) (by simp)
      · rw [List.mem_singleton.mp hnew]
        have hpair : ruleTable rules r.left r.right = none := by
          have hfinal := bpe_final (ruleTable rules) (init r.product)
          rw [hrun] at hfinal
          exact (final_cons_cons.mp hfinal).1
        have hstep : Step (ruleTable (rules ++ [r])) [r.left, r.right] [r.product] :=
          .merge (u := []) (v := []) (ruleTable_concat hpair r.rank r.product) (by simp)
            (.singleton _)
        exact eq_bpe ((hext.steps (hrun ▸ bpe_steps _ _)).tail hstep) (by simp)

lemma of_concat {r : Rule ρ α} (h : Replays init (rules ++ [r])) :
    Replays init rules ∧ bpe (ruleTable rules) (init r.product) = [r.left, r.right] := by
  generalize hrs : rules ++ [r] = rs at h
  cases h with
  | nil => simp at hrs
  | concat h _ hrun =>
      obtain ⟨rfl, hr⟩ := List.append_inj' hrs rfl
      obtain rfl := List.singleton_inj.mp hr
      exact ⟨h, hrun⟩

/-- The products and their order determine a replay. -/
theorem unique (h : Replays init rules) (h' : Replays init rules')
    (hkeys : rules.map (fun r => (r.rank, r.product)) =
      rules'.map fun r => (r.rank, r.product)) : rules = rules' := by
  induction h generalizing rules' with
  | nil => exact (List.map_eq_nil_iff.mp hkeys.symm).symm
  | @concat rules r h _ hrun ih =>
      rcases rules'.eq_nil_or_concat with rfl | ⟨rules', r', rfl⟩
      · simp at hkeys
      rw [List.concat_eq_append] at h' hkeys ⊢
      obtain ⟨h', hrun'⟩ := h'.of_concat
      simp only [List.map_append, List.map_cons, List.map_nil] at hkeys
      obtain ⟨hkeys, hkey⟩ := List.append_inj' hkeys rfl
      obtain ⟨hrk, hprod⟩ : r.rank = r'.rank ∧ r.product = r'.product := by simpa using hkey
      obtain rfl := ih h' hkeys
      rw [← hprod, hrun] at hrun'
      cases r
      cases r'
      simp only [List.cons.injEq, and_true] at hrk hprod hrun'
      rw [hrk, hprod, hrun'.1, hrun'.2]

/-- Rules with the products of replayed rules are these rules, if the word of each
product runs to the product under them. -/
theorem eq_of_bpe {all : List (Rule ρ α)} (hall : Ranked all)
    (hnodup : (all.map Rule.product).Nodup) (h : Replays init rules')
    (hbpe : ∀ r ∈ rules', bpe (ruleTable all) (init r.product) = [r.product])
    (hrules : rules <+: all)
    (hkeys : rules.map (fun r => (r.rank, r.product)) =
      rules'.map fun r => (r.rank, r.product)) : rules = rules' := by
  induction h generalizing rules with
  | nil => simpa using hkeys
  | @concat rules' r' h hrank hrun ih =>
      rcases rules.eq_nil_or_concat with rfl | ⟨rules, r, rfl⟩
      · simp at hkeys
      simp only [List.concat_eq_append, List.map_append, List.map_cons, List.map_nil] at hkeys hrules ⊢
      obtain ⟨hkeys, hkey⟩ := List.append_inj' hkeys rfl
      obtain ⟨hrk, hprod⟩ : r.rank = r'.rank ∧ r.product = r'.product := by simpa using hkey
      obtain rfl := ih (fun x hx => hbpe x (by simp [hx])) ((List.prefix_append _ _).trans hrules) hkeys
      -- the pair that the replay finds merges to the product, under all rules
      obtain ⟨rest, rfl⟩ := hrules
      rw [List.append_assoc] at hall
      have hsteps := (extends_append hall).steps (hrun ▸ bpe_steps _ _)
      rw [← List.append_assoc] at hsteps
      have hpair := bpe_eq_of_steps hsteps
      rw [hbpe r' (by simp)] at hpair
      obtain ⟨_, hmem⟩ := Steps.of_pair (hpair ▸ bpe_steps _ [r'.left, r'.right])
      -- and the product has one rule
      obtain ⟨x, hx, hleft, hright, hx'⟩ := exists_rule hmem
      have hxr : x = r := by
        refine List.inj_on_of_nodup_map hnodup hx (by simp) ?_
        rw [hprod, ← (Prod.mk.inj hx').2]
      rw [← hxr] at hrk hprod ⊢
      cases x
      cases r'
      simp only at hleft hright hrk hprod ⊢
      rw [hleft, hright, hrk, hprod]

end Replays

/-- Other ranks in the same order make no difference to a replay. -/
theorem replays_rerank {f : Rule ρ α → σ} (h : Ranked rules)
    (hf : Ranked (rules.map (Rule.rerank f))) :
    Replays init (rules.map (Rule.rerank f)) ↔ Replays init rules := by
  induction rules using List.reverseRecOn with
  | nil => exact iff_of_true .nil .nil
  | append_singleton rules r ih =>
      rw [List.map_append, List.map_singleton] at hf ⊢
      have hold := List.pairwise_append.mp h
      have hnew := List.pairwise_append.mp hf
      have hbpe := bpe_ruleTable_rerank hold.1 hnew.1 (init r.product)
      have ih := ih hold.1 hnew.1
      constructor
      · intro hreplay
        obtain ⟨hreplay, hrun⟩ := hreplay.of_concat
        exact (ih.mp hreplay).concat (fun r' hr' => hold.2.2 r' hr' r (by simp)) (hbpe ▸ hrun)
      · intro hreplay
        obtain ⟨hreplay, hrun⟩ := hreplay.of_concat
        exact (ih.mpr hreplay).concat (fun r' hr' => hnew.2.2 r' hr' _ (by simp)) (hbpe.trans hrun)

/-- Two lists of rules with the same products, one replayed: they encode alike just
when the other is the same replay. -/
theorem bpe_eq_iff_replays {P : α → Prop} (h : Replays init rules') (hrules : Ranked rules)
    (hnodup : (rules.map Rule.product).Nodup)
    (hkeys : rules.map (fun r => (r.rank, r.product)) = rules'.map fun r => (r.rank, r.product))
    (hinit : ∀ r ∈ rules', ∀ a ∈ init r.product, P a) :
    (∀ s : List α, (∀ a ∈ s, P a) → bpe (ruleTable rules) s = bpe (ruleTable rules') s) ↔
      Replays init rules := by
  constructor
  · intro hbpe
    rw [Replays.eq_of_bpe hrules hnodup h (fun r hr => ?_) List.prefix_rfl hkeys]
    · exact h
    · rw [hbpe _ (hinit r hr), h.bpe_init r hr]
  · intro hreplay s _
    rw [hreplay.unique h hkeys]

end PairMerge
