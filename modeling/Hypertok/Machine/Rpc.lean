import Mathlib.Data.List.Forall2
import Mathlib.Algebra.BigOperators.Fin
import Mathlib.Algebra.Order.BigOperators.Group.Finset
import Mathlib.Data.Prod.Lex
import Mathlib.Logic.Function.Basic

/-!
Calls that workers answer by messages, whose replies come in any order.

* `Link`: a worker as its caller sees it. A request that is posted gets an identity of its own, and
  a reply settles the promise with that identity, if it is still pending.
* `Job`: a coroutine that posts requests and waits for all of their replies.
* `Client`: a call runs some jobs side by side and collects what they return. If one of them fails,
  the client computes the result by itself, unless it is closed.
* `Step`: the interleavings of calls, workers, messages, continuations and failures.
* `Reached.sound`: a call only ever resolves to what the client computes by itself.
* `Reached.settled`: when nothing is left to do, all calls are settled.
-/

namespace Machine

namespace Rpc

/-! ### Workers -/

section Link

variable {Q R E : Type}

/-- A worker, with the promises of its caller: those that are pending, and what became of the
others. -/
structure Link (Q R E : Type) where
  nextId : ℕ
  pending : List ℕ
  settled : ℕ → Option (Except E R)
  failure : Option E
  inbox : List (ℕ × Q)
  outbox : List (ℕ × Except E R)

namespace Link

/-- A worker before the first request. -/
def fresh : Link Q R E := ⟨0, [], fun _ => none, none, [], []⟩

/-- A request is posted, unless the worker has failed. -/
def call (l : Link Q R E) (q : Q) : Link Q R E × Except E ℕ :=
  match l.failure with
  | some e => (l, .error e)
  | none =>
      ({ l with
          nextId := l.nextId + 1
          pending := l.pending ++ [l.nextId]
          inbox := l.inbox ++ [(l.nextId, q)] }, .ok l.nextId)

/-- A reply arrives. It is ignored if its promise is not pending. -/
def deliver (l : Link Q R E) (i : ℕ) (r : Except E R) : Link Q R E :=
  if i ∈ l.pending then
    { l with
      pending := l.pending.filter (· ≠ i)
      settled := Function.update l.settled i (some r) }
  else l

/-- All promises that are pending are rejected. -/
def reject (l : Link Q R E) (e : E) : Link Q R E :=
  { l with
    settled := fun i => if i ∈ l.pending then some (.error e) else l.settled i
    pending := [] }

/-- An error of the worker itself. -/
def fail (l : Link Q R E) (e : E) : Link Q R E := { l.reject e with failure := some e }

/-- The worker is terminated, and what was posted to it is lost. -/
def close (l : Link Q R E) (e : E) : Link Q R E :=
  { l.reject e with
    failure := some (l.failure.getD e)
    inbox := [] }

end Link

end Link

/-! ### Pools -/

section Pool

variable {n : ℕ} {Q R E : Type}

/-- One worker or more, which take the requests in turn. -/
structure Pool (n : ℕ) (Q R E : Type) where
  links : Fin (n + 1) → Link Q R E
  nextWorker : Fin (n + 1)

/-- What a request returns at once. -/
inductive Promise (n : ℕ) (E : Type)
  | refused (e : E)
  | reply (w : Fin (n + 1)) (i : ℕ)

namespace Pool

/-- The pool before the first request. -/
def fresh : Pool n Q R E := ⟨fun _ => .fresh, 0⟩

/-- The worker whose turn it is gets the request. -/
def call (p : Pool n Q R E) (q : Q) : Pool n Q R E × Promise n E :=
  let (l, x) := (p.links p.nextWorker).call q
  ({ links := Function.update p.links p.nextWorker l, nextWorker := p.nextWorker + 1 },
    match x with
    | .ok i => .reply p.nextWorker i
    | .error e => .refused e)

/-- Requests one after the other, without waiting in between. -/
def callAll (p : Pool n Q R E) : List Q → Pool n Q R E × List (Promise n E)
  | [] => (p, [])
  | q :: qs =>
      let (p, x) := p.call q
      let (p, xs) := p.callAll qs
      (p, x :: xs)

/-- What became of a promise. -/
def settled (p : Pool n Q R E) : Promise n E → Option (Except E R)
  | .refused e => some (.error e)
  | .reply w i => (p.links w).settled i

/-- One worker changes. -/
def update (p : Pool n Q R E) (w : Fin (n + 1)) (l : Link Q R E) : Pool n Q R E :=
  { p with links := Function.update p.links w l }

end Pool

end Pool

/-- How a list of computations ends: all of them have a value, or one of them has failed. -/
inductive All {ι E α : Type} (result : ι → Option (Except E α)) (xs : List ι) :
    Except E (List α) → Prop
  | ok {ys : List α} (h : List.Forall₂ (fun x y => result x = some (.ok y)) xs ys) :
      All result xs (.ok ys)
  | error {x : ι} {e : E} (hx : x ∈ xs) (h : result x = some (.error e)) : All result xs (.error e)

/-! ### Jobs and calls -/

/-- What a job does next. -/
inductive Await (Q E α : Type)
  | calls (qs : List Q)
  | done (x : Except E α)

/-- A coroutine over states `σ`. -/
structure Job (σ Q R E α : Type) where
  next : σ → Await Q E α
  resume : σ → Except E (List R) → σ

/-- A job in the pool. -/
inductive Task (n : ℕ) (σ E α : Type)
  | waiting (s : σ) (promises : List (Promise n E))
  | done (x : Except E α)

/-- What a task returns, once it does. -/
def Task.result {n : ℕ} {σ E α : Type} : Task n σ E α → Option (Except E α)
  | .waiting _ _ => none
  | .done x => some x

section Job

variable {n : ℕ} {σ Q R E α : Type}

namespace Job

/-- A job runs up to where it waits. -/
def run (j : Job σ Q R E α) (p : Pool n Q R E) (s : σ) : Pool n Q R E × Task n σ E α :=
  match j.next s with
  | .calls qs =>
      let (p, xs) := p.callAll qs
      (p, .waiting s xs)
  | .done x => (p, .done x)

/-- Some jobs, one after the other. -/
def runAll (j : Job σ Q R E α) (p : Pool n Q R E) :
    List σ → Pool n Q R E × List (Task n σ E α)
  | [] => (p, [])
  | s :: ss =>
      let (p, t) := j.run p s
      let (p, ts) := j.runAll p ss
      (p, t :: ts)

end Job

end Job

/-- `plan` splits an input into jobs, or declines it, or fails; `alone` is the computation without
workers. -/
structure Client (σ Q R E A α β : Type) extends Job σ Q R E α where
  plan : A → Option (Except E (List σ))
  collect : List α → β
  alone : A → Except E β
  closed : E

/-- A call: its input, its tasks, and what it returned. -/
structure Call (n : ℕ) (σ E A α β : Type) where
  input : A
  tasks : List (Task n σ E α)
  outcome : Option (Except E β)

/-- The pool and all calls so far. -/
structure State (n : ℕ) (σ Q R E A α β : Type) where
  pool : Pool n Q R E
  calls : List (Call n σ E A α β)
  closed : Bool

variable {n : ℕ} {σ Q R E A α β : Type}

namespace State

/-- The state before the first call. -/
def init : State n σ Q R E A α β := ⟨.fresh, [], false⟩

/-- A call is made: it posts the first requests of all of its jobs. -/
def start (c : Client σ Q R E A α β) (s : State n σ Q R E A α β) (a : A) :
    State n σ Q R E A α β :=
  if s.closed then { s with calls := s.calls ++ [⟨a, [], some (.error c.closed)⟩] }
  else
    match c.plan a with
    | none => { s with calls := s.calls ++ [⟨a, [], some (c.alone a)⟩] }
    | some (.error e) => { s with calls := s.calls ++ [⟨a, [.done (.error e)], none⟩] }
    | some (.ok jobs) =>
        let (pool, tasks) := c.runAll s.pool jobs
        { s with pool, calls := s.calls ++ [⟨a, tasks, none⟩] }

/-- A call gets the result of its tasks. -/
def outcome (c : Client σ Q R E A α β) (s : State n σ Q R E A α β) (a : A) :
    Except E (List α) → Except E β
  | .ok ys => .ok (c.collect ys)
  | .error e => if s.closed then .error e else c.alone a

/-- One link changes. -/
def setLink (s : State n σ Q R E A α β) (w : Fin (n + 1)) (l : Link Q R E) :
    State n σ Q R E A α β :=
  { s with pool := s.pool.update w l }

end State

/-- What happens in a step: only `progress` needs neither a new call nor trouble. -/
inductive Kind
  | progress
  | environment
  deriving DecidableEq

/-- The interleavings. A worker answers the requests that it has in any order, with an error if it
is in trouble, and its replies arrive in any order. -/
inductive Step (c : Client σ Q R E A α β) (handle : Q → Except E R) (closing : E) :
    Kind → State n σ Q R E A α β → State n σ Q R E A α β → Prop
  | start (s) (a : A) : Step c handle closing .environment s (s.start c a)
  | answer (s) (w : Fin (n + 1)) {front back : List (ℕ × Q)} {i : ℕ} {q : Q}
      (h : (s.pool.links w).inbox = front ++ (i, q) :: back) :
      Step c handle closing .progress s (s.setLink w { s.pool.links w with
        inbox := front ++ back
        outbox := (s.pool.links w).outbox ++ [(i, handle q)] })
  | trouble (s) (w : Fin (n + 1)) {front back : List (ℕ × Q)} {i : ℕ} {q : Q} (e : E)
      (h : (s.pool.links w).inbox = front ++ (i, q) :: back) :
      Step c handle closing .environment s (s.setLink w { s.pool.links w with
        inbox := front ++ back
        outbox := (s.pool.links w).outbox ++ [(i, .error e)] })
  | deliver (s) (w : Fin (n + 1)) {front back : List (ℕ × Except E R)} {i : ℕ} {r : Except E R}
      (h : (s.pool.links w).outbox = front ++ (i, r) :: back) :
      Step c handle closing .progress s
        (s.setLink w ({ s.pool.links w with outbox := front ++ back }.deliver i r))
  | fail (s) (w : Fin (n + 1)) (e : E) :
      Step c handle closing .environment s (s.setLink w ((s.pool.links w).fail e))
  | resume (s) {k j : ℕ} {call : Call n σ E A α β} {st : σ} {promises : List (Promise n E)}
      {x : Except E (List R)} (hcall : s.calls[k]? = some call)
      (htask : call.tasks[j]? = some (.waiting st promises)) (hx : All s.pool.settled promises x) :
      Step c handle closing .progress s { s with
        pool := (c.run s.pool (c.resume st x)).1
        calls := s.calls.set k { call with
          tasks := call.tasks.set j (c.run s.pool (c.resume st x)).2 } }
  | settle (s) {k : ℕ} {call : Call n σ E A α β} {x : Except E (List α)}
      (hcall : s.calls[k]? = some call) (hnone : call.outcome = none)
      (hx : All Task.result call.tasks x) :
      Step c handle closing .progress s { s with
        calls := s.calls.set k { call with outcome := some (s.outcome c call.input x) } }
  | close (s) (hopen : s.closed = false) : Step c handle closing .environment s { s with
      pool := { s.pool with links := fun w => (s.pool.links w).close closing }
      closed := true }

/-- The states of all runs. -/
inductive Reached (c : Client σ Q R E A α β) (handle : Q → Except E R) (closing : E) :
    State n σ Q R E A α β → Prop
  | init : Reached c handle closing .init
  | step {s s' : State n σ Q R E A α β} {kind : Kind} (h : Reached c handle closing s)
      (hstep : Step c handle closing kind s s') : Reached c handle closing s'

/-! ### What holds of the links -/

section Holds

variable {handle : Q → Except E R} {g g' : ℕ → Option Q} {l : Link Q R E}

/-- `g` is the request that was posted with an identity. Every reply is the answer to its request,
and what has not been settled is on its way. -/
structure Link.Holds (handle : Q → Except E R) (g : ℕ → Option Q) (l : Link Q R E) : Prop where
  unused : ∀ i, l.nextId ≤ i → g i = none
  inbox : ∀ x ∈ l.inbox, g x.1 = some x.2
  outbox : ∀ i r, (i, .ok r) ∈ l.outbox → ∃ q, g i = some q ∧ handle q = .ok r
  settled : ∀ i r, l.settled i = some (.ok r) → ∃ q, g i = some q ∧ handle q = .ok r
  onTheWay : ∀ i < l.nextId, (l.settled i).isSome ∨
    i ∈ l.pending ∧ (i ∈ l.inbox.map Prod.fst ∨ i ∈ l.outbox.map Prod.fst)

namespace Link

lemma holds_fresh : (fresh : Link Q R E).Holds handle fun _ => none where
  unused _ _ := rfl
  inbox _ hx := absurd hx List.not_mem_nil
  outbox _ _ hx := absurd hx List.not_mem_nil
  settled _ _ h := nomatch h
  onTheWay _ hi := absurd hi (Nat.not_lt_zero _)

/-- A new request gets a new identity. -/
lemma Holds.call (h : l.Holds handle g) (q : Q) :
    ∃ g' : ℕ → Option Q, (∀ i p, g i = some p → g' i = some p) ∧
      (l.call q).1.Holds handle g' ∧ ∀ i, (l.call q).2 = .ok i → g' i = some q := by
  cases hfail : l.failure with
  | some e =>
      have hcall : l.call q = (l, .error e) := by rw [Link.call, hfail]
      rw [hcall]
      exact ⟨g, fun _ _ hi => hi, h, fun _ hi => nomatch hi⟩
  | none =>
      have hcall : l.call q = ({ l with
          nextId := l.nextId + 1
          pending := l.pending ++ [l.nextId]
          inbox := l.inbox ++ [(l.nextId, q)] }, .ok l.nextId) := by rw [Link.call, hfail]
      rw [hcall]
      have hold : ∀ i p, g i = some p → Function.update g l.nextId (some q) i = some p := by
        intro i p hi
        rw [Function.update_of_ne, hi]
        rintro rfl
        rw [h.unused _ (Nat.le_refl _)] at hi
        cases hi
      refine ⟨Function.update g l.nextId (some q), hold, ⟨?_, ?_, ?_, ?_, ?_⟩, ?_⟩
      · intro i hi
        dsimp only at hi
        rw [Function.update_of_ne (by omega), h.unused i (by omega)]
      · intro x hx
        obtain hx | hx := List.mem_append.mp hx
        · exact hold _ _ (h.inbox x hx)
        · rw [List.mem_singleton.mp hx, Function.update_self]
      · intro i r hr
        obtain ⟨p, hp, hhandle⟩ := h.outbox i r hr
        exact ⟨p, hold i p hp, hhandle⟩
      · intro i r hr
        obtain ⟨p, hp, hhandle⟩ := h.settled i r hr
        exact ⟨p, hold i p hp, hhandle⟩
      · intro i hi
        dsimp only at hi ⊢
        obtain hlt | rfl := Nat.lt_succ_iff_lt_or_eq.mp hi
        · obtain hs | ⟨hp, hway⟩ := h.onTheWay i hlt
          · exact .inl hs
          · refine .inr ⟨List.mem_append_left _ hp, hway.imp_left fun hin => ?_⟩
            rw [List.map_append]
            exact List.mem_append_left _ hin
        · refine .inr ⟨List.mem_append_right _ (List.mem_singleton_self _), .inl ?_⟩
          rw [List.map_append]
          exact List.mem_append_right _ (List.mem_singleton_self _)
      · rintro i ⟨⟩
        exact Function.update_self ..

/-- A request leaves the inbox, and a reply to it is in the outbox. -/
lemma Holds.reply (h : l.Holds handle g) {front back : List (ℕ × Q)} {i : ℕ} {q : Q}
    (hin : l.inbox = front ++ (i, q) :: back) {x : Except E R}
    (hx : ∀ r, x = .ok r → handle q = .ok r) :
    { l with inbox := front ++ back, outbox := l.outbox ++ [(i, x)] : Link Q R E }.Holds
      handle g where
  unused := h.unused
  inbox y hy := h.inbox y (by
    rw [hin]
    exact (List.mem_append.mp hy).elim (List.mem_append_left _)
      fun hy => List.mem_append_right _ (List.mem_cons_of_mem _ hy))
  outbox k r hr := by
    obtain hr | hr := List.mem_append.mp hr
    · exact h.outbox k r hr
    · obtain ⟨rfl, rfl⟩ := Prod.mk.inj (List.mem_singleton.mp hr)
      exact ⟨q, h.inbox (k, q) (by rw [hin]; simp), hx r rfl⟩
  settled := h.settled
  onTheWay k hk := by
    obtain hs | ⟨hp, hway⟩ := h.onTheWay k hk
    · exact .inl hs
    · refine .inr ⟨hp, ?_⟩
      rw [hin] at hway
      simp only [List.map_append, List.map_cons, List.map_nil, List.mem_append, List.mem_cons,
        List.not_mem_nil, or_false] at hway ⊢
      tauto

/-- A reply settles its promise. -/
lemma Holds.deliver (h : l.Holds handle g) {front back : List (ℕ × Except E R)} {i : ℕ}
    {x : Except E R} (hout : l.outbox = front ++ (i, x) :: back) :
    ({ l with outbox := front ++ back : Link Q R E }.deliver i x).Holds handle g := by
  have hsub : ∀ y, y ∈ front ++ back → y ∈ l.outbox := by
    intro y hy
    rw [hout]
    exact (List.mem_append.mp hy).elim (List.mem_append_left _)
      fun hy => List.mem_append_right _ (List.mem_cons_of_mem _ hy)
  rw [Link.deliver]
  split_ifs with hi
  · refine ⟨h.unused, h.inbox, fun k r hr => h.outbox k r (hsub _ hr), ?_, ?_⟩
    · intro k r hr
      dsimp only at hr
      obtain rfl | hne := eq_or_ne k i
      · rw [Function.update_self, Option.some.injEq] at hr
        exact h.outbox k r (by rw [hout, ← hr]; simp)
      · rw [Function.update_of_ne hne] at hr
        exact h.settled k r hr
    · intro k hk
      dsimp only
      obtain rfl | hne := eq_or_ne k i
      · rw [Function.update_self]
        exact .inl rfl
      · rw [Function.update_of_ne hne]
        refine (h.onTheWay k hk).imp_right fun ⟨hp, hway⟩ => ⟨?_, ?_⟩
        · exact List.mem_filter.mpr ⟨hp, by simpa using hne⟩
        · rw [hout] at hway
          simp only [List.map_append, List.map_cons, List.mem_append, List.mem_cons] at hway ⊢
          tauto
  · refine ⟨h.unused, h.inbox, fun k r hr => h.outbox k r (hsub _ hr), h.settled, fun k hk => ?_⟩
    refine (h.onTheWay k hk).imp_right fun ⟨hp, hway⟩ => ⟨hp, ?_⟩
    have hne : k ≠ i := by
      rintro rfl
      exact hi hp
    rw [hout] at hway
    simp only [List.map_append, List.map_cons, List.mem_append, List.mem_cons] at hway ⊢
    tauto

/-- All promises that were pending are settled now. -/
lemma Holds.reject (h : l.Holds handle g) (e : E) : (l.reject e).Holds handle g where
  unused := h.unused
  inbox := h.inbox
  outbox := h.outbox
  settled i r hr := by
    rw [Link.reject] at hr
    dsimp only at hr
    split_ifs at hr with hi
    · cases hr
    · exact h.settled i r hr
  onTheWay i hi := by
    rw [Link.reject]
    dsimp only
    split_ifs with hp
    · exact .inl rfl
    · exact .inl ((h.onTheWay i hi).resolve_right fun hway => hp hway.1)

lemma Holds.fail (h : l.Holds handle g) (e : E) : (l.fail e).Holds handle g :=
  ⟨h.unused, h.inbox, h.outbox, (h.reject e).settled, (h.reject e).onTheWay⟩

lemma Holds.close (h : l.Holds handle g) (e : E) : (l.close e).Holds handle g where
  unused := h.unused
  inbox _ hx := absurd hx List.not_mem_nil
  outbox := h.outbox
  settled := (h.reject e).settled
  onTheWay i hi := ((h.reject e).onTheWay i hi).imp_right
    fun hway => absurd hway.1 List.not_mem_nil

end Link

end Holds

/-! ### What holds of the pool -/

section PoolHolds

variable {handle : Q → Except E R} {g g' : Fin (n + 1) → ℕ → Option Q} {p : Pool n Q R E}

/-- More requests were posted later. -/
def Extends (g g' : Fin (n + 1) → ℕ → Option Q) : Prop :=
  ∀ w i q, g w i = some q → g' w i = some q

lemma Extends.refl (g : Fin (n + 1) → ℕ → Option Q) : Extends g g := fun _ _ _ h => h

lemma Extends.trans {g'' : Fin (n + 1) → ℕ → Option Q} (h : Extends g g') (h' : Extends g' g'') :
    Extends g g'' := fun w i q hi => h' w i q (h w i q hi)

/-- The promise is of the request. -/
def Promise.Of (g : Fin (n + 1) → ℕ → Option Q) : Promise n E → Q → Prop
  | .refused _, _ => True
  | .reply w i, q => g w i = some q

lemma Promise.Of.mono (hg : Extends g g') {x : Promise n E} {q : Q} (h : x.Of g q) :
    x.Of g' q := by
  cases x with
  | refused e => trivial
  | reply w i => exact hg w i q h

def Pool.Holds (handle : Q → Except E R) (g : Fin (n + 1) → ℕ → Option Q) (p : Pool n Q R E) :
    Prop :=
  ∀ w, (p.links w).Holds handle (g w)

namespace Pool

lemma Holds.update (h : p.Holds handle g) {w : Fin (n + 1)} {l : Link Q R E}
    (hl : l.Holds handle (g w)) : (p.update w l).Holds handle g := by
  intro v
  rw [Pool.update]
  dsimp only
  obtain rfl | hne := eq_or_ne v w
  · rw [Function.update_self]
    exact hl
  · rw [Function.update_of_ne hne]
    exact h v

lemma Holds.call (h : p.Holds handle g) (q : Q) :
    ∃ g', Extends g g' ∧ (p.call q).1.Holds handle g' ∧ (p.call q).2.Of g' q := by
  obtain ⟨gw, hext, hl, hof⟩ := (h p.nextWorker).call q
  refine ⟨Function.update g p.nextWorker gw, ?_, ?_, ?_⟩
  · intro w i r hi
    obtain rfl | hne := eq_or_ne w p.nextWorker
    · rw [Function.update_self]
      exact hext i r hi
    · rwa [Function.update_of_ne hne]
  · intro w
    rw [Pool.call]
    dsimp only
    obtain rfl | hne := eq_or_ne w p.nextWorker
    · rw [Function.update_self, Function.update_self]
      exact hl
    · rw [Function.update_of_ne hne, Function.update_of_ne hne]
      exact h w
  · rw [Pool.call]
    dsimp only
    cases hx : ((p.links p.nextWorker).call q).2 with
    | error e => trivial
    | ok i =>
        rw [Promise.Of, Function.update_self]
        exact hof i hx

lemma Holds.callAll (h : p.Holds handle g) (qs : List Q) :
    ∃ g', Extends g g' ∧ (p.callAll qs).1.Holds handle g' ∧
      List.Forall₂ (Promise.Of g') (p.callAll qs).2 qs := by
  induction qs generalizing p g with
  | nil => exact ⟨g, .refl g, h, .nil⟩
  | cons q qs ih =>
      obtain ⟨g₁, hext₁, hcall, hof⟩ := h.call q
      obtain ⟨g₂, hext₂, hall, hofs⟩ := ih hcall
      exact ⟨g₂, hext₁.trans hext₂, hall, .cons (hof.mono hext₂) hofs⟩

/-- A promise with a value has the answer to its request. -/
lemma Holds.settled_ok (h : p.Holds handle g) {x : Promise n E} {q : Q} (hx : x.Of g q) {r : R}
    (hr : p.settled x = some (.ok r)) : handle q = .ok r := by
  cases x with
  | refused e => cases hr
  | reply w i =>
      obtain ⟨q', hq', hhandle⟩ := (h w).settled i r hr
      obtain rfl := Option.some.inj (hx.symm.trans hq')
      exact hhandle

/-- A promise without a value has its request or its reply on the way. -/
lemma Holds.onTheWay (h : p.Holds handle g) {x : Promise n E} {q : Q} (hx : x.Of g q)
    (hr : p.settled x = none) :
    ∃ w i, (∃ q', (i, q') ∈ (p.links w).inbox) ∨ ∃ r, (i, r) ∈ (p.links w).outbox := by
  cases x with
  | refused e => cases hr
  | reply w i =>
      have hlt : i < (p.links w).nextId := by
        by_contra hge
        have hnone := (h w).unused i (Nat.le_of_not_lt hge)
        rw [Promise.Of, hnone] at hx
        cases hx
      have hway := (((h w).onTheWay i hlt).resolve_left (by
        rw [Pool.settled] at hr
        rw [hr]
        exact Bool.false_ne_true)).2
      refine ⟨w, i, hway.imp (fun hin => ?_) fun hout => ?_⟩
      · obtain ⟨⟨_, q'⟩, hmem, rfl⟩ := List.mem_map.mp hin
        exact ⟨q', hmem⟩
      · obtain ⟨⟨_, r⟩, hmem, rfl⟩ := List.mem_map.mp hout
        exact ⟨r, hmem⟩

end Pool

end PoolHolds

/-! ### How a list of computations ends -/

section All

variable {ι γ : Type} {result : ι → Option (Except E γ)} {xs : List ι}

/-- If each of the computations has ended, they end together. -/
lemma exists_all (h : ∀ x ∈ xs, result x ≠ none) : ∃ y, All result xs y := by
  induction xs with
  | nil => exact ⟨.ok [], .ok .nil⟩
  | cons x xs ih =>
      cases hx : result x with
      | none => exact absurd hx (h x List.mem_cons_self)
      | some y =>
          cases y with
          | error e => exact ⟨.error e, .error List.mem_cons_self hx⟩
          | ok y =>
              obtain ⟨ys, hys⟩ := ih fun z hz => h z (List.mem_cons_of_mem _ hz)
              cases hys with
              | ok hys => exact ⟨.ok (y :: _), .ok (.cons hx hys)⟩
              | error hz he => exact ⟨.error _, .error (List.mem_cons_of_mem _ hz) he⟩

end All

/-! ### What holds of the calls -/

lemma exists_of_forall₂ {γ δ : Type} {r : γ → δ → Prop} {xs : List γ} {ys : List δ}
    (h : List.Forall₂ r xs ys) {x : γ} (hx : x ∈ xs) : ∃ y, r x y := by
  obtain ⟨i, hi, rfl⟩ := List.getElem_of_mem hx
  exact ⟨_, h.get hi (h.length_eq ▸ hi)⟩

/-- One entry of a list that is related to another list is replaced. -/
lemma forall₂_set {γ δ : Type} {r r' : γ → δ → Prop} (hr : ∀ x y, r x y → r' x y) {xs : List γ}
    {ys : List δ} (h : List.Forall₂ r xs ys) {k : ℕ} {x : γ} (hk : xs[k]? = some x) :
    ∃ y, r x y ∧ ∀ x', r' x' y → List.Forall₂ r' (xs.set k x') ys := by
  induction h generalizing k with
  | nil => cases hk
  | @cons a b xs ys hab hrest ih =>
      cases k with
      | zero =>
          obtain rfl := Option.some.inj hk
          exact ⟨b, hab, fun x' hx' => .cons hx' (hrest.imp hr)⟩
      | succ k =>
          obtain ⟨y, hy, hset⟩ := ih hk
          exact ⟨y, hy, fun x' hx' => .cons (hr a b hab) (hset x' hx')⟩

lemma mem_set_of_ne {γ : Type} {xs : List γ} {k : ℕ} {x y z : γ} (hk : xs[k]? = some x)
    (hy : y ∈ xs) (hne : y ≠ x) : y ∈ xs.set k z := by
  obtain ⟨i, hi⟩ := List.getElem?_of_mem hy
  refine List.mem_of_getElem? (i := i) ?_
  rw [List.getElem?_set_ne, hi]
  rintro rfl
  exact hne (Option.some.inj (hi.symm.trans hk))

section Jobs

variable {handle : Q → Except E R} {I : σ → α → Prop} {j : Job σ Q R E α}
  {g g' : Fin (n + 1) → ℕ → Option Q} {p : Pool n Q R E}

/-- `I s v`: in the state `s` the job can only return `v`, if each reply is the answer to its
request. -/
structure Job.Keeps (j : Job σ Q R E α) (handle : Q → Except E R) (I : σ → α → Prop) : Prop where
  done : ∀ {s v y}, I s v → j.next s = .done (.ok y) → y = v
  resume : ∀ {s v qs rs}, I s v → j.next s = .calls qs →
    List.Forall₂ (fun q r => handle q = .ok r) qs rs → I (j.resume s (.ok rs)) v
  error : ∀ {s v qs} (e : E), I s v → j.next s = .calls qs → I (j.resume s (.error e)) v

/-- The task can only return the value. -/
inductive Task.Holds (j : Job σ Q R E α) (I : σ → α → Prop)
    (g : Fin (n + 1) → ℕ → Option Q) : Task n σ E α → α → Prop
  | waiting {s : σ} {promises : List (Promise n E)} {qs : List Q} {v : α}
      (hnext : j.next s = .calls qs) (hof : List.Forall₂ (Promise.Of g) promises qs) (h : I s v) :
      Holds j I g (.waiting s promises) v
  | returned (v : α) : Holds j I g (.done (.ok v)) v
  | failed (e : E) (v : α) : Holds j I g (.done (.error e)) v

lemma Task.Holds.mono (hg : Extends g g') {t : Task n σ E α} {v : α} (h : t.Holds j I g v) :
    t.Holds j I g' v := by
  cases h with
  | waiting hnext hof hI => exact .waiting hnext (hof.imp fun _ _ hx => hx.mono hg) hI
  | returned => exact .returned v
  | failed e => exact .failed e v

/-- A job runs: its requests are posted, and its task holds. -/
lemma Job.Keeps.run (hj : j.Keeps handle I) (h : p.Holds handle g) (s : σ) :
    ∃ g', Extends g g' ∧ (j.run p s).1.Holds handle g' ∧
      ∀ v, I s v → (j.run p s).2.Holds j I g' v := by
  cases hnext : j.next s with
  | calls qs =>
      obtain ⟨g', hext, hp, hof⟩ := h.callAll qs
      rw [Job.run, hnext]
      exact ⟨g', hext, hp, fun v hv => .waiting hnext hof hv⟩
  | done x =>
      rw [Job.run, hnext]
      refine ⟨g, .refl g, h, fun v hv => ?_⟩
      cases x with
      | error e => exact .failed e v
      | ok y =>
          obtain rfl := hj.done hv hnext
          exact .returned y

lemma Job.Keeps.runAll (hj : j.Keeps handle I) (h : p.Holds handle g) {ss : List σ} {vs : List α}
    (hI : List.Forall₂ I ss vs) :
    ∃ g', Extends g g' ∧ (j.runAll p ss).1.Holds handle g' ∧
      List.Forall₂ (Task.Holds j I g') (j.runAll p ss).2 vs := by
  induction hI generalizing p g with
  | nil => exact ⟨g, .refl g, h, .nil⟩
  | @cons s v ss vs hs _ ih =>
      obtain ⟨g₁, hext₁, hrun, htask⟩ := hj.run h s
      obtain ⟨g₂, hext₂, hall, htasks⟩ := ih hrun
      exact ⟨g₂, hext₁.trans hext₂, hall, .cons ((htask v hs).mono hext₂) htasks⟩

/-- What tasks return is what they can only return. -/
lemma eq_of_returned {ts : List (Task n σ E α)} {vs ys : List α}
    (hvs : List.Forall₂ (Task.Holds j I g) ts vs)
    (hys : List.Forall₂ (fun t y => t.result = some (.ok y)) ts ys) : ys = vs := by
  induction hvs generalizing ys with
  | nil =>
      cases hys
      rfl
  | cons ht _ ih =>
      cases hys with
      | cons hy hys =>
          rw [ih hys]
          cases ht with
          | waiting => cases hy
          | failed => cases hy
          | returned =>
              cases hy
              rfl

/-- The replies to the requests of a task are the answers. -/
lemma Pool.Holds.answers (h : p.Holds handle g) {promises : List (Promise n E)} {qs : List Q}
    (hof : List.Forall₂ (Promise.Of g) promises qs) {rs : List R}
    (hrs : List.Forall₂ (fun x r => p.settled x = some (.ok r)) promises rs) :
    List.Forall₂ (fun q r => handle q = .ok r) qs rs := by
  induction hof generalizing rs with
  | nil =>
      cases hrs
      exact .nil
  | cons hx _ ih =>
      cases hrs with
      | cons hr hrs => exact .cons (h.settled_ok hx hr) (ih hrs)

end Jobs

/-- The jobs of a plan return the parts of what the client computes alone. -/
def Client.Plans (c : Client σ Q R E A α β) (I : σ → α → Prop) : Prop :=
  ∀ a ss, c.plan a = some (.ok ss) → ∃ vs, List.Forall₂ I ss vs ∧ c.alone a = .ok (c.collect vs)

/-- A call that waits has a task that failed, or tasks that return the parts of its result. A call
that was settled has what the client computes alone, or an error. -/
structure Call.Holds (c : Client σ Q R E A α β) (I : σ → α → Prop)
    (g : Fin (n + 1) → ℕ → Option Q) (closed : Bool) (call : Call n σ E A α β) : Prop where
  tasks : call.outcome = none → (∃ e, .done (.error e) ∈ call.tasks) ∨
    ∃ vs, List.Forall₂ (Task.Holds c.toJob I g) call.tasks vs ∧
      c.alone call.input = .ok (c.collect vs)
  resolved : ∀ b, call.outcome = some (.ok b) → c.alone call.input = .ok b
  rejected : ∀ e, call.outcome = some (.error e) → closed = true ∨ c.alone call.input = .error e

/-- The invariant. -/
def State.Holds (c : Client σ Q R E A α β) (handle : Q → Except E R) (I : σ → α → Prop)
    (s : State n σ Q R E A α β) : Prop :=
  ∃ g, s.pool.Holds handle g ∧ ∀ call ∈ s.calls, call.Holds c I g s.closed

section Calls

variable {c : Client σ Q R E A α β} {handle : Q → Except E R} {I : σ → α → Prop}
  {g g' : Fin (n + 1) → ℕ → Option Q} {s s' : State n σ Q R E A α β} {closing : E}

lemma Call.Holds.mono (hg : Extends g g') {b b' : Bool} (hb : b = true → b' = true)
    {call : Call n σ E A α β} (h : call.Holds c I g b) : call.Holds c I g' b' where
  tasks hnone := (h.tasks hnone).imp_right fun ⟨vs, hvs, halone⟩ =>
    ⟨vs, hvs.imp fun _ _ ht => ht.mono hg, halone⟩
  resolved := h.resolved
  rejected e he := (h.rejected e he).imp_left hb

/-- What a call is settled with. -/
lemma State.outcome_holds (a : A) (x : Except E (List α))
    (hx : ∀ ys, x = .ok ys → c.alone a = .ok (c.collect ys)) :
    (∀ b, s.outcome c a x = .ok b → c.alone a = .ok b) ∧
      ∀ e, s.outcome c a x = .error e → s.closed = true ∨ c.alone a = .error e := by
  cases x with
  | ok ys =>
      rw [State.outcome, hx ys rfl]
      exact ⟨fun b hb => hb, fun e he => nomatch he⟩
  | error e =>
      rw [State.outcome]
      cases hclosed : s.closed with
      | true => exact ⟨fun b hb => by simp at hb, fun e he => .inl rfl⟩
      | false => exact ⟨fun b hb => by simpa using hb, fun e he => .inr (by simpa using he)⟩

lemma State.Holds.init : (State.init : State n σ Q R E A α β).Holds c handle I :=
  ⟨fun _ _ => none, fun _ => Link.holds_fresh, fun _ h => absurd h List.not_mem_nil⟩

/-- A step that only changes a link. -/
lemma State.Holds.setLink (h : s.Holds c handle I) (w : Fin (n + 1)) {l : Link Q R E}
    (hl : ∀ g, (s.pool.links w).Holds handle g → l.Holds handle g) :
    (s.setLink w l).Holds c handle I := by
  obtain ⟨g, hpool, hcalls⟩ := h
  exact ⟨g, hpool.update (hl _ (hpool w)), hcalls⟩

lemma State.Holds.start (hj : c.toJob.Keeps handle I) (hc : c.Plans I) (h : s.Holds c handle I)
    (a : A) : (s.start c a).Holds c handle I := by
  obtain ⟨g, hpool, hcalls⟩ := h
  rw [State.start]
  split_ifs with hclosed
  · refine ⟨g, hpool, fun call hcall => ?_⟩
    obtain hcall | hcall := List.mem_append.mp hcall
    · exact hcalls call hcall
    · rw [List.mem_singleton.mp hcall]
      exact ⟨nofun, nofun, fun _ _ => .inl hclosed⟩
  · cases hplan : c.plan a with
    | none =>
        refine ⟨g, hpool, fun call hcall => ?_⟩
        obtain hcall | hcall := List.mem_append.mp hcall
        · exact hcalls call hcall
        · rw [List.mem_singleton.mp hcall]
          exact ⟨nofun, fun b hb => Option.some.inj hb, fun e he => .inr (Option.some.inj he)⟩
    | some plan =>
        cases plan with
        | error e =>
            refine ⟨g, hpool, fun call hcall => ?_⟩
            obtain hcall | hcall := List.mem_append.mp hcall
            · exact hcalls call hcall
            · rw [List.mem_singleton.mp hcall]
              exact ⟨fun _ => .inl ⟨e, List.mem_singleton_self _⟩, nofun, nofun⟩
        | ok ss =>
            obtain ⟨vs, hI, halone⟩ := hc a ss hplan
            obtain ⟨g', hext, hpool', htasks⟩ := hj.runAll hpool hI
            refine ⟨g', hpool', fun call hcall => ?_⟩
            obtain hcall | hcall := List.mem_append.mp hcall
            · exact (hcalls call hcall).mono hext id
            · rw [List.mem_singleton.mp hcall]
              exact ⟨fun _ => .inr ⟨vs, htasks, halone⟩, nofun, nofun⟩

/-- A task goes on when its replies are there. -/
lemma State.Holds.resume (hj : c.toJob.Keeps handle I) (h : s.Holds c handle I) {k j : ℕ}
    {call : Call n σ E A α β} {st : σ} {promises : List (Promise n E)} {x : Except E (List R)}
    (hcall : s.calls[k]? = some call) (htask : call.tasks[j]? = some (.waiting st promises))
    (hx : All s.pool.settled promises x) :
    State.Holds c handle I { s with
      pool := (c.run s.pool (c.resume st x)).1
      calls := s.calls.set k { call with
        tasks := call.tasks.set j (c.run s.pool (c.resume st x)).2 } } := by
  obtain ⟨g, hpool, hcalls⟩ := h
  obtain ⟨g', hext, hpool', hrun⟩ := hj.run hpool (c.resume st x)
  refine ⟨g', hpool', fun call' hcall' => ?_⟩
  obtain hmem | rfl := List.mem_or_eq_of_mem_set hcall'
  · exact (hcalls call' hmem).mono hext id
  · have hholds := hcalls call (List.mem_of_getElem? hcall)
    refine ⟨fun hnone => ?_, hholds.resolved, hholds.rejected⟩
    obtain ⟨e, he⟩ | ⟨vs, hvs, halone⟩ := hholds.tasks hnone
    · exact .inl ⟨e, mem_set_of_ne htask he nofun⟩
    · obtain ⟨v, hwaiting, hset⟩ := forall₂_set (fun _ _ ht => ht.mono hext) hvs htask
      refine .inr ⟨vs, hset _ (hrun v ?_), halone⟩
      cases hwaiting with
      | waiting hnext hof hI =>
          cases hx with
          | error _ _ => exact hj.error _ hI hnext
          | ok hrs => exact hj.resume hI hnext (hpool.answers hof hrs)

/-- A call is settled when its tasks have ended. -/
lemma State.Holds.settle (h : s.Holds c handle I) {k : ℕ} {call : Call n σ E A α β}
    {x : Except E (List α)} (hcall : s.calls[k]? = some call) (hnone : call.outcome = none)
    (hx : All Task.result call.tasks x) :
    State.Holds c handle I { s with
      calls := s.calls.set k { call with outcome := some (s.outcome c call.input x) } } := by
  obtain ⟨g, hpool, hcalls⟩ := h
  refine ⟨g, hpool, fun call' hcall' => ?_⟩
  obtain hmem | rfl := List.mem_or_eq_of_mem_set hcall'
  · exact hcalls call' hmem
  · have hholds := hcalls call (List.mem_of_getElem? hcall)
    have hvalue : ∀ ys, x = .ok ys → c.alone call.input = .ok (c.collect ys) := by
      rintro ys rfl
      cases hx with
      | ok hys =>
          obtain ⟨e, he⟩ | ⟨vs, hvs, halone⟩ := hholds.tasks hnone
          · obtain ⟨y, hy⟩ := exists_of_forall₂ hys he
            cases hy
          · rw [halone, eq_of_returned hvs hys]
    obtain ⟨hok, herror⟩ := State.outcome_holds (s := s) call.input x hvalue
    exact ⟨nofun, fun b hb => hok b (Option.some.inj hb), fun e he => herror e (Option.some.inj he)⟩

/-- The step lemma. -/
lemma State.Holds.step (hj : c.toJob.Keeps handle I) (hc : c.Plans I) (h : s.Holds c handle I)
    {kind : Kind} (hstep : Step c handle closing kind s s') : s'.Holds c handle I := by
  cases hstep with
  | start _ a => exact h.start hj hc a
  | answer _ w hin => exact h.setLink w fun g hl => hl.reply hin fun r hr => hr
  | trouble _ w e hin => exact h.setLink w fun g hl => hl.reply hin nofun
  | deliver _ w hout => exact h.setLink w fun g hl => hl.deliver hout
  | fail _ w e => exact h.setLink w fun g hl => hl.fail e
  | resume _ hcall htask hx => exact h.resume hj hcall htask hx
  | settle _ hcall hnone hx => exact h.settle hcall hnone hx
  | close _ hopen =>
      obtain ⟨g, hpool, hcalls⟩ := h
      exact ⟨g, fun w => (hpool w).close closing,
        fun call hcall => (hcalls call hcall).mono (.refl g) fun _ => rfl⟩

/-- The run lemma. -/
theorem Reached.holds (hj : c.toJob.Keeps handle I) (hc : c.Plans I)
    (h : Reached c handle closing s) : s.Holds c handle I := by
  induction h with
  | init => exact .init
  | step _ hstep ih => exact ih.step hj hc hstep

/-- A call that resolves has what the client computes alone, and one that is rejected has its error,
or the client was closed. -/
theorem Reached.sound (hj : c.toJob.Keeps handle I) (hc : c.Plans I)
    (h : Reached c handle closing s) {call : Call n σ E A α β} (hcall : call ∈ s.calls) :
    (∀ b, call.outcome = some (.ok b) → c.alone call.input = .ok b) ∧
      ∀ e, call.outcome = some (.error e) → s.closed = true ∨ c.alone call.input = .error e := by
  obtain ⟨g, -, hcalls⟩ := h.holds hj hc
  exact ⟨(hcalls call hcall).resolved, (hcalls call hcall).rejected⟩

/-- No call is forgotten: if no worker has a request, no reply is on its way and nothing can go on,
then all calls are settled. -/
theorem Reached.settled (hj : c.toJob.Keeps handle I) (hc : c.Plans I)
    (h : Reached c handle closing s) (hquiet : ∀ s', ¬ Step c handle closing .progress s s') :
    ∀ call ∈ s.calls, call.outcome ≠ none := by
  intro call hcall hnone
  obtain ⟨k, hk⟩ := List.getElem?_of_mem hcall
  obtain ⟨g, hpool, hcalls⟩ := h.holds hj hc
  have hopen : ∀ x, ¬ All Task.result call.tasks x := fun x hx => hquiet _ (.settle s hk hnone hx)
  obtain ⟨e, he⟩ | ⟨vs, hvs, -⟩ := (hcalls call hcall).tasks hnone
  · exact hopen _ (.error he rfl)
  -- a task waits, for a promise that is not settled
  · have htask : ∃ t ∈ call.tasks, t.result = none := by
      by_contra hall
      push Not at hall
      obtain ⟨x, hx⟩ := exists_all hall
      exact hopen x hx
    obtain ⟨t, ht, hresult⟩ := htask
    obtain ⟨j, hj⟩ := List.getElem?_of_mem ht
    obtain ⟨v, hholds⟩ := exists_of_forall₂ hvs ht
    cases hholds with
    | returned => cases hresult
    | failed => cases hresult
    | @waiting st promises qs _ hnext hof _ =>
        have hpromise : ∃ x ∈ promises, s.pool.settled x = none := by
          by_contra hall
          push Not at hall
          obtain ⟨x, hx⟩ := exists_all hall
          exact hquiet _ (.resume s hk hj hx)
        obtain ⟨x, hx, hunsettled⟩ := hpromise
        obtain ⟨q, hq⟩ := exists_of_forall₂ hof hx
        obtain ⟨w, i, ⟨q', hin⟩ | ⟨r, hout⟩⟩ := hpool.onTheWay hq hunsettled
        · obtain ⟨front, back, hsplit⟩ := List.append_of_mem hin
          exact hquiet _ (.answer s w hsplit)
        · obtain ⟨front, back, hsplit⟩ := List.append_of_mem hout
          exact hquiet _ (.deliver s w hsplit)

end Calls

/-! ### Runs end -/

section Ends

variable {μ : σ → ℕ} {c : Client σ Q R E A α β} {handle : Q → Except E R} {closing : E}
  {s s' : State n σ Q R E A α β}

/-- A job that waits again is closer to its end. -/
def Job.Bounded (j : Job σ Q R E α) (μ : σ → ℕ) : Prop :=
  ∀ s x qs, j.next (j.resume s x) = .calls qs → μ (j.resume s x) < μ s

/-- How often a task can still go on. -/
def Task.rank (μ : σ → ℕ) : Task n σ E α → ℕ
  | .waiting s _ => μ s + 1
  | .done _ => 0

/-- How often a call can still go on. -/
def Call.rank (μ : σ → ℕ) (call : Call n σ E A α β) : ℕ :=
  (call.tasks.map (Task.rank μ)).sum + if call.outcome.isNone then 1 else 0

/-- How often the messages of a link can still move. -/
def Link.rank (l : Link Q R E) : ℕ := 2 * l.inbox.length + l.outbox.length

/-- The continuations that are left, then the messages that are left. -/
def State.rank (μ : σ → ℕ) (s : State n σ Q R E A α β) : ℕ ×ₗ ℕ :=
  toLex ((s.calls.map (Call.rank μ)).sum, ∑ w, (s.pool.links w).rank)

lemma sum_set_lt {γ : Type} {f : γ → ℕ} {xs : List γ} {k : ℕ} {x y : γ} (hk : xs[k]? = some x)
    (hlt : f y < f x) : ((xs.set k y).map f).sum < (xs.map f).sum := by
  induction xs generalizing k with
  | nil => cases hk
  | cons z xs ih =>
      cases k with
      | zero =>
          obtain rfl := Option.some.inj hk
          simpa using hlt
      | succ k => simpa using ih hk

lemma Job.Bounded.rank_run {j : Job σ Q R E α} (hj : j.Bounded μ) (p : Pool n Q R E) (s : σ)
    (x : Except E (List R)) : (j.run p (j.resume s x)).2.rank μ < μ s + 1 := by
  rw [Job.run]
  cases hnext : j.next (j.resume s x) with
  | calls qs => exact Nat.succ_lt_succ (hj s x qs hnext)
  | done y => exact Nat.succ_pos _

/-- A message moves on. -/
lemma State.rank_setLink (s : State n σ Q R E A α β) (w : Fin (n + 1)) {l : Link Q R E}
    (hl : l.rank < (s.pool.links w).rank) : (s.setLink w l).rank μ < s.rank μ := by
  refine Prod.Lex.toLex_lt_toLex.mpr (.inr ⟨rfl, ?_⟩)
  refine Finset.sum_lt_sum (fun v _ => ?_) ⟨w, Finset.mem_univ w, ?_⟩
  · rw [State.setLink, Pool.update]
    dsimp only
    obtain rfl | hne := eq_or_ne v w
    · rw [Function.update_self]
      exact hl.le
    · rw [Function.update_of_ne hne]
  · rw [State.setLink, Pool.update]
    dsimp only
    rwa [Function.update_self]

lemma Link.inbox_deliver (l : Link Q R E) (i : ℕ) (r : Except E R) :
    (l.deliver i r).inbox = l.inbox ∧ (l.deliver i r).outbox = l.outbox := by
  rw [Link.deliver]
  split_ifs <;> exact ⟨rfl, rfl⟩

/-- Each step of a run that is left alone brings its end closer. -/
lemma Step.rank_lt (hj : c.toJob.Bounded μ) (h : Step c handle closing .progress s s') :
    s'.rank μ < s.rank μ := by
  cases h with
  | answer _ w hin =>
      refine s.rank_setLink w ?_
      rw [Link.rank, Link.rank, hin]
      simp only [List.length_append, List.length_cons, List.length_nil]
      omega
  | @deliver _ w front back i r hout =>
      refine s.rank_setLink w ?_
      obtain ⟨hinbox, houtbox⟩ :=
        { s.pool.links w with outbox := front ++ back : Link Q R E }.inbox_deliver i r
      rw [Link.rank, Link.rank, hinbox, houtbox, hout]
      simp only [List.length_append, List.length_cons]
      omega
  | resume _ hcall htask hx =>
      refine Prod.Lex.toLex_lt_toLex.mpr (.inl (sum_set_lt hcall ?_))
      rw [Call.rank, Call.rank]
      exact Nat.add_lt_add_right (sum_set_lt htask (hj.rank_run _ _ _)) _
  | settle _ hcall hnone hx =>
      refine Prod.Lex.toLex_lt_toLex.mpr (.inl (sum_set_lt hcall ?_))
      rw [Call.rank, Call.rank, hnone]
      exact Nat.lt_succ_self _

/-- A run in which no call is made and nothing fails ends. -/
theorem wellFounded_progress (hj : c.toJob.Bounded μ) :
    WellFounded fun s' s : State n σ Q R E A α β => Step c handle closing .progress s s' :=
  Subrelation.wf (fun h => Step.rank_lt hj h) (InvImage.wf (State.rank μ) wellFounded_lt)

end Ends

end Rpc

end Machine
