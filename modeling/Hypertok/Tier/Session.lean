import Mathlib.Data.List.Basic
import Mathlib.Logic.Relation
import Mathlib.Tactic.Common

/-!
The tiers of a session, `createTierRuntime`: worker pools and shared controllers are created on
demand, each in an initialization of its own, and `close` terminates what the session holds.

* `selectTier`, `switchTier`: the tier that is asked for, and what has to be created for it.
* `Step`: the calls, the initializations and the continuations, in any order.
* `close_exact`: which workers a closed session has terminated.
-/

namespace Hypertok

/-! ### The code -/

/-- `browserCapabilities`. -/
structure BrowserCapabilities where
  isolated : Bool
  sharedArrayBuffer : Bool
  worker : Bool

/-- The execution tiers. -/
inductive ExecutionTier
  | single
  | worker
  | shared
  deriving DecidableEq, Repr

/-- What may be asked for. -/
inductive RequestedTier
  | auto
  | tier (tier : ExecutionTier)
  | unknown
  deriving DecidableEq, Repr

/-- The errors of `selectTier`. -/
inductive TierRefusal
  | sharedUnavailable
  | workerUnavailable
  | unknownTier
  deriving DecidableEq, Repr

/-- `selectTier`. -/
def selectTier (requested : RequestedTier) (capabilities : BrowserCapabilities)
    (hasThreadedArtifact : Bool) : Except TierRefusal ExecutionTier :=
  let shared := capabilities.isolated && capabilities.sharedArrayBuffer && capabilities.worker &&
    hasThreadedArtifact
  let worker := !capabilities.isolated && capabilities.worker
  match requested with
  | .auto => .ok (if shared then .shared else if worker then .worker else .single)
  | .tier .shared => if shared then .ok .shared else .error .sharedUnavailable
  | .tier .worker => if worker then .ok .worker else .error .workerUnavailable
  | .tier .single => .ok .single
  | .unknown => .error .unknownTier

/-- What an initialization has come to. -/
inductive Initialization
  | pending
  | ready
  | failed
  deriving DecidableEq, Repr

/-- A pool of workers or a shared controller. -/
structure Spawned where
  initialization : Initialization
  terminated : Bool
  deriving DecidableEq, Repr

/-- The variables of the session. Pools and controllers are named by their index. -/
structure Session where
  capabilities : BrowserCapabilities
  hasThreadedArtifact : Bool
  /-- Whether `ensureWorkerImage` succeeds. -/
  workerImage : Bool
  closed : Bool
  closeResolved : Bool
  pools : List Spawned
  workerPool : Option ℕ
  workerInitialization : Option ℕ
  poolWaiters : List ℕ
  controllers : List Spawned
  sharedController : Option ℕ
  sharedInitialization : Option ℕ
  controllerWaiters : List ℕ

namespace Session

/-- The session before the first `switchTier`. -/
def fresh (capabilities : BrowserCapabilities) (hasThreadedArtifact workerImage : Bool) :
    Session where
  capabilities := capabilities
  hasThreadedArtifact := hasThreadedArtifact
  workerImage := workerImage
  closed := false
  closeResolved := false
  pools := []
  workerPool := none
  workerInitialization := none
  poolWaiters := []
  controllers := []
  sharedController := none
  sharedInitialization := none
  controllerWaiters := []

/-- `ensureTier("worker")`, up to its `await`. -/
def ensureWorker (s : Session) : Session :=
  match s.workerPool, s.workerInitialization with
  | some _, _ => s
  | none, some k => { s with poolWaiters := s.poolWaiters ++ [k] }
  | none, none =>
      { s with
        pools := s.pools ++ [⟨.pending, false⟩]
        workerInitialization := some s.pools.length
        poolWaiters := s.poolWaiters ++ [s.pools.length] }

/-- `ensureTier("shared")`, up to its `await`. A call that finds a controller waits without a
`catch` of its own. -/
def ensureShared (s : Session) : Session :=
  match s.sharedController, s.sharedInitialization with
  | some _, some _ => s
  | none, some k => { s with controllerWaiters := s.controllerWaiters ++ [k] }
  | _, none =>
      { s with
        controllers := s.controllers ++ [⟨.pending, false⟩]
        sharedController := some s.controllers.length
        sharedInitialization := some s.controllers.length
        controllerWaiters := s.controllerWaiters ++ [s.controllers.length] }

/-- `switchTier`, up to its first `await`. A call that throws leaves the session as it is. -/
def switchTier (s : Session) (requested : RequestedTier) : Session :=
  if s.closed then s
  else
    match selectTier requested s.capabilities s.hasThreadedArtifact with
    | .error _ | .ok .single => s
    | .ok .worker => if s.workerImage then s.ensureWorker else s
    | .ok .shared => if s.workerImage then s.ensureShared else s

/-- A pool is initialized. -/
def poolReady (s : Session) (k : ℕ) : Session :=
  { s with pools := s.pools.modify k fun pool => { pool with initialization := .ready } }

/-- `initializeWorkerPool` fails: it closes all workers of the pool. -/
def poolFailed (s : Session) (k : ℕ) : Session :=
  { s with pools := s.pools.modify k fun _ => ⟨.failed, true⟩ }

/-- What follows `await workerInitialization`. -/
def resumeWorker (s : Session) (k : ℕ) : Session :=
  match s.pools[k]?.map Spawned.initialization with
  | some .ready => { s with workerPool := some k }
  | some .failed => { s with workerInitialization := none }
  | _ => s

/-- The reply of a controller to `initialize`. -/
def controllerReplied (s : Session) (c : ℕ) (result : Initialization) : Session :=
  { s with controllers := s.controllers.modify c fun controller =>
    { controller with initialization := result } }

/-- `RpcWorker::close` for a controller: what is pending is rejected. -/
def terminate (controller : Spawned) : Spawned :=
  { initialization :=
      if controller.initialization = .pending then .failed else controller.initialization
    terminated := true }

/-- What follows `await sharedInitialization` where the controller was created. `accepted` is the
comparison of the source digests. -/
def resumeShared (s : Session) (c : ℕ) (accepted : Bool) : Session :=
  match s.controllers[c]?.map Spawned.initialization, accepted with
  | some .ready, true => s
  | some .pending, _ => s
  | _, _ =>
      match s.sharedController with
      | none => { s with sharedInitialization := none }
      | some current =>
          { s with
            sharedInitialization := none
            controllers := s.controllers.modify current terminate
            sharedController := none }

/-- `close`, up to its first `await`: the workers of the pool are closed. -/
def beginClose (s : Session) : Session :=
  { s with
    closed := true
    pools :=
      match s.workerPool with
      | none => s.pools
      | some k => s.pools.modify k fun pool => { pool with terminated := true } }

/-- The rest of `close`: the controller is closed. -/
def endClose (s : Session) : Session :=
  { s with
    closeResolved := true
    controllers :=
      match s.sharedController with
      | none => s.controllers
      | some c => s.controllers.modify c terminate }

end Session

/-- The steps of a session, in any order. -/
inductive Session.Step : Session → Session → Prop
  | switchTier (s : Session) (requested : RequestedTier) : Step s (s.switchTier requested)
  | poolReady (s : Session) {k : ℕ} {pool : Spawned} (h : s.pools[k]? = some pool)
      (hpending : pool.initialization = .pending) : Step s (s.poolReady k)
  | poolFailed (s : Session) {k : ℕ} {pool : Spawned} (h : s.pools[k]? = some pool)
      (hpending : pool.initialization = .pending) : Step s (s.poolFailed k)
  | resumeWorker (s : Session) {front back : List ℕ} {k : ℕ} {pool : Spawned}
      (hwaits : s.poolWaiters = front ++ k :: back) (h : s.pools[k]? = some pool)
      (hsettled : pool.initialization ≠ .pending) :
      Step s ({ s with poolWaiters := front ++ back }.resumeWorker k)
  | controllerReplied (s : Session) {c : ℕ} {controller : Spawned} {result : Initialization}
      (h : s.controllers[c]? = some controller) (hpending : controller.initialization = .pending)
      (hlive : controller.terminated = false) : Step s (s.controllerReplied c result)
  | resumeShared (s : Session) {front back : List ℕ} {c : ℕ} {controller : Spawned}
      (accepted : Bool) (hwaits : s.controllerWaiters = front ++ c :: back)
      (h : s.controllers[c]? = some controller) (hsettled : controller.initialization ≠ .pending) :
      Step s ({ s with controllerWaiters := front ++ back }.resumeShared c accepted)
  | beginClose (s : Session) (hopen : s.closed = false) : Step s s.beginClose
  | endClose (s : Session) (hclosed : s.closed = true) (h : s.closeResolved = false) :
      Step s s.endClose

/-- The states of a session. -/
abbrev Session.Reached (s : Session) : Prop :=
  ∃ capabilities hasThreadedArtifact workerImage,
    Relation.ReflTransGen Step (fresh capabilities hasThreadedArtifact workerImage) s

/-! ### What a session holds -/

section Modify

variable {α : Type*} {p : α → Prop} {l : List α} {f : α → α} {i j : ℕ} {a : α}

/-- An entry after a change of one. -/
lemma getElem?_modify_eq_some (h : (l.modify i f)[j]? = some a) :
    ∃ b, l[j]? = some b ∧ (a = b ∧ i ≠ j ∨ a = f b ∧ i = j) := by
  rw [List.getElem?_modify] at h
  cases hb : l[j]? with
  | none => simp [hb] at h
  | some b =>
    refine ⟨b, rfl, ?_⟩
    by_cases hij : i = j
    · exact .inr ⟨by simpa [hb, hij, eq_comm] using h, hij⟩
    · exact .inl ⟨by simpa [hb, hij, eq_comm] using h, hij⟩

/-- A change of one entry keeps what it keeps for that entry. -/
lemma forall_getElem?_modify {q : ℕ → α → Prop} (hl : ∀ j a, l[j]? = some a → q j a)
    (hf : ∀ a, l[i]? = some a → q i (f a)) (j : ℕ) (a : α) (h : (l.modify i f)[j]? = some a) :
    q j a := by
  obtain ⟨b, hb, ⟨rfl, -⟩ | ⟨rfl, rfl⟩⟩ := getElem?_modify_eq_some h
  · exact hl j _ hb
  · exact hf b hb

/-- A new entry. -/
lemma forall_getElem?_concat {q : ℕ → α → Prop} {x : α} (hl : ∀ j a, l[j]? = some a → q j a)
    (hx : q l.length x) (j : ℕ) (a : α) (h : (l ++ [x])[j]? = some a) : q j a := by
  by_cases hj : j < l.length
  · rw [List.getElem?_append_left hj] at h
    exact hl j a h
  · have hlt : j < (l ++ [x]).length := (List.getElem?_eq_some_iff.mp h).1
    obtain rfl : j = l.length := by
      rw [List.length_append, List.length_singleton] at hlt
      omega
    rw [List.getElem?_concat_length] at h
    cases h
    exact hx

end Modify

/-- The invariant of a session. -/
structure Session.Holds (s : Session) : Prop where
  paired : s.sharedInitialization = none → s.sharedController = none
  live : ∀ c controller, s.controllers[c]? = some controller → controller.terminated = false →
    s.sharedController = some c
  resolved : s.closeResolved = true → s.closed = true ∧
    ∀ (c : ℕ) (controller : Spawned), s.controllers[c]? = some controller →
      controller.terminated = true
  unterminated : s.closed = false → ∀ (k : ℕ) (pool : Spawned), s.pools[k]? = some pool →
    (pool.terminated = true ↔ pool.initialization = .failed)
  ready : ∀ k, s.workerPool = some k → ∀ pool, s.pools[k]? = some pool →
    pool.initialization = .ready

namespace Session

variable {s t : Session}

/-- A fresh session. -/
lemma Holds.fresh (capabilities : BrowserCapabilities) (hasThreadedArtifact workerImage : Bool) :
    (fresh capabilities hasThreadedArtifact workerImage).Holds where
  paired _ := rfl
  live c controller h := by simp [Session.fresh] at h
  resolved h := by simp [Session.fresh] at h
  unterminated _ k pool h := by simp [Session.fresh] at h
  ready k h := by simp [Session.fresh] at h

/-- A pool that is not there yet. -/
lemma Holds.ensureWorker (h : s.Holds) (hopen : s.closed = false) : s.ensureWorker.Holds := by
  rw [Session.ensureWorker]
  split
  · exact h
  · exact { h with }
  next hpool _ =>
    exact {
      paired := h.paired
      live := h.live
      resolved := h.resolved
      unterminated := fun _ => forall_getElem?_concat (h.unterminated hopen) (by simp)
      ready := fun k hk => by simp [hpool] at hk }

/-- A controller that is not there yet. -/
lemma Holds.ensureShared (h : s.Holds) (hopen : s.closed = false) : s.ensureShared.Holds := by
  rw [Session.ensureShared]
  split
  · exact h
  · exact { h with }
  next _ _ hinit =>
    refine { h with paired := nofun, live := ?_, resolved := fun hres => ?_ }
    · refine forall_getElem?_concat (fun c controller hc hlive => ?_) (fun _ => rfl)
      -- without an initialization all controllers are terminated
      have hnone : s.sharedController = none := h.paired hinit
      have hsome := h.live c controller hc hlive
      rw [hnone] at hsome
      cases hsome
    · have hclosed : s.closed = true := (h.resolved hres).1
      rw [hopen] at hclosed
      cases hclosed

/-- What `switchTier` does to a session. -/
lemma switchTier_cases (s : Session) (requested : RequestedTier) :
    s.switchTier requested = s ∨ s.closed = false ∧
      (s.switchTier requested = s.ensureWorker ∨ s.switchTier requested = s.ensureShared) := by
  cases hclosed : s.closed with
  | true => exact .inl (by simp [switchTier, hclosed])
  | false =>
    cases htier : selectTier requested s.capabilities s.hasThreadedArtifact with
    | error e => exact .inl (by simp [switchTier, hclosed, htier])
    | ok tier => cases tier <;> cases himage : s.workerImage <;>
        simp [switchTier, hclosed, htier, himage]

/-- `switchTier` keeps the invariant. -/
lemma Holds.switchTier (h : s.Holds) (requested : RequestedTier) :
    (s.switchTier requested).Holds := by
  obtain heq | ⟨hopen, heq | heq⟩ := s.switchTier_cases requested
  · rw [heq]
    exact h
  · rw [heq]
    exact h.ensureWorker hopen
  · rw [heq]
    exact h.ensureShared hopen

/-- A terminated controller stays so. -/
@[simp] lemma terminate_terminated (controller : Spawned) :
    (terminate controller).terminated = true := rfl

/-- With the current controller terminated, all are. -/
lemma Holds.terminated (h : s.Holds) {c : ℕ} (hc : s.sharedController = some c) (j : ℕ)
    (controller : Spawned) (hj : (s.controllers.modify c terminate)[j]? = some controller) :
    controller.terminated = true := by
  obtain ⟨b, hb, ⟨rfl, hne⟩ | ⟨rfl, -⟩⟩ := getElem?_modify_eq_some hj
  · by_contra hlive
    have hcurrent := h.live j _ hb (Bool.eq_false_iff.mpr hlive)
    rw [hc, Option.some_inj] at hcurrent
    exact hne hcurrent
  · rfl

/-- Without a current controller, all are terminated. -/
lemma Holds.terminated_of_none (h : s.Holds) (hc : s.sharedController = none) (j : ℕ)
    (controller : Spawned) (hj : s.controllers[j]? = some controller) :
    controller.terminated = true := by
  by_contra hlive
  have hcurrent := h.live j _ hj (Bool.eq_false_iff.mpr hlive)
  rw [hc] at hcurrent
  cases hcurrent

/-- What the continuation of an initialization of a controller does to a session. -/
lemma resumeShared_cases (s : Session) (c : ℕ) (accepted : Bool) :
    s.resumeShared c accepted = s ∨
      s.sharedController = none ∧
        s.resumeShared c accepted = { s with sharedInitialization := none } ∨
      ∃ current, s.sharedController = some current ∧ s.resumeShared c accepted =
        { s with
          sharedInitialization := none
          controllers := s.controllers.modify current terminate
          sharedController := none } := by
  unfold resumeShared
  split
  · exact .inl rfl
  · exact .inl rfl
  · cases hc : s.sharedController with
    | none => exact .inr (.inl ⟨rfl, rfl⟩)
    | some current => exact .inr (.inr ⟨current, rfl, rfl⟩)

/-- The continuation of an initialization of a controller keeps the invariant. -/
lemma Holds.resumeShared (h : s.Holds) (c : ℕ) (accepted : Bool) :
    (s.resumeShared c accepted).Holds := by
  obtain heq | ⟨hnone, heq⟩ | ⟨current, hsome, heq⟩ := s.resumeShared_cases c accepted
  · rw [heq]
    exact h
  · rw [heq]
    exact { h with paired := fun _ => hnone }
  · rw [heq]
    exact { h with
      paired := fun _ => rfl
      live := fun j controller hj hlive => by
        rw [h.terminated hsome j controller hj] at hlive
        cases hlive
      resolved := fun hres => ⟨(h.resolved hres).1, h.terminated hsome⟩ }

/-- The end of `close` keeps the invariant. -/
lemma Holds.endClose (h : s.Holds) (hclosed : s.closed = true) : s.endClose.Holds := by
  have hall : ∀ (j : ℕ) (controller : Spawned), s.endClose.controllers[j]? = some controller →
      controller.terminated = true := by
    rw [Session.endClose]
    cases hc : s.sharedController with
    | none => exact h.terminated_of_none hc
    | some c => exact h.terminated hc
  exact {
    paired := h.paired
    live := fun j controller hj hlive => by
      rw [hall j controller hj] at hlive
      cases hlive
    resolved := fun _ => ⟨hclosed, hall⟩
    unterminated := h.unterminated
    ready := h.ready }

/-- The start of `close` keeps the invariant. -/
lemma Holds.beginClose (h : s.Holds) : s.beginClose.Holds := by
  refine { h with resolved := fun hres => ⟨rfl, (h.resolved hres).2⟩, unterminated := nofun,
                  ready := fun k hk => ?_ }
  rw [Session.beginClose]
  cases hpool : s.workerPool with
  | none => exact h.ready k hk
  | some i =>
    intro pool hget
    obtain ⟨b, hb, ⟨rfl, -⟩ | ⟨rfl, -⟩⟩ := getElem?_modify_eq_some hget
    · exact h.ready k hk _ hb
    · exact h.ready k hk b hb

/-- A step keeps the invariant. -/
theorem Holds.step (h : s.Holds) (hstep : Step s t) : t.Holds := by
  cases hstep with
  | switchTier requested => exact h.switchTier requested
  | @poolReady k pool hk hpending =>
    refine { h with
      unterminated := fun hopen => forall_getElem?_modify (h.unterminated hopen) fun b hb => ?_
      ready := fun j hj b hb => ?_ }
    · have hterm := h.unterminated hopen k b hb
      rw [hk] at hb
      cases hb
      simpa [hpending] using hterm
    · obtain ⟨b, hb, ⟨rfl, -⟩ | ⟨rfl, -⟩⟩ := getElem?_modify_eq_some hb
      · exact h.ready j hj _ hb
      · rfl
  | @poolFailed k pool hk hpending =>
    refine { h with
      unterminated := fun hopen => forall_getElem?_modify (h.unterminated hopen) fun b hb => by simp
      ready := fun j hj b hb => ?_ }
    obtain ⟨b, hb, ⟨rfl, -⟩ | ⟨rfl, rfl⟩⟩ := getElem?_modify_eq_some hb
    · exact h.ready j hj _ hb
    -- the pool of the session is initialized already
    · have hready := h.ready k hj pool hk
      rw [hpending] at hready
      cases hready
  | @resumeWorker front back k pool hwaits hk hsettled =>
    rw [Session.resumeWorker]
    simp only [hk, Option.map_some]
    cases hinit : pool.initialization with
    | pending => exact absurd hinit hsettled
    | ready =>
      refine { h with ready := fun j hj b hb => ?_ }
      cases hj
      rw [hk] at hb
      cases hb
      exact hinit
    | failed => exact { h with }
  | @controllerReplied c controller result hc hpending hlive =>
    refine { h with
      live := forall_getElem?_modify h.live fun b hb hterm => h.live c b hb hterm
      resolved := fun hres => ⟨(h.resolved hres).1, ?_⟩ }
    exact forall_getElem?_modify (h.resolved hres).2 fun b hb => (h.resolved hres).2 c b hb
  | @resumeShared front back c controller accepted hwaits hc hsettled =>
    have hwaiting : Holds { s with controllerWaiters := front ++ back } := { h with }
    exact hwaiting.resumeShared c accepted
  | beginClose hopen => exact h.beginClose
  | endClose hclosed hres => exact h.endClose hclosed

/-- The invariant of all states of a session. -/
theorem Reached.holds (h : s.Reached) : s.Holds := by
  obtain ⟨capabilities, hasThreadedArtifact, workerImage, hrun⟩ := h
  induction hrun with
  | refl => exact Holds.fresh _ _ _
  | tail _ hstep ih => exact ih.step hstep

/-! ### After `close` -/

/-- A session that was closed with the pool `held`: what is terminated then, and what is not. -/
structure After (held : Option ℕ) (s : Session) : Prop where
  closed : s.closed = true
  pools : ∀ (k : ℕ) (pool : Spawned), s.pools[k]? = some pool →
    (pool.terminated = true ↔ pool.initialization = .failed ∨ held = some k)

/-- `close` terminates the pool of the session. -/
lemma Holds.after_beginClose (h : s.Holds) (hopen : s.closed = false) :
    s.beginClose.After s.workerPool where
  closed := rfl
  pools k pool hk := by
    rw [Session.beginClose] at hk
    cases hheld : s.workerPool with
    | none =>
      rw [hheld] at hk
      simpa using h.unterminated hopen k pool hk
    | some i =>
      rw [hheld] at hk
      obtain ⟨b, hb, ⟨rfl, hne⟩ | ⟨rfl, rfl⟩⟩ := getElem?_modify_eq_some hk
      · simpa [hne] using h.unterminated hopen k _ hb
      · simp

/-- After `close`, nothing terminates a pool but its own initialization. -/
lemma After.step {held : Option ℕ} (h : s.After held) (hstep : Step s t) : t.After held := by
  cases hstep with
  | switchTier requested =>
    obtain heq | ⟨hopen, -⟩ := s.switchTier_cases requested
    · rw [heq]
      exact h
    · rw [h.closed] at hopen
      cases hopen
  | @poolReady k pool hk hpending =>
    refine { h with pools := forall_getElem?_modify h.pools fun b hb => ?_ }
    have hterm := h.pools k b hb
    rw [hk] at hb
    cases hb
    simpa [hpending] using hterm
  | poolFailed hk hpending =>
    exact { h with pools := forall_getElem?_modify h.pools fun b hb => by simp }
  | resumeWorker hwaits hk hsettled =>
    rw [Session.resumeWorker]
    split <;> exact { h with }
  | controllerReplied => exact { h with }
  | @resumeShared front back c controller accepted hwaits hc hsettled =>
    have hwaiting : After held { s with controllerWaiters := front ++ back } := { h with }
    obtain heq | ⟨-, heq⟩ | ⟨current, -, heq⟩ :=
      resumeShared_cases { s with controllerWaiters := front ++ back } c accepted
    · rw [heq]
      exact hwaiting
    · rw [heq]
      exact { hwaiting with }
    · rw [heq]
      exact { hwaiting with }
  | beginClose hopen =>
    rw [h.closed] at hopen
    cases hopen
  | endClose => exact { h with }

end Session

/-- In all states of a session, all controllers but the current one are terminated. A session that
was closed has terminated the pool that it held at that time and the pools with a failed
initialization, and no other: one whose initialization was pending, and succeeds later, runs on.
With `close` resolved, all controllers are terminated. -/
theorem Session.close_exact {s t : Session} (h : s.Reached) (hopen : s.closed = false)
    (hrun : Relation.ReflTransGen Step s.beginClose t) :
    (∀ (k : ℕ) (pool : Spawned), t.pools[k]? = some pool →
      (pool.terminated = true ↔ pool.initialization = .failed ∨ s.workerPool = some k)) ∧
    (∀ (c : ℕ) (controller : Spawned), t.controllers[c]? = some controller →
      controller.terminated = true ∨ t.sharedController = some c) ∧
    (t.closeResolved = true → ∀ (c : ℕ) (controller : Spawned),
      t.controllers[c]? = some controller → controller.terminated = true) := by
  have hafter : t.After s.workerPool ∧ t.Holds := by
    induction hrun with
    | refl => exact ⟨h.holds.after_beginClose hopen, h.holds.beginClose⟩
    | tail _ hstep ih => exact ⟨ih.1.step hstep, ih.2.step hstep⟩
  refine ⟨hafter.1.pools, fun c controller hc => ?_, fun hres => (hafter.2.resolved hres).2⟩
  cases hterm : controller.terminated with
  | true => exact .inl rfl
  | false => exact .inr (hafter.2.live c controller hc hterm)

/-- `close_exact` for a session that is closed while its pool is initialized: the pool gets ready
and runs on. -/
theorem Session.close_exact_pending :
    ∃ s t : Session, s.Reached ∧ Relation.ReflTransGen Step s.beginClose t ∧
      t.closeResolved = true ∧
      ∃ pool, t.pools[0]? = some pool ∧ pool.initialization = .ready ∧ pool.terminated = false := by
  let s := (fresh ⟨false, false, true⟩ false true).switchTier (.tier .worker)
  have hs : s.Reached := ⟨_, _, _, .single (.switchTier _ _)⟩
  have hrun : Relation.ReflTransGen Step s.beginClose (s.beginClose.endClose.poolReady 0) :=
    .tail (.single (.endClose _ rfl rfl)) (@Step.poolReady _ 0 ⟨.pending, false⟩ rfl rfl)
  have hpool : (s.beginClose.endClose.poolReady 0).pools[0]? = some ⟨.ready, false⟩ := rfl
  have hterm := (close_exact hs rfl hrun).1 0 _ hpool
  have hheld : s.workerPool = none := rfl
  rw [hheld] at hterm
  refine ⟨s, _, hs, hrun, rfl, _, hpool, rfl, Bool.eq_false_iff.mpr fun h => ?_⟩
  simpa using hterm.mp h

end Hypertok
