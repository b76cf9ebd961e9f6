import Pubstorm.Deployer.Steps
import Pubstorm.Deployments.Create

/-!
# The deploy system

The API handlers running `Create`, the deploy worker running `Work` on the jobs it takes
from the Deploy queue, the other producers of Deploy jobs, administrators locking
projects, and time, interleaved over one world. A move is one statement of one thread or
one event of the environment; nothing orders the threads but the world they share.

The queue delivers at least once: a job the worker took stays queued and may be taken
again, by the same worker or another, before or after the first run ends.
-/

namespace Pubstorm.System

/-- A thread: a run of `Work` on a job the worker took, or a request in `Create`. -/
inductive Thread where
  | work (pc : Deployer.Pc)
  | create (pc : Deployments.Pc)

/-- The world and the threads, in the order they started. -/
structure Sys where
  world : World
  threads : List Thread

/-- A move: thread `i` runs one statement, `ok` saying whether its call succeeds; the
worker takes the `j`-th queued Deploy job and starts `Work` on it; another producer
enqueues a Deploy job; a deploy request reaches `Create`; an administrator locks a project;
time passes. -/
inductive Move where
  | run (i : Nat) (ok : Bool)
  | deliver (j : Nat)
  | post (data : JsonValue)
  | submit (req : Deployments.Request)
  | lock (projectId : Nat)
  | tick

variable (P : Deployer.Platform)

def Thread.step (ok : Bool) (w : World) : Thread → Thread × World
  | .work pc => (.work (Deployer.step P ok w pc).1, (Deployer.step P ok w pc).2)
  | .create pc => (.create (Deployments.step ok w pc).1, (Deployments.step ok w pc).2)

/-- One move, if it is possible: a thread that exists, a job that is queued. -/
def step (s : Sys) : Move → Option Sys
  | .run i ok =>
    s.threads[i]?.map fun t => ⟨(t.step P ok s.world).2, s.threads.set i (t.step P ok s.world).1⟩
  | .deliver j => s.world.deployQueue[j]?.map fun data => { s with threads := s.threads ++ [.work (.start data)] }
  | .post data => some { s with world := s.world.apply (.enqueue data) }
  | .submit req => some { s with threads := s.threads ++ [.create (.start req)] }
  | .lock p => some { s with world := s.world.apply (.lock p) }
  | .tick => some { s with world := { s.world with clock := s.world.clock + 1 } }

def Reachable (s₀ : Sys) : Sys → Prop :=
  Relation.ReflTransGen (fun s s' => ∃ m, step P s m = some s') s₀

def runMoves : Sys → List Move → Option Sys
  | s, [] => some s
  | s, m :: ms => (step P s m).bind fun s' => runMoves s' ms

variable {P}

theorem runMoves_reachable {s₀ s s' : Sys} {ms : List Move} (h : Reachable P s₀ s)
    (replay : runMoves P s ms = some s') : Reachable P s₀ s' := by
  induction ms generalizing s with
  | nil => cases replay; exact h
  | cons m ms ih =>
    obtain ⟨s₁, moved, rest⟩ := Option.bind_eq_some.mp replay
    exact ih (h.tail ⟨m, moved⟩) rest

/-- A schedule that ends where `p` holds shows a reachable system where `p` holds. -/
theorem reach_of_run {s₀ : Sys} {ms : List Move} {p : Sys → Bool}
    (h : (runMoves P s₀ ms).map p = some true) : ∃ s, Reachable P s₀ s ∧ p s = true := by
  obtain ⟨s, replay, holds⟩ := Option.map_eq_some'.mp h
  exact ⟨s, runMoves_reachable .refl replay, holds⟩

/-! ### What a move does -/

/-- A thread as it starts: `Work` on a job, or `Create` on a request. -/
def Thread.Fresh : Thread → Prop
  | .work (.start _) | .create (.start _) => True
  | _ => False

/-- The events of the environment that go through the world: a lock, a job enqueued by
another producer. -/
def External : Effect → Prop
  | .lock _ | .enqueue _ => True
  | _ => False

/-- A move runs one statement of an existing thread and leaves the others alone, or starts
a thread, or is an environment event. -/
theorem step_cases {s s' : Sys} {m : Move} (h : step P s m = some s') :
    (∃ i ok t, s.threads[i]? = some t ∧
      s' = ⟨(t.step P ok s.world).2, s.threads.set i (t.step P ok s.world).1⟩) ∨
      (∃ t, t.Fresh ∧ s' = { s with threads := s.threads ++ [t] }) ∨
      (∃ e, External e ∧ s' = { s with world := s.world.apply e }) ∨
      s' = { s with world := { s.world with clock := s.world.clock + 1 } } := by
  cases m with
  | run i ok =>
    obtain ⟨t, found, rfl⟩ := Option.map_eq_some'.mp h
    exact .inl ⟨i, ok, t, found, rfl⟩
  | deliver j =>
    obtain ⟨data, -, rfl⟩ := Option.map_eq_some'.mp h
    exact .inr (.inl ⟨.work (.start data), trivial, rfl⟩)
  | post data => exact .inr (.inr (.inl ⟨.enqueue data, trivial, (Option.some.inj h).symm⟩))
  | submit req => exact .inr (.inl ⟨.create (.start req), trivial, (Option.some.inj h).symm⟩)
  | lock p => exact .inr (.inr (.inl ⟨.lock p, trivial, (Option.some.inj h).symm⟩))
  | tick => exact .inr (.inr (.inr (Option.some.inj h).symm))

/-- An invariant of the system: it holds at `s₀` and every move keeps it. -/
theorem reachable_induction {Inv : Sys → Prop} {s₀ s : Sys} (h : Reachable P s₀ s) (init : Inv s₀)
    (preserved : ∀ s m s', Inv s → step P s m = some s' → Inv s') : Inv s := by
  induction h with
  | refl => exact init
  | tail _ moved ih => obtain ⟨m, moved⟩ := moved; exact preserved _ m _ ih moved

/-! ### A small site

The world the schedules of the later modules start from. -/

section Site

open Deployer

def siteDeployment (id : Nat) (randomPrefix : String) : Deployment :=
  ⟨id, 1, 7, randomPrefix, 1, .pendingDeploy, 0, none⟩

/-- Project `foo` (id 1, user 7, default domain only), deployments 42 (prefix `ab12`) and
43 (prefix `cd34`) pending deploy with their raw bundles stored, and an empty queue. -/
def siteWorld : World where
  deployments i :=
    if i = 42 then some (siteDeployment 42 "ab12")
    else if i = 43 then some (siteDeployment 43 "cd34") else none
  projects i := if i = 1 then some scenarioProject else none
  domains := []
  users i := if i = 7 then some ⟨7⟩ else none
  nextDeploymentId := 44
  prefixDefault _ := "ef56"
  versionDefault _ := 2
  projectByName n := if n = "foo" then some 1 else none
  maxUploadSize := 1024 * 1024 * 1000
  store k :=
    if k = "deployments/ab12-42/raw-bundle.tar.gz" ∨ k = "deployments/cd34-43/raw-bundle.tar.gz" then
      some ⟨"tar", "application/gzip", "private"⟩
    else none
  deployQueue := []
  clock := 0
  journal := []

def site : Sys := ⟨siteWorld, []⟩

def rawJob (id : Nat) : JsonValue := ({ deploymentId := id, useRawBundle := true } : DeployJobData).toJson

def Thread.result? : Thread → Option (Except WorkError Unit)
  | .work (.done r) => some r
  | _ => none

def Thread.returnedNil (t : Thread) : Bool :=
  match t.result? with
  | some (.ok ()) => true
  | _ => false

def Thread.panicked : Thread → Bool
  | .create .panicked => true
  | _ => false

/-! ### A request with an empty body -/

/-- A deploy of `foo` by its owner, encoded as `multipart/form-data` with an empty body and
`Content-Length: 0`: the first `NextPart` fails with `multipart: NextPart: EOF`, which is not
`io.EOF`, and returns a nil part. -/
def emptyBodyRequest : Deployments.Request := ⟨some ⟨7⟩, "foo", true, "0", [.error]⟩

/-- `Create` passes the owner, multipart and `Content-Length` checks on the empty body, then
calls `FormName` on the nil part: the thread dereferences it, having made no call that
writes. -/
theorem empty_body_dereferences_nil_part :
    ∃ s, Reachable scenarioPlatform site s ∧ s.threads.map Thread.panicked = [true] ∧
      s.world.journal = [] := by
  obtain ⟨s, reached, holds⟩ := @reach_of_run scenarioPlatform site
    [.submit emptyBodyRequest, .run 0 true, .run 0 true]
    (fun s => s.threads.map Thread.panicked == [true] && s.world.journal.isEmpty) (by decide)
  simp only [Bool.and_eq_true, beq_iff_eq, List.isEmpty_iff] at holds
  exact ⟨s, reached, holds.1, holds.2⟩

end Site

end Pubstorm.System
