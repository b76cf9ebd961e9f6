import Pubstorm.Deployer.Work
import Mathlib.Logic.Relation

/-!
# What one statement of `Work` can do

The inversion lemmas every later proof uses instead of unfolding `step`: a failing call
ends the run and changes nothing; a statement changes the world by at most one effect,
and only the commit writes a table; the commit is the one way into the part of `Work`
after the transaction. `Checked` collects what `Work` has checked about its locals at
each program point, whatever the other workers do in between.
-/

namespace Pubstorm.Deployer

variable {P : Platform}

/-- The program points after a successful commit. -/
def Pc.PostCommit : Pc → Prop
  | .loadUser _ _ | .track _ _ _ | .done (.ok ()) => True
  | _ => False

def Pc.IsCommit : Pc → Prop
  | .commit _ _ => True
  | _ => False

theorem lockCheck_pre (l : Locals) : ¬ (lockCheck l).PostCommit ∧ ¬ (lockCheck l).IsCommit := by
  unfold lockCheck; split <;> simp [Pc.PostCommit, Pc.IsCommit]

theorem afterLoad_pre (l : Locals) : ¬ (afterLoad l).PostCommit ∧ ¬ (afterLoad l).IsCommit := by
  unfold afterLoad; split
  · exact lockCheck_pre l
  · split <;> simp [Pc.PostCommit, Pc.IsCommit]

theorem metaLoop_pre (l : Locals) (names : List String) (r : Reader) (ds : List String) :
    ¬ (metaLoop l names r ds).PostCommit ∧ ¬ (metaLoop l names r ds).IsCommit := by
  cases ds with
  | nil => simp only [metaLoop, afterMeta]; split <;> simp [Pc.PostCommit, Pc.IsCommit]
  | cons d ds => simp [metaLoop, Pc.PostCommit, Pc.IsCommit]

/-- A failing call ends the run and leaves the world as it was. -/
theorem step_false (w : World) (pc : Pc) : ∃ r, step P false w pc = (.done r, w) := by
  cases pc <;> simp only [step, Bool.false_eq_true, ↓reduceIte] <;> (try split) <;> simp [fail]

/-- A statement changes the world by at most one effect. The commit, when its call
succeeds, applies the activation; every other statement leaves the tables alone. -/
theorem step_world (ok : Bool) (w : World) (pc : Pc) :
    (∃ l now, pc = .commit l now ∧ ok = true ∧ (step P ok w pc).2 = w.apply (activation l now)) ∨
      ¬ (pc.IsCommit ∧ ok = true) ∧
        ((step P ok w pc).2 = w ∨ ∃ e, e.KeepsTables ∧ (step P ok w pc).2 = w.apply e) := by
  cases ok
  · obtain ⟨r, h⟩ := step_false (P := P) w pc
    exact .inr ⟨by simp, .inl (by rw [h])⟩
  · cases pc <;> simp only [step, ↓reduceIte] <;> (repeat' split) <;>
      first
      | exact .inl ⟨_, _, rfl, by trivial, rfl⟩
      | exact .inr ⟨(fun c => nomatch c.1), .inl (by with_reducible rfl)⟩
      | exact .inr ⟨(fun c => nomatch c.1), .inl trivial⟩
      | exact .inr ⟨(fun c => nomatch c.1), .inr ⟨_, by trivial, rfl⟩⟩

/-- The commit is the one way past the transaction. -/
theorem step_postCommit (ok : Bool) (w : World) (pc : Pc) :
    (step P ok w pc).1.PostCommit ↔ pc.PostCommit ∨ pc.IsCommit ∧ ok = true := by
  cases pc <;> cases ok <;> simp only [step, Bool.false_eq_true, ↓reduceIte] <;> (repeat' split) <;>
    (try simp only [lockCheck_pre, afterLoad_pre, metaLoop_pre, false_iff]) <;>
    simp [Pc.PostCommit, Pc.IsCommit, fail]

/-! ### What `Work` has checked -/

/-- The state checks `Work` made on the deployment it read: neither `uploaded` nor
`pending_upload`, and not `deployed` unless the webroot upload is skipped. -/
def StateChecked (l : Locals) : Prop :=
  l.depl.state ≠ .uploaded ∧ l.depl.state ≠ .pendingUpload ∧
    (l.job.skipWebrootUpload = false → l.depl.state ≠ .deployed)

/-- What holds of the locals at each program point, from the checks on the way there. -/
def Pc.Checked : Pc → Prop
  | .start _ | .loadDeployment _ | .done _ => True
  | .loadProject _ depl => depl.state ≠ .uploaded ∧ depl.state ≠ .pendingUpload
  | .download l | .next l _ | .upload l _ _ => StateChecked l ∧ l.job.skipWebrootUpload = false
  | .domainNames l | .putMeta l _ _ _ _ | .publish l _ | .begin l | .updateState l
  | .updateProject l _ | .commit l _ | .loadUser l _ | .track l _ _ =>
    StateChecked l ∧ l.proj.lockedAt = none

theorem lockCheck_checked {l : Locals} (h : StateChecked l) : (lockCheck l).Checked := by
  unfold lockCheck
  split
  · trivial
  · next unlocked => exact ⟨h, Option.not_isSome_iff_eq_none.mp unlocked⟩

theorem metaLoop_checked {l : Locals} (h : StateChecked l ∧ l.proj.lockedAt = none)
    (names : List String) (r : Reader) (ds : List String) : (metaLoop l names r ds).Checked := by
  cases ds with
  | nil => simp only [metaLoop, afterMeta]; split <;> exact h
  | cons d ds => exact h

theorem afterLoad_checked {l : Locals} (h : l.depl.state ≠ .uploaded ∧ l.depl.state ≠ .pendingUpload) :
    (afterLoad l).Checked := by
  unfold afterLoad
  split
  · next skip => exact lockCheck_checked ⟨h.1, h.2, by simp [skip]⟩
  · next keep =>
    split
    · trivial
    · next live => exact ⟨⟨h.1, h.2, fun _ => live⟩, by simpa using keep⟩

/-- Each statement keeps `Checked`, in any world. -/
theorem step_checked {pc : Pc} (h : pc.Checked) (ok : Bool) (w : World) :
    (step P ok w pc).1.Checked := by
  cases pc <;> cases ok <;> simp only [step, Bool.false_eq_true, ↓reduceIte] <;> (repeat' split) <;>
    first
    | trivial
    | exact h
    | exact lockCheck_checked h.1
    | exact metaLoop_checked h _ _ _
    | exact not_or.mp ‹_›
    | exact afterLoad_checked h

/-! ### Where the locals come from -/

/-- The locals live at a program point, once the project is loaded. -/
def Pc.locals? : Pc → Option Locals
  | .download l | .next l _ | .upload l _ _ | .domainNames l | .putMeta l _ _ _ _ | .publish l _
  | .begin l | .updateState l | .updateProject l _ | .commit l _ | .loadUser l _ | .track l _ _ => some l
  | _ => none

theorem lockCheck_locals {l l' : Locals} (h : (lockCheck l).locals? = some l') : l' = l := by
  unfold lockCheck at h; split at h <;> simp_all [Pc.locals?]

theorem afterLoad_locals {l l' : Locals} (h : (afterLoad l).locals? = some l') : l' = l := by
  unfold afterLoad at h
  split at h
  · exact lockCheck_locals h
  · split at h <;> simp_all [Pc.locals?]

theorem metaLoop_locals {l l' : Locals} {names : List String} {r : Reader} {ds : List String}
    (h : (metaLoop l names r ds).locals? = some l') : l' = l := by
  cases ds with
  | nil => simp only [metaLoop, afterMeta] at h; split at h <;> simp_all [Pc.locals?]
  | cons d ds => simp_all [metaLoop, Pc.locals?]

/-- The locals after a statement are those before it, or the project was just loaded. -/
theorem step_locals {ok : Bool} {w : World} {pc : Pc} {l : Locals}
    (h : (step P ok w pc).1.locals? = some l) :
    pc.locals? = some l ∨ pc = .loadProject l.job l.depl ∧ w.projects l.depl.projectId = some l.proj := by
  cases ok
  · obtain ⟨r, failed⟩ := step_false (P := P) w pc
    rw [failed] at h; cases h
  cases pc <;> simp only [step, ↓reduceIte] at h <;> (repeat' split at h) <;> simp_all [Pc.locals?]
  all_goals first
    | exact (metaLoop_locals h).symm
    | (obtain rfl := lockCheck_locals h; simp)
    | (obtain rfl := afterLoad_locals h; simp_all)

theorem lockCheck_ne_loadProject (l : Locals) (job : DeployJobData) (depl : Deployment) :
    lockCheck l ≠ .loadProject job depl := by
  unfold lockCheck; split <;> simp

theorem afterLoad_ne_loadProject (l : Locals) (job : DeployJobData) (depl : Deployment) :
    afterLoad l ≠ .loadProject job depl := by
  unfold afterLoad; split
  · exact lockCheck_ne_loadProject l job depl
  · split <;> simp

theorem metaLoop_ne_loadProject (l : Locals) (names : List String) (r : Reader) (ds : List String)
    (job : DeployJobData) (depl : Deployment) : metaLoop l names r ds ≠ .loadProject job depl := by
  cases ds with
  | nil => simp only [metaLoop, afterMeta]; split <;> simp
  | cons d ds => simp [metaLoop]

/-- A deployment is read only by `db.First` on the job's deployment id. -/
theorem step_loadProject {ok : Bool} {w : World} {pc : Pc} {job : DeployJobData} {depl : Deployment}
    (h : (step P ok w pc).1 = .loadProject job depl) :
    pc = .loadDeployment job ∧ w.deployments job.deploymentId = some depl := by
  cases ok
  · obtain ⟨r, failed⟩ := step_false (P := P) w pc
    rw [failed] at h; cases h
  cases pc <;> simp only [step, ↓reduceIte] at h <;> (repeat' split at h) <;>
    simp_all [lockCheck_ne_loadProject, afterLoad_ne_loadProject, metaLoop_ne_loadProject]

/-- The deployment row a run of `Work` has read, once it has. -/
def Pc.depl? (pc : Pc) : Option Deployment :=
  match pc with
  | .loadProject _ depl => some depl
  | _ => pc.locals?.map (·.depl)

theorem depl?_of_locals {pc : Pc} {l : Locals} (h : pc.locals? = some l) : pc.depl? = some l.depl := by
  cases pc <;> simp_all [Pc.locals?, Pc.depl?]

/-- The deployment a run holds after a statement is the one it held, or the row it just
read by the job's deployment id. -/
theorem step_depl {ok : Bool} {w : World} {pc : Pc} {d : Deployment}
    (h : (step P ok w pc).1.depl? = some d) :
    pc.depl? = some d ∨ ∃ job, pc = .loadDeployment job ∧ w.deployments job.deploymentId = some d ∧
      (step P ok w pc).1 = .loadProject job d := by
  by_cases load : ∃ job depl, (step P ok w pc).1 = .loadProject job depl
  · obtain ⟨job, depl, loaded⟩ := load
    rw [loaded] at h
    obtain rfl : depl = d := Option.some.inj h
    obtain ⟨rfl, read⟩ := step_loadProject loaded
    exact .inr ⟨job, rfl, read, loaded⟩
  · have held : ∃ l, (step P ok w pc).1.locals? = some l ∧ l.depl = d := by
      generalize (step P ok w pc).1 = pc' at h load
      cases pc' <;> simp_all [Pc.depl?, Pc.locals?]
    obtain ⟨l, held, rfl⟩ := held
    rcases step_locals held with carried | ⟨rfl, -⟩
    · exact .inl (depl?_of_locals carried)
    · exact .inl rfl

/-- The statements one run of `Work` takes, whatever the rest of the system does to the
world between them. -/
def ThreadRuns (P : Platform) : Pc → Pc → Prop :=
  Relation.ReflTransGen fun pc pc' => ∃ ok w, (step P ok w pc).1 = pc'

theorem threadRuns_checked {data : JsonValue} {pc : Pc} (h : ThreadRuns P (.start data) pc) :
    pc.Checked := by
  induction h with
  | refl => trivial
  | tail _ moved ih =>
    obtain ⟨ok, w, rfl⟩ := moved
    exact step_checked ih ok w

/-- The statements of one run of `Work` with the effects each applies, whatever the rest
of the system does to the world between them. -/
inductive ThreadTrace (P : Platform) : Pc → List Effect → Pc → Prop
  | refl (pc : Pc) : ThreadTrace P pc [] pc
  | tail {pc pc' : Pc} {es es' : List Effect} (ok : Bool) (w : World) :
      ThreadTrace P pc es pc' → (step P ok w pc').2 = w.applyAll es' →
        ThreadTrace P pc (es ++ es') (step P ok w pc').1

/-- `n` statements of `Work` with no other process between them, every call succeeding. -/
def okIter (P : Platform) : Nat → Pc × World → Pc × World
  | 0, s => s
  | n + 1, s => okIter P n (step P true s.2 s.1)

theorem threadRuns_okIter (n : Nat) (s : Pc × World) : ThreadRuns P s.1 (okIter P n s).1 := by
  induction n generalizing s with
  | zero => exact .refl
  | succ n ih => exact Relation.ReflTransGen.head ⟨true, s.2, rfl⟩ (ih _)

/-! ### The spec's scenario A -/

/-- Deployment 42 of project `foo`, prefix `ab12`, built from a raw bundle holding
`index.html`, in the given state. -/
def scenarioDeployment (state : DeploymentState) : Deployment :=
  ⟨42, 1, 7, "ab12", 1, state, 0, none⟩

def scenarioProject : Project := ⟨1, "foo", 7, none, none, false, true⟩

def scenarioPlatform : Platform :=
  ⟨fun _ => [⟨"index.html", false, "<h1>foo</h1>"⟩],
    fun ext => if ext = ".html" then "text/html; charset=utf-8" else ""⟩

def scenarioWorld (state : DeploymentState) : World where
  deployments i := if i = 42 then some (scenarioDeployment state) else none
  projects i := if i = 1 then some scenarioProject else none
  domains := []
  users i := if i = 7 then some ⟨7⟩ else none
  nextDeploymentId := 43
  prefixDefault _ := "ab12"
  versionDefault _ := 1
  projectByName n := if n = "foo" then some 1 else none
  maxUploadSize := 1024 * 1024 * 1000
  store k := if k = "deployments/ab12-42/raw-bundle.tar.gz" then some ⟨"tar", "application/gzip", "private"⟩
    else none
  deployQueue := []
  clock := 0
  journal := []

/-- The Deploy job of scenario A. -/
def scenarioJob : DeployJobData := { deploymentId := 42, useRawBundle := true }

def scenarioLocals (state : DeploymentState) : Locals :=
  ⟨scenarioJob, scenarioDeployment state, scenarioProject⟩

theorem scenario_reaches_commit (state : DeploymentState)
    (ready : state = .pendingBuild ∨ state = .pendingDeploy ∨ state = .failed) :
    ThreadRuns scenarioPlatform (.start scenarioJob.toJson) (.commit (scenarioLocals state) 0) := by
  have run := threadRuns_okIter (P := scenarioPlatform) 13 (.start scenarioJob.toJson, scenarioWorld state)
  rcases ready with rfl | rfl | rfl <;> exact run

/-- Whatever the other workers do, a run of `Work` that reaches its commit read the
deployment in a state other than `uploaded` and `pending_upload`, and other than `deployed`
unless the job skips the webroot upload. The commit writes `deployed` whatever that state
was, so `pending_build`, `pending_deploy` and `failed` can all go straight to `deployed`. -/
theorem commit_read_state_checked {data : JsonValue} {l : Locals} {now : Nat}
    (h : ThreadRuns P (.start data) (.commit l now)) :
    l.depl.state ≠ .uploaded ∧ l.depl.state ≠ .pendingUpload ∧
      (l.job.skipWebrootUpload = false → l.depl.state ≠ .deployed) :=
  (threadRuns_checked h).1

theorem commit_read_state_checked_pendingDeploy :
    (scenarioLocals .pendingDeploy).depl.state ≠ .uploaded ∧
      (scenarioLocals .pendingDeploy).depl.state ≠ .pendingUpload ∧
      ((scenarioLocals .pendingDeploy).job.skipWebrootUpload = false →
        (scenarioLocals .pendingDeploy).depl.state ≠ .deployed) :=
  commit_read_state_checked (scenario_reaches_commit .pendingDeploy (by decide))

/-- A job without `skip_webroot_upload` for a deployment still in `pending_build` reaches the
commit, which moves it to `deployed`. -/
theorem pendingBuild_reaches_commit :
    ThreadRuns scenarioPlatform (.start scenarioJob.toJson) (.commit (scenarioLocals .pendingBuild) 0) ∧
      (scenarioLocals .pendingBuild).depl.state = .pendingBuild ∧
      (scenarioLocals .pendingBuild).job.skipWebrootUpload = false ∧
      ((step scenarioPlatform true (scenarioWorld .pendingBuild)
        (.commit (scenarioLocals .pendingBuild) 0)).2.deployments 42).map (·.state) = some .deployed :=
  ⟨scenario_reaches_commit .pendingBuild (by decide), rfl, rfl, rfl⟩

end Pubstorm.Deployer
