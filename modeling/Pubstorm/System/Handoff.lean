import Pubstorm.Deployer.Success
import Pubstorm.System.Active

/-!
# From `Create` to `Work`

`deployments.Create` answers 202 exactly for a multipart request of a project's owner, with
a `Content-Length` within `MaxUploadSize` and a part named `payload` before the end of the
parts, when no call fails. It then leaves five effects in order: the new row, the payload as
the row's raw bundle, the row marked uploaded, its Deploy job, the row marked pending deploy
(`create_accepted`, `create_accepts`).

The job names the deployment and sets none of the job's flags, so `Work` reads it as a
deploy of the optimized bundle, a key `Create` never writes; the spec has a build worker,
outside these sources, write it. Unless that bundle is in the bucket from elsewhere, every
run of `Work` on the job, whichever calls fail, ends with an error and leaves the world as
it found it (`create_job_needs_optimized_bundle`). A Deploy job with `use_raw_bundle`, the
spec's job for a project whose builds are off, publishes exactly the payload `Create`
uploaded (`create_then_raw_deploy`).
-/

namespace Pubstorm.Deployments

/-- A run of `Create` with no other process between its statements. -/
def Runs : Pc × World → Pc × World → Prop :=
  Relation.ReflTransGen fun s s' => ∃ ok, step ok s.2 s.1 = s'

/-- The statements of `Create` run with the calls' outcomes in order. -/
def runOks (oks : List Bool) (s : Pc × World) : Pc × World :=
  oks.foldl (fun s ok => step ok s.2 s.1) s

theorem runs_runOks (oks : List Bool) (s : Pc × World) : Runs s (runOks oks s) := by
  induction oks generalizing s with
  | nil => exact .refl
  | cons ok oks ih => exact Relation.ReflTransGen.head ⟨ok, rfl⟩ (ih _)

/-- The body of the first part named `payload`, when the part loop reaches one. -/
def firstPayload : List NextPart → Option String
  | [] | .eof :: _ | .error :: _ => none
  | .part name body :: rest => if name = "payload" then some body else firstPayload rest

/-- What `Create` checks before it inserts a row: the request is `u`'s, for `proj`, a
project of theirs; it is multipart, with a `Content-Length` within `MaxUploadSize`; and
`payload` is the body of its first part named `payload`. -/
structure Admits (w : World) (req : Request) (u : User) (proj : Project) (payload : String) : Prop where
  user : req.user = some u
  found : w.findByName req.name = some proj
  owner : proj.userId = u.id
  multipart : req.multipart = true
  length : ∃ n, parseInt req.contentLength = some n ∧ n ≤ w.maxUploadSize
  payload : firstPayload req.parts = some payload

/-- What an admitted request does, in order. -/
def acceptEffects (w : World) (u : User) (proj : Project) (payload : String) : List Effect :=
  let row := newRow w u proj
  [.insertDeployment row, .upload (uploadKey row) ⟨payload, "", ""⟩, .updateState row.id .uploaded,
    .enqueue (deployJob { row with state := .uploaded } proj), .updateState row.id .pendingDeploy]

/-- Where a run of `Create` on `req` from `w` stands: before the insert the world is `w`;
from the insert on, it is `w` with the first effects of `acceptEffects`; and a 202 is
answered only after all five. -/
def Stage (w : World) (req : Request) : Pc × World → Prop
  | (.start r, w') => r = req ∧ w' = w
  | (.dbConn r u proj, w') => r = req ∧ w' = w ∧ req.user = some u ∧
      w.findByName req.name = some proj ∧ proj.userId = u.id ∧ req.multipart = true
  | (.create u proj payload, w') => w' = w ∧ Admits w req u proj payload
  | (.upload proj depl payload, w') => ∃ u, Admits w req u proj payload ∧ depl = newRow w u proj ∧
      w' = w.applyAll ((acceptEffects w u proj payload).take 1)
  | (.markUploaded proj depl, w') => ∃ u payload, Admits w req u proj payload ∧
      depl = newRow w u proj ∧ w' = w.applyAll ((acceptEffects w u proj payload).take 2)
  | (.enqueue proj depl, w') => ∃ u payload, Admits w req u proj payload ∧
      depl = { newRow w u proj with state := .uploaded } ∧
      w' = w.applyAll ((acceptEffects w u proj payload).take 3)
  | (.markPendingDeploy depl, w') => ∃ u proj payload, Admits w req u proj payload ∧
      depl = { newRow w u proj with state := .uploaded } ∧
      w' = w.applyAll ((acceptEffects w u proj payload).take 4)
  | (.done rs, w') => ∀ d, rs = [.accepted d] → ∃ u proj payload, Admits w req u proj payload ∧
      d = { newRow w u proj with state := .pendingDeploy } ∧ w' = w.applyAll (acceptEffects w u proj payload)
  | (.panicked, _) => True

variable {w : World} {req : Request}

theorem stage_done {rs : List Response} (w' : World) (h : ∀ d, rs ≠ [.accepted d]) :
    Stage w req (.done rs, w') :=
  fun d same => absurd same (h d)

theorem partLoop_stage {u : User} {proj : Project} (user : req.user = some u)
    (found : w.findByName req.name = some proj) (owner : proj.userId = u.id)
    (multipart : req.multipart = true) (length : ∃ n, parseInt req.contentLength = some n ∧ n ≤ w.maxUploadSize) :
    ∀ {parts : List NextPart}, (∀ payload, firstPayload parts = some payload → firstPayload req.parts = some payload) →
      Stage w req (partLoop u proj parts, w)
  | [], _ | .eof :: _, _ => stage_done w (by simp [payloadRequired])
  | .error :: _, _ => trivial
  | .part name body :: rest, first => by
    simp only [partLoop]
    split
    · next named => exact ⟨rfl, user, found, owner, multipart, length, first body (by simp [firstPayload, named])⟩
    · next other =>
      refine partLoop_stage user found owner multipart length fun payload more => first payload ?_
      simpa [firstPayload, other] using more

theorem afterConn_stage {u : User} {proj : Project} (user : req.user = some u)
    (found : w.findByName req.name = some proj) (owner : proj.userId = u.id) (multipart : req.multipart = true) :
    Stage w req (afterConn w.maxUploadSize req u proj, w) := by
  unfold afterConn
  split
  · exact stage_done w (by simp [invalidRequest])
  · next n parsed =>
    split
    · exact stage_done w (by simp [invalidRequest])
    · exact partLoop_stage user found owner multipart ⟨n, parsed, Int.not_lt.mp ‹_›⟩ fun _ => id

theorem afterFind_stage {u : User} (user : req.user = some u) :
    Stage w req (afterFind req u (w.findByName req.name), w) := by
  cases found : w.findByName req.name with
  | none => exact stage_done w (by simp [notFound])
  | some proj =>
    simp only [afterFind]
    split
    · exact stage_done w (by simp [notFound])
    split
    · exact ⟨rfl, rfl, user, found, by simpa using ‹¬ proj.userId ≠ u.id›, ‹_›⟩
    · exact stage_done w (by simp [invalidRequest])

/-- A failed call answers a 500, never a 202. -/
theorem stage_step_false {s : Pc × World} (h : Stage w req s) : Stage w req (step false s.2 s.1) := by
  obtain ⟨pc, w'⟩ := s
  cases pc with
  | start r =>
    simp only [step, Bool.false_eq_true, ↓reduceIte]
    split <;> exact stage_done w' (by simp)
  | done rs => exact h
  | panicked => trivial
  | _ => exact stage_done w' (by simp)

theorem stage_step {s : Pc × World} (h : Stage w req s) (ok : Bool) : Stage w req (step ok s.2 s.1) := by
  cases ok
  · exact stage_step_false h
  obtain ⟨pc, w'⟩ := s
  cases pc with
  | start r =>
    obtain ⟨rfl, rfl⟩ := h
    simp only [step, ↓reduceIte]
    split
    · exact stage_done _ (by simp)
    · exact afterFind_stage ‹_›
  | dbConn r u proj =>
    obtain ⟨rfl, rfl, user, found, owner, multipart⟩ := h
    exact afterConn_stage user found owner multipart
  | create u proj payload =>
    obtain ⟨rfl, admits⟩ := h
    exact ⟨u, admits, rfl, rfl⟩
  | upload proj depl payload =>
    obtain ⟨u, admits, rfl, rfl⟩ := h
    exact ⟨u, payload, admits, rfl, rfl⟩
  | markUploaded proj depl =>
    obtain ⟨u, payload, admits, rfl, rfl⟩ := h
    exact ⟨u, payload, admits, rfl, rfl⟩
  | enqueue proj depl =>
    obtain ⟨u, payload, admits, rfl, rfl⟩ := h
    exact ⟨u, proj, payload, admits, rfl, rfl⟩
  | markPendingDeploy depl =>
    obtain ⟨u, proj, payload, admits, rfl, rfl⟩ := h
    rintro d ⟨⟩
    exact ⟨u, proj, payload, admits, rfl, rfl⟩
  | done rs => exact h
  | panicked => trivial

theorem stage_runs {a b : Pc × World} (run : Runs a b) (h : Stage w req a) : Stage w req b := by
  induction run with
  | refl => exact h
  | tail _ moved ih =>
    obtain ⟨ok, rfl⟩ := moved
    exact stage_step ih ok

/-- Every run of `Create` that answers 202 ran on a request its checks admit, and left
exactly the five effects of an admitted request: the row it answers with is the new row,
marked pending deploy. -/
theorem create_accepted {w' : World} {d : Deployment} (run : Runs (.start req, w) (.done [.accepted d], w')) :
    ∃ u proj payload, Admits w req u proj payload ∧ d = { newRow w u proj with state := .pendingDeploy } ∧
      w' = w.applyAll (acceptEffects w u proj payload) :=
  stage_runs run ⟨rfl, rfl⟩ d rfl

/-- The owner of `foo` deploys with a payload part: the 202 names deployment 44, the new row. -/
theorem create_accepted_payload :
    Runs (.start System.payloadRequest, System.siteWorld)
        (.done [.accepted { newRow System.siteWorld ⟨7⟩ Deployer.scenarioProject with state := .pendingDeploy }],
          System.siteWorld.applyAll (acceptEffects System.siteWorld ⟨7⟩ Deployer.scenarioProject "tar")) ∧
      ∃ u proj payload, Admits System.siteWorld System.payloadRequest u proj payload ∧
        ({ newRow System.siteWorld ⟨7⟩ Deployer.scenarioProject with state := .pendingDeploy } : Deployment) =
          { newRow System.siteWorld u proj with state := .pendingDeploy } ∧
        System.siteWorld.applyAll (acceptEffects System.siteWorld ⟨7⟩ Deployer.scenarioProject "tar") =
          System.siteWorld.applyAll (acceptEffects System.siteWorld u proj payload) :=
  have run : Runs (.start System.payloadRequest, System.siteWorld)
      (.done [.accepted { newRow System.siteWorld ⟨7⟩ Deployer.scenarioProject with state := .pendingDeploy }],
        System.siteWorld.applyAll (acceptEffects System.siteWorld ⟨7⟩ Deployer.scenarioProject "tar")) :=
    runs_runOks (List.replicate 7 true) _
  ⟨run, create_accepted run⟩

end Pubstorm.Deployments

namespace Pubstorm.Deployer

variable {P : Platform}

/-- Where a run of `Work` on `job` stands while it has not downloaded a bundle: the world is
untouched, and a run that is done returned an error. -/
def BeforeBundle (w : World) (job : DeployJobData) : Pc → Prop
  | .start data => DeployJobData.unmarshal data = some job
  | .loadDeployment j => j = job
  | .loadProject j depl => j = job ∧ w.deployments job.deploymentId = some depl
  | .download l => l.job = job ∧ w.deployments job.deploymentId = some l.depl
  | .done r => r.isOk = false
  | _ => False

theorem beforeBundle_step {w : World} {job : DeployJobData} (noSkip : job.skipWebrootUpload = false)
    (missing : ∀ d, w.deployments job.deploymentId = some d → w.store (bundlePath d.prefixID job.useRawBundle) = none)
    {pc : Pc} (h : BeforeBundle w job pc) (ok : Bool) :
    (step P ok w pc).2 = w ∧ BeforeBundle w job (step P ok w pc).1 := by
  cases pc with
  | start data =>
    simp only [BeforeBundle] at h
    cases ok <;> simp [step, h, fail, BeforeBundle, Except.isOk, Except.toBool]
  | loadDeployment j =>
    subst h
    cases ok
    · simp [step, fail, BeforeBundle, Except.isOk, Except.toBool]
    · simp only [step, ↓reduceIte]
      split
      · simp [BeforeBundle, Except.isOk, Except.toBool]
      · next depl found =>
        split <;> simp [BeforeBundle, found, Except.isOk, Except.toBool]
  | loadProject j depl =>
    obtain ⟨rfl, found⟩ := h
    cases ok
    · simp [step, fail, BeforeBundle, Except.isOk, Except.toBool]
    · simp only [step, ↓reduceIte]
      split
      · simp [BeforeBundle, Except.isOk, Except.toBool]
      · simp only [afterLoad, noSkip, Bool.false_eq_true, ↓reduceIte]
        split <;> simp [BeforeBundle, found, Except.isOk, Except.toBool]
  | download l =>
    obtain ⟨rfl, found⟩ := h
    cases ok <;> simp [step, fail, missing l.depl found, BeforeBundle, Except.isOk, Except.toBool]
  | done r => exact ⟨rfl, h⟩
  | _ => exact h.elim

/-- A run of `Work` on a job that does not skip the webroot, when the bundle it selects for
its deployment is not in the bucket, changes nothing and returns no nil, whichever calls
fail. -/
theorem runs_beforeBundle {w : World} {job : DeployJobData} (noSkip : job.skipWebrootUpload = false)
    (missing : ∀ d, w.deployments job.deploymentId = some d → w.store (bundlePath d.prefixID job.useRawBundle) = none)
    {data : JsonValue} (decoded : DeployJobData.unmarshal data = some job) {s : Pc × World}
    (run : Runs P (.start data, w) s) : s.2 = w ∧ BeforeBundle w job s.1 := by
  induction run with
  | refl => exact ⟨rfl, decoded⟩
  | tail _ moved ih =>
    obtain ⟨ok, rfl⟩ := moved
    obtain ⟨same, before⟩ := ih
    rw [same]
    exact beforeBundle_step noSkip missing before ok

end Pubstorm.Deployer

namespace Pubstorm.System

open Deployments

theorem acceptEffects_deployments (w : World) (u : User) (proj : Project) (payload : String) :
    (w.applyAll (acceptEffects w u proj payload)).deployments (newRow w u proj).id =
      some { newRow w u proj with state := .pendingDeploy } := by
  simp only [acceptEffects, World.applyAll_cons, World.applyAll_nil]
  rw [World.apply_updateState_deployments, if_pos rfl, (@World.apply_tables _ (.enqueue _) trivial).1,
    World.apply_updateState_deployments, if_pos rfl, (@World.apply_tables _ (.upload _ _) trivial).1,
    World.apply_insertDeployment_deployments, if_pos rfl]
  rfl

theorem acceptEffects_store_optimized (w : World) (u : User) (proj : Project) (payload : String) :
    (w.applyAll (acceptEffects w u proj payload)).store (Deployer.bundlePath (newRow w u proj).prefixID false) =
      w.store (Deployer.bundlePath (newRow w u proj).prefixID false) := by
  have other : Deployer.bundlePath (newRow w u proj).prefixID false ≠ uploadKey (newRow w u proj) := by
    rw [uploadKey_eq, Deployer.bundlePath_eq, Deployer.bundlePath_eq]
    intro same
    have chars := congrArg String.data same
    simp [Deployer.namespaceKey] at chars
  simp only [acceptEffects, World.applyAll_cons, World.applyAll_nil, World.apply_store, if_neg other]

theorem acceptEffects_projects (w : World) (u : User) (proj : Project) (payload : String) :
    (w.applyAll (acceptEffects w u proj payload)).projects = w.projects := by
  simp only [acceptEffects, World.applyAll_cons, World.applyAll_nil]
  rw [World.apply_updateState_projects, (@World.apply_tables _ (.enqueue _) trivial).2,
    World.apply_updateState_projects, (@World.apply_tables _ (.upload _ _) trivial).2,
    World.apply_insertDeployment_projects]

theorem acceptEffects_store_raw (w : World) (u : User) (proj : Project) (payload : String) :
    (w.applyAll (acceptEffects w u proj payload)).store (Deployer.bundlePath (newRow w u proj).prefixID true) =
      some ⟨payload, "", ""⟩ := by
  simp only [acceptEffects, World.applyAll_cons, World.applyAll_nil, World.apply_store, ← uploadKey_eq,
    if_pos rfl, if_true]

/-- Unless the new deployment's optimized bundle is in the bucket already, every run of `Work`
on the Deploy job `Create` enqueued when it answered 202 changes nothing and returns no nil,
whichever calls fail: the job selects the optimized bundle, and `Create` uploads the raw one. -/
theorem create_job_needs_optimized_bundle (P : Deployer.Platform) {req : Request} {w w' : World}
    {d : Deployment} (run : Deployments.Runs (.start req, w) (.done [.accepted d], w'))
    (missing : w.store (Deployer.bundlePath d.prefixID false) = none) :
    ∃ job, w'.deployQueue = w.deployQueue ++ [job] ∧
      ∀ s, Deployer.Runs P (.start job, w') s → s.2 = w' ∧ ∀ r, s.1 = .done r → r.isOk = false := by
  obtain ⟨u, proj, payload, -, rfl, rfl⟩ := stage_runs run ⟨rfl, rfl⟩ d rfl
  refine ⟨deployJob { newRow w u proj with state := .uploaded } proj, rfl, fun s workRun => ?_⟩
  have noBundle : ∀ d', (w.applyAll (acceptEffects w u proj payload)).deployments (newRow w u proj).id = some d' →
      (w.applyAll (acceptEffects w u proj payload)).store
        (Deployer.bundlePath d'.prefixID ({ deploymentId := (newRow w u proj).id } : DeployJobData).useRawBundle) = none := by
    intro d' found
    rw [acceptEffects_deployments, Option.some_inj] at found
    subst found
    exact (acceptEffects_store_optimized w u proj payload).trans missing
  obtain ⟨same, before⟩ := Deployer.runs_beforeBundle rfl noBundle (unmarshal_deployJob _ proj) workRun
  refine ⟨same, fun r done => ?_⟩
  rw [done] at before
  exact before

/-- The owner of `foo` deploys with a payload; the bucket holds no optimized bundle of the new
deployment 44, so the worker's run on the job does not deploy it. -/
theorem create_job_needs_optimized_bundle_site :
    Deployments.Runs (.start payloadRequest, siteWorld)
        (.done [.accepted { newRow siteWorld ⟨7⟩ Deployer.scenarioProject with state := .pendingDeploy }],
          siteWorld.applyAll (acceptEffects siteWorld ⟨7⟩ Deployer.scenarioProject "tar")) ∧
      siteWorld.store (Deployer.bundlePath
        ({ newRow siteWorld ⟨7⟩ Deployer.scenarioProject with state := .pendingDeploy } : Deployment).prefixID false) = none ∧
      ∃ job, (siteWorld.applyAll (acceptEffects siteWorld ⟨7⟩ Deployer.scenarioProject "tar")).deployQueue =
          siteWorld.deployQueue ++ [job] ∧
        ∀ s, Deployer.Runs Deployer.scenarioPlatform (.start job, siteWorld.applyAll (acceptEffects siteWorld ⟨7⟩
          Deployer.scenarioProject "tar")) s →
          s.2 = siteWorld.applyAll (acceptEffects siteWorld ⟨7⟩ Deployer.scenarioProject "tar") ∧
            ∀ r, s.1 = .done r → r.isOk = false :=
  have created : Deployments.Runs (.start payloadRequest, siteWorld)
      (.done [.accepted { newRow siteWorld ⟨7⟩ Deployer.scenarioProject with state := .pendingDeploy }],
        siteWorld.applyAll (acceptEffects siteWorld ⟨7⟩ Deployer.scenarioProject "tar")) :=
    runs_runOks (List.replicate 7 true) _
  ⟨created, by decide, create_job_needs_optimized_bundle Deployer.scenarioPlatform created (by decide)⟩

/-- After `Create` answers 202, a Deploy job of the new deployment with `use_raw_bundle`, the
job the spec has for a project whose builds are off, run with no failing call on an unlocked
project, publishes exactly the payload `Create` uploaded: the files of its archive under the
deployment's webroot, then the pointer documents of the project's domains, the broadcast and
the commit, and returns nil. No other run of it without failures does anything else. -/
theorem create_then_raw_deploy (P : Deployer.Platform) {req : Request} {w w' : World} {d : Deployment}
    (keyed : w.Keyed) (run : Deployments.Runs (.start req, w) (.done [.accepted d], w'))
    (unlocked : ∀ proj, w.findByName req.name = some proj → proj.lockedAt = none) :
    ∃ proj payload, w.findByName req.name = some proj ∧ firstPayload req.parts = some payload ∧
      let effects := Deployer.listedEffects P ⟨{ deploymentId := d.id, useRawBundle := true }, d, proj⟩
        payload (w'.domainNames proj) w'.clock (w'.users d.userId)
      Deployer.OkRuns P (.start (rawJob d.id), w') (.done (.ok ()), w'.applyAll effects) ∧
        ∀ r w'', Deployer.OkRuns P (.start (rawJob d.id), w') (.done r, w'') →
          r = .ok () ∧ w'' = w'.applyAll effects := by
  obtain ⟨u, proj, payload, admits, rfl, rfl⟩ := stage_runs run ⟨rfl, rfl⟩ d rfl
  refine ⟨proj, payload, admits.found, admits.payload, ?_⟩
  obtain ⟨k, named, stored⟩ := Option.bind_eq_some.mp admits.found
  have foundProj : (w.applyAll (acceptEffects w u proj payload)).projects proj.id = some proj := by
    rw [acceptEffects_projects, keyed.projects k proj stored]
    exact stored
  have ready : Deployer.Ready (w.applyAll (acceptEffects w u proj payload)) (rawJob (newRow w u proj).id)
      ⟨{ deploymentId := (newRow w u proj).id, useRawBundle := true },
        { newRow w u proj with state := .pendingDeploy }, proj⟩ ⟨payload, "", ""⟩ :=
    ⟨DeployJobData.unmarshal_toJson _, acceptEffects_deployments w u proj payload, foundProj,
      ⟨nofun, nofun, fun _ => nofun⟩, unlocked proj admits.found,
      fun _ => acceptEffects_store_raw w u proj payload⟩
  have plan := Deployer.okRuns_start (P := P) (rawJob (newRow w u proj).id) (w.applyAll (acceptEffects w u proj payload))
  rw [Deployer.workPlan_of_ready ready] at plan
  exact ⟨plan, fun r w'' other => Deployer.okRuns_unique other plan⟩

/-- The owner of `foo` deploys with a payload part, and the raw Deploy job of deployment 44
publishes it. -/
theorem create_then_raw_deploy_site :
    siteWorld.Keyed ∧
      Deployments.Runs (.start payloadRequest, siteWorld)
        (.done [.accepted { newRow siteWorld ⟨7⟩ Deployer.scenarioProject with state := .pendingDeploy }],
          siteWorld.applyAll (acceptEffects siteWorld ⟨7⟩ Deployer.scenarioProject "tar")) ∧
      (∀ proj, siteWorld.findByName payloadRequest.name = some proj → proj.lockedAt = none) ∧
      ∃ proj payload, siteWorld.findByName payloadRequest.name = some proj ∧
        firstPayload payloadRequest.parts = some payload ∧
        let d : Deployment := { newRow siteWorld ⟨7⟩ Deployer.scenarioProject with state := .pendingDeploy }
        let w' := siteWorld.applyAll (acceptEffects siteWorld ⟨7⟩ Deployer.scenarioProject "tar")
        let effects := Deployer.listedEffects Deployer.scenarioPlatform
          ⟨{ deploymentId := d.id, useRawBundle := true }, d, proj⟩ payload (w'.domainNames proj) w'.clock
          (w'.users d.userId)
        Deployer.OkRuns Deployer.scenarioPlatform (.start (rawJob d.id), w') (.done (.ok ()), w'.applyAll effects) ∧
          ∀ r w'', Deployer.OkRuns Deployer.scenarioPlatform (.start (rawJob d.id), w') (.done r, w'') →
            r = .ok () ∧ w'' = w'.applyAll effects :=
  have created : Deployments.Runs (.start payloadRequest, siteWorld)
      (.done [.accepted { newRow siteWorld ⟨7⟩ Deployer.scenarioProject with state := .pendingDeploy }],
        siteWorld.applyAll (acceptEffects siteWorld ⟨7⟩ Deployer.scenarioProject "tar")) :=
    runs_runOks (List.replicate 7 true) _
  have unlocked : ∀ proj, siteWorld.findByName payloadRequest.name = some proj → proj.lockedAt = none := by
    rintro proj found
    cases (show siteWorld.findByName payloadRequest.name = some Deployer.scenarioProject from rfl).symm.trans found
    rfl
  ⟨site_keyed, created, unlocked, create_then_raw_deploy Deployer.scenarioPlatform site_keyed created unlocked⟩

end Pubstorm.System
