import Pubstorm.Deployer.Redelivery
import Pubstorm.System.Active

/-!
# Pointer documents and the active deployment

`Work` uploads the pointer documents of its project's domains, and commits the project's
`active_deployment_id` later, in a transaction of its own. A run that returns nil with no
other run in between leaves the two naming its deployment, so runs of one project one after
another end in agreement. Two runs of one project at once need not: the run that uploads
the pointer documents last need not be the one that commits last.

The lock check before the pointer documents looks at the project row `Work` loaded at its
start, so a lock committed after that load, even during the webroot upload, does not stop
the run from publishing.
-/

namespace Pubstorm.System

open Deployer

variable {P : Platform}

/-! ### One run alone -/

/-- After the run without failures the pointer document of each of its domain names names
its prefix: the webroot uploads are in the deployment's namespace, and every pointer
document it uploads is the same. -/
theorem listedEffects_meta {w : World} {l : Locals} {body : String} {names : List String} {now : Nat}
    {user : Option User} {name : String} (mem : name ∈ names) :
    (w.applyAll (listedEffects P l body names now user)).store (metaKey name) =
      some ⟨metaJson l.depl.prefixID l.proj.forceHTTPS, "application/json", "public-read"⟩ := by
  refine applyAll_store_of_uploads ?_ fun o up => ?_
  · simp only [listedEffects, List.mem_append, List.mem_map]
    exact .inl (.inl (.inr ⟨name, mem, rfl⟩))
  · simp only [listedEffects, List.mem_append, List.mem_cons] at up
    rcases up with ((webroot | meta) | published) | committed | tracked
    · split at webroot
      · cases webroot
      · rcases List.mem_cons.mp webroot with downloaded | uploaded
        · cases downloaded
        · obtain ⟨e, -, same⟩ := List.mem_map.mp uploaded
          exact absurd ((remotePath_eq _ _).symm.trans (Effect.upload.inj same).1).symm
            (metaKey_ne_namespaceKey _ _ _)
    · obtain ⟨_, -, same⟩ := List.mem_map.mp meta
      exact (Effect.upload.inj same).2.symm
    · split at published <;> simp at published
    · cases committed
    · cases user <;> simp at tracked

/-- A run of `Work` alone for a deployment of project `pid` that returns nil leaves the
project pointing at its deployment, and the pointer document of each of the project's
domain names naming that deployment's prefix. -/
theorem run_pointers_agree {data : JsonValue} {w w' : World} {pid : Nat} (keyed : w.Keyed)
    (belongs : ∀ job d, DeployJobData.unmarshal data = some job → w.deployments job.deploymentId = some d →
      d.projectId = pid)
    (run : Runs P (.start data, w) (.done (.ok ()), w')) :
    ∀ p, w'.projects pid = some p → ∃ d, p.activeDeploymentId = some d.id ∧ w'.deployments d.id = some d ∧
      ∀ name ∈ w'.domainNames p,
        w'.store (metaKey name) = some ⟨metaJson d.prefixID p.forceHTTPS, "application/json", "public-read"⟩ := by
  obtain ⟨es, rest, planned, rfl, returned⟩ := runs_prefix run
  obtain ⟨nil, tracks⟩ := returned rfl
  obtain ⟨l, bundle, ready⟩ := ready_of_workPlan nil
  rw [workPlan_of_ready ready] at planned
  obtain ⟨store, deployments, projects⟩ := applyAll_tracks (w := w.applyAll es) tracks
  rw [← World.applyAll_append, planned] at store deployments projects
  obtain ⟨rows, projs⟩ := listedEffects_tables (P := P) w l bundle.body (w.domainNames l.proj) w.clock
    (w.users l.depl.userId)
  have sameProj : l.proj.id = pid :=
    (keyed.projects _ _ ready.foundProj).trans (belongs _ _ ready.decoded ready.found)
  have projFound : w.projects l.proj.id = some l.proj := by
    rw [keyed.projects _ _ ready.foundProj]; exact ready.foundProj
  have committed : (w.applyAll es).deployments l.depl.id =
      some { l.depl with state := .deployed, deployedAt := some w.clock } := by
    rw [← deployments, rows, World.apply_activate_deployments, if_pos rfl, keyed.deployments _ _ ready.found,
      ready.found]
    rfl
  intro p found
  rw [← projects, projs, World.apply_activate_projects, if_pos sameProj.symm, ← sameProj, projFound] at found
  obtain rfl := (Option.some.inj found).symm
  refine ⟨{ l.depl with state := .deployed, deployedAt := some w.clock }, rfl, committed, fun name mem => ?_⟩
  have names : (w.applyAll es).domainNames { l.proj with activeDeploymentId := some l.depl.id } =
      w.domainNames l.proj := by
    simp only [World.domainNames, World.applyAll_domains]; rfl
  rw [← store]
  exact listedEffects_meta (names ▸ mem)

/-! ### Runs one after another -/

variable (P) in
/-- Runs of `Work` for deployments of project `pid`, each starting when the one before has
returned nil, time passing before each. Nothing else writes in between: the domains stay,
and the project is not locked. -/
inductive Serial (pid : Nat) : World → List JsonValue → World → Prop
  | nil (w : World) : Serial pid w [] w
  | cons {w w₁ w' : World} {data : JsonValue} {jobs : List JsonValue} (now : Nat)
      (belongs : ∀ job d, DeployJobData.unmarshal data = some job → w.deployments job.deploymentId = some d →
        d.projectId = pid) :
      Runs P (.start data, { w with clock := now }) (.done (.ok ()), w₁) → Serial pid w₁ jobs w' →
      Serial pid w (data :: jobs) w'

/-- Runs of `Work` for one project one after another, all returning nil: once they are
done, the project points at a deployment, and the pointer document of each of the
project's domain names names that deployment's prefix. -/
theorem serial_runs_pointers_agree {pid : Nat} {w₀ w : World} {jobs : List JsonValue} (keyed : w₀.Keyed)
    (h : Serial P pid w₀ jobs w) (ran : jobs ≠ []) :
    ∀ p, w.projects pid = some p → ∃ d, p.activeDeploymentId = some d.id ∧ w.deployments d.id = some d ∧
      ∀ name ∈ w.domainNames p,
        w.store (metaKey name) = some ⟨metaJson d.prefixID p.forceHTTPS, "application/json", "public-read"⟩ := by
  induction h with
  | nil => exact absurd rfl ran
  | @cons w w₁ w' data jobs now belongs run rest ih =>
    have keyed' : ({ w with clock := now } : World).Keyed := ⟨keyed.deployments, keyed.projects⟩
    cases rest with
    | nil => exact run_pointers_agree keyed' belongs run
    | cons =>
      obtain ⟨es, applied⟩ := runs_applies run
      have keyed₁ : w₁.Keyed := by
        rw [show w₁ = _ from applied]
        exact applyAll_preserves keyed' fun v e _ k => World.apply_keyed k e
      exact ih keyed₁ (List.cons_ne_nil _ _)

/-- The job for deployment `id` is for that row's project. -/
theorem rawJob_belongs {w : World} {id pid : Nat} {row : Deployment} (found : w.deployments id = some row)
    (owner : row.projectId = pid) :
    ∀ job d, DeployJobData.unmarshal (rawJob id) = some job → w.deployments job.deploymentId = some d →
      d.projectId = pid := by
  intro job d decoded found'
  obtain rfl := Option.some.inj ((DeployJobData.unmarshal_toJson _).symm.trans decoded)
  obtain rfl := Option.some.inj (found.symm.trans found')
  exact owner

/-- Deployment 42 of `foo`, then deployment 43, each deployed by a run without failures. -/
theorem serial_runs_pointers_agree_site :
    let w₁ := { siteWorld with clock := 0 }.applyAll
      (workPlan scenarioPlatform { siteWorld with clock := 0 } (rawJob 42)).1
    let w := { w₁ with clock := 0 }.applyAll (workPlan scenarioPlatform { w₁ with clock := 0 } (rawJob 43)).1
    ∃ p, w.projects 1 = some p ∧ ∃ d, p.activeDeploymentId = some d.id ∧ w.deployments d.id = some d ∧
      ∀ name ∈ w.domainNames p,
        w.store (metaKey name) = some ⟨metaJson d.prefixID p.forceHTTPS, "application/json", "public-read"⟩ := by
  intro w₁ w
  have agree := serial_runs_pointers_agree (P := scenarioPlatform) site_keyed
    (.cons 0 (rawJob_belongs (show siteWorld.deployments 42 = some (siteDeployment 42 "ab12") from rfl) rfl)
      (okRuns_start (rawJob 42) { siteWorld with clock := 0 }).runs
      (.cons 0 (rawJob_belongs (show w₁.deployments 43 = some (siteDeployment 43 "cd34") from rfl) rfl)
        (okRuns_start (rawJob 43) { w₁ with clock := 0 }).runs (.nil _)))
    (List.cons_ne_nil _ _)
  exact ⟨_, rfl, agree _ rfl⟩

/-! ### Two runs at once -/

/-- `Work` on deployment 42 uploads its pointer document; `Work` on 43 runs to the end;
then the first commits. -/
def racingDeploys : List Move :=
  [.post (rawJob 42), .post (rawJob 43), .deliver 0, .deliver 1] ++
    List.replicate 9 (.run 0 true) ++ List.replicate 16 (.run 1 true) ++ List.replicate 7 (.run 0 true)

/-- Both runs return nil, the project points at deployment 42, and the domain's pointer
document names deployment 43. -/
theorem racing_deploys_disagree :
    ∃ s, Reachable scenarioPlatform site s ∧ s.threads.length = 2 ∧
      (∀ t ∈ s.threads, t.returnedNil = true) ∧
      (s.world.projects 1).bind (·.activeDeploymentId) = some 42 ∧
      (s.world.deployments 42).map Deployment.prefixID = some "ab12-42" ∧
      (s.world.store (metaKey "foo.rise.cloud")).map (·.body) = some (metaJson "cd34-43" false) := by
  obtain ⟨s, reached, holds⟩ := @reach_of_run scenarioPlatform site racingDeploys
    (fun s => s.threads.length == 2 && s.threads.all Thread.returnedNil &&
      (s.world.projects 1).bind (·.activeDeploymentId) == some 42 &&
      (s.world.deployments 42).map Deployment.prefixID == some "ab12-42" &&
      (s.world.store (metaKey "foo.rise.cloud")).map (·.body) == some (metaJson "cd34-43" false))
    (by decide)
  simp only [Bool.and_eq_true, beq_iff_eq, List.all_eq_true] at holds
  exact ⟨s, reached, holds.1.1.1.1, holds.1.1.1.2, holds.1.1.2, holds.1.2, holds.2⟩

/-! ### A lock after the load -/

/-- Two schedules run one after the other from the system they reach. -/
theorem reach_of_runs {s₀ : Sys} {ms ms' : List Move} {p : Sys → Sys → Bool}
    (h : ((runMoves P s₀ ms).bind fun s₁ => (runMoves P s₁ ms').map (p s₁)) = some true) :
    ∃ s₁ s, Reachable P s₀ s₁ ∧ Reachable P s₁ s ∧ p s₁ s = true := by
  obtain ⟨s₁, first, rest⟩ := Option.bind_eq_some.mp h
  obtain ⟨s, second, holds⟩ := Option.map_eq_some'.mp rest
  exact ⟨s₁, s, runMoves_reachable .refl first, runMoves_reachable .refl second, holds⟩

/-- `Work` on deployment 42 loads the project, downloads the bundle and uploads `index.html`. -/
def uploadBeforeLock : List Move := [.post (rawJob 42), .deliver 0] ++ List.replicate 6 (.run 0 true)

/-- An administrator locks `foo`; `Work` goes on to its end. -/
def lockThenFinish : List Move := .lock 1 :: List.replicate 10 (.run 0 true)

/-- The project is unlocked until `Work` has uploaded a webroot file, and locked from then
on, yet `Work` uploads the pointer document, commits deployment 42 and returns nil. -/
theorem lock_during_download_publishes :
    ∃ s₁ s, Reachable scenarioPlatform site s₁ ∧
      (s₁.world.store (remotePath "ab12-42" "index.html")).isSome ∧
      ((s₁.world.projects 1).bind (·.lockedAt)).isNone ∧ Reachable scenarioPlatform s₁ s ∧
      (∀ t ∈ s.threads, t.returnedNil = true) ∧ ((s.world.projects 1).bind (·.lockedAt)).isSome ∧
      (s.world.store (metaKey "foo.rise.cloud")).map (·.body) = some (metaJson "ab12-42" false) ∧
      (s.world.projects 1).bind (·.activeDeploymentId) = some 42 ∧
      (s.world.deployments 42).map (·.state) = some .deployed := by
  obtain ⟨s₁, s, first, second, holds⟩ := @reach_of_runs scenarioPlatform site uploadBeforeLock lockThenFinish
    (fun s₁ s => (s₁.world.store (remotePath "ab12-42" "index.html")).isSome &&
      ((s₁.world.projects 1).bind (·.lockedAt)).isNone && s.threads.all Thread.returnedNil &&
      ((s.world.projects 1).bind (·.lockedAt)).isSome &&
      (s.world.store (metaKey "foo.rise.cloud")).map (·.body) == some (metaJson "ab12-42" false) &&
      (s.world.projects 1).bind (·.activeDeploymentId) == some 42 &&
      (s.world.deployments 42).map (·.state) == some .deployed)
    (by decide)
  simp only [Bool.and_eq_true, beq_iff_eq, List.all_eq_true] at holds
  exact ⟨s₁, s, first, holds.1.1.1.1.1.1, holds.1.1.1.1.1.2, second, holds.1.1.1.1.2, holds.1.1.1.2,
    holds.1.1.2, holds.1.2, holds.2⟩

end Pubstorm.System
