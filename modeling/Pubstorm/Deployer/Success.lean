import Pubstorm.Deployer.Run

/-!
# The run in which every call succeeds

`workPlan` is what `Work` does when no call fails, read off the code in its order: the
effects and the result. `okRuns_start` shows the machine does exactly that; `OkRuns` is
deterministic, so it is the only such run.
-/

namespace Pubstorm.Deployer

variable {P : Platform}

variable (P) in
/-- A run of `Work` alone in which every call succeeds. -/
def OkRuns : Pc × World → Pc × World → Prop :=
  Relation.ReflTransGen fun s s' => step P true s.2 s.1 = s'

theorem OkRuns.runs {s s' : Pc × World} (h : OkRuns P s s') : Runs P s s' :=
  Relation.ReflTransGen.mono (fun _ _ moved => ⟨true, moved⟩) h

theorem okRuns_head {pc : Pc} {w : World} {t : Pc × World} (h : OkRuns P (step P true w pc) t) :
    OkRuns P (pc, w) t :=
  Relation.ReflTransGen.head rfl h

/-- One upload per file of the archive, in archive order, under the webroot. -/
def webrootEffects (types : String → String) (prefixID : String) (entries : List TarEntry) : List Effect :=
  (entries.filter fun e => !e.isDir).map fun e => .upload (remotePath prefixID e.name) (fileObject types e)

/-- One upload of the pointer document per domain name. -/
def metaEffects (json : String) (names : List String) : List Effect :=
  names.map fun d => .upload (metaKey d) ⟨json, "application/json", "public-read"⟩

theorem okRuns_next (l : Locals) (entries : List TarEntry) (w : World) :
    OkRuns P (.next l entries, w) (lockCheck l, w.applyAll (webrootEffects P.typeByExtension l.depl.prefixID entries)) := by
  induction entries generalizing w with
  | nil => exact Relation.ReflTransGen.single rfl
  | cons e rest ih =>
    refine okRuns_head ?_
    by_cases dir : e.isDir
    · simpa [step, dir, webrootEffects] using ih w
    · refine okRuns_head ?_
      simpa [step, dir, webrootEffects, entryObject] using ih _

theorem okRuns_meta (l : Locals) (names : List String) (json : String) (pos : Nat)
    (ds : List String) (w : World) :
    OkRuns P (metaLoop l names ⟨json, pos⟩ ds, w) (afterMeta l names, w.applyAll (metaEffects json ds)) := by
  induction ds generalizing pos w with
  | nil => exact Relation.ReflTransGen.refl
  | cons d ds ih =>
    refine okRuns_head ?_
    simpa [step, metaLoop, metaEffects, Reader.rewind, Reader.rest, Reader.drain] using ih _ _

/-- The analytics event, sent when the user is found. -/
def trackEffects (w : World) (l : Locals) (now : Nat) : List Effect :=
  match w.users l.depl.userId with
  | some u => [.track (deployedEvent l now u)]
  | none => []

theorem okRuns_begin (l : Locals) (w : World) :
    OkRuns P (.begin l, w)
      (.done (.ok ()), w.applyAll (activation l w.clock :: trackEffects w l w.clock)) := by
  refine okRuns_head (okRuns_head (okRuns_head (okRuns_head (okRuns_head ?_))))
  simp only [step, ↓reduceIte, World.apply_users, trackEffects]
  split
  · next u found =>
    simp only [found]
    exact okRuns_head (by simpa [step] using Relation.ReflTransGen.refl)
  · next missing =>
    cases found : w.users l.depl.userId with
    | none => exact Relation.ReflTransGen.refl
    | some u => exact absurd found (missing u rfl)

/-- What `Work` does from its lock check on when every call succeeds: the pointer
documents, the broadcast unless it is skipped, the activation and the analytics event. -/
def publishPlan (w : World) (l : Locals) : List Effect × Except WorkError Unit :=
  if l.proj.lockedAt.isSome then ([], .error .projectLocked)
  else
    let names := w.domainNames l.proj
    (metaEffects (metaJson l.depl.prefixID l.proj.forceHTTPS) names ++
      (if l.job.skipInvalidation then [] else [.publish (invalidation names)]) ++
      activation l w.clock :: trackEffects w l w.clock, .ok ())

theorem okRuns_lockCheck (l : Locals) (w : World) :
    OkRuns P (lockCheck l, w) (.done (publishPlan w l).2, w.applyAll (publishPlan w l).1) := by
  unfold lockCheck publishPlan
  split
  · exact Relation.ReflTransGen.refl
  · refine okRuns_head ?_
    refine (okRuns_meta l _ _ 0 _ w).trans ?_
    unfold afterMeta
    split
    · simpa [World.applyAll_append, trackEffects] using okRuns_begin (P := P) l (w.applyAll _)
    · refine okRuns_head ?_
      simpa [step, World.applyAll_append, trackEffects] using
        okRuns_begin (P := P) l ((w.applyAll _).apply _)

theorem publishPlan_applyAll (w : World) (es : List Effect) (l : Locals) :
    publishPlan (w.applyAll es) l = publishPlan w l := by
  simp [publishPlan, World.domainNames, trackEffects]

variable (P) in
/-- What `Work` does on `data` from `w` when every call succeeds: its effects in order and
its result, read off the code. -/
def workPlan (w : World) (data : JsonValue) : List Effect × Except WorkError Unit :=
  match DeployJobData.unmarshal data with
  | none => ([], .error .invalidJob)
  | some job =>
    match w.deployments job.deploymentId with
    | none => ([], .error .recordNotFound)
    | some depl =>
      if depl.state = .uploaded ∨ depl.state = .pendingUpload then ([], .error .unexpectedState)
      else
        match w.projects depl.projectId with
        | none => ([], .error .recordNotFound)
        | some proj =>
          let l : Locals := ⟨job, depl, proj⟩
          if job.skipWebrootUpload then publishPlan w l
          else if depl.state = .deployed then ([], .error .unexpectedState)
          else
            let key := bundlePath depl.prefixID job.useRawBundle
            match w.store key with
            | none => ([], .error .noSuchKey)
            | some bundle =>
              (.download key :: webrootEffects P.typeByExtension depl.prefixID (P.untar bundle.body) ++ (publishPlan w l).1,
                (publishPlan w l).2)

/-- The run of `Work` in which every call succeeds does what `workPlan` says. -/
theorem okRuns_start (data : JsonValue) (w : World) :
    OkRuns P (.start data, w) (.done (workPlan P w data).2, w.applyAll (workPlan P w data).1) := by
  unfold workPlan
  refine okRuns_head ?_
  cases decoded : DeployJobData.unmarshal data with
  | none => simpa [step, decoded] using Relation.ReflTransGen.refl
  | some job =>
    simp only [step, decoded, ↓reduceIte]
    refine okRuns_head ?_
    simp only [step, ↓reduceIte]
    cases found : w.deployments job.deploymentId with
    | none => exact .refl
    | some depl =>
      by_cases early : depl.state = .uploaded ∨ depl.state = .pendingUpload
      · simpa [early] using Relation.ReflTransGen.refl
      · simp only [early, ↓reduceIte]
        refine okRuns_head ?_
        simp only [step, ↓reduceIte]
        cases foundProj : w.projects depl.projectId with
        | none => exact .refl
        | some proj =>
          simp only [afterLoad]
          by_cases skip : job.skipWebrootUpload
          · simpa [skip] using okRuns_lockCheck (P := P) ⟨job, depl, proj⟩ w
          · by_cases live : depl.state = .deployed
            · simpa [skip, live] using Relation.ReflTransGen.refl
            · simp only [skip, live, Bool.false_eq_true, ↓reduceIte]
              refine okRuns_head ?_
              simp only [step, ↓reduceIte]
              cases stored : w.store (bundlePath depl.prefixID job.useRawBundle) with
              | none => exact .refl
              | some bundle =>
                refine (okRuns_next _ _ _).trans ?_
                simpa [World.applyAll_append, publishPlan_applyAll] using
                  okRuns_lockCheck (P := P) ⟨job, depl, proj⟩ ((w.apply _).applyAll _)

/-! ### There is one run without failures -/

theorem okRuns_from_done {r : Except WorkError Unit} {w : World} {t : Pc × World}
    (h : OkRuns P (.done r, w) t) : t = (.done r, w) := by
  induction h with
  | refl => rfl
  | tail _ moved ih => subst ih; exact moved.symm

theorem okRuns_unique {s : Pc × World} {r r' : Except WorkError Unit} {w w' : World}
    (h : OkRuns P s (.done r, w)) (h' : OkRuns P s (.done r', w')) : r = r' ∧ w = w' := by
  have same : (Pc.done r, w) = (Pc.done r', w') := by
    rcases Relation.ReflTransGen.total_of_right_unique (fun _ _ _ b c => b.symm.trans c) h h' with
      after | after
    · exact (okRuns_from_done after).symm
    · exact okRuns_from_done after
  simpa using same

/-- The external effects of a run of `Work` with no failed call, in the spec's words:
unless the webroot upload is skipped, the download of the bundle chosen by
`use_raw_bundle` and one public-read upload per non-directory entry, in archive order, to
the webroot path of the cleaned name, with the entry's bytes and the media type of its
extension without parameters; one public-read upload per domain name, in order, of the
pointer document `{"prefix": PrefixID}` with `"force_https": true` when the project
forces HTTPS; the invalidation broadcast of the names on the edges exchange unless it is
skipped; the commit that marks the deployment deployed and activates it; the analytics
event when the user is found. -/
def listedEffects (P : Platform) (l : Locals) (bundle : String) (names : List String) (now : Nat)
    (user : Option User) : List Effect :=
  (if l.job.skipWebrootUpload then []
    else .download (bundlePath l.depl.prefixID l.job.useRawBundle) ::
      ((P.untar bundle).filter fun e => !e.isDir).map fun e =>
        .upload (webroot l.depl.prefixID ++ "/" ++ Path.clean e.name)
          ⟨e.data, Mime.stripParams (P.typeByExtension (Filepath.ext (Path.clean e.name))), "public-read"⟩) ++
  names.map (fun d => .upload ("domains/" ++ d ++ "/meta.json")
    ⟨Json.marshal (.obj ([("prefix", .str l.depl.prefixID)] ++
      if l.proj.forceHTTPS then [("force_https", .bool true)] else [])), "application/json", "public-read"⟩) ++
  (if l.job.skipInvalidation then []
    else [.publish ⟨.edges, .v1Invalidation, .obj [("domains", .arr (names.map .str))]⟩]) ++
  .activate l.depl.id .deployed (some now) l.proj.id ::
  (match user with
    | some u => [.track (deployedEvent l now u)]
    | none => [])

/-- What `Work` reads on its way to the commit: the job, the two rows, the checks on them,
and the bundle unless the webroot upload is skipped. -/
structure Ready (w : World) (data : JsonValue) (l : Locals) (bundle : Object) : Prop where
  decoded : DeployJobData.unmarshal data = some l.job
  found : w.deployments l.job.deploymentId = some l.depl
  foundProj : w.projects l.depl.projectId = some l.proj
  checked : StateChecked l
  unlocked : l.proj.lockedAt = none
  stored : l.job.skipWebrootUpload = false →
    w.store (bundlePath l.depl.prefixID l.job.useRawBundle) = some bundle

/-- What `Work` reads when it is ready fixes its run without failures: `listedEffects`,
then nil. -/
theorem workPlan_of_ready {w : World} {data : JsonValue} {l : Locals} {bundle : Object}
    (h : Ready w data l bundle) :
    workPlan P w data =
      (listedEffects P l bundle.body (w.domainNames l.proj) w.clock (w.users l.depl.userId), .ok ()) := by
  obtain ⟨decoded, found, foundProj, ⟨notUploaded, notPending, notLive⟩, unlocked, stored⟩ := h
  simp only [workPlan, decoded, found, foundProj, notUploaded, notPending, or_self, ↓reduceIte]
  cases skip : l.job.skipWebrootUpload
  · simp [skip, notLive skip, stored skip, publishPlan, unlocked, listedEffects, webrootEffects, remotePath,
      fileObject, metaEffects, metaJson, metaKey, invalidation, activation, trackEffects]
  · simp [skip, publishPlan, unlocked, listedEffects, metaEffects, metaJson, metaKey, invalidation,
      activation, trackEffects]

/-- A run without failures that returns nil read a ready deployment. -/
theorem ready_of_workPlan {w : World} {data : JsonValue} (h : (workPlan P w data).2 = .ok ()) :
    ∃ l bundle, Ready w data l bundle := by
  simp only [workPlan] at h
  split at h
  · cases h
  · next job decoded =>
    split at h
    · cases h
    · next depl found =>
      split at h
      · cases h
      · next early =>
        split at h
        · cases h
        · next proj foundProj =>
          obtain ⟨notUploaded, notPending⟩ := not_or.mp early
          have unlocked : proj.lockedAt = none := by
            by_contra locked
            simp only [publishPlan, Option.ne_none_iff_isSome.mp locked, ↓reduceIte] at h
            split at h
            · cases h
            · split at h
              · cases h
              · split at h <;> cases h
          split at h
          · next skip =>
            exact ⟨⟨job, depl, proj⟩, ⟨"", "", ""⟩, decoded, found, foundProj,
              ⟨notUploaded, notPending, by simp [skip]⟩, unlocked, by simp [skip]⟩
          · next keep =>
            split at h
            · cases h
            · next live =>
              split at h
              · cases h
              · next bundle stored =>
                exact ⟨⟨job, depl, proj⟩, bundle, decoded, found, foundProj,
                  ⟨notUploaded, notPending, fun _ => live⟩, unlocked, fun _ => stored⟩

/-- For every job, archive and list of domain names: when the deployment is ready, the
project unlocked and no call fails, `Work` returns nil after exactly `listedEffects`, and
this is the only run without failures. -/
theorem work_effects_without_failures {data : JsonValue} {w : World} {job : DeployJobData}
    {depl : Deployment} {proj : Project} {bundle : Object}
    (decoded : DeployJobData.unmarshal data = some job)
    (found : w.deployments job.deploymentId = some depl)
    (foundProj : w.projects depl.projectId = some proj)
    (checked : StateChecked ⟨job, depl, proj⟩) (unlocked : proj.lockedAt = none)
    (stored : job.skipWebrootUpload = false →
      w.store (bundlePath depl.prefixID job.useRawBundle) = some bundle) :
    let effects := listedEffects P ⟨job, depl, proj⟩ bundle.body (w.domainNames proj) w.clock
      (w.users depl.userId)
    OkRuns P (.start data, w) (.done (.ok ()), w.applyAll effects) ∧
      ∀ r w', OkRuns P (.start data, w) (.done r, w') → r = .ok () ∧ w' = w.applyAll effects := by
  intro effects
  have run := okRuns_start (P := P) data w
  rw [workPlan_of_ready ⟨decoded, found, foundProj, checked, unlocked, stored⟩] at run
  exact ⟨run, fun r w' other => okRuns_unique other run⟩

theorem work_effects_without_failures_scenario :
    let w := scenarioWorld .pendingDeploy
    let effects := listedEffects scenarioPlatform (scenarioLocals .pendingDeploy) "tar"
      (w.domainNames scenarioProject) w.clock (w.users 7)
    OkRuns scenarioPlatform (.start scenarioJob.toJson, w) (.done (.ok ()), w.applyAll effects) ∧
      ∀ r w', OkRuns scenarioPlatform (.start scenarioJob.toJson, w) (.done r, w') →
        r = .ok () ∧ w' = w.applyAll effects :=
  @work_effects_without_failures scenarioPlatform _ _ _ _ _ ⟨"tar", "application/gzip", "private"⟩
    (DeployJobData.unmarshal_toJson _) rfl rfl ⟨by decide, by decide, fun _ => by decide⟩ rfl
    fun _ => rfl

end Pubstorm.Deployer
