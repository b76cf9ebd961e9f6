import Pubstorm.Deployer.Success

/-!
# The older `Work`

`src/unnamed/part_005` is an older `deployer.Work`. It takes the prefix, the id and the
domain names from the job itself, downloads the raw bundle, uploads the webroot and the
pointer documents and broadcasts the invalidation; it reads no table and writes none.
`legacyStep` is that code as a machine in the manner of `step`.

The older process never calls `mimetypes.Register`, so its `mime.TypeByExtension` is a table
`types` of its own. `work_refines_legacy`: for a job the older `Work` handled, a deployment
row with the job's prefix and id that is ready to deploy, in an unlocked project without
forced HTTPS whose domain names are the job's, and tables that agree on the extensions of
the bundle's files, every run of the newer `Work`, whatever calls fail, makes the calls to
the bucket and the broker of some run of the older `Work`, in the same order, and leaves
the bucket as that run does. The proof is a simulation: each statement of the newer `Work`
is matched by none or one statement of the older (`legacySim_step`).
-/

namespace Pubstorm.Deployer

variable {P : Platform} {types : String → String}

/-- The older `messages.DeployJobData`, with the fields the older `Work` reads. -/
structure LegacyJob where
  deploymentId : Nat
  deploymentPrefix : String
  domains : List String
  deriving DecidableEq, Repr

namespace LegacyJob

/-- `fmt.Sprintf("%s-%d", d.DeploymentPrefix, d.DeploymentID)`. -/
def prefixID (d : LegacyJob) : String := d.deploymentPrefix ++ "-" ++ toString d.deploymentId

/-- The pointer document, `json.Marshal(map[string]interface{}{"prefix": prefix})`. -/
def metaJson (d : LegacyJob) : String := Json.marshal (.obj [("prefix", .str d.prefixID)])

-- The newer `Work`'s job for the same deployment: the raw bundle, nothing skipped.
def job (d : LegacyJob) : DeployJobData := { deploymentId := d.deploymentId, useRawBundle := true }

theorem metaJson_eq (d : LegacyJob) : d.metaJson = Deployer.metaJson d.prefixID false := by
  simp [metaJson, Deployer.metaJson]

end LegacyJob

/-- The program points of the older `Work`, after `json.Unmarshal` of its job: the temp
file, `S3.Download` of the raw bundle and `gzip.NewReader`; `tr.Next()` over the entries
left; the `S3.Upload` of a webroot file; `reader.Seek(0, 0)` and the upload of a domain's
pointer document; `m.Publish()`. -/
inductive LegacyPc where
  | download (d : LegacyJob)
  | next (d : LegacyJob) (entries : List TarEntry)
  | upload (d : LegacyJob) (entry : TarEntry) (rest : List TarEntry)
  | putMeta (d : LegacyJob) (domain : String) (rest : List String) (reader : Reader)
  | publish (d : LegacyJob)
  | done (result : Except WorkError Unit)

def legacyMetaLoop (d : LegacyJob) (reader : Reader) : List String → LegacyPc
  | [] => .publish d
  | domain :: rest => .putMeta d domain rest reader

/-- One statement of the older `Work`, whose media types are `types`. Its keys are the newer
`Work`'s: the raw bundle `"deployments/" + prefix + "/raw-bundle.tar.gz"`,
`webroot + "/" + path.Clean(hdr.Name)` and `"domains/" + domain + "/meta.json"`. -/
def legacyStep (P : Platform) (types : String → String) (ok : Bool) (w : World) :
    LegacyPc → LegacyPc × World
  | .download d =>
    let key := bundlePath d.prefixID true
    if ok then
      match w.store key with
      | none => (.done (.error .noSuchKey), w)
      | some bundle => (.next d (P.untar bundle.body), w.apply (.download key))
    else (.done (.error .transient), w)
  | .next d entries =>
    if ok then
      match entries with
      | [] => (legacyMetaLoop d ⟨d.metaJson, 0⟩ d.domains, w)
      | e :: rest => (if e.isDir then .next d rest else .upload d e rest, w)
    else (.done (.error .transient), w)
  | .upload d e rest =>
    if ok then (.next d rest, w.apply (.upload (remotePath d.prefixID e.name) (fileObject types e)))
    else (.done (.error .transient), w)
  | .putMeta d domain rest reader =>
    if ok then
      let body := reader.rewind
      (legacyMetaLoop d body.drain rest,
        w.apply (.upload (metaKey domain) ⟨body.rest, "application/json", "public-read"⟩))
    else (.done (.error .transient), w)
  | .publish d =>
    if ok then (.done (.ok ()), w.apply (.publish (invalidation d.domains)))
    else (.done (.error .transient), w)
  | .done r => (.done r, w)

variable (P types) in
/-- A run of the older `Work` with no other process between its statements. -/
def LegacyRuns : LegacyPc × World → LegacyPc × World → Prop :=
  Relation.ReflTransGen fun s s' => ∃ ok, legacyStep P types ok s.2 s.1 = s'

variable (P types) in
theorem legacyStep_false (w : World) (pc : LegacyPc) :
    ∃ r, legacyStep P types false w pc = (.done r, w) := by
  cases pc <;> simp [legacyStep]

/-! ### The media types -/

variable (P types) in
/-- The two processes' tables give the extension of `e` the same media type. -/
def TypesAgree (e : TarEntry) : Prop :=
  types (Filepath.ext (Path.clean e.name)) = P.typeByExtension (Filepath.ext (Path.clean e.name))

variable (P types) in
/-- The tables agree on the extension of every file of the raw bundle `w` holds for `d`. -/
def BundleTypesAgree (w : World) (d : LegacyJob) : Prop :=
  ∀ b, w.store (bundlePath d.prefixID true) = some b → ∀ e ∈ P.untar b.body, e.isDir = false →
    TypesAgree P types e

theorem entryObject_of_agree {e : TarEntry} (agree : TypesAgree P types e) :
    entryObject P e = fileObject types e := by
  rw [entryObject, fileObject, fileObject, agree]

theorem webrootEffects_of_agree {p : String} {entries : List TarEntry}
    (agree : ∀ e ∈ entries, e.isDir = false → TypesAgree P types e) :
    webrootEffects P.typeByExtension p entries = webrootEffects types p entries := by
  refine List.map_congr_left fun e mem => ?_
  obtain ⟨inEntries, file⟩ := List.mem_filter.mp mem
  rw [← entryObject, entryObject_of_agree (agree e inEntries (by simpa using file))]

/-! ### The bucket and the broker -/

/-- Two worlds with one bucket and one record of calls to it and to the broker. -/
def SameTransfers (w w' : World) : Prop := w.store = w'.store ∧ w.transfers = w'.transfers

theorem SameTransfers.apply {w w' : World} (h : SameTransfers w w') (e : Effect) :
    SameTransfers (w.apply e) (w'.apply e) :=
  ⟨funext fun k => by rw [World.apply_store, World.apply_store, h.1], by rw [World.transfers_apply, World.transfers_apply, h.2]⟩

theorem SameTransfers.apply_left {w w' : World} (h : SameTransfers w w') {e : Effect}
    (internal : e.isTransfer = false) : SameTransfers (w.apply e) w' := by
  refine ⟨funext fun k => ?_, ?_⟩
  · rw [World.apply_store, h.1]
    cases e <;> simp_all [Effect.isTransfer]
  · rw [World.transfers_apply, internal, if_neg Bool.false_ne_true, List.append_nil, h.2]

/-- The rows and domains the newer `Work` reads are those of `w`. -/
def Unchanged (w w' : World) : Prop :=
  w'.deployments = w.deployments ∧ w'.projects = w.projects ∧ w'.domains = w.domains

theorem Unchanged.apply {w w' : World} (h : Unchanged w w') {e : Effect} (transfer : e.isTransfer = true) :
    Unchanged w (w'.apply e) := by
  have keeps : e.KeepsTables := by cases e <;> simp_all [Effect.isTransfer, Effect.KeepsTables]
  obtain ⟨deployments, projects⟩ := World.apply_tables (w := w') keeps
  exact ⟨deployments.trans h.1, projects.trans h.2.1, (World.apply_domains w' e).trans h.2.2⟩

/-! ### The simulation -/

/-- The rows the newer `Work` reads for the older job `d`, as the older `Work` took them for
granted: a deployment with the job's prefix and id, ready to deploy, and its project,
unlocked, without forced HTTPS, with the job's domain names. -/
structure LegacyRows (d : LegacyJob) (w : World) (depl : Deployment) (proj : Project) : Prop where
  found : w.deployments d.deploymentId = some depl
  row : depl.randomPrefix = d.deploymentPrefix ∧ depl.id = d.deploymentId
  ready : depl.state ≠ .uploaded ∧ depl.state ≠ .pendingUpload ∧ depl.state ≠ .deployed
  foundProj : w.projects depl.projectId = some proj
  unlocked : proj.lockedAt = none
  plain : proj.forceHTTPS = false
  domains : w.domainNames proj = d.domains

theorem LegacyRows.prefixID {d : LegacyJob} {w : World} {depl : Deployment} {proj : Project}
    (rows : LegacyRows d w depl proj) : depl.prefixID = d.prefixID := by
  simp [Deployment.prefixID, LegacyJob.prefixID, rows.row]

variable (P types) in
/-- The program point of the older `Work` that stands for one of the newer, for the job `d`
and the locals `l`: while the newer `Work` loads its job and rows and lists the domain
names the older has nothing to do, and after the broadcast the older has returned. In the
webroot loop the files still to come have extensions the tables agree on. -/
def PcMatches (d : LegacyJob) (l : Locals) : Pc → LegacyPc → Prop
  | .start data, t => data = d.job.toJson ∧ t = .download d
  | .loadDeployment job, t => job = d.job ∧ t = .download d
  | .loadProject job depl, t => job = d.job ∧ depl = l.depl ∧ t = .download d
  | .download l', t => l' = l ∧ t = .download d
  | .next l' entries, t => l' = l ∧ t = .next d entries ∧
    ∀ e ∈ entries, e.isDir = false → TypesAgree P types e
  | .upload l' e rest, t => l' = l ∧ t = .upload d e rest ∧ TypesAgree P types e ∧
    ∀ x ∈ rest, x.isDir = false → TypesAgree P types x
  | .domainNames l', t => l' = l ∧ t = .next d []
  | .putMeta l' names domain rest reader, t =>
    l' = l ∧ names = d.domains ∧ t = .putMeta d domain rest reader
  | .publish l' names, t => l' = l ∧ names = d.domains ∧ t = .publish d
  | .begin _, t | .updateState _, t | .updateProject _ _, t | .commit _ _, t | .loadUser _ _, t
  | .track _ _ _, t => t = .done (.ok ())
  | .done _, t => ∃ r, t = .done r

variable (P types) in
/-- A state of the newer `Work` and one of the older: the program points match, the bucket
and the calls to it and to the broker are the same, the raw bundle is the one in `w`, and
until the older has returned the newer reads the rows of `w`. -/
structure LegacySim (d : LegacyJob) (l : Locals) (w : World) (s : Pc × World) (t : LegacyPc × World) :
    Prop where
  pc : PcMatches P types d l s.1 t.1
  same : SameTransfers s.2 t.2
  bundle : s.2.store (bundlePath d.prefixID true) = w.store (bundlePath d.prefixID true)
  reads : (∀ r, t.1 ≠ .done r) → Unchanged w s.2

theorem apply_store_bundle {w : World} {e : Effect} {p : String}
    (keeps : ∀ k o, e = .upload k o → k ≠ bundlePath p true) :
    (w.apply e).store (bundlePath p true) = w.store (bundlePath p true) := by
  rw [World.apply_store]
  cases e with
  | upload k o => exact if_neg fun same => keeps k o rfl same.symm
  | _ => rfl

theorem metaLoop_matches {d : LegacyJob} {l : Locals} (job : l.job = d.job) (reader : Reader)
    (ds : List String) :
    PcMatches P types d l (metaLoop l d.domains reader ds) (legacyMetaLoop d reader ds) := by
  cases ds with
  | nil =>
    show PcMatches P types d l (if l.job.skipInvalidation then _ else _) _
    rw [job]
    exact ⟨rfl, rfl, rfl⟩
  | cons domain rest => exact ⟨rfl, rfl, rfl⟩

/-- Each statement of the newer `Work` is matched by none or one of the older. -/
theorem legacySim_step {d : LegacyJob} {w : World} {depl : Deployment} {proj : Project}
    (rows : LegacyRows d w depl proj) (agree : BundleTypesAgree P types w d) {s : Pc × World}
    {t : LegacyPc × World} (sim : LegacySim P types d ⟨d.job, depl, proj⟩ w s t) (ok : Bool) :
    LegacySim P types d ⟨d.job, depl, proj⟩ w (step P ok s.2 s.1) t ∨
      ∃ ok', LegacySim P types d ⟨d.job, depl, proj⟩ w (step P ok s.2 s.1) (legacyStep P types ok' t.2 t.1) := by
  obtain ⟨pc, ws⟩ := s
  obtain ⟨lpc, wt⟩ := t
  obtain ⟨pcs, same, bundle, reads⟩ := sim
  have kept : ∀ e : Effect, (∀ k o, e = .upload k o → k ≠ bundlePath d.prefixID true) →
      (ws.apply e).store (bundlePath d.prefixID true) = w.store (bundlePath d.prefixID true) :=
    fun e keeps => (apply_store_bundle keeps).trans bundle
  cases ok
  · -- a failed call: the older `Work` fails too, or has returned already
    obtain ⟨r, failed⟩ := step_false (P := P) ws pc
    obtain ⟨r', failed'⟩ := legacyStep_false P types wt lpc
    exact .inr ⟨false, by rw [failed, failed']; exact ⟨⟨r', rfl⟩, same, bundle, fun h => absurd rfl (h r')⟩⟩
  cases pc with
  | start data =>
    obtain ⟨rfl, rfl⟩ := pcs
    refine .inl ?_
    simp only [step, DeployJobData.unmarshal_toJson, ↓reduceIte]
    exact ⟨⟨rfl, rfl⟩, same, bundle, reads⟩
  | loadDeployment job =>
    obtain ⟨rfl, rfl⟩ := pcs
    have found : ws.deployments d.job.deploymentId = some depl := by
      rw [(reads (by simp)).1]
      exact rows.found
    refine .inl ?_
    simp only [step, ↓reduceIte, found, rows.ready.1, rows.ready.2.1, or_self]
    exact ⟨⟨rfl, rfl, rfl⟩, same, bundle, reads⟩
  | loadProject job depl' =>
    obtain ⟨rfl, rfl, rfl⟩ := pcs
    have foundProj : ws.projects depl'.projectId = some proj := by
      rw [(reads (by simp)).2.1]
      exact rows.foundProj
    refine .inl ?_
    simp only [step, ↓reduceIte, foundProj, afterLoad, LegacyJob.job, rows.ready.2.2, Bool.false_eq_true]
    exact ⟨⟨rfl, rfl⟩, same, bundle, reads⟩
  | download l =>
    obtain ⟨rfl, rfl⟩ := pcs
    refine .inr ⟨true, ?_⟩
    simp only [step, legacyStep, ↓reduceIte, LegacyJob.job, rows.prefixID]
    rw [same.1]
    cases stored : wt.store (bundlePath d.prefixID true) with
    | none => exact ⟨⟨_, rfl⟩, same, bundle, fun h => absurd rfl (h _)⟩
    | some b =>
      exact ⟨⟨rfl, rfl, agree b (by rw [← bundle, same.1, stored])⟩, same.apply _, kept _ nofun,
        fun _ => (reads (by simp)).apply rfl⟩
  | next l entries =>
    obtain ⟨rfl, rfl, files⟩ := pcs
    have unchanged : Unchanged w ws := reads (by simp)
    cases entries with
    | nil =>
      refine .inl ?_
      simp only [step, ↓reduceIte, lockCheck, rows.unlocked, Option.isSome_none, Bool.false_eq_true]
      exact ⟨⟨rfl, rfl⟩, same, bundle, reads⟩
    | cons e rest =>
      refine .inr ⟨true, ?_⟩
      have later := fun x mem => files x (List.mem_cons_of_mem e mem)
      by_cases dir : e.isDir <;> simp only [step, legacyStep, ↓reduceIte, dir]
      · exact ⟨⟨rfl, rfl, later⟩, same, bundle, fun _ => unchanged⟩
      · exact ⟨⟨rfl, rfl, files e (List.mem_cons_self _ _) (by simpa using dir), later⟩, same, bundle,
          fun _ => unchanged⟩
  | upload l e rest =>
    obtain ⟨rfl, rfl, file, later⟩ := pcs
    refine .inr ⟨true, ?_⟩
    simp only [step, legacyStep, ↓reduceIte, rows.prefixID, entryObject_of_agree file]
    exact ⟨⟨rfl, rfl, later⟩, same.apply _,
      kept _ fun _ _ up => (Effect.upload.inj up).1 ▸ remotePath_ne_bundlePath _ _ _,
      fun _ => (reads (by simp)).apply rfl⟩
  | domainNames l =>
    obtain ⟨rfl, rfl⟩ := pcs
    have unchanged : Unchanged w ws := reads (by simp)
    have names : ws.domainNames proj = d.domains := by
      rw [World.domainNames, unchanged.2.2]
      exact rows.domains
    refine .inr ⟨true, ?_⟩
    simp only [step, legacyStep, ↓reduceIte, names, rows.plain, rows.prefixID, ← d.metaJson_eq]
    exact ⟨metaLoop_matches rfl _ _, same, bundle, fun _ => unchanged⟩
  | putMeta l names domain rest reader =>
    obtain ⟨rfl, rfl, rfl⟩ := pcs
    refine .inr ⟨true, ?_⟩
    simp only [step, legacyStep, ↓reduceIte]
    exact ⟨metaLoop_matches rfl _ _, same.apply _,
      kept _ fun _ _ up => (Effect.upload.inj up).1 ▸ by rw [bundlePath_eq]; exact metaKey_ne_namespaceKey _ _ _,
      fun _ => (reads (by simp)).apply rfl⟩
  | publish l names =>
    obtain ⟨rfl, rfl, rfl⟩ := pcs
    refine .inr ⟨true, ?_⟩
    simp only [step, legacyStep, ↓reduceIte]
    exact ⟨rfl, same.apply _, kept _ nofun, fun h => absurd rfl (h _)⟩
  | begin _ | updateState _ | updateProject _ _ =>
    obtain rfl := pcs
    exact .inl ⟨rfl, same, bundle, reads⟩
  | commit l now =>
    obtain rfl := pcs
    exact .inl ⟨rfl, same.apply_left rfl, kept _ nofun, fun h => absurd rfl (h _)⟩
  | loadUser l now =>
    obtain rfl := pcs
    refine .inl ?_
    simp only [step]
    split
    · exact ⟨rfl, same, bundle, reads⟩
    · exact ⟨⟨_, rfl⟩, same, bundle, reads⟩
  | track l now u =>
    obtain rfl := pcs
    exact .inl ⟨⟨_, rfl⟩, same.apply_left rfl, kept _ nofun, fun h => absurd rfl (h _)⟩
  | done r => exact .inl ⟨pcs, same, bundle, reads⟩

/-- A run of the newer `Work` is matched by a run of the older. -/
theorem legacySim_runs {d : LegacyJob} {w : World} {depl : Deployment} {proj : Project}
    (rows : LegacyRows d w depl proj) (agree : BundleTypesAgree P types w d) {s : Pc × World}
    (run : Runs P (.start d.job.toJson, w) s) :
    ∃ t, LegacyRuns P types (.download d, w) t ∧ LegacySim P types d ⟨d.job, depl, proj⟩ w s t := by
  induction run with
  | refl => exact ⟨_, .refl, ⟨⟨rfl, rfl⟩, ⟨rfl, rfl⟩, rfl, fun _ => ⟨rfl, rfl, rfl⟩⟩⟩
  | tail _ moved ih =>
    obtain ⟨t, legacy, sim⟩ := ih
    obtain ⟨ok, rfl⟩ := moved
    rcases legacySim_step rows agree sim ok with stays | ⟨ok', next⟩
    · exact ⟨t, legacy, stays⟩
    · exact ⟨_, legacy.tail ⟨ok', rfl⟩, next⟩

/-- For a job the older `Work` handled, rows as it took them for granted, and media-type
tables that agree on the extensions of the bundle's files, every run of the newer `Work` on
the same deployment, whatever calls fail, makes the calls to the bucket and the broker of
some run of the older `Work`, in the same order, and leaves the bucket as that run does:
the older never wrote a key or broadcast a message the newer does not. -/
theorem work_refines_legacy {d : LegacyJob} {w : World} {depl : Deployment} {proj : Project}
    (rows : LegacyRows d w depl proj) (agree : BundleTypesAgree P types w d) {s : Pc × World}
    (run : Runs P (.start d.job.toJson, w) s) :
    ∃ t, LegacyRuns P types (.download d, w) t ∧ s.2.store = t.2.store ∧ s.2.transfers = t.2.transfers :=
  let ⟨t, legacy, sim⟩ := legacySim_runs rows agree run
  ⟨t, legacy, sim.same⟩

/-- A table without the types `mimetypes.Register` adds: here it has `.html` as the newer
table has it, and `.json`, which the newer table of the scenario lacks. -/
def builtinTypes (ext : String) : String :=
  if ext = ".html" then "text/html; charset=utf-8" else if ext = ".json" then "application/json" else ""

theorem bundleTypesAgree_scenario :
    BundleTypesAgree scenarioPlatform builtinTypes (scenarioWorld .pendingDeploy) ⟨42, "ab12", ["foo.rise.cloud"]⟩ := by
  intro b _ e mem _
  obtain rfl := List.mem_singleton.mp mem
  unfold TypesAgree
  decide

theorem work_refines_legacy_scenario :
    let d : LegacyJob := ⟨42, "ab12", ["foo.rise.cloud"]⟩
    let s := okIter scenarioPlatform 16 (.start d.job.toJson, scenarioWorld .pendingDeploy)
    BundleTypesAgree scenarioPlatform builtinTypes (scenarioWorld .pendingDeploy) d ∧
      builtinTypes ".json" ≠ scenarioPlatform.typeByExtension ".json" ∧
      ∃ t, LegacyRuns scenarioPlatform builtinTypes (.download d, scenarioWorld .pendingDeploy) t ∧
        s.2.store = t.2.store ∧ s.2.transfers = t.2.transfers :=
  ⟨bundleTypesAgree_scenario, by decide,
    @work_refines_legacy scenarioPlatform builtinTypes _ _ (scenarioDeployment .pendingDeploy) scenarioProject
      ⟨rfl, ⟨rfl, rfl⟩, ⟨by decide, by decide, by decide⟩, rfl, rfl, rfl, by decide⟩ bundleTypesAgree_scenario _
      (runs_okIter 16 _)⟩

/-! ### When no call fails -/

variable (P types) in
def LegacyOkRuns : LegacyPc × World → LegacyPc × World → Prop :=
  Relation.ReflTransGen fun s s' => legacyStep P types true s.2 s.1 = s'

theorem legacyOkRuns_head {pc : LegacyPc} {w : World} {t : LegacyPc × World}
    (h : LegacyOkRuns P types (legacyStep P types true w pc) t) : LegacyOkRuns P types (pc, w) t :=
  Relation.ReflTransGen.head rfl h

variable (P types) in
/-- What the older `Work` does when every call succeeds: the download of the raw bundle,
one upload per file, one pointer document per domain, and the broadcast. -/
def legacyPlan (w : World) (d : LegacyJob) : List Effect × Except WorkError Unit :=
  match w.store (bundlePath d.prefixID true) with
  | none => ([], .error .noSuchKey)
  | some bundle =>
    (.download (bundlePath d.prefixID true) :: webrootEffects types d.prefixID (P.untar bundle.body) ++
      metaEffects d.metaJson d.domains ++ [.publish (invalidation d.domains)], .ok ())

theorem legacyOkRuns_meta (d : LegacyJob) (json : String) (pos : Nat) (ds : List String) (w : World) :
    LegacyOkRuns P types (legacyMetaLoop d ⟨json, pos⟩ ds, w) (.publish d, w.applyAll (metaEffects json ds)) := by
  induction ds generalizing pos w with
  | nil => exact .refl
  | cons domain ds ih =>
    refine legacyOkRuns_head ?_
    simpa [legacyStep, legacyMetaLoop, metaEffects, Reader.rewind, Reader.rest, Reader.drain] using ih _ _

theorem legacyOkRuns_next (d : LegacyJob) (entries : List TarEntry) (w : World) :
    LegacyOkRuns P types (.next d entries, w)
      (.done (.ok ()), w.applyAll (webrootEffects types d.prefixID entries ++ metaEffects d.metaJson d.domains ++
        [.publish (invalidation d.domains)])) := by
  induction entries generalizing w with
  | nil =>
    refine legacyOkRuns_head ((legacyOkRuns_meta d _ 0 _ w).tail rfl |>.trans ?_)
    simpa [legacyStep, webrootEffects, World.applyAll_append] using Relation.ReflTransGen.refl
  | cons e rest ih =>
    refine legacyOkRuns_head ?_
    by_cases dir : e.isDir
    · simpa [legacyStep, dir, webrootEffects] using ih w
    · refine legacyOkRuns_head ?_
      simpa [legacyStep, dir, webrootEffects] using ih _

theorem legacyOkRuns_download (d : LegacyJob) (w : World) :
    LegacyOkRuns P types (.download d, w)
      (.done (legacyPlan P types w d).2, w.applyAll (legacyPlan P types w d).1) := by
  refine legacyOkRuns_head ?_
  unfold legacyPlan
  simp only [legacyStep, ↓reduceIte]
  cases w.store (bundlePath d.prefixID true) with
  | none => exact .refl
  | some bundle => simpa [List.append_assoc] using legacyOkRuns_next d (P.untar bundle.body) _

theorem legacyOkRuns_unique {s : LegacyPc × World} {r r' : Except WorkError Unit} {w w' : World}
    (h : LegacyOkRuns P types s (.done r, w)) (h' : LegacyOkRuns P types s (.done r', w')) :
    r = r' ∧ w = w' := by
  have done : ∀ {r w t}, LegacyOkRuns P types (.done r, w) t → t = (.done r, w) := fun h => by
    induction h with
    | refl => rfl
    | tail _ moved ih => subst ih; exact moved.symm
  have same : (LegacyPc.done r, w) = (LegacyPc.done r', w') := by
    rcases Relation.ReflTransGen.total_of_right_unique (fun _ _ _ b c => b.symm.trans c) h h' with
      after | after
    · exact (done after).symm
    · exact done after
  simpa using same

/-- With the rows as the older `Work` took them and tables that agree on the bundle, the
newer `Work` does without failures what the older does, then commits and sends the
analytics event if the older returned nil. -/
theorem workPlan_legacy {d : LegacyJob} {w : World} {depl : Deployment} {proj : Project}
    (rows : LegacyRows d w depl proj) (agree : BundleTypesAgree P types w d) :
    workPlan P w d.job.toJson =
      ((legacyPlan P types w d).1 ++ if (legacyPlan P types w d).2.isOk then
        activation ⟨d.job, depl, proj⟩ w.clock :: trackEffects w ⟨d.job, depl, proj⟩ w.clock else [],
        (legacyPlan P types w d).2) := by
  simp only [workPlan, DeployJobData.unmarshal_toJson, LegacyJob.job, rows.found, rows.foundProj,
    rows.ready.1, rows.ready.2.1, rows.ready.2.2, or_self, ↓reduceIte, Bool.false_eq_true, legacyPlan,
    ← d.metaJson_eq, rows.prefixID]
  cases stored : w.store (bundlePath d.prefixID true) with
  | none => rfl
  | some bundle =>
    simp [publishPlan, rows.unlocked, rows.plain, rows.domains, rows.prefixID, ← d.metaJson_eq, Except.isOk,
      Except.toBool, webrootEffects_of_agree (agree bundle stored)]

/-- When no call fails, the newer `Work` on a job the older `Work` handled, with tables that
agree on the bundle, returns what the older returns, after the older's calls to the bucket
and the broker in the same order, and when that is nil it then commits the deployment and
sends the analytics event. -/
theorem work_extends_legacy {d : LegacyJob} {w : World} {depl : Deployment} {proj : Project}
    (rows : LegacyRows d w depl proj) (agree : BundleTypesAgree P types w d) {r r' : Except WorkError Unit}
    {w' w'' : World} (current : OkRuns P (.start d.job.toJson, w) (.done r, w'))
    (legacy : LegacyOkRuns P types (.download d, w) (.done r', w'')) :
    r = r' ∧ w' = w''.applyAll (if r'.isOk then
      activation ⟨d.job, depl, proj⟩ w.clock :: trackEffects w ⟨d.job, depl, proj⟩ w.clock else []) := by
  obtain ⟨rfl, rfl⟩ := okRuns_unique current (okRuns_start d.job.toJson w)
  obtain ⟨rfl, rfl⟩ := legacyOkRuns_unique legacy (legacyOkRuns_download d w)
  rw [workPlan_legacy rows agree, World.applyAll_append]
  exact ⟨rfl, rfl⟩

theorem work_extends_legacy_scenario :
    let d : LegacyJob := ⟨42, "ab12", ["foo.rise.cloud"]⟩
    let w := scenarioWorld .pendingDeploy
    let l : Locals := ⟨d.job, scenarioDeployment .pendingDeploy, scenarioProject⟩
    BundleTypesAgree scenarioPlatform builtinTypes w d ∧
      (workPlan scenarioPlatform w d.job.toJson).2 = (legacyPlan scenarioPlatform builtinTypes w d).2 ∧
      w.applyAll (workPlan scenarioPlatform w d.job.toJson).1 =
        (w.applyAll (legacyPlan scenarioPlatform builtinTypes w d).1).applyAll
          (if (legacyPlan scenarioPlatform builtinTypes w d).2.isOk then
            activation l w.clock :: trackEffects w l w.clock else []) :=
  ⟨bundleTypesAgree_scenario,
    work_extends_legacy ⟨rfl, ⟨rfl, rfl⟩, ⟨by decide, by decide, by decide⟩, rfl, rfl, rfl, by decide⟩
      bundleTypesAgree_scenario (okRuns_start _ _) (legacyOkRuns_download _ _)⟩

end Pubstorm.Deployer
