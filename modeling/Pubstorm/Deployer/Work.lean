import Pubstorm.Deployer.Layout

/-!
# `deployer.Work`

`Work` as a machine with one program point per statement that touches the database, the
bucket, the broker or the analytics sink. `step P ok w pc` runs the statement at `pc`
against `w`; `ok = false` is the environment making that call fail, after which `Work`
returns the error. The code between two such statements (the state checks, the lock
check, building keys and the pointer document) is folded into the transitions.
-/

namespace Pubstorm.Deployer

/-- The errors `Work` returns: `json.Unmarshal` rejecting the job, `gorm.RecordNotFound`, a
bundle missing from the bucket, `errUnexpectedState`, `ErrProjectLocked`, and a failed call
to the store, the broker or the database. -/
inductive WorkError where
  | invalidJob
  | recordNotFound
  | noSuchKey
  | unexpectedState
  | projectLocked
  | transient
  deriving DecidableEq, Repr

structure TarEntry where
  name : String
  isDir : Bool
  data : String
  deriving DecidableEq, Repr

/-- What `Work` takes from libraries outside the repository: `gzip` and `tar` turning the
downloaded bundle into entries, and `mime.TypeByExtension` after `mimetypes.Register`. -/
structure Platform where
  untar : String → List TarEntry
  typeByExtension : String → String

/-- A `bytes.Reader`: the bytes and the read position. `rewind` is `Seek(0, 0)`; an upload
reads the body to its end, sending `rest` and leaving the reader drained. -/
structure Reader where
  data : String
  pos : Nat
  deriving DecidableEq, Repr

namespace Reader

def rewind (r : Reader) : Reader := { r with pos := 0 }

def rest (r : Reader) : String := String.mk (r.data.data.drop r.pos)

def drain (r : Reader) : Reader := { r with pos := r.data.length }

end Reader

structure Locals where
  job : DeployJobData
  depl : Deployment
  proj : Project
  deriving DecidableEq, Repr

/-- The program points of `Work`, with the locals live at each, in the order of the code:
`json.Unmarshal` and `dbconn.DB()`; `db.First` of the deployment and of the project; the
temp file, `S3.Download` and `gzip.NewReader`; `tr.Next()` over the entries left; the
`S3.Upload` of a webroot file; `proj.DomainNames(db)`; `reader.Seek(0, 0)` and the upload
of a domain's pointer document; `m.Publish()`; `db.Begin()`; `UpdateState`; the update of
`active_deployment_id` (`now` is the time `UpdateState` stamped); `tx.Commit()`;
`db.First` of the user; `common.Track`. -/
inductive Pc where
  | start (data : JsonValue)
  | loadDeployment (job : DeployJobData)
  | loadProject (job : DeployJobData) (depl : Deployment)
  | download (l : Locals)
  | next (l : Locals) (entries : List TarEntry)
  | upload (l : Locals) (entry : TarEntry) (rest : List TarEntry)
  | domainNames (l : Locals)
  | putMeta (l : Locals) (names : List String) (domain : String) (rest : List String) (reader : Reader)
  | publish (l : Locals) (names : List String)
  | begin (l : Locals)
  | updateState (l : Locals)
  | updateProject (l : Locals) (now : Nat)
  | commit (l : Locals) (now : Nat)
  | loadUser (l : Locals) (now : Nat)
  | track (l : Locals) (now : Nat) (u : User)
  | done (result : Except WorkError Unit)

/-- The object a webroot file is uploaded as under the media-type table `types`: its bytes,
the media type of its extension without parameters, and a public-read ACL. -/
def fileObject (types : String → String) (e : TarEntry) : Object :=
  ⟨e.data, Mime.stripParams (types (Filepath.ext (Path.clean e.name))), "public-read"⟩

def entryObject (P : Platform) (e : TarEntry) : Object := fileObject P.typeByExtension e

def invalidation (names : List String) : Message :=
  ⟨.edges, .v1Invalidation, .obj [("domains", .arr (names.map .str))]⟩

/-- The analytics event sent after the commit; `deployed_at` is the time `UpdateState`
stamped on the deployment. -/
def deployedEvent (l : Locals) (now : Nat) (u : User) : TrackEvent :=
  ⟨toString u.id, "Project Deployed",
    [("projectName", .str l.proj.name), ("deploymentId", .num l.depl.id),
      ("deploymentPrefix", .str l.depl.randomPrefix), ("deploymentVersion", .num l.depl.version),
      ("timeTakenInSeconds", .num ((now : Int) - l.depl.createdAt))]⟩

/-- Modelled from the spec: `Deployment.UpdateState` is not in the sources. Inside the
transaction it writes the state and, for `deployed`, `deployed_at = now`; the commit is
what makes the write, together with the project's pointer, visible. -/
def activation (l : Locals) (now : Nat) : Effect :=
  .activate l.depl.id .deployed (some now) l.proj.id

def fail : Pc := .done (.error .transient)

/-- `if proj.LockedAt != nil`, on the project loaded at the start. -/
def lockCheck (l : Locals) : Pc :=
  if l.proj.lockedAt.isSome then .done (.error .projectLocked) else .domainNames l

/-- The code after the project is loaded: the re-upload guard, then the webroot or,
with `skip_webroot_upload`, straight to the lock check. -/
def afterLoad (l : Locals) : Pc :=
  if l.job.skipWebrootUpload then lockCheck l
  else if l.depl.state = .deployed then .done (.error .unexpectedState) else .download l

def afterMeta (l : Locals) (names : List String) : Pc :=
  if l.job.skipInvalidation then .begin l else .publish l names

def metaLoop (l : Locals) (names : List String) (reader : Reader) : List String → Pc
  | [] => afterMeta l names
  | domain :: rest => .putMeta l names domain rest reader

/-- One statement of `Work`. -/
def step (P : Platform) (ok : Bool) (w : World) : Pc → Pc × World
  | .start data =>
    match DeployJobData.unmarshal data with
    | none => (.done (.error .invalidJob), w)
    | some job => (if ok then .loadDeployment job else fail, w)
  | .loadDeployment job =>
    if ok then
      match w.deployments job.deploymentId with
      | none => (.done (.error .recordNotFound), w)
      | some depl =>
        if depl.state = .uploaded ∨ depl.state = .pendingUpload then (.done (.error .unexpectedState), w)
        else (.loadProject job depl, w)
    else (fail, w)
  | .loadProject job depl =>
    if ok then
      match w.projects depl.projectId with
      | none => (.done (.error .recordNotFound), w)
      | some proj => (afterLoad ⟨job, depl, proj⟩, w)
    else (fail, w)
  | .download l =>
    let key := bundlePath l.depl.prefixID l.job.useRawBundle
    if ok then
      match w.store key with
      | none => (.done (.error .noSuchKey), w)
      | some bundle => (.next l (P.untar bundle.body), w.apply (.download key))
    else (fail, w)
  | .next l entries =>
    if ok then
      match entries with
      | [] => (lockCheck l, w)
      | e :: rest => (if e.isDir then .next l rest else .upload l e rest, w)
    else (fail, w)
  | .upload l e rest =>
    if ok then (.next l rest, w.apply (.upload (remotePath l.depl.prefixID e.name) (entryObject P e)))
    else (fail, w)
  | .domainNames l =>
    if ok then
      let names := w.domainNames l.proj
      (metaLoop l names ⟨metaJson l.depl.prefixID l.proj.forceHTTPS, 0⟩ names, w)
    else (fail, w)
  | .putMeta l names domain rest reader =>
    if ok then
      let body := reader.rewind
      (metaLoop l names body.drain rest,
        w.apply (.upload (metaKey domain) ⟨body.rest, "application/json", "public-read"⟩))
    else (fail, w)
  | .publish l names =>
    if ok then (.begin l, w.apply (.publish (invalidation names))) else (fail, w)
  | .begin l => (if ok then .updateState l else fail, w)
  | .updateState l => (if ok then .updateProject l w.clock else fail, w)
  | .updateProject l now => (if ok then .commit l now else fail, w)
  | .commit l now => if ok then (.loadUser l now, w.apply (activation l now)) else (fail, w)
  | .loadUser l now =>
    match ok, w.users l.depl.userId with
    | true, some u => (.track l now u, w)
    | _, _ => (.done (.ok ()), w)
  | .track l now u => (.done (.ok ()), if ok then w.apply (.track (deployedEvent l now u)) else w)
  | .done r => (.done r, w)

end Pubstorm.Deployer
