import Pubstorm.Deployer.Layout

/-!
# `deployments.Create`

The API handler that takes a deploy request: it finds the project, uploads the `payload`
part as the raw bundle of a new deployment, marks it uploaded, enqueues a Deploy job and
marks it pending deploy. As for `Work`, one program point per call on the database, the
bucket or the queue; `ok = false` makes that call fail. The code between two calls (the
user and owner checks, the multipart and `Content-Length` checks, the part loop over the
request body) is folded into the transitions.
-/

namespace Pubstorm.Deployments

/-- A result of `reader.NextPart()`: a part, `io.EOF`, or any other error, returned with a
nil part. -/
inductive NextPart where
  | part (formName : String) (body : String)
  | eof
  | error
  deriving DecidableEq, Repr

/-- What `Create` reads of a request: `controllers.CurrentUser(c)`, `c.Param("name")`,
whether `c.Request.MultipartReader()` succeeds, the `Content-Length` header, and the
results of `reader.NextPart()` in order (past the end it returns `io.EOF`). -/
structure Request where
  user : Option User
  name : String
  multipart : Bool
  contentLength : String
  parts : List NextPart
  deriving DecidableEq, Repr

/-- A response `Create` writes. The bodies of `controllers.InternalServerError` and of
`depl.AsJSON()` in the `202 Accepted` are not in the sources. -/
inductive Response where
  | internalServerError
  | json (status : Nat) (body : JsonValue)
  | accepted (depl : Deployment)

def notFound : Response := .json 404 (.obj [("error", .str "not_found")])

def invalidRequest (description : String) : Response :=
  .json 400 (.obj [("error", .str "invalid_request"), ("error_description", .str description)])

def payloadRequired : Response :=
  .json 422 (.obj [("error", .str "invalid_params"), ("errors", .obj [("payload", .str "is required")])])

/-- `strconv.ParseUint(s, 10, 64)` before its range check: one or more decimal digits. -/
def parseUint (ds : List Char) : Option Nat :=
  if ds = [] then none
  else ds.foldlM (fun n c => if c.isDigit then some (10 * n + (c.toNat - '0'.toNat)) else none) 0

/-- `strconv.ParseInt(s, 10, 64)`: an optional sign, then one or more decimal digits, in
the range of `int64`. -/
def parseInt (s : String) : Option Int :=
  let (neg, ds) : Bool × List Char := match s.data with
    | '+' :: ds => (false, ds)
    | '-' :: ds => (true, ds)
    | ds => (false, ds)
  (parseUint ds).bind fun un =>
    if neg then (if un ≤ 2 ^ 63 then some (-(un : Int)) else none)
    else if un < 2 ^ 63 then some un else none

example : parseInt "1024" = some 1024 ∧ parseInt "-7" = some (-7) ∧ parseInt "" = none ∧
    parseInt "12a" = none ∧ parseInt "9223372036854775808" = none := by decide

-- A Go map marshals its keys in sorted order.
def deployJob (depl : Deployment) (proj : Project) : JsonValue :=
  .obj [("deployment_id", .num depl.id), ("deployment_prefix", .str depl.randomPrefix),
    ("domain", .str (proj.name ++ ".rise.cloud")), ("project_name", .str proj.name)]

def uploadKey (depl : Deployment) : String :=
  "deployments/" ++ depl.randomPrefix ++ "-" ++ toString depl.id ++ "/raw-bundle.tar.gz"

theorem uploadKey_eq (depl : Deployment) : uploadKey depl = Deployer.bundlePath depl.prefixID true := by
  simp only [uploadKey, Deployer.bundlePath, Deployment.prefixID, String.append_assoc, if_true]

/-- `Work` reads the job `Create` enqueues as a Deploy of the new deployment with every
flag off; the other members are ignored. -/
theorem unmarshal_deployJob (depl : Deployment) (proj : Project) :
    DeployJobData.unmarshal (deployJob depl proj) = some { deploymentId := depl.id } := by
  show (DeployJobData.setField {} _ >>= _) = _
  rw [DeployJobData.setField_deploymentId]
  rfl

/-- The program points of `Create`; `panicked` is the handler dereferencing a nil part. -/
inductive Pc where
  | start (req : Request)
  | dbConn (req : Request) (u : User) (proj : Project)
  | create (u : User) (proj : Project) (payload : String)
  | upload (proj : Project) (depl : Deployment) (payload : String)
  | markUploaded (proj : Project) (depl : Deployment)
  | enqueue (proj : Project) (depl : Deployment)
  | markPendingDeploy (depl : Deployment)
  | done (responses : List Response)
  | panicked

/-- The part loop: the first part named `payload` is uploaded; `io.EOF` before it is a
missing payload; any other error leaves `part` nil, and `part.FormName()` dereferences it. -/
def partLoop (u : User) (proj : Project) : List NextPart → Pc
  | [] | .eof :: _ => .done [payloadRequired]
  | .error :: _ => .panicked
  | .part name body :: rest => if name = "payload" then .create u proj body else partLoop u proj rest

def afterFind (req : Request) (u : User) : Option Project → Pc
  | none => .done [notFound]
  | some proj =>
    if proj.userId ≠ u.id then .done [notFound]
    else if req.multipart then .dbConn req u proj
    else .done [invalidRequest "the request should be encoded in multipart/form-data format"]

def afterConn (maxUploadSize : Int) (req : Request) (u : User) (proj : Project) : Pc :=
  match parseInt req.contentLength with
  | none => .done [invalidRequest "Content-Length header is required"]
  | some n =>
    if n > maxUploadSize then .done [invalidRequest "request body is too large"]
    else partLoop u proj req.parts

/-- The row `db.Create(depl)` inserts: the next id, the prefix and version the database
fills in, and (modelled from the spec) the initial state `pending_upload`. -/
def newRow (w : World) (u : User) (proj : Project) : Deployment where
  id := w.nextDeploymentId
  projectId := proj.id
  userId := u.id
  randomPrefix := w.prefixDefault w.nextDeploymentId
  version := w.versionDefault w.nextDeploymentId
  state := .pendingUpload
  createdAt := w.clock
  deployedAt := none

/-- One statement of `Create`. A failed `FindByName` writes the 500 and, for want of a
`return`, goes on with a nil project to the 404. `common.Upload` is not in the sources, so
the raw bundle's content type and ACL are left empty. -/
def step (ok : Bool) (w : World) : Pc → Pc × World
  | .start req =>
    match req.user with
    | none => (.done [.internalServerError], w)
    | some u =>
      if ok then (afterFind req u (w.findByName req.name), w)
      else (.done [.internalServerError, notFound], w)
  | .dbConn req u proj => (if ok then afterConn w.maxUploadSize req u proj else .done [.internalServerError], w)
  | .create u proj payload =>
    if ok then
      let row := newRow w u proj
      (.upload proj row payload, w.apply (.insertDeployment row))
    else (.done [.internalServerError], w)
  | .upload proj depl payload =>
    if ok then (.markUploaded proj depl, w.apply (.upload (uploadKey depl) ⟨payload, "", ""⟩))
    else (.done [.internalServerError], w)
  | .markUploaded proj depl =>
    if ok then (.enqueue proj { depl with state := .uploaded }, w.apply (.updateState depl.id .uploaded))
    else (.done [.internalServerError], w)
  | .enqueue proj depl =>
    if ok then (.markPendingDeploy depl, w.apply (.enqueue (deployJob depl proj)))
    else (.done [.internalServerError], w)
  | .markPendingDeploy depl =>
    if ok then
      (.done [.accepted { depl with state := .pendingDeploy }], w.apply (.updateState depl.id .pendingDeploy))
    else (.done [.internalServerError], w)
  | .done rs => (.done rs, w)
  | .panicked => (.panicked, w)

/-! ### What one statement of `Create` can do -/

/-- The row a `Create` thread has inserted and not yet marked pending deploy. -/
def Pc.rowId? : Pc → Option Nat
  | .upload _ depl _ | .markUploaded _ depl | .enqueue _ depl | .markPendingDeploy depl => some depl.id
  | _ => none

theorem partLoop_rowId (u : User) (proj : Project) (parts : List NextPart) :
    (partLoop u proj parts).rowId? = none := by
  induction parts with
  | nil => rfl
  | cons part rest ih =>
    cases part with
    | part name body =>
      simp only [partLoop]
      split
      · rfl
      · exact ih
    | eof | error => rfl

theorem afterFind_rowId (req : Request) (u : User) (proj : Option Project) :
    (afterFind req u proj).rowId? = none := by
  unfold afterFind; split
  · rfl
  · split
    · rfl
    · split <;> rfl

theorem afterConn_rowId (limit : Int) (req : Request) (u : User) (proj : Project) :
    (afterConn limit req u proj).rowId? = none := by
  unfold afterConn; split
  · rfl
  · split
    · rfl
    · exact partLoop_rowId u proj req.parts

/-- A statement of `Create` leaves the world alone, inserts a fresh row in
`pending_upload` and takes it as its own, makes a call that writes no table, or moves its
own row to `uploaded` or, last, to `pending_deploy`. -/
theorem step_cases (ok : Bool) (w : World) (pc : Pc) :
    (step ok w pc).2 = w ∧ ((step ok w pc).1.rowId? = none ∨ (step ok w pc).1.rowId? = pc.rowId?) ∨
      (∃ row : Deployment, row.id = w.nextDeploymentId ∧ row.state = .pendingUpload ∧
        pc.rowId? = none ∧ (step ok w pc).1.rowId? = some row.id ∧
        (step ok w pc).2 = w.apply (.insertDeployment row)) ∨
      (∃ e, e.KeepsTables ∧ (step ok w pc).2 = w.apply e ∧ (step ok w pc).1.rowId? = pc.rowId?) ∨
      (∃ id, pc.rowId? = some id ∧ (step ok w pc).1.rowId? = some id ∧
        (step ok w pc).2 = w.apply (.updateState id .uploaded)) ∨
      (∃ id, pc.rowId? = some id ∧ (step ok w pc).1.rowId? = none ∧
        (step ok w pc).2 = w.apply (.updateState id .pendingDeploy)) := by
  have unchanged : (step false w pc).2 = w ∧ (step false w pc).1.rowId? = none := by
    cases pc <;> simp only [step, Bool.false_eq_true, ↓reduceIte] <;> (try split) <;> simp [Pc.rowId?]
  cases ok
  · exact .inl ⟨unchanged.1, .inl unchanged.2⟩
  cases pc with
  | start req =>
    refine .inl ⟨?_, .inl ?_⟩ <;> simp only [step, ↓reduceIte] <;> split <;>
      first | rfl | exact afterFind_rowId _ _ _
  | dbConn req u proj => exact .inl ⟨rfl, .inl (afterConn_rowId _ req u proj)⟩
  | create u proj payload => exact .inr (.inl ⟨newRow w u proj, rfl, rfl, rfl, rfl, rfl⟩)
  | upload proj depl payload =>
    exact .inr (.inr (.inl ⟨.upload (uploadKey depl) ⟨payload, "", ""⟩, trivial, rfl, rfl⟩))
  | markUploaded proj depl => exact .inr (.inr (.inr (.inl ⟨depl.id, rfl, rfl, rfl⟩)))
  | enqueue proj depl => exact .inr (.inr (.inl ⟨.enqueue (deployJob depl proj), trivial, rfl, rfl⟩))
  | markPendingDeploy depl => exact .inr (.inr (.inr (.inr ⟨depl.id, rfl, rfl, rfl⟩)))
  | done rs => exact .inl ⟨rfl, .inr rfl⟩
  | panicked => exact .inl ⟨rfl, .inr rfl⟩

end Pubstorm.Deployments
