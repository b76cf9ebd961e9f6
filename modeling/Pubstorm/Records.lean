import Pubstorm.Go.Json

/-!
# Rows and jobs

The rows the deployer and the API handler read and write, with the fields they use, and
the Deploy job as `Work` decodes it. The deployment, project and message packages are not
among the sources; their fields are the ones `Work`, `Create` and the spec name.
-/

namespace Pubstorm

/-- `deployment.State*`, the lifecycle of a deployment. -/
inductive DeploymentState where
  | pendingUpload
  | uploaded
  | pendingBuild
  | pendingDeploy
  | deployed
  | failed
  deriving DecidableEq, Repr

/-- A `deployments` row. `randomPrefix` is the `prefix` column, filled by the database. -/
structure Deployment where
  id : Nat
  projectId : Nat
  userId : Nat
  randomPrefix : String
  version : Nat
  state : DeploymentState
  createdAt : Nat
  deployedAt : Option Nat
  deriving DecidableEq, Repr

/-- A row without its `deployed_at`, for comparing rows up to the time of their commit. -/
def Deployment.untimed (d : Deployment) : Deployment := { d with deployedAt := none }

/-- A `projects` row, with the columns the deployer reads. -/
structure Project where
  id : Nat
  name : String
  userId : Nat
  activeDeploymentId : Option Nat
  lockedAt : Option Nat
  forceHTTPS : Bool
  defaultDomainEnabled : Bool
  deriving DecidableEq, Repr

/-- A `domains` row: an explicit domain name bound to a project. -/
structure Domain where
  projectId : Nat
  name : String
  deriving DecidableEq, Repr

structure User where
  id : Nat
  deriving DecidableEq, Repr

/-- `messages.DeployJobData`, the body of a Deploy job. -/
structure DeployJobData where
  deploymentId : Nat := 0
  skipWebrootUpload : Bool := false
  skipInvalidation : Bool := false
  useRawBundle : Bool := false
  deriving DecidableEq, Repr

namespace DeployJobData

/-- The members of the job, with their JSON names. -/
inductive Field where
  | deploymentId
  | skipWebrootUpload
  | skipInvalidation
  | useRawBundle
  deriving DecidableEq, Repr

def Field.name : Field → String
  | .deploymentId => "deployment_id"
  | .skipWebrootUpload => "skip_webroot_upload"
  | .skipInvalidation => "skip_invalidation"
  | .useRawBundle => "use_raw_bundle"

def fields : List Field := [.deploymentId, .skipWebrootUpload, .skipInvalidation, .useRawBundle]

/-- `foldName` of `encoding/json` on one rune: ASCII letters to upper case, the Kelvin sign and
the long s to `K` and `S`, the least runes of their fold sets. The fold set of any other
rune holds no ASCII rune, so whatever it folds to matches no member name. -/
def foldRune (c : Char) : Char :=
  if c = '\u212A' then 'K' else if c = '\u017F' then 'S' else c.toUpper

def foldName (s : String) : String := ⟨s.data.map foldRune⟩

/-- The member a key sets, as `decodeState.object` looks it up: the one of that name, else one
whose name equals the key under case folding. -/
def fieldOf (key : String) : Option Field :=
  match fields.find? (·.name = key) with
  | some f => some f
  | none => fields.find? fun f => foldName f.name = foldName key

/-- One object member as `json.Unmarshal` stores it: a member takes a value of its type or
`null` (which leaves it alone), any other value is a type error, and unknown keys are
ignored. -/
def setField (d : DeployJobData) : String × JsonValue → Option DeployJobData
  | (key, v) =>
    match fieldOf key, v with
    | none, _ | some _, .null => some d
    | some .deploymentId, .num n => if 0 ≤ n then some { d with deploymentId := n.toNat } else none
    | some .skipWebrootUpload, .bool b => some { d with skipWebrootUpload := b }
    | some .skipInvalidation, .bool b => some { d with skipInvalidation := b }
    | some .useRawBundle, .bool b => some { d with useRawBundle := b }
    | some _, _ => none

/-- `json.Unmarshal(data, &DeployJobData{})`: an object sets its members in order, later
ones winning; `null` leaves the zero value; anything else is an error. -/
def unmarshal : JsonValue → Option DeployJobData
  | .obj fields => fields.foldlM setField {}
  | .null => some {}
  | _ => none

example : unmarshal (.obj [("deployment_id", .num 42), ("deployment_prefix", .str "ab12"),
    ("Skip_Webroot_Upload", .bool true), ("ſkip_invalidation", .bool true)]) =
    some { deploymentId := 42, skipWebrootUpload := true, skipInvalidation := true } := by decide

/-- The JSON a producer enqueues for a job. -/
def toJson (d : DeployJobData) : JsonValue :=
  .obj [("deployment_id", .num d.deploymentId), ("skip_webroot_upload", .bool d.skipWebrootUpload),
    ("skip_invalidation", .bool d.skipInvalidation), ("use_raw_bundle", .bool d.useRawBundle)]

theorem fieldOf_name (f : Field) : fieldOf f.name = some f := by
  cases f <;> decide

/-- A natural number decodes into `deployment_id` as itself. -/
theorem setField_deploymentId (d : DeployJobData) (n : Nat) :
    setField d ("deployment_id", .num n) = some { d with deploymentId := n } := by
  have found : fieldOf "deployment_id" = some .deploymentId := fieldOf_name .deploymentId
  simp only [setField, found, Int.natCast_nonneg, if_true, Int.toNat_ofNat]

theorem unmarshal_toJson (d : DeployJobData) : unmarshal d.toJson = some d := by
  show (setField {} _ >>= _) = _
  rw [setField_deploymentId]
  rfl

end DeployJobData

end Pubstorm
