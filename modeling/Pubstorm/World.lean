import Pubstorm.Records

/-!
# The world the workers share

The database tables, the bucket, the Deploy queue and the clock, as the deployer and the
API handler see them, with the writes they make. The `journal` is ghost state: every
external effect is appended to it in the order it happens, so a statement about "what a
run did" reads it.
-/

namespace Pubstorm

/-- An object in the bucket: its body, `Content-Type` and canned ACL. -/
structure Object where
  body : String
  contentType : String
  acl : String
  deriving DecidableEq, Repr

/-- Modelled from the spec: the `exchanges` constants are not in the sources, only that
there is one well-known exchange with a fixed invalidation routing key. -/
inductive Exchange where
  | edges
  deriving DecidableEq, Repr

inductive Route where
  | v1Invalidation
  deriving DecidableEq, Repr

/-- A message of `pubsub.NewMessageWithJSON`, published on a topic exchange. -/
structure Message where
  exchange : Exchange
  routingKey : Route
  body : JsonValue

/-- An event of `common.Track`. -/
structure TrackEvent where
  userId : String
  event : String
  props : List (String × JsonValue)

/-- The external calls of the workers and handlers, with what each writes. -/
inductive Effect where
  | download (key : String)
  | upload (key : String) (object : Object)
  | publish (message : Message)
  | enqueue (body : JsonValue)
  | insertDeployment (row : Deployment)
  | updateState (id : Nat) (state : DeploymentState)
  /-- The commit of a transaction that sets a deployment's `state` and `deployed_at` and
  points its project's `active_deployment_id` at it. -/
  | activate (id : Nat) (state : DeploymentState) (deployedAt : Option Nat) (projectId : Nat)
  | track (event : TrackEvent)
  | lock (projectId : Nat)

def Effect.isTransfer : Effect → Bool
  | .download _ | .upload _ _ | .publish _ => true
  | _ => false

def Effect.KeepsTables : Effect → Prop
  | .insertDeployment _ | .updateState _ _ | .activate _ _ _ _ | .lock _ => False
  | _ => True

/-- The tables, the bucket and the queue. `nextDeploymentId` is the next value of the
`deployments.id` sequence; `prefixDefault` and `versionDefault` are what the database fills
in for the row it inserts with a given id (a random string, and the project's next version).
Modelled from the spec, since `project.FindByName` is not in the sources: project names are
unique, so `projectByName` indexes them. `maxUploadSize` is `common.MaxUploadSize`, the
largest `Content-Length` `Create` accepts; the package that sets it is not in the sources. -/
structure World where
  deployments : Nat → Option Deployment
  projects : Nat → Option Project
  domains : List Domain
  users : Nat → Option User
  nextDeploymentId : Nat
  prefixDefault : Nat → String
  versionDefault : Nat → Nat
  projectByName : String → Option Nat
  maxUploadSize : Int
  store : String → Option Object
  deployQueue : List JsonValue
  clock : Nat
  journal : List Effect

/-- The default domain of a project (`<name>.rise.cloud`, as `Create` writes it). -/
def Project.defaultDomainName (p : Project) : String := p.name ++ ".rise.cloud"

namespace World

/-- Modelled from the spec: `Project.DomainNames` is not in the sources. The default domain
when it is enabled, then the explicit domains bound to the project. -/
def domainNames (w : World) (proj : Project) : List String :=
  (if proj.defaultDomainEnabled then [proj.defaultDomainName] else []) ++
    (w.domains.filter (·.projectId = proj.id)).map (·.name)

def findByName (w : World) (name : String) : Option Project :=
  (w.projectByName name).bind w.projects

/-- Every row is stored under its own id. -/
structure Keyed (w : World) : Prop where
  deployments : ∀ i d, w.deployments i = some d → d.id = i
  projects : ∀ k p, w.projects k = some p → p.id = k

def updateDeployment (w : World) (id : Nat) (f : Deployment → Deployment) : World :=
  { w with deployments := fun i => if i = id then (w.deployments i).map f else w.deployments i }

def updateProject (w : World) (id : Nat) (f : Project → Project) : World :=
  { w with projects := fun i => if i = id then (w.projects i).map f else w.projects i }

/-- What an effect changes besides the journal. An upload replaces the object under its key,
taken as written: the store behind `s3client` is not in the sources, and `System.Bucket`
reads the same uploads with keys resolved by `path.Clean`. A commit writes both tables at
once; downloads, broadcasts and analytics events change nothing the workers read. -/
def write (w : World) : Effect → World
  | .upload key object => { w with store := fun k => if k = key then some object else w.store k }
  | .enqueue body => { w with deployQueue := w.deployQueue ++ [body] }
  | .insertDeployment row =>
    { w with
      deployments := fun i => if i = row.id then some row else w.deployments i
      nextDeploymentId := w.nextDeploymentId + 1 }
  | .updateState id state => w.updateDeployment id fun r => { r with state := state }
  | .activate id state deployedAt projectId =>
    (w.updateDeployment id fun r => { r with state := state, deployedAt := deployedAt }).updateProject
      projectId fun p => { p with activeDeploymentId := some id }
  | .lock projectId => w.updateProject projectId fun p => { p with lockedAt := some w.clock }
  | .download _ | .publish _ | .track _ => w

/-- An effect happens: the world changes and the journal records it. -/
def apply (w : World) (e : Effect) : World := { w.write e with journal := w.journal ++ [e] }

def applyAll (w : World) (es : List Effect) : World := es.foldl apply w

@[simp] theorem applyAll_nil (w : World) : w.applyAll [] = w := rfl

@[simp] theorem applyAll_cons (w : World) (e : Effect) (es : List Effect) :
    w.applyAll (e :: es) = (w.apply e).applyAll es := rfl

theorem applyAll_append (w : World) (es fs : List Effect) :
    w.applyAll (es ++ fs) = (w.applyAll es).applyAll fs := by
  simp [applyAll, List.foldl_append]

@[simp] theorem apply_journal (w : World) (e : Effect) : (w.apply e).journal = w.journal ++ [e] := rfl

theorem applyAll_journal (w : World) (es : List Effect) : (w.applyAll es).journal = w.journal ++ es := by
  induction es generalizing w with
  | nil => simp
  | cons e es ih => simp [ih]

/-! ### What each effect leaves alone -/

theorem apply_tables {w : World} {e : Effect} (h : e.KeepsTables) :
    (w.apply e).deployments = w.deployments ∧ (w.apply e).projects = w.projects := by
  cases e <;> simp_all [Effect.KeepsTables, apply, write]

@[simp] theorem apply_domains (w : World) (e : Effect) : (w.apply e).domains = w.domains := by
  cases e <;> rfl

@[simp] theorem apply_users (w : World) (e : Effect) : (w.apply e).users = w.users := by
  cases e <;> rfl

@[simp] theorem apply_clock (w : World) (e : Effect) : (w.apply e).clock = w.clock := by
  cases e <;> rfl

@[simp] theorem applyAll_domains (w : World) (es : List Effect) : (w.applyAll es).domains = w.domains := by
  induction es generalizing w <;> simp_all

@[simp] theorem applyAll_users (w : World) (es : List Effect) : (w.applyAll es).users = w.users := by
  induction es generalizing w <;> simp_all

@[simp] theorem applyAll_clock (w : World) (es : List Effect) : (w.applyAll es).clock = w.clock := by
  induction es generalizing w <;> simp_all

@[simp] theorem apply_projectByName (w : World) (e : Effect) :
    (w.apply e).projectByName = w.projectByName := by
  cases e <;> rfl

theorem apply_store (w : World) (e : Effect) (key : String) :
    (w.apply e).store key = match e with
      | .upload k o => if key = k then some o else w.store key
      | _ => w.store key := by
  cases e <;> rfl

/-! ### What each table write changes -/

theorem apply_insertDeployment_deployments (w : World) (row : Deployment) (i : Nat) :
    (w.apply (.insertDeployment row)).deployments i = if i = row.id then some row else w.deployments i :=
  rfl

theorem apply_updateState_deployments (w : World) (id : Nat) (state : DeploymentState) (i : Nat) :
    (w.apply (.updateState id state)).deployments i =
      if i = id then (w.deployments i).map fun r => { r with state := state } else w.deployments i :=
  rfl

theorem apply_activate_deployments (w : World) (id : Nat) (state : DeploymentState)
    (deployedAt : Option Nat) (projectId i : Nat) :
    (w.apply (.activate id state deployedAt projectId)).deployments i =
      if i = id then (w.deployments i).map fun r => { r with state := state, deployedAt := deployedAt }
      else w.deployments i :=
  rfl

theorem apply_activate_projects (w : World) (id : Nat) (state : DeploymentState)
    (deployedAt : Option Nat) (projectId k : Nat) :
    (w.apply (.activate id state deployedAt projectId)).projects k =
      if k = projectId then (w.projects k).map fun p => { p with activeDeploymentId := some id }
      else w.projects k :=
  rfl

theorem apply_lock_projects (w : World) (projectId k : Nat) :
    (w.apply (.lock projectId)).projects k =
      if k = projectId then (w.projects k).map fun p => { p with lockedAt := some w.clock }
      else w.projects k :=
  rfl

@[simp] theorem domainNames_apply (w : World) (e : Effect) (p : Project) :
    (w.apply e).domainNames p = w.domainNames p := by
  simp [domainNames]

/-- No effect renames a project or changes its default domain: a project row after an effect
has the domain names of the row before. -/
theorem apply_projects_names {w : World} {e : Effect} {k : Nat} {p' : Project}
    (h : (w.apply e).projects k = some p') : ∃ p, w.projects k = some p ∧ w.domainNames p' = w.domainNames p := by
  have updated : ∀ f : Project → Project, (∀ p, (f p).name = p.name ∧ (f p).id = p.id ∧
      (f p).defaultDomainEnabled = p.defaultDomainEnabled) → ∀ id,
      (if k = id then (w.projects k).map f else w.projects k) = some p' →
      ∃ p, w.projects k = some p ∧ w.domainNames p' = w.domainNames p := by
    intro f hf id found
    split at found
    · obtain ⟨p, old, rfl⟩ := Option.map_eq_some'.mp found
      obtain ⟨name, pid, default⟩ := hf p
      exact ⟨p, old, by simp [domainNames, Project.defaultDomainName, name, pid, default]⟩
    · exact ⟨p', found, rfl⟩
  cases e with
  | activate id state deployedAt projectId =>
    exact updated (fun p => { p with activeDeploymentId := some id }) (fun _ => ⟨rfl, rfl, rfl⟩) projectId
      ((apply_activate_projects ..).symm.trans h)
  | lock projectId =>
    exact updated (fun p => { p with lockedAt := some w.clock }) (fun _ => ⟨rfl, rfl, rfl⟩) projectId
      ((apply_lock_projects ..).symm.trans h)
  | _ => exact ⟨p', h, rfl⟩

@[simp] theorem apply_insertDeployment_projects (w : World) (row : Deployment) :
    (w.apply (.insertDeployment row)).projects = w.projects := rfl

@[simp] theorem apply_updateState_projects (w : World) (id : Nat) (state : DeploymentState) :
    (w.apply (.updateState id state)).projects = w.projects := rfl

@[simp] theorem apply_lock_deployments (w : World) (projectId : Nat) :
    (w.apply (.lock projectId)).deployments = w.deployments := rfl

theorem apply_nextDeploymentId_of_keeps {w : World} {e : Effect} (h : e.KeepsTables) :
    (w.apply e).nextDeploymentId = w.nextDeploymentId := by
  cases e <;> first | rfl | exact h.elim

/-! ### Rows stay under their ids -/

theorem updateDeployment_keyed {w : World} (h : w.Keyed) (id : Nat) {f : Deployment → Deployment}
    (hf : ∀ d, (f d).id = d.id) : (w.updateDeployment id f).Keyed := by
  refine ⟨fun i d found => ?_, h.projects⟩
  simp only [updateDeployment] at found
  split at found
  · obtain ⟨d₀, old, rfl⟩ := Option.map_eq_some'.mp found
    exact (hf d₀).trans (h.deployments i d₀ old)
  · exact h.deployments i d found

theorem updateProject_keyed {w : World} (h : w.Keyed) (id : Nat) {f : Project → Project}
    (hf : ∀ p, (f p).id = p.id) : (w.updateProject id f).Keyed := by
  refine ⟨h.deployments, fun k p found => ?_⟩
  simp only [updateProject] at found
  split at found
  · obtain ⟨p₀, old, rfl⟩ := Option.map_eq_some'.mp found
    exact (hf p₀).trans (h.projects k p₀ old)
  · exact h.projects k p found

theorem apply_keyed {w : World} (h : w.Keyed) (e : Effect) : (w.apply e).Keyed := by
  have written : (w.write e).Keyed := by
    cases e with
    | insertDeployment row =>
      refine ⟨fun i d found => ?_, h.projects⟩
      simp only [write] at found
      split at found
      · next same => exact (Option.some.inj found) ▸ same.symm
      · exact h.deployments i d found
    | updateState id state => exact updateDeployment_keyed h id fun _ => rfl
    | activate id state deployedAt projectId =>
      exact updateProject_keyed (updateDeployment_keyed h id (f := fun r =>
        { r with state := state, deployedAt := deployedAt }) fun _ => rfl) projectId fun _ => rfl
    | lock projectId => exact updateProject_keyed h projectId fun _ => rfl
    | _ => exact ⟨h.deployments, h.projects⟩
  exact ⟨written.deployments, written.projects⟩

def transfers (w : World) : List Effect := w.journal.filter Effect.isTransfer

theorem transfers_apply (w : World) (e : Effect) :
    (w.apply e).transfers = w.transfers ++ if e.isTransfer then [e] else [] := by
  simp only [transfers, apply_journal, List.filter_append, List.filter_cons, List.filter_nil]

end World

end Pubstorm
