import Pubstorm.System.Active

/-!
# The webroot of a live deployment

`World.store` takes a key as `Work` writes it. The store behind `s3client` is not among the
sources, so here the same uploads are also read through a `Bucket` that resolves each key
with `path.Clean` first, replayed from the journal. Downloads still read the world's store,
which agrees with the bucket on the bundles of rows.

A deployment is live once it is deployed or the pointer document of a domain names its
prefix. Whatever `Work` runs interleave and whichever of their calls fail, every file of a
live deployment's bundle has its resolved key under the webroot filled by a file of that
bundle resolving to the same key. The jobs select their deployment's bundle and skip the
webroot upload only for a deployment already deployed; the bundles' entry names resolve
inside their webroots and the domain names are path elements. The content need not be the
last file of that key: a second run of a job that loaded the deployment before the first
run committed can upload an earlier duplicate after the commit, and then fail.
-/

namespace Pubstorm.System

open Deployer

/-- The bucket as a store that resolves keys: an object is kept under the cleaned key it
was uploaded to. -/
structure Bucket where
  objects : String → Option Object

namespace Bucket

def get (B : Bucket) (key : String) : Option Object := B.objects (Path.clean key)

def put (B : Bucket) (key : String) (o : Object) : Bucket :=
  ⟨fun k => if k = Path.clean key then some o else B.objects k⟩

def record (B : Bucket) : Effect → Bucket
  | .upload key o => B.put key o
  | _ => B

def replay (B : Bucket) (es : List Effect) : Bucket := es.foldl record B

def ofStore (w : World) : Bucket := ⟨w.store⟩

theorem get_put (B : Bucket) (key k : String) (o : Object) :
    (B.put key o).get k = if Path.clean k = Path.clean key then some o else B.get k := rfl

theorem get_put_self (B : Bucket) (key : String) (o : Object) : (B.put key o).get key = some o := if_pos rfl

theorem ofStore_get (w : World) (key : String) : (ofStore w).get key = w.store (Path.clean key) := rfl

theorem replay_append (B : Bucket) (es es' : List Effect) : B.replay (es ++ es') = (B.replay es).replay es' :=
  List.foldl_append _ _ _ _

end Bucket

/-- The bucket at `s`: `B₀` at `s₀` with the uploads journaled since. -/
def bucketAt (B₀ : Bucket) (s₀ s : Sys) : Bucket := B₀.replay (s.world.journal.drop s₀.world.journal.length)

section Webroot

variable (P : Platform) (raw : Nat → Bool)

def files (b : Object) : List TarEntry := (P.untar b.body).filter fun e => !e.isDir

/-- The resolved key of `e` under the webroot of `p` holds a file of the bundle `b` that
resolves to the same key. -/
def Stored (B : Bucket) (p : String) (b : Object) (e : TarEntry) : Prop :=
  ∃ e' ∈ files P b, Path.clean (remotePath p e'.name) = Path.clean (remotePath p e.name) ∧
    B.get (remotePath p e.name) = some (entryObject P e')

/-- Every file of the bundle `r` selects in the namespace `p` is stored under its webroot. -/
def Complete (B : Bucket) (p : String) (r : Bool) : Prop :=
  ∀ b, B.get (bundlePath p r) = some b → ∀ e ∈ files P b, Stored P B p b e

def Anchored (w : World) (p : String) (r : Bool) : Prop :=
  ∃ i d, w.deployments i = some d ∧ d.prefixID = p ∧ raw i = r

/-- A Deploy job that selects its deployment's bundle, and skips the webroot upload only
for a deployment already deployed. -/
def JobOk (w : World) (data : JsonValue) : Prop :=
  ∀ job, DeployJobData.unmarshal data = some job → job.useRawBundle = raw job.deploymentId ∧
    (job.skipWebrootUpload = true → ∃ d, w.deployments job.deploymentId = some d ∧ d.state = .deployed)

def Held (w : World) (l : Locals) : Prop :=
  l.job.useRawBundle = raw l.depl.id ∧ (∃ d, w.deployments l.depl.id = some d ∧ d.prefixID = l.depl.prefixID) ∧
    ∀ n ∈ w.domainNames l.proj, Path.Real n.data

def Loop (B : Bucket) (l : Locals) (entries : List TarEntry) : Prop :=
  ∃ b, B.get (bundlePath l.depl.prefixID l.job.useRawBundle) = some b ∧
    ∃ done, done ++ entries = P.untar b.body ∧ ∀ e ∈ done, e.isDir = false → Stored P B l.depl.prefixID b e

def Done (w : World) (B : Bucket) (l : Locals) : Prop :=
  Held raw w l ∧ Complete P B l.depl.prefixID l.job.useRawBundle

/-- What a `Work` thread knows of the deployment it works on. -/
def WorkOk (w : World) (B : Bucket) : Pc → Prop
  | .start data => JobOk raw w data
  | .loadDeployment job => job.useRawBundle = raw job.deploymentId ∧
    (job.skipWebrootUpload = true → ∃ d, w.deployments job.deploymentId = some d ∧ d.state = .deployed)
  | .loadProject job depl => depl.id = job.deploymentId ∧ job.useRawBundle = raw depl.id ∧
    ∃ d, w.deployments depl.id = some d ∧ d.prefixID = depl.prefixID ∧
      (job.skipWebrootUpload = true → d.state = .deployed)
  | .download l => Held raw w l
  | .next l entries => Held raw w l ∧ Loop P B l entries
  | .upload l e rest => Held raw w l ∧ e.isDir = false ∧ Loop P B l (e :: rest)
  | .domainNames l | .publish l _ | .begin l | .updateState l | .updateProject l _ | .commit l _ =>
    Done P raw w B l
  | .putMeta l _ domain rest reader => Done P raw w B l ∧
    reader.data = metaJson l.depl.prefixID l.proj.forceHTTPS ∧ ∀ n ∈ domain :: rest, Path.Real n.data
  | .loadUser _ _ | .track _ _ _ | .done _ => True

def WebrootThread (w : World) (B : Bucket) : Thread → Prop
  | .work pc => WorkOk P raw w B pc
  | .create _ => False

/-- The world part of the invariant. Rows are under their ids with prefixes free of `/`,
domain names are path elements, the store and the bucket agree on the bundles of rows,
whose files resolve inside their webroots, live deployments are complete, and the queued
jobs select their bundles. -/
structure WebrootWorld (w : World) (B : Bucket) : Prop where
  keyed : w.Keyed
  slashFree : ∀ i d, w.deployments i = some d → '/' ∉ d.randomPrefix.data
  hosts : ∀ k p, w.projects k = some p → ∀ n ∈ w.domainNames p, Path.Real n.data
  bundles : ∀ p r, Anchored raw w p r → w.store (bundlePath p r) = B.get (bundlePath p r)
  inside : ∀ p r b, Anchored raw w p r → B.get (bundlePath p r) = some b → ∀ e ∈ files P b, Inside p e.name
  deployed : ∀ i d, w.deployments i = some d → d.state = .deployed → Complete P B d.prefixID (raw i)
  pointed : ∀ k o, Path.Real k.data → B.get (metaKey k) = some o → ∀ i d f, w.deployments i = some d →
    o.body = metaJson d.prefixID f → Complete P B d.prefixID (raw i)
  queue : ∀ data ∈ w.deployQueue, JobOk raw w data

structure WebrootInv (s : Sys) (B : Bucket) : Prop where
  world : WebrootWorld P raw s.world B
  threads : ∀ t ∈ s.threads, WebrootThread P raw s.world B t

/-- An upload a `Work` thread makes: a file of a row's bundle under that row's webroot, or
the pointer document of a domain naming a complete deployment. -/
def SafeUpload (w : World) (B : Bucket) (k : String) (o : Object) : Prop :=
  (∃ p r b e, Anchored raw w p r ∧ B.get (bundlePath p r) = some b ∧ e ∈ files P b ∧
    k = remotePath p e.name ∧ o = entryObject P e) ∨
  ∃ domain p r f, Path.Real domain.data ∧ k = metaKey domain ∧ Anchored raw w p r ∧ Complete P B p r ∧
    o.body = metaJson p f

/-- An effect a `Work` thread makes: a safe upload, the commit of a complete deployment,
or an effect that writes neither the bucket nor the tables. -/
def Safe (w : World) (B : Bucket) : Effect → Prop
  | .upload k o => SafeUpload P raw w B k o
  | .activate i state _ _ => state = .deployed ∧ ∃ d, w.deployments i = some d ∧ Complete P B d.prefixID (raw i)
  | .download _ | .publish _ | .track _ => True
  | .enqueue _ | .insertDeployment _ | .updateState _ _ | .lock _ => False

/-- No deploy request reaches `Create`, and every job enqueued selects its bundle. -/
def Allowed (s : Sys) : Move → Prop
  | .submit _ => False
  | .post data => JobOk raw s.world data
  | _ => True

def AllowedReachable (s₀ : Sys) : Sys → Prop :=
  Relation.ReflTransGen (fun s s' => ∃ m, Allowed raw s m ∧ step P s m = some s') s₀

end Webroot

variable {P : Platform} {raw : Nat → Bool} {w : World} {B : Bucket}

theorem mem_files {b : Object} {e : TarEntry} (inBundle : e ∈ P.untar b.body) (file : e.isDir = false) :
    e ∈ files P b :=
  List.mem_filter.mpr ⟨inBundle, by simp [file]⟩

/-! ### Keys -/

theorem remotePath_ne_bundlePath_of {p p' n : String} {r : Bool} (h : '/' ∉ p.data) (h' : '/' ∉ p'.data) :
    remotePath p n ≠ bundlePath p' r := by
  intro same
  rw [remotePath_eq, bundlePath_eq] at same
  obtain ⟨rfl, -⟩ := namespaceKey_inj h h' same
  exact remotePath_ne_bundlePath p n r (by rwa [remotePath_eq, bundlePath_eq])

theorem metaKey_ne_bundlePath (dom p : String) (r : Bool) : metaKey dom ≠ bundlePath p r := by
  rw [bundlePath_eq]; exact metaKey_ne_namespaceKey _ _ _

/-! ### Prefixes of rows -/

section Rows

variable (inv : WebrootWorld P raw w B) {p : String} {r : Bool}
include inv

theorem Anchored.slashFree (h : Anchored raw w p r) : '/' ∉ p.data := by
  obtain ⟨i, d, row, rfl, -⟩ := h
  exact slash_not_mem_prefixID (inv.slashFree i d row)

theorem Anchored.real (h : Anchored raw w p r) : Path.Real p.data := by
  obtain ⟨i, d, row, rfl, -⟩ := h
  exact real_prefixID (inv.slashFree i d row)

end Rows

theorem Anchored.unique {p : String} {r r' : Bool} (keyed : w.Keyed) (h : Anchored raw w p r)
    (h' : Anchored raw w p r') : r = r' := by
  obtain ⟨i, d, row, rfl, rfl⟩ := h
  obtain ⟨i', d', row', same, rfl⟩ := h'
  rw [← keyed.deployments _ _ row, ← keyed.deployments _ _ row', (prefixID_inj same).2]

theorem Held.anchored {l : Locals} (h : Held raw w l) : Anchored raw w l.depl.prefixID l.job.useRawBundle :=
  let ⟨raw, ⟨d, row, same⟩, _⟩ := h
  ⟨_, d, row, same, raw.symm⟩

/-! ### What an upload keeps -/

section Upload

variable (inv : WebrootWorld P raw w B) {k : String} {o : Object} (safe : SafeUpload P raw w B k o)
  {p : String} {r : Bool} (anchored : Anchored raw w p r)
include inv safe anchored

theorem SafeUpload.store : (w.apply (.upload k o)).store (bundlePath p r) = w.store (bundlePath p r) := by
  rw [World.apply_store]
  refine if_neg fun same => ?_
  rcases safe with ⟨p', r', b', e', anchored', -, -, rfl, -⟩ | ⟨dom, p', r', f, -, rfl, -, -, -⟩
  · exact remotePath_ne_bundlePath_of (anchored'.slashFree inv) (anchored.slashFree inv) same.symm
  · exact metaKey_ne_bundlePath _ _ _ same.symm

theorem SafeUpload.bucket : (B.put k o).get (bundlePath p r) = B.get (bundlePath p r) := by
  rw [Bucket.get_put, clean_bundlePath (anchored.real inv)]
  refine if_neg fun same => ?_
  rcases safe with ⟨p', r', b', e', anchored', bundle', mem, rfl, -⟩ | ⟨dom, p', r', f, real, rfl, -, -, -⟩
  · exact inside_ne_bundlePath (anchored'.slashFree inv) (anchored.slashFree inv)
      (inv.inside p' r' b' anchored' bundle' e' mem) r same.symm
  · rw [clean_metaKey real] at same
    exact metaKey_ne_bundlePath _ _ _ same.symm

/-- A file stays stored: an upload to its resolved key is of a file of the same bundle
resolving to the same key, since resolved keys inside a webroot name one row. -/
theorem Stored.upload {b : Object} {e : TarEntry} (h : Stored P B p b e) (bundle : B.get (bundlePath p r) = some b)
    (mem : e ∈ files P b) : Stored P (B.put k o) p b e := by
  have inside := inv.inside p r b anchored bundle e mem
  by_cases same : Path.clean (remotePath p e.name) = Path.clean k
  · rcases safe with ⟨p', r', b', e', anchored', bundle', mem', rfl, rfl⟩ | ⟨dom, p', r', f, real, rfl, -, -, -⟩
    · obtain rfl := inside_inj (anchored.slashFree inv) (anchored'.slashFree inv) inside
        (inv.inside p' r' b' anchored' bundle' e' mem') same
      obtain rfl := anchored.unique inv.keyed anchored'
      obtain rfl := Option.some.inj (bundle.symm.trans bundle')
      exact ⟨e', mem', same.symm, by rw [Bucket.get_put, if_pos same]⟩
    · rw [clean_metaKey real] at same
      exact absurd same (inside_ne_metaKey inside dom)
  · obtain ⟨e', mem', names, stored⟩ := h
    exact ⟨e', mem', names, by rw [Bucket.get_put, if_neg same]; exact stored⟩

end Upload

/-! ### What threads know, across the moves of others -/

section Kept

variable (P raw) in
/-- What a change of the world and the bucket keeps: the rows with their prefixes, deployed
ones deployed; the projects' domain names; the bundles of rows; and the files stored under
their webroots. -/
structure Kept (w : World) (B : Bucket) (w' : World) (B' : Bucket) : Prop where
  rows : ∀ j d, w.deployments j = some d →
    ∃ d', w'.deployments j = some d' ∧ d'.prefixID = d.prefixID ∧ (d.state = .deployed → d'.state = .deployed)
  domains : w'.domainNames = w.domainNames
  store : ∀ p r, Anchored raw w p r → w'.store (bundlePath p r) = w.store (bundlePath p r)
  bucket : ∀ p r, Anchored raw w p r → B'.get (bundlePath p r) = B.get (bundlePath p r)
  stored : ∀ p r b e, Anchored raw w p r → B.get (bundlePath p r) = some b → e ∈ files P b →
    Stored P B p b e → Stored P B' p b e

variable {w' : World} {B' : Bucket}

theorem Kept.of_eq (store : w'.store = w.store) (rows : w'.deployments = w.deployments)
    (domains : w'.domainNames = w.domainNames) : Kept P raw w B w' B :=
  ⟨fun _ d row => ⟨d, by rw [rows]; exact row, rfl, id⟩, domains, fun _ _ _ => by rw [store],
    fun _ _ _ => rfl, fun _ _ _ _ _ _ _ stored => stored⟩

theorem Kept.anchored {p : String} {r : Bool} (kept : Kept P raw w B w' B') (h : Anchored raw w p r) :
    Anchored raw w' p r := by
  obtain ⟨i, d, row, rfl, rfl⟩ := h
  obtain ⟨d', row', same, -⟩ := kept.rows i d row
  exact ⟨i, d', row', same, rfl⟩

theorem Kept.complete {p : String} {r : Bool} (kept : Kept P raw w B w' B') (anchored : Anchored raw w p r)
    (h : Complete P B p r) : Complete P B' p r := by
  intro b bundle e mem
  rw [kept.bucket p r anchored] at bundle
  exact kept.stored p r b e anchored bundle mem (h b bundle e mem)

theorem Kept.held {l : Locals} (kept : Kept P raw w B w' B') (h : Held raw w l) : Held raw w' l := by
  obtain ⟨selects, ⟨d, row, same⟩, names⟩ := h
  obtain ⟨d', row', same', -⟩ := kept.rows _ d row
  exact ⟨selects, ⟨d', row', same'.trans same⟩, by rwa [kept.domains]⟩

theorem Kept.deployed {j : Nat} (kept : Kept P raw w B w' B')
    (h : ∃ d, w.deployments j = some d ∧ d.state = .deployed) :
    ∃ d, w'.deployments j = some d ∧ d.state = .deployed := by
  obtain ⟨d, row, live⟩ := h
  obtain ⟨d', row', -, live'⟩ := kept.rows j d row
  exact ⟨d', row', live' live⟩

theorem Kept.jobOk {data : JsonValue} (kept : Kept P raw w B w' B') (h : JobOk raw w data) : JobOk raw w' data :=
  fun job decoded => ⟨(h job decoded).1, fun skip => kept.deployed ((h job decoded).2 skip)⟩

theorem Kept.loop {l : Locals} {entries : List TarEntry} (kept : Kept P raw w B w' B') (held : Held raw w l)
    (h : Loop P B l entries) : Loop P B' l entries := by
  obtain ⟨b, bundle, done, split, stored⟩ := h
  refine ⟨b, (kept.bucket _ _ held.anchored).trans bundle, done, split, fun e mem file => ?_⟩
  exact kept.stored _ _ b e held.anchored bundle (mem_files (split ▸ List.mem_append_left _ mem) file)
    (stored e mem file)

theorem Kept.done {l : Locals} (kept : Kept P raw w B w' B') (h : Done P raw w B l) : Done P raw w' B' l :=
  ⟨kept.held h.1, kept.complete h.1.anchored h.2⟩

theorem Kept.workOk {pc : Pc} (kept : Kept P raw w B w' B') (h : WorkOk P raw w B pc) :
    WorkOk P raw w' B' pc := by
  cases pc with
  | start data => exact kept.jobOk h
  | loadDeployment job => exact ⟨h.1, fun skip => kept.deployed (h.2 skip)⟩
  | loadProject job depl =>
    obtain ⟨same, selects, d, row, named, live⟩ := h
    obtain ⟨d', row', named', live'⟩ := kept.rows _ d row
    exact ⟨same, selects, d', row', named'.trans named, fun skip => live' (live skip)⟩
  | download l => exact kept.held h
  | next l entries => exact ⟨kept.held h.1, kept.loop h.1 h.2⟩
  | upload l e rest => exact ⟨kept.held h.1, h.2.1, kept.loop h.1 h.2.2⟩
  | domainNames l | publish l _ | begin l | updateState l | updateProject l _ | commit l _ => exact kept.done h
  | putMeta l _ _ _ reader => exact ⟨kept.done h.1, h.2⟩
  | loadUser _ _ | track _ _ _ | done _ => trivial

theorem Kept.thread {t : Thread} (kept : Kept P raw w B w' B') (h : WebrootThread P raw w B t) :
    WebrootThread P raw w' B' t := by
  cases t with
  | work pc => exact kept.workOk h
  | create _ => exact h.elim

end Kept

theorem kept_of_safe (inv : WebrootWorld P raw w B) {e : Effect} (safe : Safe P raw w B e) :
    Kept P raw w B (w.apply e) (B.record e) := by
  have domains : (w.apply e).domainNames = w.domainNames := funext (World.domainNames_apply w e)
  cases e with
  | upload k o =>
    exact ⟨fun _ d row => ⟨d, row, rfl, id⟩, domains, fun _ _ => SafeUpload.store inv safe,
      fun _ _ => SafeUpload.bucket inv safe, fun _ _ _ _ anchored bundle mem stored =>
        stored.upload inv safe anchored bundle mem⟩
  | activate i state t pid =>
    refine ⟨fun j d row => ?_, domains, fun _ _ _ => rfl, fun _ _ _ => rfl, fun _ _ _ _ _ _ _ stored => stored⟩
    obtain ⟨rfl, -⟩ := safe
    rw [World.apply_activate_deployments, row]
    split
    · exact ⟨_, rfl, rfl, fun _ => rfl⟩
    · exact ⟨d, rfl, rfl, id⟩
  | download _ | publish _ | track _ => exact Kept.of_eq rfl rfl domains
  | enqueue _ | insertDeployment _ | updateState _ _ | lock _ => exact safe.elim

/-- A row after an effect of a `Work` thread was a row before, with the same prefix, and if
it is deployed now it was deployed before or is the complete row just committed. -/
theorem rows_of_safe {e : Effect} (safe : Safe P raw w B e) {i : Nat} {d' : Deployment}
    (row : (w.apply e).deployments i = some d') :
    ∃ d, w.deployments i = some d ∧ d'.randomPrefix = d.randomPrefix ∧ d'.prefixID = d.prefixID ∧
      (d'.state = .deployed → d.state = .deployed ∨ Complete P B d.prefixID (raw i)) := by
  cases e with
  | activate i' state t pid =>
    obtain ⟨rfl, d₀, row₀, complete⟩ := safe
    rw [World.apply_activate_deployments] at row
    split at row
    · next same =>
      subst same
      obtain ⟨d, old, rfl⟩ := Option.map_eq_some'.mp row
      obtain rfl := Option.some.inj (row₀.symm.trans old)
      exact ⟨d₀, old, rfl, rfl, fun _ => .inr complete⟩
    · exact ⟨d', row, rfl, rfl, .inl⟩
  | upload k o | download k | publish _ | track _ => exact ⟨d', row, rfl, rfl, .inl⟩
  | enqueue _ | insertDeployment _ | updateState _ _ | lock _ => exact safe.elim

theorem Anchored.of_safe {e : Effect} (safe : Safe P raw w B e) {p : String} {r : Bool}
    (h : Anchored raw (w.apply e) p r) : Anchored raw w p r := by
  obtain ⟨i, d', row, rfl, rfl⟩ := h
  obtain ⟨d, old, -, same, -⟩ := rows_of_safe safe row
  exact ⟨i, d, old, same.symm, rfl⟩

/-- A pointer document after an effect of a `Work` thread was there before, or was just
uploaded naming a complete deployment. -/
theorem pointer_of_safe (inv : WebrootWorld P raw w B) {e : Effect} (safe : Safe P raw w B e) {k : String}
    {o : Object} (real : Path.Real k.data) (found : (B.record e).get (metaKey k) = some o) :
    B.get (metaKey k) = some o ∨ ∃ p r f, Anchored raw w p r ∧ Complete P B p r ∧ o.body = metaJson p f := by
  cases e with
  | upload key o' =>
    rw [Bucket.record, Bucket.get_put] at found
    split at found
    · next same =>
      obtain rfl := Option.some.inj found
      rcases safe with ⟨p, r, b, e, anchored, bundle, mem, rfl, -⟩ | ⟨dom, p, r, f, -, rfl, anchored, complete, body⟩
      · rw [clean_metaKey real] at same
        exact absurd same.symm (inside_ne_metaKey (inv.inside p r b anchored bundle e mem) _)
      · exact .inr ⟨p, r, f, anchored, complete, body⟩
    · exact .inl found
  | _ => exact .inl found

theorem hosts_apply (hosts : ∀ k p, w.projects k = some p → ∀ n ∈ w.domainNames p, Path.Real n.data)
    (e : Effect) : ∀ k p, (w.apply e).projects k = some p → ∀ n ∈ (w.apply e).domainNames p, Path.Real n.data := by
  intro k p' found n mem
  obtain ⟨p, old, names⟩ := World.apply_projects_names found
  rw [World.domainNames_apply, names] at mem
  exact hosts k p old n mem

/-- Every effect of a `Work` thread keeps the world part of the invariant. -/
theorem WebrootWorld.apply (inv : WebrootWorld P raw w B) {e : Effect} (safe : Safe P raw w B e) :
    WebrootWorld P raw (w.apply e) (B.record e) := by
  have kept := kept_of_safe inv safe
  refine ⟨World.apply_keyed inv.keyed e, fun i d' row => ?_, hosts_apply inv.hosts e, fun p r anchored => ?_,
    fun p r b anchored bundle => ?_, fun i d' row live => ?_, fun k o real found i d' f row named => ?_,
    fun data mem => kept.jobOk (inv.queue data ?_)⟩
  · obtain ⟨d, old, same, -⟩ := rows_of_safe safe row
    exact same ▸ inv.slashFree i d old
  · have before := anchored.of_safe safe
    rw [kept.store p r before, kept.bucket p r before]
    exact inv.bundles p r before
  · have before := anchored.of_safe safe
    rw [kept.bucket p r before] at bundle
    exact inv.inside p r b before bundle
  · obtain ⟨d, old, -, same, was⟩ := rows_of_safe safe row
    rw [same]
    refine kept.complete ⟨i, d, old, rfl, rfl⟩ ?_
    rcases was live with live | complete
    · exact inv.deployed i d old live
    · exact complete
  · obtain ⟨d, old, -, same, -⟩ := rows_of_safe safe row
    rw [same] at named ⊢
    refine kept.complete ⟨i, d, old, rfl, rfl⟩ ?_
    rcases pointer_of_safe inv safe real found with before | ⟨p, r, f', anchored, complete, body⟩
    · exact inv.pointed k o real before i d f old named
    · obtain ⟨rfl, -⟩ := metaJson_inj (named.symm.trans body)
      rwa [anchored.unique inv.keyed ⟨i, d, old, rfl, rfl⟩] at complete
  · cases e <;> first | exact mem | exact safe.elim

/-! ### The thread that moves -/

theorem lockCheck_ok {l : Locals} (h : Done P raw w B l) : WorkOk P raw w B (lockCheck l) := by
  unfold lockCheck
  split
  · trivial
  · exact h

theorem metaLoop_ok {l : Locals} {names : List String} {reader : Reader} (h : Done P raw w B l)
    (data : reader.data = metaJson l.depl.prefixID l.proj.forceHTTPS) :
    ∀ rest, (∀ n ∈ rest, Path.Real n.data) → WorkOk P raw w B (metaLoop l names reader rest)
  | [], _ => by
    show WorkOk P raw w B (afterMeta l names)
    unfold afterMeta
    split <;> exact h
  | _ :: _, reals => ⟨h, data, reals⟩

theorem Loop.complete {l : Locals} (h : Loop P B l []) : Complete P B l.depl.prefixID l.job.useRawBundle := by
  obtain ⟨b, bundle, done, split, stored⟩ := h
  intro b' bundle' e mem
  obtain rfl := Option.some.inj (bundle.symm.trans bundle')
  obtain ⟨inBundle, file⟩ := List.mem_filter.mp mem
  rw [List.append_nil] at split
  exact stored e (split ▸ inBundle) (by simpa using file)

/-- One statement of a `Work` thread changes nothing, or makes one safe effect; what the
thread knows holds after it. -/
theorem workOk_step (inv : WebrootWorld P raw w B) {pc : Pc} (h : WorkOk P raw w B pc) (ok : Bool) :
    ((Deployer.step P ok w pc).2 = w ∧ WorkOk P raw w B (Deployer.step P ok w pc).1) ∨
      ∃ e, Safe P raw w B e ∧ (Deployer.step P ok w pc).2 = w.apply e ∧
        WorkOk P raw (w.apply e) (B.record e) (Deployer.step P ok w pc).1 := by
  cases ok
  · obtain ⟨r, stopped⟩ := step_false (P := P) w pc
    rw [stopped]
    exact .inl ⟨rfl, trivial⟩
  cases pc with
  | start data =>
    simp only [Deployer.step, ↓reduceIte]
    split
    · exact .inl ⟨rfl, trivial⟩
    · next job decoded => exact .inl ⟨rfl, h job decoded⟩
  | loadDeployment job =>
    simp only [Deployer.step, ↓reduceIte]
    split
    · exact .inl ⟨rfl, trivial⟩
    · next depl found =>
      have keyed := inv.keyed.deployments _ _ found
      split
      · exact .inl ⟨rfl, trivial⟩
      · refine .inl ⟨rfl, keyed, keyed ▸ h.1, depl, keyed ▸ found, rfl, fun skip => ?_⟩
        obtain ⟨d, row, live⟩ := h.2 skip
        rwa [← Option.some.inj (found.symm.trans row)] at live
  | loadProject job depl =>
    obtain ⟨-, selects, d, row, named, live⟩ := h
    simp only [Deployer.step, ↓reduceIte]
    split
    · exact .inl ⟨rfl, trivial⟩
    · next proj found =>
      have held : Held raw w ⟨job, depl, proj⟩ := ⟨selects, ⟨d, row, named⟩, inv.hosts _ proj found⟩
      refine .inl ⟨rfl, ?_⟩
      unfold afterLoad
      split
      · next skip =>
        have complete := inv.deployed _ d row (live skip)
        rw [named, ← selects] at complete
        exact lockCheck_ok ⟨held, complete⟩
      · split
        · trivial
        · exact held
  | download l =>
    simp only [Deployer.step, ↓reduceIte]
    split
    · exact .inl ⟨rfl, trivial⟩
    · next b bundle =>
      have kept := kept_of_safe (e := .download (bundlePath l.depl.prefixID l.job.useRawBundle)) inv trivial
      exact .inr ⟨.download _, trivial, rfl, kept.held h, b, (inv.bundles _ _ h.anchored).symm.trans bundle, [],
        rfl, fun _ no => nomatch no⟩
  | next l entries =>
    obtain ⟨held, b, bundle, done, split, stored⟩ := h
    simp only [Deployer.step, ↓reduceIte]
    split
    · exact .inl ⟨rfl, lockCheck_ok ⟨held, Loop.complete ⟨b, bundle, done, split, stored⟩⟩⟩
    · next e rest =>
      refine .inl ⟨rfl, ?_⟩
      split
      · next dir =>
        refine ⟨held, b, bundle, done ++ [e], by simpa using split, fun e' mem file => ?_⟩
        rcases List.mem_append.mp mem with old | new
        · exact stored e' old file
        · rw [List.mem_singleton.mp new, dir] at file
          cases file
      · next file => exact ⟨held, by simpa using file, b, bundle, done, split, stored⟩
  | upload l e rest =>
    obtain ⟨held, file, b, bundle, done, split, stored⟩ := h
    simp only [Deployer.step, ↓reduceIte]
    have mem : e ∈ files P b := mem_files (split ▸ List.mem_append_right _ (List.mem_cons_self _ _)) file
    have safe : SafeUpload P raw w B (remotePath l.depl.prefixID e.name) (entryObject P e) :=
      .inl ⟨_, _, b, e, held.anchored, bundle, mem, rfl, rfl⟩
    have kept := kept_of_safe (e := .upload _ _) inv safe
    refine .inr ⟨.upload _ _, safe, rfl, kept.held held, b, (kept.bucket _ _ held.anchored).trans bundle,
      done ++ [e], by simpa using split, fun e' mem' file' => ?_⟩
    rcases List.mem_append.mp mem' with old | new
    · exact kept.stored _ _ b e' held.anchored bundle
        (mem_files (split ▸ List.mem_append_left _ old) file') (stored e' old file')
    · obtain rfl := List.mem_singleton.mp new
      exact ⟨e', mem, rfl, B.get_put_self _ _⟩
  | domainNames l =>
    simp only [Deployer.step, ↓reduceIte]
    exact .inl ⟨trivial, metaLoop_ok h rfl _ h.1.2.2⟩
  | putMeta l names dom rest reader =>
    obtain ⟨done, data, reals⟩ := h
    simp only [Deployer.step, ↓reduceIte]
    have safe : SafeUpload P raw w B (metaKey dom) ⟨reader.rewind.rest, "application/json", "public-read"⟩ :=
      .inr ⟨dom, _, _, l.proj.forceHTTPS, reals dom (List.mem_cons_self _ _), rfl, done.1.anchored, done.2,
        by rw [← data]; rfl⟩
    have kept := kept_of_safe (e := .upload _ _) inv safe
    exact .inr ⟨.upload _ _, safe, rfl, metaLoop_ok (kept.done done) (show reader.rewind.drain.data = _ from data)
      rest fun n mem => reals n (List.mem_cons_of_mem _ mem)⟩
  | publish l names =>
    simp only [Deployer.step, ↓reduceIte]
    exact .inr ⟨.publish _, trivial, rfl, (kept_of_safe (e := .publish _) inv trivial).done h⟩
  | begin l | updateState l | updateProject l _ =>
    simp only [Deployer.step, ↓reduceIte]
    exact .inl ⟨trivial, h⟩
  | commit l now =>
    obtain ⟨⟨selects, ⟨d, row, named⟩, -⟩, complete⟩ := h
    simp only [Deployer.step, ↓reduceIte]
    refine .inr ⟨activation l now, ⟨rfl, d, row, ?_⟩, rfl, trivial⟩
    rw [named, ← selects]
    exact complete
  | loadUser l now =>
    simp only [Deployer.step]
    split <;> exact .inl ⟨rfl, trivial⟩
  | track l now u =>
    simp only [Deployer.step, ↓reduceIte]
    exact .inr ⟨.track _, trivial, rfl, trivial⟩
  | done r => exact .inl ⟨rfl, trivial⟩

/-! ### Every allowed move keeps the invariant -/

/-- One move keeps the invariant, over the bucket with the move's uploads. -/
theorem WebrootInv.step {s s' : Sys} {m : Move} (h : WebrootInv P raw s B) (allowed : Allowed raw s m)
    (moved : step P s m = some s') :
    ∃ es, s'.world.journal = s.world.journal ++ es ∧ WebrootInv P raw s' (B.replay es) := by
  have others : ∀ {w' B'}, Kept P raw s.world B w' B' → ∀ t ∈ s.threads, WebrootThread P raw w' B' t :=
    fun kept t mem => kept.thread (h.threads t mem)
  cases m with
  | run i ok =>
    obtain ⟨t, found, rfl⟩ := Option.map_eq_some'.mp moved
    cases t with
    | create pc => exact (h.threads _ (List.getElem?_mem found)).elim
    | work pc =>
      obtain ⟨es, journal, world, kept, own⟩ : ∃ es, (Deployer.step P ok s.world pc).2.journal = s.world.journal ++ es ∧
          WebrootWorld P raw (Deployer.step P ok s.world pc).2 (B.replay es) ∧
          Kept P raw s.world B (Deployer.step P ok s.world pc).2 (B.replay es) ∧
          WorkOk P raw (Deployer.step P ok s.world pc).2 (B.replay es) (Deployer.step P ok s.world pc).1 := by
        rcases workOk_step h.world (h.threads _ (List.getElem?_mem found)) ok with ⟨same, own⟩ | ⟨e, safe, applied, own⟩
        · rw [same]
          exact ⟨[], (List.append_nil _).symm, h.world, Kept.of_eq rfl rfl rfl, own⟩
        · rw [applied]
          exact ⟨[e], rfl, h.world.apply safe, kept_of_safe h.world safe, own⟩
      refine ⟨es, journal, world, fun u mem => ?_⟩
      rcases List.mem_or_eq_of_mem_set mem with old | rfl
      · exact others kept u old
      · exact own
  | deliver j =>
    obtain ⟨data, queued, rfl⟩ := Option.map_eq_some'.mp moved
    refine ⟨[], (List.append_nil _).symm, h.world, fun u mem => ?_⟩
    rcases List.mem_append.mp mem with old | new
    · exact h.threads u old
    · rw [List.mem_singleton.mp new]
      exact h.world.queue data (List.getElem?_mem queued)
  | post data =>
    cases moved
    have queue : ∀ data' ∈ s.world.deployQueue ++ [data], JobOk raw s.world data' := by
      intro data' mem
      rcases List.mem_append.mp mem with old | new
      · exact h.world.queue data' old
      · rw [List.mem_singleton.mp new]
        exact allowed
    exact ⟨[.enqueue data], rfl, { h.world with keyed := World.apply_keyed h.world.keyed _, queue },
      others (Kept.of_eq rfl rfl rfl)⟩
  | submit req => exact allowed.elim
  | lock p =>
    cases moved
    have world : WebrootWorld P raw (s.world.apply (.lock p)) B :=
      { h.world with keyed := World.apply_keyed h.world.keyed _, hosts := hosts_apply h.world.hosts _ }
    exact ⟨[.lock p], rfl, world, others (Kept.of_eq rfl rfl (funext (World.domainNames_apply _ _)))⟩
  | tick =>
    cases moved
    have world : WebrootWorld P raw { s.world with clock := s.world.clock + 1 } B :=
      { h.world with keyed := ⟨h.world.keyed.deployments, h.world.keyed.projects⟩ }
    exact ⟨[], (List.append_nil _).symm, world, others (Kept.of_eq rfl rfl rfl)⟩

theorem allowedReachable_inv {s₀ s : Sys} (h : AllowedReachable P raw s₀ s) (init : WebrootInv P raw s₀ B) :
    ∃ es, s.world.journal = s₀.world.journal ++ es ∧ WebrootInv P raw s (B.replay es) := by
  induction h with
  | refl => exact ⟨[], (List.append_nil _).symm, init⟩
  | tail _ moved ih =>
    obtain ⟨es, journal, inv⟩ := ih
    obtain ⟨m, allowed, moved⟩ := moved
    obtain ⟨es', journal', inv'⟩ := inv.step allowed moved
    exact ⟨es ++ es', by rw [journal', journal, List.append_assoc], by rwa [Bucket.replay_append]⟩

/-- Whatever `Work` runs interleave and whichever of their calls fail, a deployment that is
deployed, or whose prefix the pointer document of a domain names, has every file of its
bundle stored under its webroot: its resolved key holds a file of the bundle resolving to
the same key. The start has no thread and its live deployments are complete; the jobs select
their deployment's bundle and skip the webroot upload only for a deployment already
deployed; the bundles' entry names resolve inside their webroots, and the start's store and
bucket agree on the bundles of rows. -/
theorem live_webroot_complete {s₀ s : Sys} {B₀ : Bucket} (h : AllowedReachable P raw s₀ s)
    (init : WebrootWorld P raw s₀.world B₀) (idle : s₀.threads = []) :
    ∀ i d, s.world.deployments i = some d →
      (d.state = .deployed ∨ ∃ k o f, Path.Real k.data ∧ (bucketAt B₀ s₀ s).get (metaKey k) = some o ∧
        o.body = metaJson d.prefixID f) →
      Complete P (bucketAt B₀ s₀ s) d.prefixID (raw i) := by
  obtain ⟨es, journal, inv⟩ := allowedReachable_inv h ⟨init, by simp [idle]⟩
  rw [bucketAt, journal, List.drop_left]
  rintro i d row (live | ⟨k, o, f, real, found, named⟩)
  · exact inv.world.deployed i d row live
  · exact inv.world.pointed k o real found i d f row named

/-- The small site, whose deployments are pending and whose domains have no pointer
document yet, with every job from a raw bundle, for any archive format whose files resolve
inside both webroots. -/
theorem site_webroot (inside : ∀ e ∈ files P ⟨"tar", "application/gzip", "private"⟩,
    Inside "ab12-42" e.name ∧ Inside "cd34-43" e.name) :
    WebrootWorld P (fun _ => true) site.world (Bucket.ofStore site.world) := by
  have slashFree : ∀ i d, site.world.deployments i = some d → '/' ∉ d.randomPrefix.data := by
    intro i d row
    simp only [site, siteWorld] at row
    split_ifs at row <;> cases row <;> decide
  refine ⟨site_keyed, slashFree, fun k p found => ?_, fun p r ⟨i, d, row, named, _⟩ => ?_,
    fun p r b ⟨i, d, row, named, _⟩ bundle e mem => ?_, fun i d row live => ?_, fun k o real found => ?_,
    fun _ queued => ?_⟩
  · simp only [site, siteWorld] at found
    split_ifs at found
    cases found
    decide
  · rw [Bucket.ofStore_get, clean_bundlePath (named ▸ real_prefixID (slashFree i d row))]
  · have tar : b = ⟨"tar", "application/gzip", "private"⟩ := by
      simp only [Bucket.ofStore_get, site, siteWorld] at bundle
      split_ifs at bundle
      exact (Option.some.inj bundle).symm
    subst tar
    simp only [site, siteWorld] at row
    split_ifs at row <;> cases row <;> subst named
    · exact (inside e mem).1
    · exact (inside e mem).2
  · simp only [site, siteWorld] at row
    split_ifs at row <;> cases row <;> cases live
  · rw [Bucket.ofStore_get, clean_metaKey real] at found
    simp only [site, siteWorld] at found
    split_ifs at found with bundle
    rcases bundle with same | same <;>
      exact absurd (congrArg (fun key : String => key.data.take 2) same) (by simp [metaKey])
  · cases queued

def Move.isWorker : Move → Bool
  | .run _ _ | .deliver _ | .lock _ | .tick => true
  | .post _ | .submit _ => false

theorem allowedReachable_of_runMoves {s₀ s : Sys} {ms : List Move} (workers : ms.all Move.isWorker = true)
    (replay : runMoves P s₀ ms = some s) : AllowedReachable P raw s₀ s := by
  induction ms generalizing s₀ with
  | nil => cases replay; exact .refl
  | cons m ms ih =>
    simp only [List.all_cons, Bool.and_eq_true] at workers
    obtain ⟨s₁, moved, rest⟩ := Option.bind_eq_some.mp replay
    have allowed : Allowed raw s₀ m := by
      cases m <;> first | trivial | exact absurd workers.1 Bool.false_ne_true
    exact .head ⟨m, allowed, moved⟩ (ih workers.2 rest)

theorem allowed_reach_of_run {s₀ : Sys} {ms : List Move} {p : Sys → Bool} (workers : ms.all Move.isWorker = true)
    (h : (runMoves P s₀ ms).map p = some true) : ∃ s, AllowedReachable P raw s₀ s ∧ p s = true := by
  obtain ⟨s, replay, holds⟩ := Option.map_eq_some'.mp h
  exact ⟨s, allowedReachable_of_runMoves workers replay, holds⟩

theorem posted_site (P : Platform) :
    AllowedReachable P (fun _ => true) site ⟨siteWorld.apply (.enqueue (rawJob 42)), []⟩ := by
  refine .single ⟨.post (rawJob 42), fun job decoded => ?_, rfl⟩
  obtain rfl := Option.some.inj ((DeployJobData.unmarshal_toJson _).symm.trans decoded)
  exact ⟨rfl, fun skip => nomatch skip⟩

/-- Deployment 42 of the small site, deployed by a run of its job, has a complete webroot,
and its bundle is in the bucket. -/
theorem live_webroot_complete_site :
    ∃ s d, AllowedReachable scenarioPlatform (fun _ => true) site s ∧ s.world.deployments 42 = some d ∧
      d.state = .deployed ∧ ((bucketAt (Bucket.ofStore site.world) site s).get (bundlePath d.prefixID true)).isSome ∧
      Complete scenarioPlatform (bucketAt (Bucket.ofStore site.world) site s) d.prefixID true := by
  obtain ⟨s, reached, holds⟩ := @allowed_reach_of_run scenarioPlatform (fun _ => true)
    ⟨siteWorld.apply (.enqueue (rawJob 42)), []⟩ (.deliver 0 :: List.replicate 18 (.run 0 true))
    (fun s => (s.world.deployments 42).map (fun d => (d.state, d.prefixID)) == some (.deployed, "ab12-42") &&
      ((bucketAt (Bucket.ofStore site.world) site s).get (bundlePath "ab12-42" true)).isSome) rfl (by decide)
  simp only [Bool.and_eq_true, beq_iff_eq] at holds
  obtain ⟨d, row, named⟩ := Option.map_eq_some'.mp holds.1
  simp only [Prod.mk.injEq] at named
  have reachedSite := (posted_site scenarioPlatform).trans reached
  exact ⟨s, d, reachedSite, row, named.1, named.2 ▸ holds.2,
    live_webroot_complete reachedSite (site_webroot (by decide)) rfl 42 d row (.inl named.1)⟩

/-! ### A duplicate rewritten after the commit -/

/-- Archives holding `index.html` twice, first `old`, then `new`. -/
def duplicatePlatform : Platform :=
  ⟨fun _ => [⟨"index.html", false, "old"⟩, ⟨"index.html", false, "new"⟩], scenarioPlatform.typeByExtension⟩

/-- The worker takes the Deploy job of deployment 42 twice. The second run loads the
deployment; the first runs to the end; then the second downloads the bundle, uploads the
first `index.html` and fails. -/
def lateDuplicate : List Move :=
  [.deliver 0, .deliver 0] ++ List.replicate 3 (.run 1 true) ++
    List.replicate 18 (.run 0 true) ++ List.replicate 3 (.run 1 true) ++ [.run 1 false]

/-- An allowed run from the small site, where every file resolves inside its webroot:
deployment 42 is deployed and its domain's pointer document names it, but its `index.html`
holds `old`, not the content of the archive's last `index.html`. -/
theorem late_duplicate_overwrites :
    ∃ s, AllowedReachable duplicatePlatform (fun _ => true) site s ∧
      WebrootWorld duplicatePlatform (fun _ => true) site.world (Bucket.ofStore site.world) ∧
      s.threads.map Thread.returnedNil = [true, false] ∧
      (s.world.deployments 42).map (·.state) = some .deployed ∧
      ((bucketAt (Bucket.ofStore site.world) site s).get (metaKey "foo.rise.cloud")).map (·.body) =
        some (metaJson "ab12-42" false) ∧
      (duplicatePlatform.untar "tar").getLast? = some ⟨"index.html", false, "new"⟩ ∧
      ((bucketAt (Bucket.ofStore site.world) site s).get (remotePath "ab12-42" "index.html")).map (·.body) =
        some "old" := by
  obtain ⟨s, reached, holds⟩ := @allowed_reach_of_run duplicatePlatform (fun _ => true)
    ⟨siteWorld.apply (.enqueue (rawJob 42)), []⟩ lateDuplicate
    (fun s => s.threads.map Thread.returnedNil == [true, false] &&
      (s.world.deployments 42).map (·.state) == some .deployed &&
      ((bucketAt (Bucket.ofStore site.world) site s).get (metaKey "foo.rise.cloud")).map (·.body) ==
        some (metaJson "ab12-42" false) &&
      ((bucketAt (Bucket.ofStore site.world) site s).get (remotePath "ab12-42" "index.html")).map (·.body) ==
        some "old") rfl (by decide)
  simp only [Bool.and_eq_true, beq_iff_eq] at holds
  exact ⟨s, (posted_site _).trans reached, site_webroot (by decide), holds.1.1.1, holds.1.1.2, holds.1.2, rfl,
    holds.2⟩

end Pubstorm.System
