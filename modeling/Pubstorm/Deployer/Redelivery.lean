import Pubstorm.Deployer.Success

/-!
# Redelivery

The Deploy queue delivers at least once, so one job may run many times, one run after
another, each failing at any call. Every run applies a prefix of what the run without
failures applies, and a run that returns nil applies all of it but the analytics event.
Before the first run that returns nil the tables are untouched and the bucket differs from
the start only under keys the run without failures writes; that run writes all of them, so
after it the bucket and the tables are those of one run without failures, up to times.
Later runs change nothing but times: without `skip_webroot_upload` the state check turns
them away, with it they write again what is there.
-/

namespace Pubstorm.Deployer

variable {P : Platform}

/-! ### Every run is a run without failures cut short -/

theorem runs_cases {s t : Pc × World} (h : Runs P s t) :
    OkRuns P s t ∨ ∃ pc w, OkRuns P s (pc, w) ∧ t = step P false w pc := by
  induction h with
  | refl => exact .inl .refl
  | tail _ moved ih =>
    obtain ⟨ok, rfl⟩ := moved
    rcases ih with clean | ⟨pc, w, clean, rfl⟩
    · cases ok
      · exact .inr ⟨_, _, clean, rfl⟩
      · exact .inl (clean.tail rfl)
    · obtain ⟨r, stopped⟩ := step_false (P := P) w pc
      refine .inr ⟨pc, w, clean, ?_⟩
      rw [stopped]
      rfl

/-- A statement applies at most one effect. -/
theorem step_applies (ok : Bool) (w : World) (pc : Pc) : ∃ es, (step P ok w pc).2 = w.applyAll es := by
  rcases step_world (P := P) ok w pc with ⟨l, now, -, -, moved⟩ | ⟨-, same | ⟨e, -, moved⟩⟩
  · exact ⟨[_], moved⟩
  · exact ⟨[], same⟩
  · exact ⟨[e], moved⟩

theorem runs_applies {s t : Pc × World} (h : Runs P s t) : ∃ es, t.2 = s.2.applyAll es := by
  induction h with
  | refl => exact ⟨[], rfl⟩
  | tail _ moved ih =>
    obtain ⟨es, before⟩ := ih
    obtain ⟨ok, rfl⟩ := moved
    obtain ⟨es', applied⟩ := step_applies (P := P) ok _ _
    exact ⟨es ++ es', by rw [applied, before, World.applyAll_append]⟩

/-- The journal tells which effects happened. -/
theorem applyAll_inj {w : World} {es es' : List Effect} (h : w.applyAll es = w.applyAll es') : es = es' := by
  simpa [World.applyAll_journal] using congrArg World.journal h

/-- After the commit `Work` only loads the user and sends the analytics event. -/
theorem step_postCommit_track {pc : Pc} (post : pc.PostCommit) (ok : Bool) (w : World) :
    ∃ es, (step P ok w pc).2 = w.applyAll es ∧ ∀ e ∈ es, ∃ ev, e = .track ev := by
  cases pc with
  | loadUser l now => exact ⟨[], by simp only [step]; split <;> rfl, by simp⟩
  | track l now u => cases ok
                     · exact ⟨[], rfl, by simp⟩
                     · exact ⟨[_], rfl, by simp⟩
  | done r => exact ⟨[], rfl, by simp⟩
  | _ => exact post.elim

theorem runs_postCommit_track {s t : Pc × World} (h : Runs P s t) (post : s.1.PostCommit) :
    ∃ es, t.2 = s.2.applyAll es ∧ ∀ e ∈ es, ∃ ev, e = .track ev := by
  induction h with
  | refl => exact ⟨[], rfl, by simp⟩
  | tail before moved ih =>
    obtain ⟨es, reached, only⟩ := ih
    obtain ⟨ok, rfl⟩ := moved
    obtain ⟨es', applied, only'⟩ := step_postCommit_track (P := P) (runs_postCommit before post) ok _
    refine ⟨es ++ es', by rw [applied, reached, World.applyAll_append], fun e mem => ?_⟩
    rcases List.mem_append.mp mem with old | new
    · exact only e old
    · exact only' e new

/-- Whatever calls fail, a run of `Work` alone applies a prefix of what the run without
failures applies. When it returns nil, so does the run without failures, and what the
run left out is at most the analytics event. -/
theorem runs_prefix {data : JsonValue} {w w' : World} {r : Except WorkError Unit}
    (h : Runs P (.start data, w) (.done r, w')) :
    ∃ es rest, es ++ rest = (workPlan P w data).1 ∧ w' = w.applyAll es ∧
      (r = .ok () → (workPlan P w data).2 = .ok () ∧ ∀ e ∈ rest, ∃ ev, e = .track ev) := by
  have full := okRuns_start (P := P) data w
  rcases runs_cases h with clean | ⟨pc, w₁, clean, stopped⟩
  · obtain ⟨rfl, rfl⟩ := okRuns_unique clean full
    exact ⟨_, [], List.append_nil _, rfl, fun nil => ⟨nil, by simp⟩⟩
  obtain ⟨r₁, stop⟩ := step_false (P := P) w₁ pc
  rw [stop] at stopped
  simp only [Prod.mk.injEq, Pc.done.injEq] at stopped
  obtain ⟨rfl, rfl⟩ := stopped
  rcases Relation.ReflTransGen.total_of_right_unique (fun _ _ _ b c => b.symm.trans c) clean full with
    after | before
  · -- the run stopped on the way
    obtain ⟨es, reached⟩ := runs_applies clean.runs
    obtain ⟨rest, finished⟩ := runs_applies (OkRuns.runs after)
    refine ⟨es, rest, applyAll_inj (w := w) ?_, reached, fun nil => ?_⟩
    · rw [World.applyAll_append, ← reached]
      exact finished.symm
    · -- it stopped after the commit, at the user lookup or the analytics call
      have post : pc.PostCommit := by
        have stopsNil := (step_postCommit (P := P) false w' pc).mp (by rw [stop]; exact (done_postCommit _).mpr nil)
        simpa [Pc.IsCommit] using stopsNil
      refine ⟨(done_postCommit _).mp (runs_postCommit (OkRuns.runs after) post), ?_⟩
      obtain ⟨tracks, finished', only⟩ := runs_postCommit_track (OkRuns.runs after) post
      exact applyAll_inj (finished.symm.trans finished') ▸ only
  · -- the run without failures had already ended
    obtain ⟨rfl, rfl⟩ := Prod.mk.inj (okRuns_from_done before)
    simp only [step, Pc.done.injEq, Prod.mk.injEq] at stop
    obtain ⟨rfl, -⟩ := stop
    exact ⟨_, [], List.append_nil _, rfl, fun nil => ⟨nil, by simp⟩⟩

/-! ### Where a run writes in the bucket -/

theorem upload_mem_webrootEffects {types : String → String} {p k : String} {o : Object}
    {entries : List TarEntry} (h : .upload k o ∈ webrootEffects types p entries) : ∃ name, k = remotePath p name := by
  obtain ⟨e, -, same⟩ := List.mem_map.mp h
  exact ⟨e.name, (Effect.upload.inj same).1.symm⟩

theorem upload_mem_publishPlan {w : World} {l : Locals} {k : String} {o : Object}
    (h : .upload k o ∈ (publishPlan w l).1) : ∃ d, k = metaKey d := by
  simp only [publishPlan] at h
  split at h
  · cases h
  · simp only [List.mem_append, List.mem_cons, trackEffects, metaEffects, List.mem_map] at h
    rcases h with (⟨d, -, same⟩ | publish) | activated | tracked
    · exact ⟨d, (Effect.upload.inj same).1.symm⟩
    · split at publish <;> simp at publish
    · cases activated
    · split at tracked <;> simp at tracked

/-- The run without failures uploads under the webroot of the deployment it reads and to
pointer documents, nowhere else. -/
theorem workPlan_upload_key {w : World} {data : JsonValue} {k : String} {o : Object}
    (h : .upload k o ∈ (workPlan P w data).1) :
    ∃ job depl, DeployJobData.unmarshal data = some job ∧ w.deployments job.deploymentId = some depl ∧
      ((∃ name, k = remotePath depl.prefixID name) ∨ ∃ d, k = metaKey d) := by
  simp only [workPlan] at h
  split at h
  · cases h
  · next job decoded =>
    split at h
    · cases h
    · next depl found =>
      refine ⟨job, depl, decoded, found, ?_⟩
      split at h
      · cases h
      · split at h
        · cases h
        · split at h
          · exact .inr (upload_mem_publishPlan h)
          · split at h
            · cases h
            · split at h
              · cases h
              · simp only [List.mem_cons, List.mem_append] at h
                rcases h with (downloaded | webroot) | published
                · cases downloaded
                · exact .inl (upload_mem_webrootEffects webroot)
                · exact .inr (upload_mem_publishPlan published)

/-- The bundle is not where a run of its deployment writes. -/
theorem bundlePath_ne_upload {p : String} {raw : Bool} {k : String}
    (h : (∃ name, k = remotePath p name) ∨ ∃ d, k = metaKey d) : bundlePath p raw ≠ k := by
  rintro rfl
  rcases h with ⟨name, same⟩ | ⟨d, same⟩
  · exact remotePath_ne_bundlePath p name raw same.symm
  · exact metaKey_ne_namespaceKey d p _ (same.symm.trans (bundlePath_eq p raw))

/-! ### What the run without failures reads -/

theorem publishPlan_congr {w w' : World} (domains : w.domains = w'.domains) (users : w.users = w'.users)
    (clock : w.clock = w'.clock) (l : Locals) : publishPlan w l = publishPlan w' l := by
  simp [publishPlan, World.domainNames, trackEffects, domains, users, clock]

/-- The run without failures reads the two tables, the domains, the users, the clock and
the bundle, and nothing else. -/
theorem workPlan_congr {w w' : World} {data : JsonValue} (deployments : w.deployments = w'.deployments)
    (projects : w.projects = w'.projects) (domains : w.domains = w'.domains) (users : w.users = w'.users)
    (clock : w.clock = w'.clock)
    (bundles : ∀ job depl, DeployJobData.unmarshal data = some job → w.deployments job.deploymentId = some depl →
      w.store (bundlePath depl.prefixID job.useRawBundle) = w'.store (bundlePath depl.prefixID job.useRawBundle)) :
    workPlan P w data = workPlan P w' data := by
  simp only [workPlan, ← deployments, ← projects, publishPlan_congr domains users clock]
  split
  · rfl
  · next job decoded =>
    split
    · rfl
    · next depl found => rw [bundles job depl decoded found]

/-! ### The bucket and the tables after a list of effects -/

theorem applyAll_store_of_not_uploaded {w : World} {es : List Effect} {k : String}
    (fresh : ∀ o, .upload k o ∉ es) : (w.applyAll es).store k = w.store k := by
  induction es generalizing w with
  | nil => rfl
  | cons e es ih =>
    rw [World.applyAll_cons, ih fun o mem => fresh o (List.mem_cons_of_mem _ mem), World.apply_store]
    cases e with
    | upload k' o =>
      have other : k ≠ k' := by rintro rfl; exact fresh o (List.mem_cons_self _ _)
      exact if_neg other
    | _ => rfl

/-- Bucket states that agree outside the keys a list of effects uploads to agree after it. -/
theorem applyAll_store_congr {w w' : World} {es : List Effect}
    (agree : ∀ k, (∀ o, .upload k o ∉ es) → w.store k = w'.store k) :
    (w.applyAll es).store = (w'.applyAll es).store := by
  induction es generalizing w w' with
  | nil => funext k; exact agree k (by simp)
  | cons e es ih =>
    refine ih fun k fresh => ?_
    rw [World.apply_store, World.apply_store]
    have earlier : (∀ o, .upload k o ≠ e) → w.store k = w'.store k := fun other =>
      agree k fun o mem => (List.mem_cons.mp mem).elim (other o) (fresh o)
    cases e with
    | upload k' o =>
      dsimp only
      split_ifs with same
      · rfl
      · exact earlier fun o' up => same (Effect.upload.inj up).1
    | _ => exact earlier fun _ same => nomatch same

/-- When every upload to `k` in a list carries `o`, and there is one, `k` holds `o` after it. -/
theorem applyAll_store_of_uploads {w : World} {es : List Effect} {k : String} {o : Object}
    (some_upload : .upload k o ∈ es) (only : ∀ o', .upload k o' ∈ es → o' = o) :
    (w.applyAll es).store k = some o := by
  induction es generalizing w with
  | nil => cases some_upload
  | cons e es ih =>
    rw [World.applyAll_cons]
    by_cases later : ∃ o', .upload k o' ∈ es
    · obtain ⟨o', mem⟩ := later
      obtain rfl := only o' (List.mem_cons_of_mem _ mem)
      exact ih mem fun o'' mem' => only o'' (List.mem_cons_of_mem _ mem')
    · push_neg at later
      have first : e = .upload k o := by
        rcases List.mem_cons.mp some_upload with same | mem
        · exact same.symm
        · exact absurd mem (later o)
      rw [applyAll_store_of_not_uploaded later, first, World.apply_store]
      exact if_pos rfl

theorem apply_tables_congr {w w' : World} (deployments : w.deployments = w'.deployments)
    (projects : w.projects = w'.projects) {e : Effect} (noLock : ∀ p, e ≠ .lock p) :
    (w.apply e).deployments = (w'.apply e).deployments ∧ (w.apply e).projects = (w'.apply e).projects := by
  cases e <;> simp_all [World.apply, World.write, World.updateDeployment, World.updateProject]

/-- Analytics events change neither the bucket nor the tables. -/
theorem applyAll_tracks {w : World} {es : List Effect} (tracks : ∀ e ∈ es, ∃ ev, e = .track ev) :
    (w.applyAll es).store = w.store ∧ (w.applyAll es).deployments = w.deployments ∧
      (w.applyAll es).projects = w.projects := by
  induction es generalizing w with
  | nil => exact ⟨rfl, rfl, rfl⟩
  | cons e es ih =>
    obtain ⟨ev, rfl⟩ := tracks e (List.mem_cons_self _ _)
    exact ih fun e mem => tracks e (List.mem_cons_of_mem _ mem)

/-- A property every effect of a list keeps holds after the list. -/
theorem applyAll_preserves {Q : World → Prop} {w : World} {es : List Effect} (init : Q w)
    (step : ∀ v, ∀ e ∈ es, Q v → Q (v.apply e)) : Q (w.applyAll es) := by
  induction es generalizing w with
  | nil => exact init
  | cons e es ih =>
    exact ih (step w e (List.mem_cons_self _ _) init) fun v e' mem => step v e' (List.mem_cons_of_mem _ mem)

/-! ### The run without failures at another time -/

/-- What the run without failures does before its commit writes no table and depends
neither on the time nor on the user. -/
theorem listedEffects_split (l : Locals) (body : String) (names : List String) :
    ∃ pre, (∀ now user, listedEffects P l body names now user =
      pre ++ .activate l.depl.id .deployed (some now) l.proj.id ::
        (match user with
          | some u => [.track (deployedEvent l now u)]
          | none => [])) ∧ ∀ e ∈ pre, e.KeepsTables := by
  refine ⟨_, fun _ _ => rfl, fun e mem => ?_⟩
  rcases List.mem_append.mp mem with webroot | published
  · rcases List.mem_append.mp webroot with downloaded | meta
    · split at downloaded
      · cases downloaded
      · rcases List.mem_cons.mp downloaded with rfl | up
        · trivial
        · obtain ⟨_, -, rfl⟩ := List.mem_map.mp up; trivial
    · obtain ⟨_, -, rfl⟩ := List.mem_map.mp meta; trivial
  · split at published
    · cases published
    · rw [List.mem_singleton.mp published]; trivial

section Commit

variable (w : World) (l : Locals) (body : String) (names : List String) (now now' : Nat)
  (user user' : Option User)

/-- The run without failures writes the tables by its commit alone. -/
theorem listedEffects_tables :
    (w.applyAll (listedEffects P l body names now user)).deployments =
        (w.apply (.activate l.depl.id .deployed (some now) l.proj.id)).deployments ∧
      (w.applyAll (listedEffects P l body names now user)).projects =
        (w.apply (.activate l.depl.id .deployed (some now) l.proj.id)).projects := by
  obtain ⟨pre, split, keeps⟩ := listedEffects_split (P := P) l body names
  obtain ⟨d, p⟩ := applyAll_tables (w := w) keeps
  obtain ⟨d', p'⟩ := apply_tables_congr (e := .activate l.depl.id .deployed (some now) l.proj.id) d p
    fun _ same => nomatch same
  rw [split, World.applyAll_append, World.applyAll_cons]
  cases user <;> exact ⟨d', p'⟩

theorem listedEffects_store :
    (w.applyAll (listedEffects P l body names now user)).store =
      (w.applyAll (listedEffects P l body names now' user')).store := by
  obtain ⟨pre, split, -⟩ := listedEffects_split (P := P) l body names
  rw [split, split, World.applyAll_append, World.applyAll_append]
  cases user <;> cases user' <;> rfl

theorem listedEffects_projects :
    (w.applyAll (listedEffects P l body names now user)).projects =
      (w.applyAll (listedEffects P l body names now' user')).projects := by
  rw [(listedEffects_tables w l body names now user).2, (listedEffects_tables w l body names now' user').2]
  rfl

theorem listedEffects_deployments (i : Nat) :
    ((w.applyAll (listedEffects P l body names now user)).deployments i).map Deployment.untimed =
      ((w.applyAll (listedEffects P l body names now' user')).deployments i).map Deployment.untimed := by
  rw [(listedEffects_tables w l body names now user).1, (listedEffects_tables w l body names now' user').1,
    World.apply_activate_deployments, World.apply_activate_deployments]
  split <;> cases w.deployments i <;> rfl

/-- Worlds with the same tables have the same tables after the run without failures. -/
theorem listedEffects_tables_congr {w' : World} (deployments : w.deployments = w'.deployments)
    (projects : w.projects = w'.projects) :
    (w.applyAll (listedEffects P l body names now user)).deployments =
        (w'.applyAll (listedEffects P l body names now user)).deployments ∧
      (w.applyAll (listedEffects P l body names now user)).projects =
        (w'.applyAll (listedEffects P l body names now user)).projects := by
  rw [(listedEffects_tables w l body names now user).1, (listedEffects_tables w l body names now user).2,
    (listedEffects_tables w' l body names now user).1, (listedEffects_tables w' l body names now user).2]
  exact apply_tables_congr deployments projects fun _ same => nomatch same

/-- Without the webroot upload, the run without failures uploads one object, the pointer
document, however many domains it writes it for. -/
theorem listedEffects_skip_upload (skip : l.job.skipWebrootUpload = true) {k : String} {o o' : Object}
    (up : .upload k o ∈ listedEffects P l body names now user)
    (up' : .upload k o' ∈ listedEffects P l body names now user) : o = o' := by
  cases user <;> simp [listedEffects, skip] at up up' <;>
    obtain ⟨_, -, -, rfl⟩ := up <;> obtain ⟨_, -, -, rfl⟩ := up' <;> rfl

end Commit

/-- What the run without failures uploads depends on the job, the prefix, the `force_https`
flag, the bundle and the domain names, not on the time or the user. -/
theorem upload_mem_listedEffects {l l' : Locals} {body : String} {names : List String} {now now' : Nat}
    {user user' : Option User} (job : l.job = l'.job) (prefixID : l.depl.prefixID = l'.depl.prefixID)
    (forceHTTPS : l.proj.forceHTTPS = l'.proj.forceHTTPS) {k : String} {o : Object} :
    .upload k o ∈ listedEffects P l body names now user ↔ .upload k o ∈ listedEffects P l' body names now' user' := by
  simp only [listedEffects, job, prefixID, forceHTTPS, List.mem_append, List.mem_cons]
  cases user <;> cases user' <;> simp

/-! ### Before the first run that returns nil -/

section Redelivery

variable {data : JsonValue} {w₀ w w' : World} {l : Locals} {bundle : Object}

variable (P) in
/-- A key the run without failures from `w₀` uploads to, at whatever time it runs. -/
def PlanKey (w₀ : World) (data : JsonValue) (k : String) : Prop :=
  ∃ c o, .upload k o ∈ (workPlan P { w₀ with clock := c } data).1

variable (P) in
/-- Before the first run that returns nil: the tables, the domains and the users are those
of `w₀`, and so is the bucket but under the keys the run without failures uploads to. -/
structure Pending (data : JsonValue) (w₀ w : World) : Prop where
  deployments : w.deployments = w₀.deployments
  projects : w.projects = w₀.projects
  domains : w.domains = w₀.domains
  users : w.users = w₀.users
  store : ∀ k, ¬ PlanKey P w₀ data k → w.store k = w₀.store k

theorem Pending.init : Pending P data w₀ w₀ := ⟨rfl, rfl, rfl, rfl, fun _ _ => rfl⟩

theorem Pending.tick (h : Pending P data w₀ w) (now : Nat) : Pending P data w₀ { w with clock := now } :=
  ⟨h.deployments, h.projects, h.domains, h.users, h.store⟩

theorem not_planKey_bundlePath {job : DeployJobData} {depl : Deployment}
    (decoded : DeployJobData.unmarshal data = some job) (found : w₀.deployments job.deploymentId = some depl) :
    ¬ PlanKey P w₀ data (bundlePath depl.prefixID job.useRawBundle) := by
  rintro ⟨c, o, mem⟩
  obtain ⟨job', depl', decoded', found', key⟩ := workPlan_upload_key mem
  obtain rfl := Option.some.inj (decoded.symm.trans decoded')
  obtain rfl := Option.some.inj (found.symm.trans found')
  exact bundlePath_ne_upload key rfl

/-- A pending world leads to the same run without failures as `w₀` at its time. -/
theorem Pending.plan (h : Pending P data w₀ w) :
    workPlan P w data = workPlan P { w₀ with clock := w.clock } data :=
  workPlan_congr h.deployments h.projects h.domains h.users rfl fun _ _ decoded found =>
    h.store _ (not_planKey_bundlePath decoded ((congrFun h.deployments _).symm.trans found))

/-- A run that does not return nil keeps the world pending. -/
theorem Pending.fail {r : Except WorkError Unit} (h : Pending P data w₀ w)
    (run : Runs P (.start data, w) (.done r, w')) (failed : r ≠ .ok ()) : Pending P data w₀ w' := by
  obtain ⟨es, rest, planned, rfl, -⟩ := runs_prefix run
  obtain ⟨_, inv⟩ := runs_soloInv run
  obtain ⟨deployments, projects⟩ := inv.tables (mt (done_postCommit r).mp failed)
  refine ⟨deployments.trans h.deployments, projects.trans h.projects,
    (World.applyAll_domains _ _).trans h.domains, (World.applyAll_users _ _).trans h.users, fun k other => ?_⟩
  rw [applyAll_store_of_not_uploaded, h.store k other]
  intro o mem
  refine other ⟨w.clock, o, ?_⟩
  rw [← h.plan, ← planned]
  exact List.mem_append_left rest mem

/-- When a run from a pending world returns nil, the deployment was ready at the start. -/
theorem Pending.ready (h : Pending P data w₀ w) (nil : (workPlan P w data).2 = .ok ()) :
    ∃ l bundle, Ready w₀ data l bundle := by
  rw [h.plan] at nil
  obtain ⟨l, bundle, ready⟩ := ready_of_workPlan nil
  exact ⟨l, bundle, ready.decoded, ready.found, ready.foundProj, ready.checked, ready.unlocked, ready.stored⟩

/-! ### After it -/

/-- After the first run that returns nil: the bucket, the projects and, but for
`deployed_at`, the deployments are those of `single`; domains and users never change. -/
structure Settled (single w : World) : Prop where
  store : w.store = single.store
  projects : w.projects = single.projects
  deployments : ∀ i, (w.deployments i).map Deployment.untimed = (single.deployments i).map Deployment.untimed
  domains : w.domains = single.domains
  users : w.users = single.users

theorem Settled.tick {single : World} (h : Settled single w) (now : Nat) :
    Settled single { w with clock := now } :=
  ⟨h.store, h.projects, h.deployments, h.domains, h.users⟩

/-- The first run that returns nil leaves what one run without failures from `w₀` leaves. -/
theorem Pending.succeed (h : Pending P data w₀ w) (ready : Ready w₀ data l bundle)
    (run : Runs P (.start data, w) (.done (.ok ()), w')) :
    Settled (w₀.applyAll (workPlan P w₀ data).1) w' := by
  have ready' : Ready w data l bundle :=
    ⟨ready.decoded, (congrFun h.deployments _).trans ready.found, (congrFun h.projects _).trans ready.foundProj,
      ready.checked, ready.unlocked, fun keep =>
        (h.store _ (not_planKey_bundlePath ready.decoded ready.found)).trans (ready.stored keep)⟩
  have names : w.domainNames l.proj = w₀.domainNames l.proj := by
    rw [World.domainNames, World.domainNames, h.domains]
  obtain ⟨es, rest, planned, rfl, only⟩ := runs_prefix run
  obtain ⟨-, tracks⟩ := only rfl
  rw [workPlan_of_ready ready', names] at planned
  rw [workPlan_of_ready ready]
  obtain ⟨store, deployments, projects⟩ := applyAll_tracks (w := w.applyAll es) tracks
  rw [← World.applyAll_append, planned] at store deployments projects
  obtain ⟨sameDeployments, sameProjects⟩ := listedEffects_tables_congr (P := P) w l bundle.body
    (w₀.domainNames l.proj) w.clock (w.users l.depl.userId) h.deployments h.projects
  refine ⟨?_, ?_, fun i => ?_, by simp [h.domains], by simp [h.users]⟩
  · rw [← store]
    refine (applyAll_store_congr fun k fresh => ?_).trans (listedEffects_store w₀ l bundle.body
      (w₀.domainNames l.proj) w.clock w₀.clock (w.users l.depl.userId) (w₀.users l.depl.userId))
    refine h.store k fun ⟨c, o, mem⟩ => fresh o ?_
    rw [workPlan_of_ready (w := { w₀ with clock := c }) ⟨ready.decoded, ready.found, ready.foundProj,
      ready.checked, ready.unlocked, ready.stored⟩] at mem
    exact (upload_mem_listedEffects rfl rfl rfl).mp mem
  · rw [← projects, sameProjects, listedEffects_projects]
  · rw [← deployments, sameDeployments, listedEffects_deployments]

/-- An effect a later run may have and leave the world settled: one that writes no table,
an upload of what is already there, or the commit of a deployment already deployed and
active. -/
def Redone (single : World) : Effect → Prop
  | .upload k o => single.store k = some o
  | .activate i state _ projectId =>
    state = .deployed ∧ (∃ d, single.deployments i = some d ∧ d.state = .deployed) ∧
      ∃ p, single.projects projectId = some p ∧ p.activeDeploymentId = some i
  | .insertDeployment _ | .updateState _ _ | .lock _ => False
  | _ => True

theorem Settled.apply {single : World} (h : Settled single w) {e : Effect} (redone : Redone single e) :
    Settled single (w.apply e) := by
  cases e with
  | upload k o =>
    refine ⟨funext fun k' => ?_, h.projects, h.deployments, h.domains, h.users⟩
    rw [World.apply_store]
    dsimp only
    split_ifs with same
    · exact (same ▸ redone).symm
    · exact congrFun h.store k'
  | activate i state t projectId =>
    obtain ⟨rfl, ⟨d, row, live⟩, p, proj, active⟩ := redone
    refine ⟨h.store, funext fun k => ?_, fun j => ?_, h.domains, h.users⟩
    · rw [World.apply_activate_projects, h.projects]
      split_ifs with same
      · rw [same, proj, Option.map_some', ← active]
      · rfl
    · rw [World.apply_activate_deployments]
      split_ifs with same
      · subst same
        obtain ⟨x, found, untimed⟩ := Option.map_eq_some'.mp ((h.deployments j).trans (by rw [row]; rfl))
        have live' : x.state = .deployed := (congrArg Deployment.state untimed).trans live
        rw [found, row, Option.map_some', Option.map_some', Option.map_some', ← untimed]
        cases x
        simp_all [Deployment.untimed]
      · exact h.deployments j
  | insertDeployment _ | updateState _ _ | lock _ => exact redone.elim
  | download _ | publish _ | enqueue _ | track _ => exact ⟨h.store, h.projects, h.deployments, h.domains, h.users⟩

/-- The effects of a run without failures are redone when its uploads and its commit are. -/
theorem listedEffects_redone {single : World} {body : String} {names : List String} {now : Nat}
    {user : Option User}
    (uploads : ∀ k o, .upload k o ∈ listedEffects P l body names now user → single.store k = some o)
    (committed : Redone single (.activate l.depl.id .deployed (some now) l.proj.id)) :
    ∀ e ∈ listedEffects P l body names now user, Redone single e := by
  intro e mem
  have commit : ¬ e.KeepsTables → e = .activate l.depl.id .deployed (some now) l.proj.id := by
    intro writes
    obtain ⟨pre, split, keeps⟩ := listedEffects_split (P := P) l body names
    rw [split] at mem
    rcases List.mem_append.mp mem with early | later
    · exact absurd (keeps e early) writes
    · rcases List.mem_cons.mp later with rfl | tracked
      · rfl
      · cases user <;> simp at tracked
        subst tracked
        exact absurd trivial writes
  cases e with
  | upload k o => exact uploads k o mem
  | activate i state t projectId => rw [commit id]; exact committed
  | insertDeployment _ | updateState _ _ | lock _ => exact nomatch commit id
  | download _ | publish _ | enqueue _ | track _ => trivial

/-- A run after the first that returned nil keeps the world settled; without
`skip_webroot_upload` it stops at the state check and changes nothing. -/
theorem Settled.deliver {r : Except WorkError Unit} (keyed : w₀.Keyed) (ready : Ready w₀ data l bundle)
    (h : Settled (w₀.applyAll (workPlan P w₀ data).1) w) (run : Runs P (.start data, w) (.done r, w')) :
    Settled (w₀.applyAll (workPlan P w₀ data).1) w' ∧
      (l.job.skipWebrootUpload = false → r ≠ .ok () ∧ w' = w) := by
  rw [workPlan_of_ready ready] at h ⊢
  set single := w₀.applyAll
    (listedEffects P l bundle.body (w₀.domainNames l.proj) w₀.clock (w₀.users l.depl.userId))
  have sameId : l.depl.id = l.job.deploymentId := keyed.deployments _ _ ready.found
  have projFound : w₀.projects l.proj.id = some l.proj := by
    rw [keyed.projects _ _ ready.foundProj]; exact ready.foundProj
  obtain ⟨committedRows, committedProjects⟩ := listedEffects_tables (P := P) w₀ l bundle.body
    (w₀.domainNames l.proj) w₀.clock (w₀.users l.depl.userId)
  have singleRow : single.deployments l.job.deploymentId =
      some { l.depl with state := .deployed, deployedAt := some w₀.clock } := by
    rw [committedRows, World.apply_activate_deployments, if_pos sameId.symm, ready.found]; rfl
  have singleProj : single.projects l.proj.id = some { l.proj with activeDeploymentId := some l.depl.id } := by
    rw [committedProjects, World.apply_activate_projects, if_pos rfl, projFound]; rfl
  -- the row and the project the run reads
  obtain ⟨d, found, untimed⟩ :=
    Option.map_eq_some'.mp ((h.deployments l.job.deploymentId).trans (by rw [singleRow]; rfl))
  have live : d.state = .deployed := congrArg Deployment.state untimed
  have dId : d.id = l.depl.id := by have same := congrArg Deployment.id untimed; exact same
  have dPrefix : d.prefixID = l.depl.prefixID := by have same := congrArg Deployment.prefixID untimed; exact same
  have foundProj : w.projects d.projectId = some { l.proj with activeDeploymentId := some l.depl.id } := by
    rw [h.projects, show d.projectId = l.proj.id from
      (congrArg Deployment.projectId untimed).trans (keyed.projects _ _ ready.foundProj).symm, singleProj]
  obtain ⟨es, rest, planned, rfl, only⟩ := runs_prefix run
  cases skip : l.job.skipWebrootUpload
  · -- the state check turns the run away
    have plan : workPlan P w data = ([], .error .unexpectedState) := by
      simp [workPlan, ready.decoded, found, live, foundProj, skip]
    rw [plan] at planned only
    obtain ⟨rfl, -⟩ := List.append_eq_nil.mp planned
    exact ⟨h, fun _ => ⟨(fun nil => nomatch (only nil).1), rfl⟩⟩
  · -- the run writes again what is there
    refine ⟨applyAll_preserves h fun v e mem settled => settled.apply ?_, fun keep => nomatch keep⟩
    have ready' : Ready w data ⟨l.job, d, { l.proj with activeDeploymentId := some l.depl.id }⟩ bundle :=
      ⟨ready.decoded, found, foundProj, ⟨by simp [live], by simp [live], by simp [skip]⟩, ready.unlocked,
        by simp [skip]⟩
    have names : w.domainNames { l.proj with activeDeploymentId := some l.depl.id } = w₀.domainNames l.proj := by
      simp only [World.domainNames, h.domains, single, World.applyAll_domains]; rfl
    have committed : Redone single (.activate d.id .deployed (some w.clock) l.proj.id) :=
      ⟨rfl, ⟨_, by rw [dId, sameId]; exact singleRow, rfl⟩, _, singleProj, by rw [dId]⟩
    rw [workPlan_of_ready ready', names] at planned
    refine listedEffects_redone (l := ⟨l.job, d, { l.proj with activeDeploymentId := some l.depl.id }⟩)
      (fun k o up => ?_) committed e (planned ▸ List.mem_append_left rest mem)
    have up₀ := (@upload_mem_listedEffects P ⟨l.job, d, { l.proj with activeDeploymentId := some l.depl.id }⟩ l
      _ _ _ w₀.clock _ (w₀.users l.depl.userId) rfl dPrefix rfl _ _).mp up
    exact applyAll_store_of_uploads up₀ fun o' up' => listedEffects_skip_upload _ _ _ _ _ skip up' up₀

end Redelivery

/-! ### Runs one after another -/

variable (P) in
/-- Runs of `Work` on one job, one after another, time passing before each: their results
in order and the world after the last. -/
inductive Redelivered (data : JsonValue) : World → List (Except WorkError Unit) → World → Prop
  | nil (w : World) : Redelivered data w [] w
  | cons {w w₁ w' : World} {r : Except WorkError Unit} {rs : List (Except WorkError Unit)} (now : Nat) :
      Runs P (.start data, { w with clock := now }) (.done r, w₁) → Redelivered data w₁ rs w' →
      Redelivered data w (r :: rs) w'

section Redelivered

variable {data : JsonValue} {w₀ w w' : World} {rs : List (Except WorkError Unit)}

theorem Redelivered.settled {l : Locals} {bundle : Object} (keyed : w₀.Keyed) (ready : Ready w₀ data l bundle)
    (h : Redelivered P data w rs w') (settled : Settled (w₀.applyAll (workPlan P w₀ data).1) w) :
    Settled (w₀.applyAll (workPlan P w₀ data).1) w' := by
  induction h with
  | nil => exact settled
  | cons now run _ ih => exact ih (Settled.deliver keyed ready (settled.tick now) run).1

/-- Runs from a pending world of which one returns nil end settled. -/
theorem Redelivered.pending (keyed : w₀.Keyed) (h : Redelivered P data w rs w')
    (pending : Pending P data w₀ w) (nil : .ok () ∈ rs) :
    ∃ l bundle, Ready w₀ data l bundle ∧ Settled (w₀.applyAll (workPlan P w₀ data).1) w' := by
  induction h with
  | nil => cases nil
  | @cons w w₁ w' r rs now run rest ih =>
    by_cases succeeded : r = .ok ()
    · subst succeeded
      obtain ⟨_, _, _, _, returned⟩ := runs_prefix run
      obtain ⟨l, bundle, ready⟩ := (pending.tick now).ready (returned rfl).1
      exact ⟨l, bundle, ready, rest.settled keyed ready ((pending.tick now).succeed ready run)⟩
    · exact ih ((pending.tick now).fail run succeeded) ((List.mem_cons.mp nil).resolve_left (Ne.symm succeeded))

/-- However many times the queue delivers a job, whatever calls of each run fail and
whenever each run happens: once a run has returned nil, the bucket, the projects and, but
for `deployed_at`, the deployments are those one run without failures from the start
leaves. A later run without `skip_webroot_upload` returns an error and changes nothing; one
with it changes none of them. -/
theorem redelivery_idempotent (keyed : w₀.Keyed) (h : Redelivered P data w₀ rs w) (nil : .ok () ∈ rs) :
    let single := w₀.applyAll (workPlan P w₀ data).1
    (workPlan P w₀ data).2 = .ok () ∧ w.store = single.store ∧ w.projects = single.projects ∧
      (∀ i, (w.deployments i).map Deployment.untimed = (single.deployments i).map Deployment.untimed) ∧
      ∀ job now r w', DeployJobData.unmarshal data = some job →
        Runs P (.start data, { w with clock := now }) (.done r, w') →
        (job.skipWebrootUpload = false → r ≠ .ok () ∧ w' = { w with clock := now }) ∧
        (job.skipWebrootUpload = true → w'.store = w.store ∧ w'.projects = w.projects ∧
          ∀ i, (w'.deployments i).map Deployment.untimed = (w.deployments i).map Deployment.untimed) := by
  intro single
  obtain ⟨l, bundle, ready, settled⟩ := h.pending keyed Pending.init nil
  refine ⟨by rw [workPlan_of_ready ready], settled.store, settled.projects, settled.deployments,
    fun job now r w' decoded run => ?_⟩
  obtain rfl := Option.some.inj (ready.decoded.symm.trans decoded)
  obtain ⟨settled', rejected⟩ := Settled.deliver keyed ready (settled.tick now) run
  exact ⟨rejected, fun _ => ⟨settled'.store.trans settled.store.symm,
    settled'.projects.trans settled.projects.symm, fun i => (settled'.deployments i).trans (settled.deployments i).symm⟩⟩

end Redelivered

theorem scenarioWorld_keyed (state : DeploymentState) : (scenarioWorld state).Keyed := by
  refine ⟨fun i d found => ?_, fun k p found => ?_⟩ <;> simp only [scenarioWorld] at found <;>
    split_ifs at found with same <;> cases found <;> simp [same, scenarioDeployment, scenarioProject]

/-- Scenario A's job delivered twice: the first run fails after uploading `index.html`,
the second has no failures. -/
theorem redelivery_idempotent_scenario :
    let w₀ := scenarioWorld .pendingDeploy
    let w₁ := (okIter scenarioPlatform 6 (.start scenarioJob.toJson, { w₀ with clock := 0 })).2
    let w := { w₁ with clock := 0 }.applyAll
      (workPlan scenarioPlatform { w₁ with clock := 0 } scenarioJob.toJson).1
    let single := w₀.applyAll (workPlan scenarioPlatform w₀ scenarioJob.toJson).1
    (workPlan scenarioPlatform w₀ scenarioJob.toJson).2 = .ok () ∧ w.store = single.store ∧
      w.projects = single.projects ∧
      (∀ i, (w.deployments i).map Deployment.untimed = (single.deployments i).map Deployment.untimed) ∧
      ∀ job now r w', DeployJobData.unmarshal scenarioJob.toJson = some job →
        Runs scenarioPlatform (.start scenarioJob.toJson, { w with clock := now }) (.done r, w') →
        (job.skipWebrootUpload = false → r ≠ .ok () ∧ w' = { w with clock := now }) ∧
        (job.skipWebrootUpload = true → w'.store = w.store ∧ w'.projects = w.projects ∧
          ∀ i, (w'.deployments i).map Deployment.untimed = (w.deployments i).map Deployment.untimed) :=
  redelivery_idempotent (scenarioWorld_keyed _)
    (.cons 0 ((runs_okIter 6 _).tail ⟨false, rfl⟩) (.cons 0 (okRuns_start _ _).runs (.nil _)))
    (List.mem_cons_of_mem _ (List.mem_singleton.mpr rfl))

end Pubstorm.Deployer
