import Pubstorm.System.Basic

/-!
# Every active deployment is deployed

Whatever `Create` and `Work` threads run, in whatever order and with whatever calls
failing, a project's `active_deployment_id` names an existing deployment of that project
in state `deployed`. The pointer is set only by a commit, which in the same transaction
marks deployed the row the run read, of the project it loaded through that row. The only
other writes of a deployment's state are `Create`'s, on the row it has just inserted:
while `Create` runs, that row is in `pending_upload` or `uploaded`, so no `Work` passes
its state check on it and no project points at it.
-/

namespace Pubstorm.System

open Deployer

variable {P : Platform}

/-- Every `active_deployment_id` names an existing deployment of its project in state
`deployed`. -/
def ActiveDeployed (w : World) : Prop :=
  ∀ k p i, w.projects k = some p → p.activeDeploymentId = some i →
    ∃ d, w.deployments i = some d ∧ d.projectId = p.id ∧ d.state = .deployed

/-- A row `Work` passes its state check on. -/
def Passed (row : Deployment) : Prop := row.state ≠ .uploaded ∧ row.state ≠ .pendingUpload

/-- What a thread knows of the rows it holds. A `Work` thread: its checks, the project it
loaded through its deployment's `project_id`, and the deployment it read, still there, of
the same project and past the state check. A `Create` thread: the row it inserted, still
short of the state check, with no project pointing at it. -/
def ThreadOk (w : World) : Thread → Prop
  | .work pc => pc.Checked ∧ (∀ l, pc.locals? = some l → l.proj.id = l.depl.projectId) ∧
    ∀ d, pc.depl? = some d → ∃ row, w.deployments d.id = some row ∧ row.projectId = d.projectId ∧ Passed row
  | .create pc => ∀ id, pc.rowId? = some id → ∃ row, w.deployments id = some row ∧ ¬ Passed row ∧
    ∀ k p, w.projects k = some p → p.activeDeploymentId ≠ some id

def Thread.rowId? : Thread → Option Nat
  | .create pc => pc.rowId?
  | .work _ => none

/-- No two threads hold the same inserted row. -/
def RowsDistinct (ts : List Thread) : Prop :=
  ∀ (i j id : Nat), i ≠ j → ts[i]?.bind Thread.rowId? = some id → ts[j]?.bind Thread.rowId? ≠ some id

/-- The invariant of the deploy system. -/
structure ActiveInv (s : Sys) : Prop where
  keyed : s.world.Keyed
  fresh : ∀ i, s.world.nextDeploymentId ≤ i → s.world.deployments i = none
  active : ActiveDeployed s.world
  threads : ∀ t ∈ s.threads, ThreadOk s.world t
  distinct : RowsDistinct s.threads

/-! ### Table writes and what threads know -/

theorem ThreadOk.of_tables {w w' : World} {t : Thread} (h : ThreadOk w t)
    (deployments : w'.deployments = w.deployments) (projects : w'.projects = w.projects) :
    ThreadOk w' t := by
  cases t <;> simp only [ThreadOk, deployments, projects] at h ⊢ <;> exact h

/-- The commit of a run that holds a row past the state check keeps what every thread
knows: it only marks that row deployed, and points a project at it. -/
theorem ThreadOk.activate {w : World} {l : Locals} {now : Nat} {t : Thread}
    (committer : ∃ row, w.deployments l.depl.id = some row ∧ Passed row) (h : ThreadOk w t) :
    ThreadOk (w.apply (activation l now)) t := by
  obtain ⟨row, found, passed⟩ := committer
  cases t with
  | work pc =>
    refine ⟨h.1, h.2.1, fun d held => ?_⟩
    obtain ⟨r, read, same, ok⟩ := h.2.2 d held
    simp only [activation, World.apply_activate_deployments]
    split
    · next hit => exact ⟨_, by rw [hit, found]; rfl, by simp_all, by simp [Passed]⟩
    · exact ⟨r, read, same, ok⟩
  | create pc =>
    intro id held
    obtain ⟨r, read, notPassed, unpointed⟩ := h id held
    have other : id ≠ l.depl.id := by rintro rfl; simp_all
    refine ⟨r, by simp [activation, World.apply_activate_deployments, other, read], notPassed,
      fun k p found' => ?_⟩
    simp only [activation, World.apply_activate_projects] at found'
    split at found'
    · obtain ⟨p₀, -, rfl⟩ := Option.map_eq_some'.mp found'
      simpa using other.symm
    · exact unpointed k p found'

/-- An insert at the next id touches no row a thread holds. -/
theorem ThreadOk.insert {w : World} {row : Deployment} {t : Thread} (h : ThreadOk w t)
    (fresh : ∀ i, w.nextDeploymentId ≤ i → w.deployments i = none) (at_next : row.id = w.nextDeploymentId) :
    ThreadOk (w.apply (.insertDeployment row)) t := by
  have old : ∀ i, w.deployments i ≠ none → (w.apply (.insertDeployment row)).deployments i = w.deployments i :=
    fun i held => by
      rw [World.apply_insertDeployment_deployments, if_neg]
      rintro rfl
      exact held (fresh _ at_next.ge)
  cases t with
  | work pc =>
    refine ⟨h.1, h.2.1, fun d held => ?_⟩
    obtain ⟨r, read, rest⟩ := h.2.2 d held
    exact ⟨r, (old _ (by simp [read])).trans read, rest⟩
  | create pc =>
    intro id held
    obtain ⟨r, read, rest⟩ := h id held
    exact ⟨r, (old _ (by simp [read])).trans read, by simpa using rest⟩

/-- A state write on a row short of the state check that another thread does not hold
keeps what that thread knows. -/
theorem ThreadOk.updateState {w : World} {id : Nat} {state : DeploymentState} {t : Thread}
    (h : ThreadOk w t) (marked : ∃ row, w.deployments id = some row ∧ ¬ Passed row)
    (other : t.rowId? ≠ some id) : ThreadOk (w.apply (.updateState id state)) t := by
  obtain ⟨row, found, notPassed⟩ := marked
  cases t with
  | work pc =>
    refine ⟨h.1, h.2.1, fun d held => ?_⟩
    obtain ⟨r, read, rest⟩ := h.2.2 d held
    have ne : d.id ≠ id := by rintro rfl; simp_all
    exact ⟨r, by simp [World.apply_updateState_deployments, ne, read], rest⟩
  | create pc =>
    intro id' held
    have ne : id' ≠ id := by rintro rfl; exact other held
    obtain ⟨r, read, rest⟩ := h id' held
    exact ⟨r, by simp [World.apply_updateState_deployments, ne, read], by simpa using rest⟩

theorem ThreadOk.lock {w : World} {projectId : Nat} {t : Thread} (h : ThreadOk w t) :
    ThreadOk (w.apply (.lock projectId)) t := by
  cases t with
  | work pc => exact h
  | create pc =>
    intro id held
    obtain ⟨r, read, notPassed, unpointed⟩ := h id held
    refine ⟨r, read, notPassed, fun k p found => ?_⟩
    rw [World.apply_lock_projects] at found
    split at found
    · obtain ⟨p₀, old, rfl⟩ := Option.map_eq_some'.mp found
      exact unpointed k p₀ old
    · exact unpointed k p found

/-! ### The world facts -/

theorem activeDeployed_of_tables {w w' : World} (h : ActiveDeployed w)
    (deployments : w'.deployments = w.deployments) (projects : w'.projects = w.projects) :
    ActiveDeployed w' := by
  simpa only [ActiveDeployed, deployments, projects] using h

/-- The commit points the project the run loaded at the row it read, which it marks
deployed, and which belongs to that project. -/
theorem activeDeployed_activate {w : World} {l : Locals} {now : Nat} (h : ActiveDeployed w)
    (keyed : w.Keyed) (committer : ∃ row, w.deployments l.depl.id = some row ∧ row.projectId = l.depl.projectId)
    (loaded : l.proj.id = l.depl.projectId) : ActiveDeployed (w.apply (activation l now)) := by
  obtain ⟨row, found, same⟩ := committer
  intro k p i pointing pointed
  simp only [activation, World.apply_activate_projects, World.apply_activate_deployments] at pointing ⊢
  split at pointing
  · next here =>
    obtain ⟨p₀, old, rfl⟩ := Option.map_eq_some'.mp pointing
    obtain rfl : l.depl.id = i := Option.some.inj pointed
    refine ⟨_, by rw [if_pos rfl, found]; rfl, ?_, rfl⟩
    simp only [same, ← loaded, here, keyed.projects k p₀ old]
  · obtain ⟨d, read, belongs, deployed⟩ := h k p i pointing pointed
    split
    · next hit =>
      subst hit
      exact ⟨{ d with state := .deployed, deployedAt := some now }, by rw [read]; rfl, belongs, rfl⟩
    · exact ⟨d, read, belongs, deployed⟩

theorem activeDeployed_insert {w : World} {row : Deployment} (h : ActiveDeployed w)
    (fresh : ∀ i, w.nextDeploymentId ≤ i → w.deployments i = none) (at_next : row.id = w.nextDeploymentId) :
    ActiveDeployed (w.apply (.insertDeployment row)) := by
  intro k p i pointing pointed
  obtain ⟨d, read, rest⟩ := h k p i (by simpa using pointing) pointed
  refine ⟨d, ?_, rest⟩
  rw [World.apply_insertDeployment_deployments, if_neg, read]
  rintro rfl
  simp [fresh _ at_next.ge] at read

theorem activeDeployed_updateState {w : World} {id : Nat} {state : DeploymentState} (h : ActiveDeployed w)
    (unpointed : ∀ k p, w.projects k = some p → p.activeDeploymentId ≠ some id) :
    ActiveDeployed (w.apply (.updateState id state)) := by
  intro k p i pointing pointed
  rw [World.apply_updateState_projects] at pointing
  have ne : i ≠ id := by rintro rfl; exact unpointed k p pointing pointed
  obtain ⟨d, read, rest⟩ := h k p i pointing pointed
  exact ⟨d, by simp [World.apply_updateState_deployments, ne, read], rest⟩

theorem activeDeployed_lock {w : World} {projectId : Nat} (h : ActiveDeployed w) :
    ActiveDeployed (w.apply (.lock projectId)) := by
  intro k p i pointing pointed
  rw [World.apply_lock_projects] at pointing
  split at pointing
  · obtain ⟨p₀, old, rfl⟩ := Option.map_eq_some'.mp pointing
    simpa using h k p₀ i old pointed
  · simpa using h k p i pointing pointed

theorem fresh_apply {w : World} {e : Effect} (fresh : ∀ i, w.nextDeploymentId ≤ i → w.deployments i = none)
    (at_next : ∀ row, e = .insertDeployment row → row.id = w.nextDeploymentId) :
    ∀ i, (w.apply e).nextDeploymentId ≤ i → (w.apply e).deployments i = none := by
  intro i beyond
  cases e with
  | insertDeployment row =>
    change w.nextDeploymentId + 1 ≤ i at beyond
    rw [World.apply_insertDeployment_deployments, if_neg (by rw [at_next row rfl]; omega)]
    exact fresh i (by omega)
  | updateState id state => simp [World.apply_updateState_deployments, fresh i beyond]
  | activate id state deployedAt projectId => simp [World.apply_activate_deployments, fresh i beyond]
  | _ => exact fresh i beyond

/-! ### The thread that moves -/

/-- A statement of `Work` keeps what its thread knows, before its own effect: the row it
reads by the job's id sits under its own id and passed the check the statement made. -/
theorem threadOk_work_step {w : World} {pc : Pc} (h : ThreadOk w (.work pc)) (keyed : w.Keyed)
    (ok : Bool) : ThreadOk w (.work (Deployer.step P ok w pc).1) := by
  obtain ⟨checked, loaded, read⟩ := h
  refine ⟨step_checked checked ok w, fun l held => ?_, fun d held => ?_⟩
  · rcases step_locals held with carried | ⟨-, proj⟩
    · exact loaded l carried
    · exact keyed.projects _ _ proj
  · rcases step_depl held with carried | ⟨job, -, found, moved⟩
    · exact read d carried
    · have passed := step_checked (P := P) checked ok w
      rw [moved] at passed
      exact ⟨d, by rw [keyed.deployments _ _ found]; exact found, rfl, passed⟩

/-- What a `Create` thread knows depends only on the row it holds. -/
theorem ThreadOk.create_of_rowId {w : World} {pc pc' : Deployments.Pc} (h : ThreadOk w (.create pc))
    (same : pc'.rowId? = none ∨ pc'.rowId? = pc.rowId?) : ThreadOk w (.create pc') := by
  intro id held
  rcases same with none | same
  · simp [none] at held
  · exact h id (same ▸ held)

theorem forall_mem_set {ts : List Thread} {i : Nat} {t' : Thread} {Q : Thread → Prop} (new : Q t')
    (others : ∀ j u, j ≠ i → ts[j]? = some u → Q u) : ∀ u ∈ ts.set i t', Q u := by
  intro u mem
  obtain ⟨j, at_j⟩ := List.mem_iff_getElem?.mp mem
  rw [List.getElem?_set] at at_j
  split_ifs at at_j with same
  · exact Option.some.inj at_j ▸ new
  · exact others j u (Ne.symm same) at_j

theorem RowsDistinct.set {ts : List Thread} (h : RowsDistinct ts) {i : Nat} {t t' : Thread}
    (found : ts[i]? = some t)
    (rows : t'.rowId? = none ∨ t'.rowId? = t.rowId? ∨ ∀ j u, j ≠ i → ts[j]? = some u → u.rowId? ≠ t'.rowId?) :
    RowsDistinct (ts.set i t') := by
  have holds : ∀ j u id, j ≠ i → ts[j]? = some u → u.rowId? = some id → t'.rowId? ≠ some id := by
    intro j u id ne at_j held same
    rcases rows with none | old | fresh
    · simp [none] at same
    · exact h j i id ne (by simp [at_j, held]) (by simp [found, ← old, same])
    · exact fresh j u ne at_j (held.trans same.symm)
  have at_index : ∀ j, (ts.set i t')[j]?.bind Thread.rowId? =
      if j = i then t'.rowId? else ts[j]?.bind Thread.rowId? := by
    intro j
    rw [List.getElem?_set]
    by_cases same : i = j
    · subst same
      simp [(List.getElem?_eq_some.mp found).1]
    · simp [same, Ne.symm same]
  intro a b id ne at_a at_b
  rw [at_index] at at_a at_b
  split_ifs at at_a at_b with ha hb hb
  · exact ne (ha.trans hb.symm)
  · obtain ⟨u, at_b', held⟩ := Option.bind_eq_some.mp at_b
    exact holds b u id hb at_b' held at_a
  · obtain ⟨u, at_a', held⟩ := Option.bind_eq_some.mp at_a
    exact holds a u id ha at_a' held at_b
  · exact h a b id ne at_a at_b

/-! ### Every move keeps the invariant -/

/-- The invariant after thread `i` moves, from what the move does to the world, to what
each thread knows, and to the row the moving thread holds. -/
theorem ActiveInv.set {s : Sys} (h : ActiveInv s) {i : Nat} {t t' : Thread} {w' : World}
    (found : s.threads[i]? = some t) (keyed : w'.Keyed)
    (fresh : ∀ j, w'.nextDeploymentId ≤ j → w'.deployments j = none) (active : ActiveDeployed w')
    (own : ThreadOk w' t') (others : ∀ j u, j ≠ i → s.threads[j]? = some u → ThreadOk w' u)
    (rows : t'.rowId? = none ∨ t'.rowId? = t.rowId? ∨
      ∀ j u, j ≠ i → s.threads[j]? = some u → u.rowId? ≠ t'.rowId?) :
    ActiveInv ⟨w', s.threads.set i t'⟩ :=
  ⟨keyed, fresh, active, forall_mem_set own others, h.distinct.set found rows⟩

theorem ActiveInv.of_keeps {s : Sys} (h : ActiveInv s) {i : Nat} {t t' : Thread} {e : Effect}
    (keeps : e.KeepsTables) (found : s.threads[i]? = some t) (own : ThreadOk s.world t')
    (rows : t'.rowId? = none ∨ t'.rowId? = t.rowId?) :
    ActiveInv ⟨s.world.apply e, s.threads.set i t'⟩ := by
  obtain ⟨deployments, projects⟩ := World.apply_tables (w := s.world) keeps
  refine h.set found (World.apply_keyed h.keyed e) ?_ (activeDeployed_of_tables h.active deployments projects)
    (own.of_tables deployments projects)
    (fun j u _ at_j => (h.threads u (List.getElem?_mem at_j)).of_tables deployments projects)
    (rows.imp_right .inl)
  rw [World.apply_nextDeploymentId_of_keeps keeps, deployments]
  exact h.fresh

theorem ActiveInv.work_step {s : Sys} (h : ActiveInv s) {i : Nat} {pc : Pc}
    (found : s.threads[i]? = some (.work pc)) (ok : Bool) :
    ActiveInv ⟨(Deployer.step P ok s.world pc).2, s.threads.set i (.work (Deployer.step P ok s.world pc).1)⟩ := by
  have mine := h.threads _ (List.getElem?_mem found)
  have own := threadOk_work_step (P := P) mine h.keyed ok
  rcases step_world (P := P) ok s.world pc with ⟨l, now, rfl, rfl, moved⟩ | ⟨-, same | ⟨e, keeps, moved⟩⟩
  · obtain ⟨-, loaded, read⟩ := mine
    obtain ⟨row, at_row, belongs, passed⟩ := read l.depl rfl
    rw [moved]
    exact h.set found (World.apply_keyed h.keyed _) (fresh_apply h.fresh fun _ no => nomatch no)
      (activeDeployed_activate h.active h.keyed ⟨row, at_row, belongs⟩ (loaded l rfl))
      (own.activate ⟨row, at_row, passed⟩)
      (fun j u _ at_j => (h.threads u (List.getElem?_mem at_j)).activate ⟨row, at_row, passed⟩) (.inl rfl)
  · rw [same]
    exact h.set found h.keyed h.fresh h.active own (fun j u _ at_j => h.threads u (List.getElem?_mem at_j))
      (.inl rfl)
  · rw [moved]
    exact h.of_keeps keeps found own (.inl rfl)

theorem ActiveInv.create_step {s : Sys} (h : ActiveInv s) {i : Nat} {pc : Deployments.Pc}
    (found : s.threads[i]? = some (.create pc)) (ok : Bool) :
    ActiveInv ⟨(Deployments.step ok s.world pc).2,
      s.threads.set i (.create (Deployments.step ok s.world pc).1)⟩ := by
  have mine : ThreadOk s.world (.create pc) := h.threads _ (List.getElem?_mem found)
  have others : ∀ j u, j ≠ i → s.threads[j]? = some u → ThreadOk s.world u :=
    fun j u _ at_j => h.threads u (List.getElem?_mem at_j)
  have unshared : ∀ id, pc.rowId? = some id → ∀ j u, j ≠ i → s.threads[j]? = some u → u.rowId? ≠ some id :=
    fun id holds j u ne at_j same =>
      h.distinct i j id (Ne.symm ne) (by simp [found, Thread.rowId?, holds]) (by simp [at_j, same])
  rcases Deployments.step_cases ok s.world pc with
    ⟨same, rows⟩ | ⟨row, at_next, pending, -, held, moved⟩ | ⟨e, keeps, moved, rows⟩ |
    ⟨id, holds, held, moved⟩ | ⟨id, holds, released, moved⟩
  · rw [same]
    exact h.set found h.keyed h.fresh h.active (mine.create_of_rowId rows) others (rows.imp_right .inl)
  · -- `db.Create` inserts a fresh row in `pending_upload`, which the thread takes
    have unheld : ∀ id, s.world.deployments id ≠ none → id ≠ row.id := by
      rintro id present rfl
      exact present (h.fresh _ at_next.ge)
    rw [moved]
    refine h.set found (World.apply_keyed h.keyed _) (fresh_apply h.fresh fun _ same => ?_)
      (activeDeployed_insert h.active h.fresh at_next) ?_ (fun j u ne at_j => (others j u ne at_j).insert h.fresh at_next)
      (.inr (.inr fun j u ne at_j same => ?_))
    · cases same; exact at_next
    · intro id' held'
      obtain rfl : id' = row.id := Option.some.inj (held'.symm.trans held)
      refine ⟨row, by simp [World.apply_insertDeployment_deployments], by simp [Passed, pending],
        fun k p pointing pointed => ?_⟩
      obtain ⟨d, read, -⟩ := h.active k p _ (by simpa using pointing) pointed
      exact unheld _ (by simp [read]) rfl
    · cases u with
      | work pc' => simp [Thread.rowId?, held] at same
      | create pc' =>
        obtain ⟨r, read, -⟩ := others j _ ne at_j row.id (same.trans held)
        exact unheld _ (by simp [read]) rfl
  · rw [moved]
    exact h.of_keeps keeps found (mine.create_of_rowId (.inr rows)) (.inr rows)
  · -- the row goes to `uploaded`; the thread holds it still
    obtain ⟨r, at_id, notPassed, unpointed⟩ := mine id holds
    rw [moved]
    refine h.set found (World.apply_keyed h.keyed _) (fresh_apply h.fresh fun _ no => nomatch no)
      (activeDeployed_updateState h.active unpointed) (fun id' held' => ?_)
      (fun j u ne at_j => (others j u ne at_j).updateState ⟨r, at_id, notPassed⟩ (unshared id holds j u ne at_j))
      (.inr (.inl (held.trans holds.symm)))
    obtain rfl : id' = id := Option.some.inj (held'.symm.trans held)
    exact ⟨{ r with state := .uploaded }, by simp [World.apply_updateState_deployments, at_id],
      by simp [Passed], by simpa using unpointed⟩
  · -- the row goes to `pending_deploy`; the thread lets it go
    obtain ⟨r, at_id, notPassed, unpointed⟩ := mine id holds
    rw [moved]
    exact h.set found (World.apply_keyed h.keyed _) (fresh_apply h.fresh fun _ no => nomatch no)
      (activeDeployed_updateState h.active unpointed) (fun id' held' => by simp [released] at held')
      (fun j u ne at_j => (others j u ne at_j).updateState ⟨r, at_id, notPassed⟩ (unshared id holds j u ne at_j))
      (.inl released)

theorem RowsDistinct.append {ts : List Thread} (h : RowsDistinct ts) {t : Thread} (free : t.rowId? = none) :
    RowsDistinct (ts ++ [t]) := by
  have at_index : ∀ j : Nat, (ts ++ [t])[j]?.bind Thread.rowId? = ts[j]?.bind Thread.rowId? := by
    intro j
    rcases Nat.lt_trichotomy j ts.length with before | rfl | after
    · rw [List.getElem?_append_left before]
    · simp [free]
    · simp [List.getElem?_eq_none, after.le, Nat.succ_le_of_lt after]
  intro a b id ne at_a at_b
  rw [at_index] at at_a at_b
  exact h a b id ne at_a at_b

/-- Each move keeps the invariant. -/
theorem ActiveInv.step {s s' : Sys} {m : Move} (h : ActiveInv s) (moved : step P s m = some s') :
    ActiveInv s' := by
  rcases step_cases moved with ⟨i, ok, t, found, rfl⟩ | ⟨t, new, rfl⟩ | ⟨e, external, rfl⟩ | rfl
  · cases t with
    | work pc => exact h.work_step found ok
    | create pc => exact h.create_step found ok
  · -- a thread that starts knows nothing yet and holds no row
    have starts : ThreadOk s.world t ∧ t.rowId? = none := by
      cases t with
      | work pc =>
        cases pc <;> first | exact False.elim new | exact ⟨⟨trivial, by simp [Pc.locals?], by simp [Pc.depl?, Pc.locals?]⟩, rfl⟩
      | create pc => cases pc <;> first | exact False.elim new | simp [ThreadOk, Thread.rowId?, Deployments.Pc.rowId?]
    refine ⟨h.keyed, h.fresh, h.active, fun u mem => ?_, h.distinct.append starts.2⟩
    rcases List.mem_append.mp mem with old | new'
    · exact h.threads u old
    · exact List.mem_singleton.mp new' ▸ starts.1
  · cases e with
    | lock projectId =>
      exact ⟨World.apply_keyed h.keyed _, h.fresh, activeDeployed_lock h.active,
        fun u mem => (h.threads u mem).lock, h.distinct⟩
    | enqueue data =>
      exact ⟨World.apply_keyed h.keyed _, h.fresh, h.active, fun u mem => (h.threads u mem).of_tables rfl rfl,
        h.distinct⟩
    | _ => exact external.elim
  · exact ⟨⟨h.keyed.1, h.keyed.2⟩, h.fresh, h.active, fun u mem => (h.threads u mem).of_tables rfl rfl,
      h.distinct⟩

theorem reachable_activeInv {s₀ s : Sys} (h : Reachable P s₀ s) (keyed : s₀.world.Keyed)
    (fresh : ∀ i, s₀.world.nextDeploymentId ≤ i → s₀.world.deployments i = none)
    (active : ActiveDeployed s₀.world) (idle : s₀.threads = []) : ActiveInv s :=
  @reachable_induction P ActiveInv s₀ s h ⟨keyed, fresh, active, by simp [idle], by simp [RowsDistinct, idle]⟩
    fun _ _ _ inv moved => inv.step moved

/-- Whatever `Create` requests, Deploy jobs, deliveries, locks and failures happen, in any
order: when the system starts with no thread running, every row under its own id, the id
sequence past every row, and every active pointer on a deployed row of its project, then
in every reachable state every project's `active_deployment_id` names an existing
deployment of that project in state `deployed`. -/
theorem active_deployment_deployed {s₀ s : Sys} (h : Reachable P s₀ s) (keyed : s₀.world.Keyed)
    (fresh : ∀ i, s₀.world.nextDeploymentId ≤ i → s₀.world.deployments i = none)
    (active : ActiveDeployed s₀.world) (idle : s₀.threads = []) :
    ∀ k p i, s.world.projects k = some p → p.activeDeploymentId = some i →
      ∃ d, s.world.deployments i = some d ∧ d.projectId = p.id ∧ d.state = .deployed :=
  (reachable_activeInv h keyed fresh active idle).active

/-! ### The site -/

theorem site_keyed : site.world.Keyed := by
  refine ⟨fun i d found => ?_, fun k p found => ?_⟩ <;> simp only [site, siteWorld] at found <;>
    split_ifs at found <;> cases found <;> simp_all [siteDeployment, scenarioProject]

theorem site_fresh : ∀ i, site.world.nextDeploymentId ≤ i → site.world.deployments i = none := by
  intro i beyond
  simp only [site, siteWorld] at beyond ⊢
  split_ifs <;> first | rfl | omega

theorem site_active : ActiveDeployed site.world := by
  intro k p i found pointed
  simp only [site, siteWorld] at found
  split_ifs at found
  cases found
  simp [scenarioProject] at pointed

/-- The worker deploys deployment 42 of `foo` from its raw bundle. -/
def deployOnce : List Move := [.post (rawJob 42), .deliver 0] ++ List.replicate 18 (.run 0 true)

/-- Once `foo` points at deployment 42, that row is a deployed deployment of `foo`. -/
theorem active_deployment_deployed_site :
    ∃ s p, Reachable scenarioPlatform site s ∧ s.world.projects 1 = some p ∧ p.activeDeploymentId = some 42 ∧
      ∃ d, s.world.deployments 42 = some d ∧ d.projectId = p.id ∧ d.state = .deployed := by
  obtain ⟨s, reached, holds⟩ := @reach_of_run scenarioPlatform site deployOnce
    (fun s => (s.world.projects 1).bind (·.activeDeploymentId) == some 42) (by decide)
  obtain ⟨p, found, active⟩ := Option.bind_eq_some.mp (beq_iff_eq.mp holds)
  exact ⟨s, p, reached, found, active,
    active_deployment_deployed reached site_keyed site_fresh site_active rfl 1 p 42 found active⟩

/-- A deploy of `foo` by its owner with a payload part. -/
def payloadRequest : Deployments.Request :=
  ⟨some ⟨7⟩, "foo", true, "1024", [.part "payload" "tar"]⟩

end Pubstorm.System
