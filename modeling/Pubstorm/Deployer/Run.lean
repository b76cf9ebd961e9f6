import Pubstorm.Deployer.Steps

/-!
# Runs of `Work` alone

A run is a sequence of statements, each call succeeding or failing as the environment
chooses. Along any run the world is the start world with the run's effects applied; the
effects write no table until the commit, and `Work` returns nil exactly when the
commit's activation is among them.
-/

namespace Pubstorm.Deployer

variable {P : Platform}

variable (P) in
/-- A run of `Work` with no other process between its statements. -/
def Runs : Pc × World → Pc × World → Prop :=
  Relation.ReflTransGen fun s s' => ∃ ok, step P ok s.2 s.1 = s'

/-- The rows of `w` the locals were loaded from. -/
def LocalsLoaded (w : World) (l : Locals) : Prop :=
  w.deployments l.job.deploymentId = some l.depl ∧ w.projects l.depl.projectId = some l.proj

/-- The rows a program point's locals were loaded from. -/
def Pc.Loaded (w : World) (pc : Pc) : Prop :=
  (∀ l, pc.locals? = some l → LocalsLoaded w l) ∧
    ∀ job depl, pc = .loadProject job depl → w.deployments job.deploymentId = some depl

theorem runs_okIter (n : Nat) (s : Pc × World) : Runs P s (okIter P n s) := by
  induction n generalizing s with
  | zero => exact .refl
  | succ n ih => exact Relation.ReflTransGen.head ⟨true, rfl⟩ (ih _)

theorem applyAll_tables {w : World} {es : List Effect} (keeps : ∀ e ∈ es, e.KeepsTables) :
    (w.applyAll es).deployments = w.deployments ∧ (w.applyAll es).projects = w.projects := by
  induction es generalizing w with
  | nil => exact ⟨rfl, rfl⟩
  | cons e es ih =>
    obtain ⟨d, p⟩ := ih fun e' m => keeps e' (List.mem_cons_of_mem _ m)
    obtain ⟨d', p'⟩ := World.apply_tables (w := w) (keeps e (List.mem_cons_self _ _))
    exact ⟨d.trans d', p.trans p'⟩

theorem activation_not_keepsTables (l : Locals) (now : Nat) : ¬ (activation l now).KeepsTables :=
  id

/-- Where a run from `(pc₀, w)` stands after effects `es`. -/
structure SoloInv (w : World) (s : Pc × World) (es : List Effect) : Prop where
  world : s.2 = w.applyAll es
  effects : ∀ e ∈ es, e.KeepsTables ∨ ∃ l now, e = activation l now ∧ LocalsLoaded w l
  committed : s.1.PostCommit ↔ ∃ l now, activation l now ∈ es
  loaded : s.1.Loaded w

theorem SoloInv.tables {w : World} {s : Pc × World} {es : List Effect} (h : SoloInv w s es)
    (pre : ¬ s.1.PostCommit) : s.2.deployments = w.deployments ∧ s.2.projects = w.projects := by
  rw [h.world]
  refine applyAll_tables fun e m => ?_
  rcases h.effects e m with keeps | ⟨l, now, rfl, -⟩
  · exact keeps
  · exact absurd (h.committed.mpr ⟨l, now, m⟩) pre

theorem soloInv_step {w : World} {pc : Pc} {w₁ : World} {es : List Effect}
    (h : SoloInv w (pc, w₁) es) (ok : Bool) :
    ∃ es', SoloInv w (step P ok w₁ pc) es' := by
  have post := step_postCommit (P := P) ok w₁ pc
  have hw : w₁ = w.applyAll es := h.world
  have committed : pc.PostCommit ↔ ∃ l now, activation l now ∈ es := h.committed
  have loaded : (step P ok w₁ pc).1.Loaded w := by
    refine ⟨fun l hl => ?_, fun job depl same => ?_⟩
    · rcases step_locals hl with carried | ⟨rfl, proj⟩
      · exact h.loaded.1 l carried
      · have tables := h.tables (by simp [Pc.PostCommit])
        exact ⟨h.loaded.2 _ _ rfl, tables.2 ▸ proj⟩
    · obtain ⟨rfl, read⟩ := step_loadProject same
      exact (h.tables (by simp [Pc.PostCommit])).1 ▸ read
  rcases step_world (P := P) ok w₁ pc with ⟨l, now, rfl, rfl, moved⟩ | ⟨notCommit, same | ⟨e, keeps, moved⟩⟩
  · refine ⟨es ++ [activation l now], ⟨?_, ?_, ?_, loaded⟩⟩
    · rw [moved, hw, World.applyAll_append]; rfl
    · intro e m
      rcases List.mem_append.mp m with m | m
      · exact h.effects e m
      · exact .inr ⟨l, now, List.mem_singleton.mp m, h.loaded.1 l rfl⟩
    · simp only [post, Pc.IsCommit, and_self, or_true, true_iff]
      exact ⟨l, now, by simp⟩
  · refine ⟨es, ⟨same.trans hw, h.effects, ?_, loaded⟩⟩
    rw [post, ← committed]
    simp [notCommit]
  · refine ⟨es ++ [e], ⟨?_, ?_, ?_, loaded⟩⟩
    · rw [moved, hw, World.applyAll_append]; rfl
    · intro e' m
      rcases List.mem_append.mp m with m | m
      · exact h.effects e' m
      · exact .inl (List.mem_singleton.mp m ▸ keeps)
    · rw [post, committed]
      simp only [notCommit, or_false, List.mem_append, List.mem_singleton]
      constructor
      · rintro ⟨l, now, m⟩; exact ⟨l, now, .inl m⟩
      · rintro ⟨l, now, m | rfl⟩
        · exact ⟨l, now, m⟩
        · exact absurd keeps (activation_not_keepsTables l now)

theorem runs_soloInv {data : JsonValue} {w : World} {s : Pc × World}
    (h : Runs P (.start data, w) s) : ∃ es, SoloInv w s es := by
  induction h with
  | refl => exact ⟨[], ⟨rfl, by simp, by simp [Pc.PostCommit], by simp [Pc.Loaded, Pc.locals?]⟩⟩
  | tail _ moved ih =>
    obtain ⟨es, inv⟩ := ih
    obtain ⟨ok, rfl⟩ := moved
    exact soloInv_step inv ok

theorem runs_postCommit {s s' : Pc × World} (h : Runs P s s') (post : s.1.PostCommit) :
    s'.1.PostCommit := by
  induction h with
  | refl => exact post
  | tail _ moved ih =>
    obtain ⟨ok, rfl⟩ := moved
    exact (step_postCommit ok _ _).mpr (.inl ih)

theorem done_postCommit (r : Except WorkError Unit) : (Pc.done r).PostCommit ↔ r = .ok () := by
  rcases r with e | ⟨⟩ <;> simp [Pc.PostCommit]

/-- For every failure pattern, `Work` returns nil exactly when its transaction committed.
The commit is one effect, `activation`, which writes `state = deployed` and `deployed_at`
on the deployment and `active_deployment_id` on its project, for the rows the run loaded;
every other effect writes no table, so an error leaves both tables as they were. Once the
commit is done, whatever happens to the user lookup or the analytics call, the result is
nil. -/
theorem work_nil_iff_committed {data : JsonValue} {w w' : World} {r : Except WorkError Unit}
    (h : Runs P (.start data, w) (.done r, w')) :
    ∃ es, w' = w.applyAll es ∧
      (r = .ok () ↔ ∃ l now, activation l now ∈ es) ∧
      (∀ e ∈ es, e.KeepsTables ∨ ∃ l now, e = activation l now ∧
        w.deployments l.job.deploymentId = some l.depl ∧ w.projects l.depl.projectId = some l.proj) ∧
      (r ≠ .ok () → w'.deployments = w.deployments ∧ w'.projects = w.projects) ∧
      ∀ l now w₁ r₁ w₁', Runs P (.loadUser l now, w₁) (.done r₁, w₁') → r₁ = .ok () := by
  obtain ⟨es, inv⟩ := runs_soloInv h
  exact ⟨es, inv.world, (done_postCommit r).symm.trans inv.committed, inv.effects,
    fun failed => inv.tables ((done_postCommit r).not.mpr failed),
    fun l now w₁ r₁ w₁' after => (done_postCommit r₁).mp (runs_postCommit after trivial)⟩

theorem work_nil_iff_committed_scenario :
    let w := scenarioWorld .pendingDeploy
    let w' := (okIter scenarioPlatform 16 (.start scenarioJob.toJson, w)).2
    ∃ es, w' = w.applyAll es ∧
      ((.ok () : Except WorkError Unit) = .ok () ↔ ∃ l now, activation l now ∈ es) ∧
      (∀ e ∈ es, e.KeepsTables ∨ ∃ l now, e = activation l now ∧
        w.deployments l.job.deploymentId = some l.depl ∧ w.projects l.depl.projectId = some l.proj) ∧
      ((.ok () : Except WorkError Unit) ≠ .ok () →
        w'.deployments = w.deployments ∧ w'.projects = w.projects) ∧
      ∀ l now w₁ r₁ w₁', Runs scenarioPlatform (.loadUser l now, w₁) (.done r₁, w₁') → r₁ = .ok () :=
  work_nil_iff_committed (runs_okIter 16 (.start scenarioJob.toJson, scenarioWorld .pendingDeploy))

end Pubstorm.Deployer
