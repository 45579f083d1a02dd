import ZjuOs.Switches
import ZjuOs.TaskTable

/-!
`do_timer` and `schedule` on the task structures in memory. What they do to the machine is what the scheduler of
`ZjuOs.Schedule` does to the numbers of the tasks.
-/
namespace ZjuOs
open Memory Exec

section Code
variable (img : Image)

/-- The loop of `schedule` over the `n` tasks from `i`. -/
def scanTasks : Nat → Nat → Scan → K Scan
  | 0, _, r => return r
  | n + 1, i, r => do
      let counter ← loadWord img ((← get).task i + TASK_COUNTER)
      if counter = 0 then scanTasks n (i + 1) r
      else if counter > throughInt r.max then scanTasks n (i + 1) { max := counter, next := i, flag := true }
      else scanTasks n (i + 1) { r with flag := true }

/-- `task[i]->counter = task[i]->priority` for the `n` tasks from `i`. -/
def refillTasks : Nat → Nat → K Unit
  | 0, _ => return ()
  | n + 1, i => do
      let task := (← get).task i
      let priority ← loadWord img (task + TASK_PRIORITY)
      storeWord img (task + TASK_COUNTER) priority
      refillTasks n (i + 1)

/-- `schedule` with `fuel` recursive calls. -/
def schedule : Nat → K Unit
  | 0 => throw .diverge
  | fuel + 1 => do
      let r ← scanTasks img (← get).tasksNumber 1 { max := 0, next := 0, flag := false }
      if r.flag then switchTo img ((← get).task r.next)
      else
        refillTasks img (← get).tasksNumber 1
        schedule fuel

def doTimer (fuel : Nat) : K Unit := do
  let s ← get
  if s.current = s.idle then schedule img fuel
  else
    let counter ← loadWord img (s.current + TASK_COUNTER)
    if counter = 0 then schedule img fuel
    else
      storeWord img (s.current + TASK_COUNTER) (counter - 1)
      if counter - 1 = 0 then schedule img fuel else return ()

end Code

section Grows
variable {img : Image}

theorem grows_scanTasks (n i : Nat) (r : Scan) : Grows 0 (scanTasks img n i r) := by
  induction n generalizing i r with
  | zero => exact grows_pure _
  | succ n ih =>
      refine grows_bind grows_get fun _ => grows_bind (grows_loadWord _) fun _ => ?_
      exact grows_ite (ih ..) (grows_ite (ih ..) (ih ..))

theorem grows_refillTasks (n i : Nat) : Grows 0 (refillTasks img n i) := by
  induction n generalizing i with
  | zero => exact grows_pure _
  | succ n ih =>
      exact grows_bind grows_get fun _ => grows_bind (grows_loadWord _) fun _ => grows_bind (grows_storeWord ..) fun _ => ih _

theorem grows_schedule (fuel : Nat) : Grows 0 (schedule img fuel) := by
  induction fuel with
  | zero => exact grows_throw _
  | succ fuel ih =>
      refine grows_bind grows_get fun _ => grows_bind (grows_scanTasks ..) fun _ => grows_ite ?_ ?_
      · exact grows_bind grows_get fun _ => grows_switchTo _
      · exact grows_bind grows_get fun _ => grows_bind (grows_refillTasks ..) fun _ => ih

/-- The timer takes no page and no event back. -/
theorem grows_doTimer (fuel : Nat) : Grows 0 (doTimer img fuel) := by
  refine grows_bind grows_get fun _ => grows_ite (grows_schedule _) (grows_bind (grows_loadWord _) fun _ => ?_)
  exact grows_ite (grows_schedule _) (grows_bind (grows_storeWord ..) fun _ => grows_ite (grows_schedule _) (grows_pure _))

end Grows

/-- The numbers in the task structure at `p`. -/
def KState.taskStruct (s : KState) (p : Nat) : TaskStruct where
  counter := ld 8 s.mem (VA2PA p + TASK_COUNTER)
  priority := ld 8 s.mem (VA2PA p + TASK_PRIORITY)
  pid := ld 8 s.mem (VA2PA p + TASK_PID)

/-- The scheduler's view of the machine. The numbers of the idle task are never read. -/
structure Shows (s : KState) (σ : Sched) : Prop where
  task : σ.task = s.task
  tasksNumber : σ.tasksNumber = s.tasksNumber
  idle : σ.idle = s.idle
  current : σ.current = s.current
  fields : ∀ i, 1 ≤ i → i < NR_TASKS → s.task i ≠ 0 → σ.taskAt i = s.taskStruct (s.task i)

/-- The tasks lie in page frames of RAM. -/
def Sited (img : Image) (s : KState) : Prop := ∀ i, i < NR_TASKS → s.task i ≠ 0 → ∃ f, img.Ram f ∧ s.task i = framePtr f

/-- From memory `m` on, the bytes in front of the registers in the task structures have changed. -/
def Renumbered (s : KState) (m : Mem) : Prop :=
  ∀ x, m x ≠ s.mem x → ∃ k o, k < NR_TASKS ∧ s.task k ≠ 0 ∧ o < THREAD_RA ∧ x = VA2PA (s.task k) + o

/-- The kernel has changed numbers of the tasks, and has called `switch_to` or not. -/
inductive Timed (img : Image) (s : KState) : KState → Prop
  | stay {m : Mem} : Renumbered s m → Timed img s (s.withMem m)
  | switch {m : Mem} {j : Nat} {t : KState} : Renumbered s m → 1 ≤ j → j ≤ s.tasksNumber →
      (switchTo img (s.task j)).run (s.withMem m) = .ok () t → Timed img s t

section Loops
variable {img : Image} {s t : KState} {σ : Sched} {m : Mem} {f i j n c p fuel : Nat} {r : Scan}

theorem Renumbered.refl (s : KState) : Renumbered s s.mem := fun _ hx => absurd rfl hx

theorem Renumbered.trans {m' : Mem} (h : Renumbered s m) (h' : Renumbered (s.withMem m) m') : Renumbered s m' := fun x hx => by
  by_cases hm : m x = s.mem x
  · exact h' x (by rwa [KState.withMem_mem, hm])
  · exact h x hm

theorem taskStruct_frame (hram : img.Ram f) : s.taskStruct (framePtr f) =
    ⟨ld 8 s.mem (f * 4096 + TASK_COUNTER), ld 8 s.mem (f * 4096 + TASK_PRIORITY), ld 8 s.mem (f * 4096 + TASK_PID)⟩ := by
  rw [KState.taskStruct, VA2PA_page hram]

theorem Shows.load (h : Shows s σ) (h1 : 1 ≤ i) (hi : i < NR_TASKS) (hf : s.task i = framePtr f) (hram : img.Ram f) :
    σ.taskAt i = ⟨ld 8 s.mem (f * 4096 + TASK_COUNTER), ld 8 s.mem (f * 4096 + TASK_PRIORITY),
      ld 8 s.mem (f * 4096 + TASK_PID)⟩ := by
  rw [h.fields i h1 hi (by rw [hf]; exact framePtr_ne_zero f), hf, taskStruct_frame hram]

/-- A counter is stored. -/
theorem Shows.setCounter (h : Shows s σ) (hs : Sited img s) (hi : i < NR_TASKS) (hf : s.task i = framePtr f) (hram : img.Ram f)
    (hc : c < 2 ^ 64) : Shows (s.withMem (sd 8 s.mem (f * 4096 + TASK_COUNTER) c)) (σ.setCounter (framePtr f) c) ∧
      Renumbered s (sd 8 s.mem (f * 4096 + TASK_COUNTER) c) := by
  refine ⟨⟨h.task, h.tasksNumber, h.idle, h.current, fun k hk1 hk hne => ?_⟩, fun x hx => ?_⟩
  · obtain ⟨g, hg, hkg⟩ := hs k hk hne
    have hold := h.load hk1 hk hkg hg
    rw [Sched.taskAt, h.task, hkg] at hold
    rw [Sched.taskAt, show (σ.setCounter (framePtr f) c).task = s.task from h.task, KState.withMem_task, hkg,
      taskStruct_frame hg, Sched.setCounter, heap_put, KState.withMem_mem]
    by_cases hgf : framePtr g = framePtr f
    · obtain rfl := framePtr_inj hgf
      rw [if_pos rfl, hold, ld_sd_self, show 256 ^ 8 = 2 ^ 64 from rfl, Nat.mod_eq_of_lt hc]
      simp only [TASK_COUNTER, TASK_PRIORITY, TASK_PID]
      rw [ld_sd_of_disjoint (by omega), ld_sd_of_disjoint (by omega)]
    · have hne : g ≠ f := fun he => hgf (congrArg framePtr he)
      rw [if_neg hgf, hold]
      simp only [TASK_COUNTER, TASK_PRIORITY, TASK_PID]
      rw [ld_sd_of_disjoint (by omega), ld_sd_of_disjoint (by omega), ld_sd_of_disjoint (by omega)]
  · have hin : ¬ (x < f * 4096 + TASK_COUNTER ∨ f * 4096 + TASK_COUNTER + 8 ≤ x) := fun hno => hx (sd_outside hno)
    obtain ⟨o, rfl⟩ := Nat.exists_eq_add_of_le (show f * 4096 ≤ x by omega)
    refine ⟨i, o, hi, by rw [hf]; exact framePtr_ne_zero f, ?_, by rw [hf, VA2PA_page hram]⟩
    simp only [TASK_COUNTER, THREAD_RA] at *
    omega

theorem Sited.withMem (h : Sited img s) : Sited img (s.withMem m) := h

theorem scanTasks_spec (h : Shows s σ) (hs : Sited img s) (h1 : 1 ≤ i)
    (hlive : ∀ k, i ≤ k → k < i + n → k < NR_TASKS ∧ s.task k ≠ 0) :
    Ends (scanTasks img n i r) s (fun r' t => t = s ∧ r' = σ.scan n i r) fun _ _ => False := by
  induction n generalizing i r with
  | zero => exact ends_pure.mpr ⟨rfl, rfl⟩
  | succ n ih =>
      obtain ⟨hi, hne⟩ := hlive i le_rfl (by omega)
      obtain ⟨f, hram, hf⟩ := hs i hi hne
      have hrest : ∀ r', Ends (scanTasks img n (i + 1) r') s (fun r'' t => t = s ∧ r'' = σ.scan n (i + 1) r') fun _ _ => False :=
        fun r' => ih (by omega) fun k hlo hhi => hlive k (by omega) (by omega)
      rw [scanTasks, Sched.scan, h.load h1 hi hf hram]
      refine ends_bind.mpr (ends_get.mpr ?_)
      rw [hf]
      refine ends_bind.mpr ((ends_loadWord hram (by decide)).mpr ?_)
      dsimp only
      split
      · exact hrest _
      · split
        · exact hrest _
        · exact hrest _

theorem refillTasks_spec (h : Shows s σ) (hs : Sited img s) (h1 : 1 ≤ i)
    (hlive : ∀ k, i ≤ k → k < i + n → k < NR_TASKS ∧ s.task k ≠ 0) :
    Ends (refillTasks img n i) s (fun _ t => ∃ m, t = s.withMem m ∧ Renumbered s m ∧ Shows t (σ.refill n i)) fun _ _ => False := by
  induction n generalizing i s σ with
  | zero => exact ends_pure.mpr ⟨s.mem, rfl, .refl s, h⟩
  | succ n ih =>
      obtain ⟨hi, hne⟩ := hlive i le_rfl (by omega)
      obtain ⟨f, hram, hf⟩ := hs i hi hne
      rw [refillTasks, Sched.refill, h.load h1 hi hf hram, h.task]
      refine ends_bind.mpr (ends_get.mpr ?_)
      dsimp only
      rw [hf]
      refine ends_bind.mpr ((ends_loadWord hram (by decide)).mpr (ends_bind.mpr ((ends_storeWord hram (by decide)).mpr ?_)))
      obtain ⟨hshows, hm⟩ := h.setCounter hs hi hf hram (ld_lt 8 s.mem (f * 4096 + TASK_PRIORITY))
      refine (ih hshows hs.withMem (by omega) fun k hlo hhi => hlive k (by omega) (by omega)).mono ?_ fun _ _ hno => hno
      rintro _ _ ⟨m, rfl, hm', hrefilled⟩
      exact ⟨m, KState.withMem_withMem .., hm.trans hm', hrefilled⟩

theorem Shows.current_only (h : Shows s σ) (hmem : t.mem = s.mem) (htask : t.task = s.task)
    (hnumber : t.tasksNumber = s.tasksNumber) (hidle : t.idle = s.idle) (hcur : t.current = p) :
    Shows t { σ with current := p } := by
  refine ⟨h.task.trans htask.symm, h.tasksNumber.trans hnumber.symm, h.idle.trans hidle.symm, hcur.symm, fun i h1 hi hne => ?_⟩
  rw [htask] at hne ⊢
  rw [KState.taskStruct, hmem]
  exact h.fields i h1 hi hne

theorem switchTo_shows (h : Shows s σ) (hs : Sited img s) (hj : j < NR_TASKS) (hne : s.task j ≠ 0) :
    Ends (switchTo img (s.task j)) s (fun _ t => Shows t (σ.switchTo (s.task j))) fun _ _ => False := by
  obtain ⟨f, hram, hf⟩ := hs j hj hne
  rw [switchTo, Sched.switchTo, h.current]
  refine ends_bind.mpr (ends_get.mpr ?_)
  by_cases hcur : s.task j = s.current
  · rw [if_pos hcur, if_pos hcur]
    exact ends_pure.mpr h
  · rw [if_neg hcur, if_neg hcur]
    refine ends_bind.mpr (ends_modify.mpr ?_)
    rw [hf]
    refine ends_bind.mpr ((ends_loadWord hram (by decide)).mpr ?_)
    dsimp only
    generalize (VA2PA (ld 8 s.mem (f * 4096 + TASK_PGD)) >>> 12) ||| 0x8000000000000000 = v
    exact ends_bind.mpr (ends_modify.mpr (ends_modify.mpr (h.current_only (KState.log_mem ..) (KState.log_task ..)
      (KState.log_tasksNumber ..) (KState.log_idle ..) (KState.log_current ..))))

theorem Timed.of_withMem (h : Timed img (s.withMem m) t) (hm : Renumbered s m) : Timed img s t := by
  cases h with
  | stay hm' => exact .stay (hm.trans hm')
  | switch hm' h1 hj hrun => exact .switch (hm.trans hm') h1 hj hrun

theorem Shows.entries (h : Shows s σ) (ht : TaskTable σ) (hi : i ≤ s.tasksNumber) : i < NR_TASKS ∧ s.task i ≠ 0 := by
  have hnumber := ht.number
  rw [h.tasksNumber] at hnumber
  have hlt : i < NR_TASKS := by omega
  refine ⟨hlt, ?_⟩
  rw [← h.task]
  exact (ht.entries i hlt).mpr (by rwa [h.tasksNumber])

/-- `schedule` of the machine returns when the one of the scheduler does, and shows its result. -/
theorem schedule_refines (h : Shows s σ) (hs : Sited img s) (ht : TaskTable σ) :
    Ends (schedule img fuel) s (fun _ t => Timed img s t ∧ ∃ τ, σ.schedule fuel = some τ ∧ Shows t τ)
      fun e _ => e = .diverge ∧ σ.schedule fuel = none := by
  induction fuel generalizing s σ with
  | zero => exact ends_throw.mpr ⟨rfl, rfl⟩
  | succ fuel ih =>
      have hrange : ∀ k, 1 ≤ k → k < 1 + s.tasksNumber → k < NR_TASKS ∧ s.task k ≠ 0 := fun k hlo hhi => h.entries ht (by omega)
      have hbest := ht.range.scan
      rw [schedule, Sched.schedule]
      refine ends_bind.mpr (ends_get.mpr (ends_bind.mpr ?_))
      refine (scanTasks_spec h hs le_rfl hrange).mono ?_ fun _ _ hno => hno.elim
      rintro r _ ⟨rfl, hr⟩
      rw [← h.tasksNumber] at hr
      rw [← hr] at hbest ⊢
      by_cases hflag : r.flag = true
      · rw [if_pos hflag, if_pos hflag, h.task]
        have hpos := hbest.pos hflag
        rw [h.tasksNumber] at hpos
        obtain ⟨hnext, hne⟩ := h.entries ht (i := r.next) (by omega)
        refine ends_bind.mpr (ends_get.mpr ?_)
        refine (switchTo_shows h hs hnext hne).ran.mono ?_ fun _ _ hno => hno.elim
        rintro _ t ⟨hshows, hrun⟩
        exact ⟨.switch (.refl _) hpos.1 (by omega) hrun, _, rfl, hshows⟩
      · rw [if_neg hflag, if_neg hflag]
        refine ends_bind.mpr (ends_get.mpr (ends_bind.mpr ?_))
        refine (refillTasks_spec h hs le_rfl hrange).mono ?_ fun _ _ hno => hno.elim
        rintro _ _ ⟨m, rfl, hm, hshows⟩
        rw [← h.tasksNumber] at hshows
        refine (ih hshows hs.withMem (ht.retimed retimed_refill ht.range.refill.counter)).mono ?_ fun _ _ he => he
        rintro _ t ⟨htimed, hτ⟩
        exact ⟨htimed.of_withMem hm, hτ⟩

/-- `do_timer` of the machine returns when the one of the scheduler does, and shows its result. -/
theorem doTimer_refines (h : Shows s σ) (hs : Sited img s) (ht : TaskTable σ) (hrun : UserRuns σ) :
    Ends (doTimer img fuel) s (fun _ t => Timed img s t ∧ ∃ τ, σ.doTimer fuel = some τ ∧ Shows t τ)
      fun e _ => e = .diverge ∧ σ.doTimer fuel = none := by
  obtain ⟨i, h1, hi, hcur, hpos⟩ := hrun
  have hidle : σ.current ≠ σ.idle := ht.current_ne_idle ⟨i, h1, hi, hcur, hpos⟩
  rw [h.tasksNumber] at hi
  obtain ⟨hlt, hne⟩ := h.entries ht hi
  obtain ⟨f, hram, hf⟩ := hs i hlt hne
  have hcharge := ht.charge
  have hσ : σ.current = framePtr f := by rw [hcur, h.task, hf]
  have hcounter : (σ.heap (framePtr f)).counter = ld 8 s.mem (f * 4096 + TASK_COUNTER) := by
    have hat := h.load h1 hlt hf hram
    rw [Sched.taskAt, h.task, hf] at hat
    rw [hat]
  have hleft : ld 8 s.mem (f * 4096 + TASK_COUNTER) ≠ 0 := by
    rw [← hcounter, ← hσ]
    exact (TaskTable.current_counter ⟨i, h1, by rwa [h.tasksNumber], hcur, hpos⟩).ne'
  have hlt' := ld_lt 8 s.mem (f * 4096 + TASK_COUNTER)
  rw [hσ, hcounter] at hcharge
  rw [hσ, h.idle] at hidle
  rw [doTimer, Sched.doTimer, hσ, hcounter, h.idle, if_neg fun hno => hno.elim hidle hleft]
  refine ends_bind.mpr (ends_get.mpr ?_)
  rw [← h.current, hσ, if_neg hidle]
  refine ends_bind.mpr ((ends_loadWord hram (by decide)).mpr ?_)
  rw [if_neg hleft]
  refine ends_bind.mpr ((ends_storeWord hram (by decide)).mpr ?_)
  obtain ⟨hshows, hm⟩ := h.setCounter hs hlt hf hram (show ld 8 s.mem (f * 4096 + TASK_COUNTER) - 1 < 2 ^ 64 by omega)
  have hself : ((σ.setCounter (framePtr f) (ld 8 s.mem (f * 4096 + TASK_COUNTER) - 1)).heap
      (σ.setCounter (framePtr f) (ld 8 s.mem (f * 4096 + TASK_COUNTER) - 1)).current).counter =
      ld 8 s.mem (f * 4096 + TASK_COUNTER) - 1 := by
    change ((σ.setCounter (framePtr f) (ld 8 s.mem (f * 4096 + TASK_COUNTER) - 1)).heap σ.current).counter = _
    rw [hσ, Sched.setCounter, heap_put, if_pos rfl]
  dsimp only
  rw [hself]
  by_cases hzero : ld 8 s.mem (f * 4096 + TASK_COUNTER) - 1 = 0
  · rw [if_pos hzero, if_pos hzero]
    refine (schedule_refines hshows hs.withMem hcharge).mono ?_ fun _ _ he => he
    rintro _ t ⟨htimed, hτ⟩
    exact ⟨htimed.of_withMem hm, hτ⟩
  · rw [if_neg hzero, if_neg hzero]
    exact ends_pure.mpr ⟨.stay hm, _, rfl, hshows⟩

end Loops

end ZjuOs
