import ZjuOs.EagerFork
import ZjuOs.Fairness
import ZjuOs.FirstEntry
import ZjuOs.TrapHandler

/-!
The machine schedules as `ZjuOs.Schedule` says: whatever the programs of the tasks and the traps do, the task structures
in memory show a state of the scheduler, and every timer interrupt is a step of it.
-/
namespace ZjuOs
open Memory Exec

/-- A byte of the registers that a switch has saved, or of the stack of the kernel, in the page of a task. -/
def KState.StackByte (s : KState) (x : Nat) : Prop :=
  ∃ k o, k < NR_TASKS ∧ s.task k ≠ 0 ∧ o < 4096 ∧ (THREAD_RA ≤ o ∧ o < TASK_PGD ∨ TASK_MM + 8 ≤ o) ∧ x = VA2PA (s.task k) + o

def isTimer (scause : Nat) : Prop := isInterrupt scause = true ∧ causeCode scause = 5

/-- What happens on the machine while task `i` is current: its program stores a byte, the kernel writes to its stacks, or a
trap is handled with the trap frame at byte `o` of the task's page. A timer interrupt is marked with the task.

The stacks and the trap frames are taken to lie above the task structures. `entry.S` does not see to that: it lowers the
stack of the kernel by 8 bytes for every trap from user mode, so that the frame of the 455th such trap of a task begins in
its task structure, and the 474th stores 0 over its number. -/
inductive MachineStep (img : Image) (site : Printk.Site) (s : KState) : Option Nat → KState → Prop
  | store {va : Nat} {c : UInt8} {t : KState} : Step img s (.store va c) t → MachineStep img site s none t
  | stack {m : Mem} : (∀ x, m x ≠ s.mem x → s.StackByte x) → MachineStep img site s none (s.withMem m)
  | trap {i f o fuel scause : Nat} {t : KState} : s.Runs i → s.task i = framePtr f → TASK_MM + 8 ≤ o → o + 288 ≤ 4096 →
      ¬ isTimer scause → (trapHandler img site fuel scause (framePtr f + o)).run s = .ok () t → MachineStep img site s none t
  | timer {i f o fuel scause : Nat} {t : KState} : s.Runs i → s.task i = framePtr f → TASK_MM + 8 ≤ o → o + 288 ≤ 4096 →
      isTimer scause → (trapHandler img site fuel scause (framePtr f + o)).run s = .ok () t → MachineStep img site s (some i) t

/-- A run of the machine. `l` are the tasks that have paid for a tick, the last one first. -/
inductive MachineRun (img : Image) (site : Printk.Site) (s : KState) : List Nat → KState → Prop
  | start : MachineRun img site s [] s
  | step {l : List Nat} {t u : KState} {i : Option Nat} : MachineRun img site s l t → MachineStep img site t i u →
      MachineRun img site s (i.toList ++ l) u

section Steps
variable {img : Image} {site : Printk.Site} {lay lay' : Layout} {s t : KState} {σ : Sched} {a : Act} {m : Mem} {f i o fuel : Nat}
  {l : List Nat}

theorem MachineStep.trace_suffix {p : Option Nat} (h : MachineStep img site s p t) : s.trace <:+ t.trace := by
  cases h with
  | store hs => exact hs.trace_suffix
  | stack _ => exact List.suffix_refl _
  | trap _ _ _ _ _ hrun => exact ((trails_trapHandler ..).run s).of_ok hrun
  | timer _ _ _ _ _ hrun => exact ((trails_trapHandler ..).run s).of_ok hrun

theorem RunInv.sited (h : RunInv img lay s) : Sited img s := fun _ hi hne => h.frame_of hi hne

theorem taskStruct_congr {f g : Nat} (hf : img.Ram f) (hg : img.Ram g)
    (h : ∀ o, o % 8 = 0 → o + 8 ≤ THREAD_RA → ld 8 t.mem (g * 4096 + o) = ld 8 s.mem (f * 4096 + o)) :
    t.taskStruct (framePtr g) = s.taskStruct (framePtr f) := by
  rw [taskStruct_frame hf, taskStruct_frame hg, h TASK_COUNTER rfl (by decide), h TASK_PRIORITY rfl (by decide),
    h TASK_PID rfl (by decide)]

/-- The numbers of the tasks stay where they are. -/
theorem Shows.same (h : Shows s σ) (hs : Sited img s) (htask : t.task = s.task) (hnumber : t.tasksNumber = s.tasksNumber)
    (hidle : t.idle = s.idle) (hcur : t.current = s.current)
    (hnums : ∀ k f, 1 ≤ k → k < NR_TASKS → s.task k = framePtr f → ∀ o, o < THREAD_RA →
      t.mem (f * 4096 + o) = s.mem (f * 4096 + o)) : Shows t σ := by
  refine ⟨h.task.trans htask.symm, h.tasksNumber.trans hnumber.symm, h.idle.trans hidle.symm, h.current.trans hcur.symm,
    fun k h1 hk hne => ?_⟩
  rw [htask] at hne ⊢
  obtain ⟨f, hram, hf⟩ := hs k hk hne
  rw [h.fields k h1 hk hne, hf, taskStruct_congr hram hram fun o _ ho => ?_]
  refine ld_congr fun x hlo hhi => ?_
  obtain ⟨y, rfl⟩ := Nat.exists_eq_add_of_le ((Nat.le_add_right _ _).trans hlo)
  exact (hnums k f h1 hk hf y (by omega)).symm

/-- Page faults, and stores of user programs, are nothing to the scheduler. -/
theorem Stepped.shows (h : RunInv img lay s) (hs : Stepped img lay s a lay' t) (hno : a ≠ .kernel) (hshows : Shows s σ)
    (hsame : SameTasks s t) : Shows t σ := by
  refine hshows.same h.sited hsame.task hsame.tasksNumber hsame.idle hsame.current fun k f h1 hk hf o ho => ?_
  have hlive : s.Live k := ⟨h1, hk, by rw [hf]; exact framePtr_ne_zero f⟩
  obtain rfl : lay.page k = f := h.paging.page_eq hlive hf
  exact hs.task_frame h hno (h.paging.task_ok hlive).page o (ho.trans (by decide))

/-- The stack of the kernel is nothing to the scheduler. -/
theorem RunInv.stack (h : RunInv img lay s) (hm : ∀ x, m x ≠ s.mem x → s.StackByte x) :
    Step img s .kernel (s.withMem m) ∧ ∀ σ, Shows s σ → Shows (s.withMem m) σ := by
  have hra : THREAD_RA = 32 := rfl
  have hpgd : TASK_PGD = 168 := rfl
  have hmm : TASK_MM = 176 := rfl
  have hbyte : ∀ f o, o < 4096 → m (f * 4096 + o) ≠ s.mem (f * 4096 + o) →
      s.TaskByte (f * 4096 + o) ∧ (THREAD_RA ≤ o ∧ o < TASK_PGD ∨ TASK_MM + 8 ≤ o) := fun f o ho hne => by
    obtain ⟨k, o', hk, hk0, ho', hat, hx⟩ := hm _ hne
    obtain ⟨g, -, -, hpa⟩ := h.task_pa hk hk0
    rw [hpa] at hx
    obtain ⟨rfl, rfl⟩ : f = g ∧ o = o' := by omega
    exact ⟨⟨k, o, hk, hk0, ho, by omega, by rw [hpa]⟩, hat⟩
  refine ⟨h.kernelStep (fun x hx => ?_) fun f o _ hlo hhi => ?_, fun σ hshows => ?_⟩
  · have hsplit := Nat.div_add_mod' x 4096
    rw [← hsplit] at hx ⊢
    exact (hbyte _ _ (Nat.mod_lt _ (by decide)) hx).1
  · by_contra hne
    rcases (hbyte f o (by omega) hne).2 with hlow | hhigh <;> omega
  · refine hshows.same h.sited rfl rfl rfl rfl fun k f _ _ _ o ho => ?_
    by_contra hne
    rcases (hbyte f o (by omega) hne).2 with hlow | hhigh <;> omega

/-- A fork of the machine is a fork of the scheduler, or finds no slot. -/
theorem RunInv.fork_shows {n : Int} (h : RunInv img lay s) (hi : s.Runs i) (hf : s.task i = framePtr f) (hlo : TASK_MM + 8 ≤ o)
    (hhi : o + 288 ≤ 4096) (hrun : (doCowFork img (framePtr f + o)).run s = .ok n t) (hclean : TablesClean t.trace)
    (hshows : Shows s σ) :
    Shows t σ ∨ ∃ child, child ≠ 0 ∧ (∀ k, k < NR_TASKS → σ.task k ≠ child) ∧ Shows t (σ.doCowFork child).2 := by
  have hram := h.ram_of hi.1.2.1 hf
  have hregs := framePtr_lt hram (show o ≤ 4096 by omega)
  have hframe := inFrame_of (f := f) hlo hhi
  have hstep : Step img s (.fork (framePtr f + o)) t := .fork hi hregs hframe hrun
  obtain ⟨lay', hstepped, -⟩ := h.step hstep hclean
  have hcur := hstepped.current h fun _ => Act.noConfusion
  have hnumber := doCowFork_number.of_ok hrun
  by_cases hn : n = -1
  · left
    refine hstepped.shows h Act.noConfusion hshows ?_
    cases hstepped with
    | fork _ _ hfork =>
        cases hfork with
        | full _ _ _ hc => exact hc.tasks
        | child j _ _ _ _ _ hspawn =>
            rw [hn] at hnumber
            exact absurd hspawn.empty (freeSlot_none (forkNumber_none hnumber) hspawn.lt)
  right
  obtain ⟨j, rfl, g, hp⟩ := h.parted hi hf hregs hframe hrun hn hclean
  have hslot : ZjuOs.freeSlot σ.task = some j := by
    rw [hshows.task]
    exact forkNumber_some hnumber
  have hforked : Forked σ (σ.doCowFork (framePtr g)).2 j (framePtr g) := (doCowFork_some hslot).2
  have hnew : ∀ k, k < NR_TASKS → σ.task k ≠ framePtr g := fun k hk he => by
    rw [hshows.task] at he
    obtain ⟨g', hg', -, href⟩ := h.task_ref hk (by rw [he]; exact framePtr_ne_zero g)
    obtain rfl : g' = g := framePtr_inj (hg'.symm.trans he)
    exact href hp.free
  refine ⟨framePtr g, framePtr_ne_zero g, hnew, ?_⟩
  generalize (σ.doCowFork (framePtr g)).2 = τ at hforked
  refine ⟨by rw [hforked.task, hshows.task, hp.table], by rw [hforked.tasksNumber, hp.number],
    by rw [hforked.idle, hshows.idle, hp.idle], by rw [hforked.current, hshows.current, hcur], fun k h1 hk hne => ?_⟩
  rw [Sched.taskAt, hforked.task, hshows.task]
  rw [hp.table] at hne ⊢
  by_cases hkj : k = j
  · -- the child
    rw [hkj, Function.update_self, hforked.new, hshows.current, hi.2, ← hshows.task]
    have hparent := hshows.load hi.1.1 hi.1.2.1 hf hram
    rw [Sched.taskAt] at hparent
    rw [hparent, taskStruct_frame hp.ram, hp.forged.pid, hp.forged.numbers TASK_COUNTER rfl (by decide),
      hp.forged.numbers TASK_PRIORITY rfl (by decide)]
  · rw [Function.update_of_ne hkj] at hne ⊢
    obtain ⟨g', hg', hkg⟩ := h.frame_of hk hne
    have hlive : s.Live k := ⟨h1, hk, hne⟩
    obtain rfl : lay.page k = g' := h.paging.page_eq hlive hkg
    have hold := hshows.fields k h1 hk hne
    rw [Sched.taskAt, hshows.task] at hold
    rw [hforked.old _ (by rw [← hshows.task]; exact hnew k hk), hold, hkg]
    refine (taskStruct_congr hg' hg' fun o _ ho => ?_).symm
    exact (hstepped.task_frame h Act.noConfusion (h.paging.task_ok hlive).page).ld (ho.trans (by decide))

/-- The timer writes to the numbers of the tasks, and may switch. -/
theorem Timed.reachable (h : Timed img s t) (hreach : Reachable img (fun _ _ => True) s) (hclean : TablesClean t.trace)
    (hshows : Shows s σ) (hσ : TaskTable σ) : Reachable img (fun _ _ => True) t := by
  have hwrite : ∀ {m : Mem}, TablesClean s.trace → Renumbered s m → Reachable img (fun _ _ => True) (s.withMem m) := fun hs hm =>
    (hreach.written hs fun x hx => .inr (hm x hx)).1
  cases h with
  | stay hm => exact hwrite hclean hm
  | @switch m j _ hm h1 hj hrun =>
      obtain ⟨hlt, hne⟩ := hshows.entries hσ hj
      have hstep : Step img (s.withMem m) (.switch j) t := .switch ⟨h1, hlt, hne⟩ hrun
      exact (hwrite (hclean.suffix hstep.trace_suffix) hm).step trivial hstep

/-- The task that is current has an entry that the scheduler knows. -/
theorem Shows.charged (h : Shows s σ) (hinv : RunInv img lay s) (hi : s.Runs i) (hσ : TaskTable σ) (hu : UserRuns σ) :
    i ≤ σ.tasksNumber ∧ σ.charged = some (σ.task i) := by
  have hidle := hσ.current_ne_idle hu
  have hpos := TaskTable.current_counter hu
  obtain ⟨j, h1, hj, hcur, -⟩ := hu
  have hruns : s.Runs j := by
    rw [h.tasksNumber] at hj
    obtain ⟨hlt, hne⟩ := h.entries hσ hj
    refine ⟨⟨h1, hlt, hne⟩, ?_⟩
    rw [← h.current, hcur, h.task]
  obtain rfl := hinv.paging.runs_unique hi hruns
  refine ⟨hj, ?_⟩
  rw [Sched.charged, ← hcur, if_neg]
  rintro (h0 | h0)
  · exact hidle h0
  · omega

/-- Along a run the scheduler is at `σ`, when it was at `ρ` at first. -/
structure Follows (img : Image) (ρ : Sched) (l : List Nat) (s : KState) (σ : Sched) : Prop where
  reach : Reachable img (fun _ _ => True) s
  shows : Shows s σ
  shift : Shift ρ l σ
  table : TaskTable σ
  runs : UserRuns σ

theorem Follows.still {ρ : Sched} (h : Follows img ρ l s σ) (hreach : Reachable img (fun _ _ => True) t) (hshows : Shows t σ) :
    Follows img ρ l t σ := ⟨hreach, hshows, h.shift, h.table, h.runs⟩

theorem Follows.acts {ρ : Sched} (h : Follows img ρ l s σ) (hi : s.Runs i) (hf : s.task i = framePtr f) (hlo : TASK_MM + 8 ≤ o)
    (hhi : o + 288 ≤ 4096) (hacts : Acts img f o s t) (hclean : TablesClean t.trace) : ∃ τ, Follows img ρ l t τ := by
  obtain ⟨hreach, -⟩ := hacts.kept h.reach hi hf hlo hhi hclean
  obtain ⟨lay, hinv⟩ := h.reach.inv (hclean.suffix hacts.trace_suffix)
  cases hacts with
  | rest => exact ⟨σ, h⟩
  | fork hrun =>
      rcases hinv.fork_shows hi hf hlo hhi hrun hclean h.shows with hshows | ⟨child, hne, hnew, hshows⟩
      · exact ⟨σ, h.still hreach hshows⟩
      · obtain ⟨htable, hruns⟩ := h.table.doCowFork h.runs hne hnew
        exact ⟨_, hreach, hshows, h.shift.fork hne hnew, htable, hruns⟩
  | fault hrun =>
      have hstep : Step img s _ t := .fault hi hrun
      obtain ⟨lay', hstepped, -⟩ := hinv.step hstep hclean
      refine ⟨σ, h.still hreach (hstepped.shows hinv Act.noConfusion h.shows ?_)⟩
      cases hstepped with
      | fault _ _ _ _ hres => exact hres.tasks

/-- Every step of the machine is one of the scheduler, or nothing to it. -/
theorem MachineStep.follows {ρ : Sched} {p : Option Nat} (hs : MachineStep img site s p t) (h : Follows img ρ l s σ)
    (hclean : TablesClean t.trace) : ∃ τ, Follows img ρ (p.toList ++ l) t τ := by
  obtain ⟨lay, hinv⟩ := h.reach.inv (hclean.suffix hs.trace_suffix)
  cases hs with
  | store hstep =>
      obtain ⟨lay', hstepped, -⟩ := hinv.step hstep hclean
      refine ⟨σ, h.still (h.reach.step trivial hstep) (hstepped.shows hinv Act.noConfusion h.shows ?_)⟩
      cases hstepped with
      | store => exact ⟨rfl, rfl, rfl, rfl, rfl, rfl⟩
  | stack hm =>
      obtain ⟨hstep, hshows⟩ := hinv.stack hm
      exact ⟨σ, h.still (h.reach.step trivial hstep) (hshows σ h.shows)⟩
  | @trap i f o fuel scause _ hi hf hlo hhi hno hrun =>
      have hram := hinv.ram_of hi.1.2.1 hf
      obtain ⟨u, hacts, ⟨v, rfl⟩ | rfl⟩ := ((trapHandler_attended hram hhi).of_ok hrun).acts hno
      · have hu : TablesClean u.trace := hclean
        obtain ⟨-, hruns, htask, -⟩ := hacts.kept h.reach hi hf hlo hhi hu
        obtain ⟨τ, hτ⟩ := h.acts hi hf hlo hhi hacts hu
        obtain ⟨lay', hinv'⟩ := hτ.reach.inv hu
        -- the answer is in the trap frame
        obtain ⟨hstep, hshows⟩ := hinv'.stack (m := (u.answer f o v).mem) fun x hx => by
          obtain ⟨y, hy, hy', rfl⟩ := answer_byte hlo hhi hx
          exact ⟨i, y, hruns.1.2.1, hruns.1.2.2, hy', .inr hy, by rw [htask, VA2PA_page hram]⟩
        exact ⟨τ, hτ.still (hτ.reach.step trivial hstep) (hshows τ hτ.shows)⟩
      · exact h.acts hi hf hlo hhi hacts hclean
  | @timer i f o fuel scause _ hi hf hlo hhi htimer hrun =>
      have hdone := ((trapHandler_attended (hinv.ram_of hi.1.2.1 hf) hhi).of_ok hrun).ticks htimer.1 htimer.2
      obtain ⟨htimed, τ, hτ, hshows⟩ := (doTimer_refines h.shows hinv.sited h.table h.runs).of_ok hdone
      obtain ⟨hle, hcharged⟩ := h.shows.charged hinv hi h.table h.runs
      obtain ⟨htable, hruns⟩ := SchedStep.table h.table h.runs (.tick hτ)
      exact ⟨τ, htimed.reachable h.reach hclean h.shows h.table, hshows, h.shift.tick hi.1.1 hle hcharged hτ, htable, hruns⟩

theorem MachineRun.trace_suffix (h : MachineRun img site s l t) : s.trace <:+ t.trace := by
  induction h with
  | start => exact List.suffix_refl _
  | step _ hs ih => exact ih.trans hs.trace_suffix

/-- A run of the machine is a run of the scheduler. -/
theorem MachineRun.follows (h : MachineRun img site s l t) (hs : Follows img σ [] s σ) (hclean : TablesClean t.trace) :
    ∃ τ, Follows img σ l t τ := by
  induction h with
  | start => exact ⟨σ, hs⟩
  | step _ hstep ih =>
      obtain ⟨τ, hτ⟩ := ih (hclean.suffix hstep.trace_suffix)
      exact hstep.follows hτ hclean

end Steps

/-- The scheduler before `task_init`: nothing has been written, and `n` tasks are wanted. -/
def Sched.blank (n : Nat) : Sched where
  heap _ := ⟨0, 0, 0⟩
  task _ := 0
  tasksNumber := n
  idle := 0
  current := 0

/-- `tasks_number` is `n`, and the idle task has entry 0. -/
def Numbered (n : Nat) (s : KState) : Prop := s.tasksNumber = n ∧ s.idle = s.task 0

/-- `task_init` has returned in `t`. -/
structure Inits (img : Image) (s t : KState) : Prop where
  ready : Ready img s
  some : 1 ≤ s.tasksNumber
  init : (taskInit img).run s = .ok () t
  below : AreasBelow t

/-- `task_init` and the first call of `schedule` in `start_kernel` have returned, the second one in `s`. -/
def Boots (img : Image) (s : KState) : Prop :=
  ∃ r t fuel, Inits img r t ∧ (schedule img fuel).run t = .ok () s

section Boot
variable {img : Image} {site : Printk.Site} {s t u : KState} {σ ρ : Sched} {i n : Nat} {l : List Nat}

theorem blind_numbered (n : Nat) : Blind (Numbered n) := blind_of (fun _ _ h => h) (fun _ _ h => h) fun _ _ h => h

theorem numbered_doMmap (mm addr len pgoff filesz flags : Nat) :
    Keeps (Numbered n) (doMmap img mm addr len pgoff filesz flags) := by
  refine keeps_bind (blind_numbered n).allocPage fun _ => keeps_bind (keeps_notNull _) fun _ => ?_
  refine keeps_bind (keeps_loadWord _) fun _ => ?_
  exact keeps_bind (keeps_modify fun _ h => h) fun _ => keeps_bind ((blind_numbered n).storeWord ..) fun _ => keeps_pure _

theorem numbered_vmaInit (task : Nat) : Keeps (Numbered n) (vmaInit img task) := by
  refine keeps_bind (keeps_loadField ..) fun _ => keeps_bind (keeps_loadField ..) fun _ => ?_
  refine keeps_bind (keeps_mmapSegments (fun _ _ _ _ _ => numbered_doMmap ..) ..) fun _ => ?_
  refine keeps_bind (numbered_doMmap ..) fun _ => ?_
  exact keeps_bind (keeps_loadField ..) fun _ => (blind_numbered n).storeWord ..

theorem numbered_initTask (h1 : 1 ≤ i) : Keeps (Numbered n) (initTask img i) := by
  have hP := blind_numbered n
  have htask : ∀ p (s : KState), Numbered n s → Numbered n { s with task := Function.update s.task i p } := fun p s h =>
    ⟨h.1, h.2.trans (Function.update_of_ne (by omega) ..).symm⟩
  refine keeps_bind hP.allocPage fun p => keeps_bind (keeps_modify (htask p)) fun _ => keeps_bind (keeps_notNull _) fun _ => ?_
  refine keeps_bind (keeps_bind (keeps_modify fun _ h => h) fun _ => keeps_bind keeps_get fun _ => keeps_pure _) fun _ => ?_
  refine keeps_bind (hP.storeWords ..) fun _ => keeps_bind (hP.storeWords ..) fun _ => keeps_bind (hP.storeWords ..) fun _ => ?_
  refine keeps_bind (hP.storeWords ..) fun _ => keeps_bind hP.allocPage fun _ => keeps_bind (hP.storeWord ..) fun _ => ?_
  refine keeps_bind (keeps_notNull _) fun _ => keeps_bind (hP.copyRoot ..) fun _ => keeps_bind hP.allocPage fun _ => ?_
  refine keeps_bind (keeps_notNull _) fun _ => keeps_bind (keeps_loadWord _) fun _ => keeps_bind (hP.storeWord ..) fun _ => ?_
  exact keeps_bind (hP.storeWord ..) fun _ => numbered_vmaInit _

theorem numbered_initTasks {k : Nat} (h1 : 1 ≤ i) : Keeps (Numbered n) (initTasks img k i) := by
  induction k generalizing i with
  | zero => exact keeps_pure _
  | succ k ih => exact keeps_bind (numbered_initTask h1) fun _ => ih (by omega)

theorem taskInit_numbered : Ends (taskInit img) s (fun _ t => Numbered s.tasksNumber t) fun _ _ => True := by
  have hP : Blind fun t : KState => t.tasksNumber = s.tasksNumber := blind_of (fun _ _ h => h) (fun _ _ h => h) fun _ _ h => h
  rw [taskInit]
  refine ends_bind.mpr (ends_modify.mpr ?_)
  have h : ∀ seed, ({ s with seed } : KState).tasksNumber = s.tasksNumber := fun _ => rfl
  refine ends_bind.mpr ((hP.allocPage.run _ (h _)).mono (fun idle _ h => ?_) fun _ _ _ => trivial)
  refine ends_bind.mpr (((keeps_notNull (P := fun t => t.tasksNumber = s.tasksNumber) idle).run _ h).mono (fun _ _ h => ?_)
    fun _ _ _ => trivial)
  refine ends_bind.mpr (((hP.storeWords idle _).run _ h).mono (fun _ _ h => ?_) fun _ _ _ => trivial)
  refine ends_bind.mpr (((hP.storeWords _ _).run _ h).mono (fun _ u h => ?_) fun _ _ _ => trivial)
  refine ends_bind.mpr (ends_modify.mpr (ends_bind.mpr (ends_get.mpr ?_)))
  exact (numbered_initTasks le_rfl).run _ ⟨h, (Function.update_self 0 idle u.task).symm⟩

theorem initTasks_current {pages numbers : Nat → Nat} {σ : Sched} : (σ.initTasks pages numbers n i).current = σ.current := by
  induction n generalizing i σ with
  | zero => rfl
  | succ n ih => exact ih

/-- `task[]` behind `task_init`. -/
theorem Inits.pages (h : Inits img s t) : ∃ lay, RunInv img lay t ∧ t.current = t.task 0 ∧ Numbered s.tasksNumber t ∧
    (∀ k, 1 ≤ k → (t.task k ≠ 0 ↔ k ≤ s.tasksNumber)) ∧
    BootPages t.task (Sched.blank s.tasksNumber) := by
  have hnumbered := taskInit_numbered.of_ok h.init
  obtain ⟨lay, hstart, -, -, -, htask, -⟩ := (taskInit_spec h.ready).of_ok h.init
  obtain ⟨f, -, -, -, hother, hidle, hcur⟩ := hstart.idle
  have hnumber := h.ready.number
  have hlive : ∀ k, 1 ≤ k → k ≤ s.tasksNumber → t.Live k := fun k h1 hk => ⟨h1, by omega, (htask k h1).mpr hk⟩
  have hzero : ∀ k, 1 ≤ k → k ≤ s.tasksNumber → t.task 0 ≠ t.task k := fun k h1 hk he => by
    rw [← hstart.paging.page_eq (hlive k h1 hk) (he.symm.trans hidle), (hstart.paging.task_ok (hlive k h1 hk)).page] at hother
    cases hother
  refine ⟨lay, hstart.runInv h.below, hcur.trans hidle.symm, hnumbered, htask, rfl, h.some, hnumber, fun k hk => ?_,
    fun j k hj hk he => ?_⟩
  · rcases Nat.eq_zero_or_pos k with rfl | hpos
    · rw [hidle]
      exact framePtr_ne_zero f
    · exact (htask k hpos).mpr hk
  · rcases Nat.eq_zero_or_pos j with rfl | hjpos
    · rcases Nat.eq_zero_or_pos k with rfl | hkpos
      · rfl
      · exact absurd he (hzero k hkpos hk)
    · rcases Nat.eq_zero_or_pos k with rfl | hkpos
      · exact absurd he.symm (hzero j hjpos hj)
      · exact hstart.paging.task_inj (hlive j hjpos hj) (hlive k hkpos hk) he

/-- The scheduler behind `task_init`. -/
theorem Inits.shows (h : Inits img s t) : ∃ lay pages numbers ρ, RunInv img lay t ∧ BootPages pages ρ ∧
    Shows t (ρ.taskInit pages numbers) := by
  obtain ⟨lay, hinv, hcur, ⟨hnumber, hidle⟩, htask, hboot⟩ := h.pages
  have hborn := (taskInit_newborns h.ready).of_ok h.init
  obtain ⟨numbers, hnumbers⟩ : ∃ numbers : Nat → Nat, ∀ k, numbers k = (t.taskStruct (t.task k)).priority - 1 := ⟨_, fun _ => rfl⟩
  generalize hρ : Sched.blank s.tasksNumber = ρ at hboot
  have hset : SetUp t.task numbers { ρ.put (t.task 0) { counter := 0, priority := 0, pid := 0 } with
        idle := t.task 0, current := t.task 0, task := Function.update ρ.task 0 (t.task 0) }
      (ρ.taskInit t.task numbers) 1 (1 + ρ.tasksNumber) :=
    setUp_initTasks fun j k hj hk he => hboot.apart j k (by omega) (by omega) he
  have hcurrent : (ρ.taskInit t.task numbers).current = t.task 0 := initTasks_current
  have hcount : ρ.tasksNumber = s.tasksNumber := by rw [← hρ, Sched.blank]
  refine ⟨lay, t.task, numbers, ρ, hinv, hboot, funext fun k => ?_, hset.tasksNumber.trans (hcount.trans hnumber.symm),
    hset.idle.trans hidle.symm, hcurrent.trans hcur.symm, fun k h1 hk hne => ?_⟩
  · by_cases hin : 1 ≤ k ∧ k < 1 + ρ.tasksNumber
    · exact hset.inside k hin.1 hin.2
    · rw [hset.outside k (by omega)]
      change Function.update ρ.task 0 (t.task 0) k = t.task k
      by_cases h0 : k = 0
      · rw [h0, Function.update_self]
      · rw [Function.update_of_ne h0, hboot.clear]
        by_contra hne
        have hle := (htask k (by omega)).mp (Ne.symm hne)
        omega
  · have hle := (htask k h1).mp hne
    obtain ⟨f, hf, hram, -, hnew, -⟩ := hborn k ⟨h1, hk, hne⟩
    have hprio : numbers k = ld 8 t.mem (f * 4096 + TASK_PRIORITY) - 1 := by rw [hnumbers, hf, taskStruct_frame hram]
    have hmin := hnew.min
    have hmax := hnew.max
    simp only [PRIORITY_MIN, PRIORITY_MAX] at hmin hmax
    have hdrawn : drawn (numbers k) = ld 8 t.mem (f * 4096 + TASK_PRIORITY) := by
      rw [hprio]
      simp only [drawn, PRIORITY_MIN, PRIORITY_MAX]
      omega
    rw [Sched.taskAt, hset.inside k h1 (by omega), hset.heap k h1 (by omega), hf, taskStruct_frame hram, hnew.counter, hnew.pid,
      hdrawn]

/-- When `start_kernel` has called `schedule`, the scheduler is in one of its first states. -/
theorem Boots.follows (h : Boots img s) (hclean : TablesClean s.trace) : ∃ σ, SchedReachable σ ∧ Follows img σ [] s σ := by
  obtain ⟨r, t, fuel, hinit, hrun⟩ := h
  obtain ⟨lay, pages, numbers, ρ, hinv, hboot, hshows⟩ := hinit.shows
  have htable : TaskTable (ρ.taskInit pages numbers) := hboot.table
  obtain ⟨htimed, σ, hσ, hshows'⟩ := (schedule_refines hshows hinv.sited htable).of_ok hrun
  have hfirst : SchedReachable σ := .start hboot hσ
  obtain ⟨htable', hruns⟩ := hfirst.table
  have hreach : Reachable img (fun _ _ => True) t := .start hinit.ready hinit.init hinit.below
  exact ⟨σ, hfirst, htimed.reachable hreach hclean hshows htable, hshows', .start, htable', hruns⟩

theorem keeps_switchTo (next : Nat) : Keeps (fun s => TablesClean s.trace) (switchTo img next) := by
  refine keeps_bind keeps_get fun _ => keeps_ite (keeps_pure _) (keeps_bind (keeps_modify fun _ h => h) fun _ => ?_)
  refine keeps_bind (keeps_loadWord _) fun _ => keeps_bind (keeps_modify fun _ h => h) fun _ => ?_
  exact keeps_modify fun _ h => h.fence

theorem Timed.clean (h : Timed img s t) (hclean : TablesClean s.trace) : TablesClean t.trace := by
  cases h with
  | stay _ => exact hclean
  | @switch m _ _ _ _ _ hrun => exact ((keeps_switchTo _).run (s.withMem m) hclean).of_ok hrun

theorem Shift.reachable (h : Shift ρ l σ) (hρ : SchedReachable ρ) : SchedReachable σ := by
  induction h with
  | start => exact hρ
  | tick _ _ _ _ ht ih => exact ih.step (.tick ht)
  | fork _ hne hnew ih => exact ih.step (.fork hne hnew)

/-- The timer can go off in every state. -/
theorem Follows.ticks (h : Follows img ρ l s σ) (hclean : TablesClean s.trace) :
    ∃ i t, MachineStep img site s (some i) t ∧ TablesClean t.trace := by
  obtain ⟨lay, hinv⟩ := h.reach.inv hclean
  obtain ⟨τ, hτ, -⟩ := h.table.doTimer (k := 0) h.runs
  obtain ⟨i, h1, hi, hcur, -⟩ := h.runs
  rw [h.shows.tasksNumber] at hi
  obtain ⟨hlt, hne⟩ := h.shows.entries h.table hi
  have hruns : s.Runs i := ⟨⟨h1, hlt, hne⟩, by rw [← h.shows.current, hcur, h.shows.task]⟩
  obtain ⟨f, hram, hf⟩ := hinv.frame_of hlt hne
  have hspec : Ends (doTimer img 2) s _ _ := doTimer_refines h.shows hinv.sited h.table h.runs
  have htimer : isTimer 0x8000000000000005 := ⟨by decide, by decide⟩
  have hcode : trapHandler img site 2 0x8000000000000005 (framePtr f + 3808) = doTimer img 2 := by
    rw [trapHandler, if_pos htimer.1, if_pos htimer.2]
  cases hdone : (doTimer img 2).run s with
  | error e t =>
      obtain ⟨-, hnone⟩ := hspec.of_error hdone
      rw [hτ] at hnone
      cases hnone
  | ok _ t =>
      refine ⟨i, t, .timer (o := 3808) hruns hf (by decide) (by decide) htimer (by rw [hcode]; exact hdone),
        (hspec.of_ok hdone).1.clean hclean⟩

theorem Follows.run (h : Follows img ρ [] s ρ) (hclean : TablesClean s.trace) (n : Nat) :
    ∃ l t, MachineRun img site s l t ∧ l.length = n ∧ TablesClean t.trace := by
  induction n with
  | zero => exact ⟨[], s, .start, rfl, hclean⟩
  | succ n ih =>
      obtain ⟨l, t, hrun, hn, ht⟩ := ih
      obtain ⟨σ, hσ⟩ := hrun.follows h ht
      obtain ⟨i, u, hstep, hu⟩ := hσ.ticks ht
      exact ⟨i :: l, u, hrun.step hstep, congrArg Nat.succ hn, hu⟩

/-- The first `schedule` returns. -/
theorem Inits.boots (h : Inits img s t) (hclean : TablesClean t.trace) : ∃ u, Boots img u ∧ TablesClean u.trace := by
  obtain ⟨lay, pages, numbers, ρ, hinv, hboot, hshows⟩ := h.shows
  have htable : TaskTable (ρ.taskInit pages numbers) := hboot.table
  obtain ⟨σ, hσ, -⟩ := htable.schedule (k := 0)
  have hspec : Ends (schedule img 2) t _ _ := schedule_refines hshows hinv.sited htable
  cases hdone : (schedule img 2).run t with
  | error e u =>
      obtain ⟨-, hnone⟩ := hspec.of_error hdone
      rw [hσ] at hnone
      cases hnone
  | ok _ u => exact ⟨u, ⟨s, t, 2, h, hdone⟩, (hspec.of_ok hdone).1.clean hclean⟩

/-- Ticks on the board. -/
theorem board_ticks (site : Printk.Site) (n : Nat) : ∃ s l t, Boots board s ∧ s.Live 1 ∧ MachineRun board site s l t ∧
    l.length = n ∧ TablesClean t.trace := by
  obtain ⟨b, lay, r, hready, hrun, hr⟩ := bootMem_board.run (n := 0) (by decide)
  have hbelow : AreasBelow r := by
    obtain ⟨lay', hstart, -⟩ := (taskInit_spec hready).of_ok hrun
    refine hstart.areasBelow bootMem_board.inside fun g hg => bootMem_board.below g ?_
    rwa [boardWith_mem, bootMem_board.segments] at hg
  obtain ⟨s, hs, hclean⟩ := Inits.boots ⟨hready, le_rfl, hrun, hbelow⟩ hr.room.clean
  obtain ⟨σ, -, hfollows⟩ := hs.follows hclean
  obtain ⟨hlt, hne⟩ := hfollows.shows.entries hfollows.table (i := 1) (by
    rw [← hfollows.shows.tasksNumber]
    exact hfollows.table.range.pos)
  have hstart : Follows board σ [] s σ := ⟨hfollows.reach, hfollows.shows, .start, hfollows.table, hfollows.runs⟩
  obtain ⟨l, t, hticks, hn, ht⟩ := hstart.run hclean n
  exact ⟨s, l, t, hs, ⟨le_rfl, hlt, hne⟩, hticks, hn, ht⟩

/-- What `getpid` returns to task `i`. -/
theorem Follows.getPid {lay : Layout} (h : Follows img ρ l s σ) (hinv : RunInv img lay s) (hi : s.Runs i) :
    (ZjuOs.getPid img).run s = .ok i s := by
  obtain ⟨hle, -⟩ := h.shows.charged hinv hi h.table h.runs
  obtain ⟨f, hram, hf⟩ := hinv.frame_of hi.1.2.1 hi.1.2.2
  have hpid := h.table.pid i hle
  rw [h.shows.load hi.1.1 hi.1.2.1 hf hram] at hpid
  refine Ends.run_eq ?_
  rw [ZjuOs.getPid, ends_bind, ends_get, hi.2, hf, ends_loadWord hram (by decide)]
  exact ⟨hpid, rfl⟩

/-- The machine schedules as the scheduler does. Behind the first `schedule`, whatever the programs, the system calls and
the page faults do, every state shows a state that the scheduler reaches by the same ticks, with a fork where a task has
forked. -/
theorem machine_schedules (h : Boots img s) (hrun : MachineRun img site s l t) (hclean : TablesClean t.trace) :
    ∃ ρ σ, SchedReachable ρ ∧ Shows s ρ ∧ Shift ρ l σ ∧ SchedReachable σ ∧ Shows t σ := by
  obtain ⟨ρ, hρ, hfollows⟩ := h.follows (hclean.suffix hrun.trace_suffix)
  obtain ⟨σ, hσ⟩ := hrun.follows hfollows hclean
  exact ⟨ρ, σ, hρ, hfollows.shows, hσ.shift, hσ.shift.reachable hρ, hσ.shows⟩

theorem machine_schedules_board : ∃ site s l t ρ σ, Boots board s ∧ MachineRun board site s l t ∧ l.length = 3 ∧ Shift ρ l σ ∧
    Shows t σ := by
  obtain ⟨s, l, t, hs, -, hrun, hn, hclean⟩ := board_ticks ⟨0, 0⟩ 3
  obtain ⟨ρ, σ, -, -, hshift, -, hshows⟩ := machine_schedules hs hrun hclean
  exact ⟨_, s, l, t, ρ, σ, hs, hrun, hn, hshift, hshows⟩

/-- The task structures in memory, in every state of every run: the tasks have the entries of `task[]` up to
`tasks_number`; each has its number, a priority between 1 and 10 and at most that much time; one of them is current, it has
time left, and its number is what `getpid` returns. -/
theorem tasks_in_order (h : Boots img s) (hrun : MachineRun img site s l t) (hclean : TablesClean t.trace) :
    (∀ k, k < NR_TASKS → (t.task k ≠ 0 ↔ k ≤ t.tasksNumber)) ∧
      (∀ k, 1 ≤ k → k ≤ t.tasksNumber → (t.taskStruct (t.task k)).pid = k ∧
        PRIORITY_MIN ≤ (t.taskStruct (t.task k)).priority ∧ (t.taskStruct (t.task k)).priority ≤ PRIORITY_MAX ∧
        (t.taskStruct (t.task k)).counter ≤ (t.taskStruct (t.task k)).priority) ∧
      ∃ i, t.Runs i ∧ 0 < (t.taskStruct (t.task i)).counter ∧ (ZjuOs.getPid img).run t = .ok i t := by
  obtain ⟨ρ, -, hfollows⟩ := h.follows (hclean.suffix hrun.trace_suffix)
  obtain ⟨σ, hσ⟩ := hrun.follows hfollows hclean
  obtain ⟨lay, hinv⟩ := hσ.reach.inv hclean
  have hshows := hσ.shows
  have hfields : ∀ k, 1 ≤ k → k ≤ t.tasksNumber → t.taskStruct (t.task k) = σ.taskAt k := fun k h1 hk => by
    obtain ⟨hlt, hne⟩ := hshows.entries hσ.table hk
    exact (hshows.fields k h1 hlt hne).symm
  refine ⟨fun k hk => ?_, fun k h1 hk => ?_, ?_⟩
  · rw [← hshows.task, ← hshows.tasksNumber]
    exact hσ.table.entries k hk
  · rw [hfields k h1 hk]
    rw [← hshows.tasksNumber] at hk
    exact ⟨hσ.table.pid k hk, hσ.table.range.min k h1 hk, hσ.table.range.max k h1 hk, hσ.table.range.counter k h1 hk⟩
  · obtain ⟨i, h1, hi, hcur, hpos⟩ := hσ.runs
    rw [hshows.tasksNumber] at hi
    obtain ⟨hlt, hne⟩ := hshows.entries hσ.table hi
    have hruns : t.Runs i := ⟨⟨h1, hlt, hne⟩, by rw [← hshows.current, hcur, hshows.task]⟩
    refine ⟨i, hruns, ?_, hσ.getPid hinv hruns⟩
    rw [hfields i h1 hi]
    exact hpos

theorem tasks_in_order_board : ∃ site s l t i, Boots board s ∧ MachineRun board site s l t ∧ l.length = 3 ∧ t.Runs i ∧
    (ZjuOs.getPid board).run t = .ok i t := by
  obtain ⟨s, l, t, hs, -, hrun, hn, hclean⟩ := board_ticks ⟨0, 0⟩ 3
  obtain ⟨-, -, i, hruns, -, hpid⟩ := tasks_in_order hs hrun hclean
  exact ⟨_, s, l, t, i, hs, hrun, hn, hruns, hpid⟩

/-- No task waits for ever: among any `2 * FULL` timer interrupts of a run there is one that every task which was there
before them pays for. -/
theorem no_task_starves {v : KState} {l' : List Nat} (h : Boots img s) (hrun : MachineRun img site s l t)
    (hmore : MachineRun img site t l' v) (hclean : TablesClean v.trace) (hi : t.Live i) (hn : 2 * FULL ≤ l'.length) : i ∈ l' := by
  have hclean' := hclean.suffix hmore.trace_suffix
  obtain ⟨ρ, -, hfollows⟩ := h.follows (hclean'.suffix hrun.trace_suffix)
  obtain ⟨σ, hσ⟩ := hrun.follows hfollows hclean'
  obtain ⟨τ, hτ⟩ := hmore.follows ⟨hσ.reach, hσ.shows, .start, hσ.table, hσ.runs⟩ hclean
  refine hτ.shift.pays hσ.table hσ.runs hi.1 ?_ hn
  have hne := hi.2.2
  rw [← hσ.shows.task] at hne
  exact (hσ.table.entries i hi.2.1).mp hne

theorem no_task_starves_board : ∃ site s l t, Boots board s ∧ MachineRun board site s l t ∧ l.length = 2 * FULL ∧ 1 ∈ l := by
  obtain ⟨s, l, t, hs, hlive, hrun, hn, hclean⟩ := board_ticks ⟨0, 0⟩ (2 * FULL)
  exact ⟨_, s, l, t, hs, hrun, hn, no_task_starves hs .start hrun hclean hlive hn.ge⟩

end Boot

end ZjuOs
