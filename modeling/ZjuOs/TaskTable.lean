import ZjuOs.Schedule

/-!
The task table along all runs of ticks and forks: its entries stay a prefix of `task[]`, and a task with
time left runs.
-/
namespace ZjuOs

/-- The task table: `task[i]` is in use for `i` up to `tasks_number`, and holds task `i`. -/
structure TaskTable (s : Sched) : Prop where
  number : s.tasksNumber < NR_TASKS
  entries : ∀ i, i < NR_TASKS → (s.task i ≠ 0 ↔ i ≤ s.tasksNumber)
  apart : ∀ i j, i ≤ s.tasksNumber → j ≤ s.tasksNumber → s.task i = s.task j → i = j
  pid : ∀ i, i ≤ s.tasksNumber → (s.taskAt i).pid = i
  range : InRange s
  idle : s.idle = s.task 0

/-- A task other than the idle one runs, and has time left. -/
def UserRuns (s : Sched) : Prop :=
  ∃ i, 1 ≤ i ∧ i ≤ s.tasksNumber ∧ s.current = s.task i ∧ 0 < (s.taskAt i).counter

/-- `task[]` is zero when `task_init` starts; the pages that it is given are different. -/
structure BootPages (pages : Nat → Nat) (s : Sched) : Prop where
  clear : s.task = fun _ => 0
  some : 1 ≤ s.tasksNumber
  number : s.tasksNumber < NR_TASKS
  live : ∀ i, i ≤ s.tasksNumber → pages i ≠ 0
  apart : ∀ i j, i ≤ s.tasksNumber → j ≤ s.tasksNumber → pages i = pages j → i = j

/-- A timer interrupt, or a fork that is given a page which is not in use. -/
inductive SchedStep (s : Sched) : Sched → Prop
  | tick {fuel : Nat} {t : Sched} : s.doTimer fuel = some t → SchedStep s t
  | fork {child : Nat} : child ≠ 0 → (∀ i, i < NR_TASKS → s.task i ≠ child) → SchedStep s (s.doCowFork child).2

/-- The states in which user code runs, from the first `schedule` of `start_kernel` on. -/
inductive SchedReachable : Sched → Prop
  | start {pages numbers : Nat → Nat} {s t : Sched} {fuel : Nat} : BootPages pages s →
      (s.taskInit pages numbers).schedule fuel = some t → SchedReachable t
  | step {s t : Sched} : SchedReachable s → SchedStep s t → SchedReachable t

section Fuel
variable {s t : Sched} {fuel : Nat}

theorem schedule_mono (h : s.schedule fuel = some t) : s.schedule (fuel + 1) = some t := by
  induction fuel generalizing s with
  | zero => cases h
  | succ fuel ih =>
      rw [Sched.schedule] at h ⊢
      split at h
      · next hf =>
          rw [if_pos hf]
          exact h
      · next hf =>
          rw [if_neg hf]
          exact ih h

theorem doTimer_mono (h : s.doTimer fuel = some t) : s.doTimer (fuel + 1) = some t := by
  rw [Sched.doTimer] at h ⊢
  split at h
  · next hc =>
      rw [if_pos hc]
      exact schedule_mono h
  · next hc =>
      rw [if_neg hc]
      dsimp only at h ⊢
      split at h
      · next hz =>
          rw [if_pos hz]
          exact schedule_mono h
      · next hz =>
          rw [if_neg hz]
          exact h

end Fuel

section Table
variable {s t : Sched} {i j k child : Nat}

/-- Counters have changed, and `current`. -/
structure Retimed (s t : Sched) : Prop where
  task : t.task = s.task
  tasksNumber : t.tasksNumber = s.tasksNumber
  idle : t.idle = s.idle
  pid : ∀ p, (t.heap p).pid = (s.heap p).pid
  priority : ∀ p, (t.heap p).priority = (s.heap p).priority

theorem Retimed.trans {u : Sched} (h : Retimed s t) (h' : Retimed t u) : Retimed s u :=
  ⟨h'.task.trans h.task, h'.tasksNumber.trans h.tasksNumber, h'.idle.trans h.idle,
    fun p => (h'.pid p).trans (h.pid p), fun p => (h'.priority p).trans (h.priority p)⟩

theorem retimed_refill {n : Nat} : Retimed s (s.refill n i) where
  task := refill_same.task
  tasksNumber := refill_same.tasksNumber
  idle := refill_same.idle
  pid := fun p => by
    rcases refill_cases (s := s) (n := n) (i := i) (p := p) with h | h
    · rw [h]
    · rw [h, TaskStruct.refilled]
  priority := fun p => by
    rcases refill_cases (s := s) (n := n) (i := i) (p := p) with h | h
    · rw [h]
    · rw [h, TaskStruct.refilled]

theorem retimed_setCounter {p c : Nat} : Retimed s (s.setCounter p c) where
  task := rfl
  tasksNumber := rfl
  idle := rfl
  pid := fun q => by
    rw [Sched.setCounter, heap_put]
    split
    · next hq => rw [hq]
    · rfl
  priority := fun q => by
    rw [Sched.setCounter, heap_put]
    split
    · next hq => rw [hq]
    · rfl

theorem retimed_current {p : Nat} : Retimed s { s with current := p } :=
  ⟨rfl, rfl, rfl, fun _ => rfl, fun _ => rfl⟩

theorem TaskTable.retimed (h : TaskTable s) (ht : Retimed s t)
    (hcounter : ∀ i, 1 ≤ i → i ≤ t.tasksNumber → (t.taskAt i).counter ≤ (t.taskAt i).priority) : TaskTable t := by
  have hpriority : ∀ i, (t.taskAt i).priority = (s.taskAt i).priority := fun i => by
    rw [Sched.taskAt, Sched.taskAt, ht.task]
    exact ht.priority _
  constructor
  case number =>
    rw [ht.tasksNumber]
    exact h.number
  case entries =>
    rw [ht.tasksNumber, ht.task]
    exact h.entries
  case apart =>
    rw [ht.tasksNumber, ht.task]
    exact h.apart
  case pid =>
    intro i hi
    rw [ht.tasksNumber] at hi
    rw [Sched.taskAt, ht.task, ht.pid]
    exact h.pid i hi
  case range =>
    refine ⟨?_, fun i h1 hi => ?_, fun i h1 hi => ?_, hcounter⟩
    · rw [ht.tasksNumber]
      exact h.range.pos
    · rw [ht.tasksNumber] at hi
      rw [hpriority]
      exact h.range.min i h1 hi
    · rw [ht.tasksNumber] at hi
      rw [hpriority]
      exact h.range.max i h1 hi
  case idle => rw [ht.idle, ht.task, h.idle]

/-- `schedule` ends, and runs a task with time left. -/
theorem TaskTable.schedule (h : TaskTable s) :
    ∃ t, s.schedule (k + 2) = some t ∧ TaskTable t ∧ UserRuns t := by
  by_cases hleft : ∃ j, 1 ≤ j ∧ j ≤ s.tasksNumber ∧ (s.taskAt j).counter ≠ 0
  · obtain ⟨i, hi, hrun⟩ := h.range.schedule_chosen (k := k + 1) hleft
    exact ⟨_, hrun, h.retimed retimed_current h.range.counter, i, hi.pos, hi.le, rfl, hi.counter⟩
  · have hzero : ∀ j, 1 ≤ j → j ≤ s.tasksNumber → (s.taskAt j).counter = 0 := fun j h1 hj => by
      by_contra hne
      exact hleft ⟨j, h1, hj, hne⟩
    obtain ⟨i, hi, hrun⟩ := h.range.schedule_epoch (k := k) hzero
    refine ⟨_, hrun, h.retimed (retimed_refill.trans retimed_current) h.range.refill.counter, i, hi.pos, hi.le, rfl, ?_⟩
    exact hi.counter

theorem TaskTable.current_ne_idle (h : TaskTable s) (hrun : UserRuns s) : s.current ≠ s.idle := by
  obtain ⟨i, h1, hi, hcur, -⟩ := hrun
  rw [h.idle, hcur]
  intro heq
  have := h.apart i 0 hi (Nat.zero_le _) heq
  omega

theorem TaskTable.current_counter (hrun : UserRuns s) : 0 < (s.heap s.current).counter := by
  obtain ⟨i, -, -, hcur, hpos⟩ := hrun
  rw [hcur]
  exact hpos

/-- One tick less for the running task. -/
theorem TaskTable.charge (h : TaskTable s) :
    TaskTable (s.setCounter s.current ((s.heap s.current).counter - 1)) := by
  have hother : ∀ p, p ≠ s.current → (s.setCounter s.current ((s.heap s.current).counter - 1)).heap p = s.heap p := by
    intro p hp
    rw [Sched.setCounter, heap_put, if_neg hp]
  have hself : (s.setCounter s.current ((s.heap s.current).counter - 1)).heap s.current =
      { s.heap s.current with counter := (s.heap s.current).counter - 1 } := by
    rw [Sched.setCounter, heap_put, if_pos rfl]
  refine h.retimed retimed_setCounter fun j h1 hj => ?_
  have hle := h.range.counter j h1 hj
  by_cases hp : s.task j = s.current
  · have hat : (s.setCounter s.current ((s.heap s.current).counter - 1)).taskAt j =
        { s.heap s.current with counter := (s.heap s.current).counter - 1 } := by
      rw [← hself, ← hp]
      rfl
    rw [Sched.taskAt, hp] at hle
    rw [hat]
    dsimp only
    omega
  · have hat : (s.setCounter s.current ((s.heap s.current).counter - 1)).taskAt j = s.taskAt j := hother _ hp
    rw [hat]
    exact hle

theorem TaskTable.doTimer (h : TaskTable s) (hrun : UserRuns s) :
    ∃ t, s.doTimer (k + 2) = some t ∧ TaskTable t ∧ UserRuns t := by
  have hidle := h.current_ne_idle hrun
  have hpos := TaskTable.current_counter hrun
  have htable := h.charge
  have hcharge : ¬ (s.current = s.idle ∨ (s.heap s.current).counter = 0) := by
    rintro (h0 | h0)
    · exact hidle h0
    · omega
  rw [Sched.doTimer, if_neg hcharge]
  dsimp only
  split
  · exact htable.schedule
  · next hne =>
      obtain ⟨i, h1, hi, hcur, -⟩ := hrun
      refine ⟨_, rfl, htable, i, h1, hi, hcur, ?_⟩
      have hat : (s.setCounter s.current ((s.heap s.current).counter - 1)).taskAt i =
          (s.setCounter s.current ((s.heap s.current).counter - 1)).heap s.current := by
        rw [Sched.taskAt, hcur]
        rfl
      rw [hat]
      exact Nat.pos_of_ne_zero hne

/-- The first empty slot is the one after the last task. -/
theorem TaskTable.freeSlot (h : TaskTable s) {j : Nat} (hj : freeSlot s.task = some j) :
    j = s.tasksNumber + 1 ∧ j < NR_TASKS := by
  obtain ⟨hzero, hmem, hbefore⟩ := List.find?_range_eq_some.mp hj
  have hlt := List.mem_range.mp hmem
  have hnull : s.task j = 0 := by simpa using hzero
  have habove : s.tasksNumber < j := by
    by_contra hle
    exact (h.entries j hlt).mpr (by omega) hnull
  refine ⟨?_, hlt⟩
  by_contra hne
  have hnext := hbefore (s.tasksNumber + 1) (by omega)
  have hlive : s.task (s.tasksNumber + 1) ≠ 0 := by simpa using hnext
  have := (h.entries (s.tasksNumber + 1) (by omega)).mp hlive
  omega

theorem doCowFork_none (h : freeSlot s.task = none) :
    s.doCowFork child = (-1, s.put child (s.heap s.current)) := by
  have htask : (s.put child (s.heap s.current)).task = s.task := rfl
  rw [Sched.doCowFork, htask, h]

/-- `t` is `s` with a copy of the running task in slot `j`, which is kept at `child`. -/
structure Forked (s t : Sched) (j child : Nat) : Prop where
  task : t.task = Function.update s.task j child
  tasksNumber : t.tasksNumber = j
  idle : t.idle = s.idle
  current : t.current = s.current
  old : ∀ p, p ≠ child → t.heap p = s.heap p
  new : t.heap child = { s.heap s.current with pid := j }

theorem doCowFork_some (h : freeSlot s.task = some j) :
    (s.doCowFork child).1 = j ∧ Forked s (s.doCowFork child).2 j child := by
  have htask : (s.put child (s.heap s.current)).task = s.task := rfl
  rw [Sched.doCowFork, htask, h]
  dsimp only
  have hself : (s.put child (s.heap s.current)).heap child = s.heap s.current := by rw [heap_put, if_pos rfl]
  refine ⟨?_, rfl, rfl, rfl, rfl, fun p hp => ?_, ?_⟩
  · rw [heap_put, if_pos rfl]
  · rw [heap_put, if_neg hp]
    exact (heap_put ..).trans (if_neg hp)
  · rw [heap_put, if_pos rfl, hself]

/-- A fork enters a copy of the running task after the last one, or changes no task. -/
theorem TaskTable.doCowFork (h : TaskTable s) (hrun : UserRuns s) (hchild : child ≠ 0)
    (hnew : ∀ i, i < NR_TASKS → s.task i ≠ child) :
    TaskTable (s.doCowFork child).2 ∧ UserRuns (s.doCowFork child).2 := by
  have hn := h.number
  obtain ⟨c, hc1, hc, hcur, hpos⟩ := hrun
  cases hslot : ZjuOs.freeSlot s.task with
  | none =>
      have hold : ∀ i, i ≤ s.tasksNumber → (s.put child (s.heap s.current)).taskAt i = s.taskAt i := fun i hi =>
        (heap_put ..).trans (if_neg (hnew i (by omega)))
      rw [doCowFork_none hslot]
      refine ⟨⟨h.number, h.entries, h.apart, fun i hi => ?_, ⟨h.range.pos, fun i h1 hi => ?_, fun i h1 hi => ?_,
        fun i h1 hi => ?_⟩, h.idle⟩, c, hc1, hc, hcur, ?_⟩
      · rw [hold i hi]
        exact h.pid i hi
      · rw [hold i hi]
        exact h.range.min i h1 hi
      · rw [hold i hi]
        exact h.range.max i h1 hi
      · rw [hold i hi]
        exact h.range.counter i h1 hi
      · rw [hold c hc]
        exact hpos
  | some j =>
      obtain ⟨hj, hjlt⟩ := h.freeSlot hslot
      have hf : Forked s (s.doCowFork child).2 j child := (doCowFork_some hslot).2
      generalize (s.doCowFork child).2 = t at hf ⊢
      have hentry : ∀ i, i ≤ s.tasksNumber → t.task i = s.task i := fun i hi => by
        rw [hf.task, Function.update_of_ne (by omega)]
      have hold : ∀ i, i ≤ s.tasksNumber → t.taskAt i = s.taskAt i := fun i hi => by
        rw [Sched.taskAt, hentry i hi]
        exact hf.old _ (hnew i (by omega))
      have hlast : t.task j = child := by rw [hf.task, Function.update_self]
      -- the copy has the priority and the counter of the running task
      have hcopy : t.taskAt j = { s.taskAt c with pid := j } := by
        rw [Sched.taskAt, hlast, hf.new, hcur]
        rfl
      have hsplit : ∀ i, i ≤ t.tasksNumber → i ≤ s.tasksNumber ∨ i = j := fun i hi => by
        rw [hf.tasksNumber] at hi
        omega
      constructor
      · constructor
        case number =>
          rw [hf.tasksNumber]
          exact hjlt
        case entries =>
          intro i hi
          rw [hf.tasksNumber, hf.task, Function.update_apply]
          split
          · next hij => exact iff_of_true hchild (by omega)
          · next hij =>
              rw [h.entries i hi]
              omega
        case apart =>
          intro i i' hi hi' heq
          rcases hsplit i hi with h1 | rfl <;> rcases hsplit i' hi' with h2 | rfl
          · rw [hentry i h1, hentry i' h2] at heq
            exact h.apart i i' h1 h2 heq
          · rw [hentry i h1, hlast] at heq
            exact absurd heq (hnew i (by omega))
          · rw [hentry i' h2, hlast] at heq
            exact absurd heq.symm (hnew i' (by omega))
          · rfl
        case pid =>
          intro i hi
          rcases hsplit i hi with h1 | rfl
          · rw [hold i h1]
            exact h.pid i h1
          · rw [hcopy]
        case range =>
          refine ⟨by rw [hf.tasksNumber]; omega, fun i h1 hi => ?_, fun i h1 hi => ?_, fun i h1 hi => ?_⟩
          all_goals rcases hsplit i hi with hle | rfl
          · rw [hold i hle]
            exact h.range.min i h1 hle
          · rw [hcopy]
            exact h.range.min c hc1 hc
          · rw [hold i hle]
            exact h.range.max i h1 hle
          · rw [hcopy]
            exact h.range.max c hc1 hc
          · rw [hold i hle]
            exact h.range.counter i h1 hle
          · rw [hcopy]
            exact h.range.counter c hc1 hc
        case idle =>
          rw [hf.idle, hentry 0 (Nat.zero_le _)]
          exact h.idle
      · refine ⟨c, hc1, by rw [hf.tasksNumber]; omega, ?_, ?_⟩
        · rw [hf.current, hentry c hc]
          exact hcur
        · rw [hold c hc]
          exact hpos

end Table

section Boot
variable {s : Sched} {i n : Nat} {pages numbers : Nat → Nat}

/-- The priority that `task_init` draws. -/
def drawn (number : Nat) : Nat := number % (PRIORITY_MAX - PRIORITY_MIN + 1) + PRIORITY_MIN

theorem drawn_range (number : Nat) : PRIORITY_MIN ≤ drawn number ∧ drawn number ≤ PRIORITY_MAX := by
  simp only [drawn, PRIORITY_MIN, PRIORITY_MAX]
  omega

/-- The tasks from `i` below `stop` have been set up. -/
structure SetUp (pages numbers : Nat → Nat) (s t : Sched) (i stop : Nat) : Prop where
  tasksNumber : t.tasksNumber = s.tasksNumber
  idle : t.idle = s.idle
  inside : ∀ k, i ≤ k → k < stop → t.task k = pages k
  outside : ∀ k, k < i ∨ stop ≤ k → t.task k = s.task k
  heap : ∀ k, i ≤ k → k < stop → t.heap (pages k) = { counter := 0, priority := drawn (numbers k), pid := k }
  others : ∀ p, (∀ k, i ≤ k → k < stop → p ≠ pages k) → t.heap p = s.heap p

theorem setUp_initTasks (hinj : ∀ j k, j < i + n → k < i + n → pages j = pages k → j = k) :
    SetUp pages numbers s (s.initTasks pages numbers n i) i (i + n) := by
  induction n generalizing s i with
  | zero => exact ⟨rfl, rfl, fun k _ _ => by omega, fun _ _ => rfl, fun k _ _ => by omega, fun _ _ => rfl⟩
  | succ n ih =>
      have hstop : i + (n + 1) = i + 1 + n := by omega
      rw [hstop] at hinj ⊢
      have hrest := ih (s := s.initTask i (pages i) (numbers i)) hinj
      rw [Sched.initTasks]
      constructor
      case tasksNumber => exact hrest.tasksNumber
      case idle => exact hrest.idle
      case inside =>
        intro k hlo hhi
        by_cases hk : k = i
        · rw [hk, hrest.outside i (.inl (Nat.lt_succ_self i))]
          exact Function.update_self ..
        · exact hrest.inside k (by omega) hhi
      case outside =>
        intro k hk
        have hki : k ≠ i := by omega
        rw [hrest.outside k (by omega)]
        exact Function.update_of_ne hki (pages i) s.task
      case heap =>
        intro k hlo hhi
        by_cases hk : k = i
        · rw [hk, hrest.others (pages i) fun j hj hj' heq => by
            have := hinj i j (by omega) hj' heq
            omega]
          exact Function.update_self ..
        · exact hrest.heap k (by omega) hhi
      case others =>
        intro p hp
        rw [hrest.others p fun k hk hk' => hp k (by omega) hk']
        exact Function.update_of_ne (hp i (Nat.le_refl _) (by omega)) ..

theorem BootPages.table (h : BootPages pages s) : TaskTable (s.taskInit pages numbers) := by
  have hset : SetUp pages numbers
      { s.put (pages 0) { counter := 0, priority := 0, pid := 0 } with
        idle := pages 0, current := pages 0, task := Function.update s.task 0 (pages 0) }
      (s.taskInit pages numbers) 1 (1 + s.tasksNumber) :=
    setUp_initTasks fun j k hj hk heq => h.apart j k (by omega) (by omega) heq
  generalize s.taskInit pages numbers = t at hset ⊢
  have hnumber : t.tasksNumber = s.tasksNumber := hset.tasksNumber
  have htask : ∀ k, k ≤ s.tasksNumber → t.task k = pages k := by
    intro k hk
    by_cases h0 : k = 0
    · rw [h0, hset.outside 0 (.inl Nat.one_pos)]
      exact Function.update_self 0 (pages 0) s.task
    · exact hset.inside k (by omega) (by omega)
  have hat : ∀ k, 1 ≤ k → k ≤ s.tasksNumber → t.taskAt k = { counter := 0, priority := drawn (numbers k), pid := k } := by
    intro k h1 hk
    rw [Sched.taskAt, htask k hk]
    exact hset.heap k h1 (by omega)
  constructor
  case number =>
    rw [hnumber]
    exact h.number
  case entries =>
    intro k hk
    rw [hnumber]
    by_cases hle : k ≤ s.tasksNumber
    · rw [htask k hle]
      exact iff_of_true (h.live k hle) hle
    · rw [hset.outside k (.inr (by omega))]
      refine iff_of_false (fun hne => hne ?_) hle
      have hclear : Function.update s.task 0 (pages 0) k = 0 := by
        rw [Function.update_of_ne (by omega), h.clear]
      exact hclear
  case apart =>
    intro j k hj hk heq
    rw [hnumber] at hj hk
    rw [htask j hj, htask k hk] at heq
    exact h.apart j k hj hk heq
  case pid =>
    intro k hk
    rw [hnumber] at hk
    by_cases h0 : k = 0
    · rw [h0, Sched.taskAt, htask 0 (Nat.zero_le _), hset.others (pages 0) fun j hj hj' heq => by
        have := h.apart 0 j (Nat.zero_le _) (by omega) heq
        omega]
      have hidle : (s.put (pages 0) { counter := 0, priority := 0, pid := 0 }).heap (pages 0) =
          { counter := 0, priority := 0, pid := 0 } := (heap_put ..).trans (if_pos rfl)
      exact congrArg TaskStruct.pid hidle
    · rw [hat k (by omega) hk]
  case range =>
    refine ⟨by rw [hnumber]; exact h.some, fun k h1 hk => ?_, fun k h1 hk => ?_, fun k h1 hk => ?_⟩
    all_goals
      rw [hnumber] at hk
      rw [hat k h1 hk]
    · exact (drawn_range _).1
    · exact (drawn_range _).2
    · exact Nat.zero_le _
  case idle =>
    rw [htask 0 (Nat.zero_le _)]
    exact hset.idle

end Boot

section Reach
variable {s t : Sched} {fuel : Nat}

theorem SchedStep.table (h : TaskTable s) (hrun : UserRuns s) (hs : SchedStep s t) : TaskTable t ∧ UserRuns t := by
  cases hs with
  | @tick fuel t ht =>
      obtain ⟨u, hu, htable, huser⟩ := h.doTimer (k := fuel) hrun
      rw [doTimer_mono (doTimer_mono ht)] at hu
      cases hu
      exact ⟨htable, huser⟩
  | fork hchild hnew => exact h.doCowFork hrun hchild hnew

theorem SchedReachable.table (h : SchedReachable s) : TaskTable s ∧ UserRuns s := by
  induction h with
  | @start pages numbers s t fuel hb ht =>
      have htab : TaskTable (s.taskInit pages numbers) := hb.table
      obtain ⟨u, hu, htable, huser⟩ := htab.schedule (k := fuel)
      rw [schedule_mono (schedule_mono ht)] at hu
      cases hu
      exact ⟨htable, huser⟩
  | step _ hs ih => exact hs.table ih.1 ih.2

/-- In every state in which user code runs the task table is in order, the running task is not the idle one
and has time left, and the next timer interrupt returns. -/
theorem task_table_in_order (h : SchedReachable s) :
    TaskTable s ∧ UserRuns s ∧ s.current ≠ s.idle ∧ ∃ t, s.doTimer (fuel + 2) = some t := by
  obtain ⟨htable, huser⟩ := h.table
  obtain ⟨t, ht, -, -⟩ := htable.doTimer (k := fuel) huser
  exact ⟨htable, huser, htable.current_ne_idle huser, t, ht⟩

/-- The states in which `schedule` is called: at the end of the boot, and in a timer interrupt. -/
inductive ScheduleCall : Sched → Prop
  | boot {pages numbers : Nat → Nat} {s : Sched} : BootPages pages s → ScheduleCall (s.taskInit pages numbers)
  | tick {s : Sched} : SchedReachable s → ScheduleCall s
  | charged {s : Sched} : SchedReachable s → ScheduleCall (s.setCounter s.current ((s.heap s.current).counter - 1))

/-- What `schedule` leaves: counters are refilled if there is none left, and the chosen task runs. -/
structure Scheduled (s t : Sched) : Prop where
  table : SameTable { s with current := t.current } t
  refill : (∀ j, 1 ≤ j → j ≤ s.tasksNumber → (s.taskAt j).counter = 0) →
    (∀ j, 1 ≤ j → j ≤ s.tasksNumber → t.taskAt j = (s.taskAt j).refilled) ∧
      ∀ p, (∀ j, 1 ≤ j → j ≤ s.tasksNumber → p ≠ s.task j) → t.heap p = s.heap p
  keep : (∃ j, 1 ≤ j ∧ j ≤ s.tasksNumber ∧ (s.taskAt j).counter ≠ 0) → t.heap = s.heap
  chosen : ∃ i, Chosen t i ∧ t.current = t.task i
  user : t.current ≠ t.idle

theorem ScheduleCall.table (h : ScheduleCall s) : TaskTable s := by
  cases h with
  | boot hb => exact hb.table
  | tick hs => exact hs.table.1
  | charged hs => exact hs.table.1.charge

/-- `schedule` calls itself at most once, and only when no counter is left; it follows no null pointer and runs the
first task that has the greatest counter. -/
theorem schedule_correct (h : ScheduleCall s) :
    (∀ i, 1 ≤ i → i ≤ s.tasksNumber → s.task i ≠ 0) ∧ (∃ t, s.schedule 2 = some t ∧ Scheduled s t) ∧
      ((∃ j, 1 ≤ j ∧ j ≤ s.tasksNumber ∧ (s.taskAt j).counter ≠ 0) → ∃ t, s.schedule 1 = some t) := by
  have ht := h.table
  have hnumber := ht.number
  have huser : ∀ i, 1 ≤ i → i ≤ s.tasksNumber → s.task i ≠ s.idle := fun i h1 hi heq => by
    have := ht.apart i 0 hi (Nat.zero_le _) (heq.trans ht.idle)
    omega
  refine ⟨fun i h1 hi => (ht.entries i (by omega)).mpr hi, ?_, fun hleft => ?_⟩
  · by_cases hleft : ∃ j, 1 ≤ j ∧ j ≤ s.tasksNumber ∧ (s.taskAt j).counter ≠ 0
    · obtain ⟨i, hi, hrun⟩ := ht.range.schedule_chosen (k := 1) hleft
      refine ⟨_, hrun, ⟨rfl, rfl, rfl, rfl⟩, fun hzero => ?_, fun _ => rfl, ⟨i, hi.current _, rfl⟩, huser i hi.pos hi.le⟩
      obtain ⟨j, h1, hj, hne⟩ := hleft
      exact absurd (hzero j h1 hj) hne
    · have hzero : ∀ j, 1 ≤ j → j ≤ s.tasksNumber → (s.taskAt j).counter = 0 := fun j h1 hj => by
        by_contra hne
        exact hleft ⟨j, h1, hj, hne⟩
      obtain ⟨i, hi, hrun⟩ := ht.range.schedule_epoch (k := 0) hzero
      have hsame := refill_same (s := s) (n := s.tasksNumber) (i := 1)
      refine ⟨_, hrun, ⟨hsame.task, hsame.tasksNumber, hsame.idle, rfl⟩, fun _ => ⟨fun j h1 hj => ?_, fun p hp => ?_⟩,
        fun h => absurd h hleft, ⟨i, hi.current _, rfl⟩, ?_⟩
      · exact refill_task h1 (by omega)
      · exact refill_other fun j h1 hj => hp j h1 (by omega)
      · have hle := hi.le
        rw [hsame.tasksNumber] at hle
        change (s.refill s.tasksNumber 1).task i ≠ (s.refill s.tasksNumber 1).idle
        rw [hsame.task, hsame.idle]
        exact huser i hi.pos hle
  · obtain ⟨i, hi, hrun⟩ := ht.range.schedule_chosen (k := 0) hleft
    exact ⟨_, hrun⟩

/-- The table before `task_init`. -/
def bootTable : Sched :=
  { heap := fun _ => { counter := 0, priority := 0, pid := 0 }, task := fun _ => 0, tasksNumber := 1, idle := 0
    current := 0 }

/-- One task at boot, in pages 4096 and 8192; a tick and a fork into page 12288 have gone by. -/
theorem task_table_in_order_two_tasks : ∃ s : Sched, s.task 2 = 12288 ∧
    TaskTable s ∧ UserRuns s ∧ s.current ≠ s.idle ∧ ∃ t, s.doTimer (0 + 2) = some t := by
  have hboot : BootPages (fun i => 4096 * (i + 1)) bootTable :=
    ⟨rfl, Nat.le_refl 1, by decide, fun i _ => by omega, fun i j _ _ h => by omega⟩
  have hrun : (bootTable.taskInit (fun i => 4096 * (i + 1)) fun _ => 4).schedule 2 = some _ := rfl
  have htick := (SchedReachable.start hboot hrun).step (.tick (show Sched.doTimer 2 _ = some _ from rfl))
  have hchild : 12288 ≠ 0 := by decide
  have hfork := htick.step (.fork hchild (by decide))
  exact ⟨_, rfl, task_table_in_order hfork⟩

/-- A tick and a fork behind the boot, and the tick that takes the parent's last unit: the child has one left and runs. -/
theorem schedule_correct_two_tasks : ∃ s t : Sched, ScheduleCall s ∧ (s.taskAt 1).counter = 0 ∧ (s.taskAt 2).counter = 1 ∧
    s.schedule 2 = some t ∧ Scheduled s t ∧ t.current = t.task 2 := by
  have hboot : BootPages (fun i => 4096 * (i + 1)) bootTable :=
    ⟨rfl, Nat.le_refl 1, by decide, fun i _ => by omega, fun i j _ _ h => by omega⟩
  have hrun : (bootTable.taskInit (fun i => 4096 * (i + 1)) fun _ => 1).schedule 2 = some _ := rfl
  have htick := (SchedReachable.start hboot hrun).step (.tick (show Sched.doTimer 2 _ = some _ from rfl))
  have hchild : 12288 ≠ 0 := by decide
  have hcall := ScheduleCall.charged (htick.step (.fork hchild (by decide)))
  obtain ⟨-, ⟨t, ht, hs⟩, -⟩ := schedule_correct hcall
  obtain rfl := Option.some.inj (ht.symm.trans rfl)
  exact ⟨_, _, hcall, rfl, rfl, ht, hs, rfl⟩

end Reach

end ZjuOs
