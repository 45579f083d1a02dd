import ZjuOs.Epochs
import Mathlib.Algebra.BigOperators.Intervals
import Mathlib.Algebra.Group.Action.Defs
import Mathlib.Algebra.Order.BigOperators.Group.Finset

/-!
How the ticks are shared out when tasks fork. One number of refills accounts for the ticks of all tasks, and no task
waits for ever.
-/
namespace ZjuOs

namespace Sched

/-- The time that task `j` has left when task `i` has paid for a tick. -/
def left (s : Sched) (i j : Nat) : Nat := if j = i then (s.taskAt j).counter - 1 else (s.taskAt j).counter

/-- The time that all tasks have left. -/
def total (s : Sched) : Nat := ∑ j ∈ Finset.Icc 1 s.tasksNumber, (s.taskAt j).counter

end Sched

/-- The tick for which task `i` pays is the last of its epoch. -/
def Sched.Last (s : Sched) (i : Nat) : Prop := ∀ j, 1 ≤ j → j ≤ s.tasksNumber → s.left i j = 0

/-- The greatest total. -/
def FULL : Nat := (NR_TASKS - 1) * PRIORITY_MAX

/-- `schedule` fills all counters `r` times. -/
structure Filled (s t : Sched) (r : Nat) : Prop where
  same : Retimed s t
  counter : ∀ j, 1 ≤ j → j ≤ s.tasksNumber → (t.taskAt j).counter = (s.taskAt j).counter + r * (s.taskAt j).priority
  refill : r = 0 ∨ r = 1 ∧ ∀ j, 1 ≤ j → j ≤ s.tasksNumber → (s.taskAt j).counter = 0

/-- A timer interrupt for which task `i` pays. -/
structure Ticked (s t : Sched) (i r : Nat) : Prop where
  same : Retimed s t
  pos : 0 < (s.taskAt i).counter
  counter : ∀ j, 1 ≤ j → j ≤ s.tasksNumber → (t.taskAt j).counter = s.left i j + r * (s.taskAt j).priority
  refill : r = 0 ∨ r = 1 ∧ s.Last i

/-- A fork leaves the tasks, and may enter a copy of task `i` after them. -/
structure Joined (s t : Sched) (i : Nat) : Prop where
  old : ∀ j, j ≤ s.tasksNumber → t.taskAt j = s.taskAt j
  number : t.tasksNumber = s.tasksNumber ∨
    t.tasksNumber = s.tasksNumber + 1 ∧ t.taskAt t.tasksNumber = { s.taskAt i with pid := t.tasksNumber }

/-- Timer interrupts and forks from `s` on. `l` are the tasks that have paid for the ticks, the last one first. -/
inductive Shift (s : Sched) : List Nat → Sched → Prop
  | start : Shift s [] s
  | tick {l : List Nat} {t u : Sched} {i fuel : Nat} : Shift s l t → 1 ≤ i → i ≤ t.tasksNumber →
      t.charged = some (t.task i) → t.doTimer fuel = some u → Shift s (i :: l) u
  | fork {l : List Nat} {t : Sched} {child : Nat} : Shift s l t → child ≠ 0 →
      (∀ i, i < NR_TASKS → t.task i ≠ child) → Shift s l (t.doCowFork child).2

/-- Timer interrupts and forks of which `k` interrupts end an epoch, so that `schedule` fills all counters. -/
inductive Filling (s : Sched) : List Nat → Nat → Sched → Prop
  | start : Filling s [] 0 s
  | tick {l : List Nat} {k : Nat} {t u : Sched} {i fuel : Nat} : Filling s l k t → 1 ≤ i → i ≤ t.tasksNumber →
      t.charged = some (t.task i) → t.doTimer fuel = some u → ¬ t.Last i → Filling s (i :: l) k u
  | last {l : List Nat} {k : Nat} {t u : Sched} {i fuel : Nat} : Filling s l k t → 1 ≤ i → i ≤ t.tasksNumber →
      t.charged = some (t.task i) → t.doTimer fuel = some u → t.Last i → Filling s (i :: l) (k + 1) u
  | fork {l : List Nat} {k : Nat} {t : Sched} {child : Nat} : Filling s l k t → child ≠ 0 →
      (∀ i, i < NR_TASKS → t.task i ≠ child) → Filling s l k (t.doCowFork child).2

/-- A fork of task `p` enters task `i`. -/
structure Enters (u v : Sched) (p i : Nat) : Prop where
  parent : 1 ≤ p ∧ p ≤ u.tasksNumber ∧ u.current = u.task p
  child : ∃ child, child ≠ 0 ∧ (∀ j, j < NR_TASKS → u.task j ≠ child) ∧ v = (u.doCowFork child).2
  number : i = u.tasksNumber + 1 ∧ v.tasksNumber = i

section Steps
variable {s t : Sched} {i j k fuel child : Nat}

theorem TaskTable.filled (h : TaskTable s) : ∃ t r, s.schedule (k + 2) = some t ∧ Filled s t r := by
  by_cases hleft : ∃ j, 1 ≤ j ∧ j ≤ s.tasksNumber ∧ (s.taskAt j).counter ≠ 0
  · obtain ⟨i, -, hrun⟩ := h.range.schedule_chosen (k := k + 1) hleft
    refine ⟨_, 0, hrun, retimed_current, fun j _ _ => ?_, .inl rfl⟩
    rw [Nat.zero_mul, Nat.add_zero]
    rfl
  · have hzero : ∀ j, 1 ≤ j → j ≤ s.tasksNumber → (s.taskAt j).counter = 0 := fun j h1 hj => by
      by_contra hne
      exact hleft ⟨j, h1, hj, hne⟩
    obtain ⟨i, -, hrun⟩ := h.range.schedule_epoch (k := k) hzero
    refine ⟨_, 1, hrun, retimed_refill.trans retimed_current, fun j h1 hj => ?_, .inr ⟨rfl, hzero⟩⟩
    have hfull : (s.refill s.tasksNumber 1).taskAt j = (s.taskAt j).refilled := refill_task h1 (by omega)
    rw [hzero j h1 hj, Nat.zero_add, Nat.one_mul]
    exact congrArg TaskStruct.counter hfull

/-- The charge of `do_timer`. -/
theorem TaskTable.left_eq (h : TaskTable s) (hi : i ≤ s.tasksNumber) (hcur : s.current = s.task i) (hj : j ≤ s.tasksNumber) :
    ((s.setCounter s.current ((s.heap s.current).counter - 1)).taskAt j).counter = s.left i j := by
  have htask : (s.setCounter s.current ((s.heap s.current).counter - 1)).task = s.task := rfl
  rw [Sched.taskAt, htask, Sched.setCounter, heap_put, Sched.left, hcur]
  by_cases hji : j = i
  · subst hji
    rw [if_pos rfl, if_pos rfl]
    rfl
  · rw [if_neg hji, if_neg fun heq => hji (h.apart j i hj hi heq)]
    rfl

theorem TaskTable.ticked (h : TaskTable s) (hrun : UserRuns s) (hi : i ≤ s.tasksNumber) (hcur : s.current = s.task i)
    (ht : s.doTimer fuel = some t) : ∃ r, Ticked s t i r := by
  have hpos : 0 < (s.heap s.current).counter := TaskTable.current_counter hrun
  have hidle := h.current_ne_idle hrun
  have hcharge : ¬ (s.current = s.idle ∨ (s.heap s.current).counter = 0) := by
    rintro (h0 | h0)
    · exact hidle h0
    · omega
  have hpays : 0 < (s.taskAt i).counter := by
    rw [Sched.taskAt, ← hcur]
    exact hpos
  have hmore := doTimer_mono (doTimer_mono ht)
  rw [Sched.doTimer, if_neg hcharge] at hmore
  dsimp only at hmore
  have hleft : ∀ j, j ≤ s.tasksNumber →
      ((s.setCounter s.current ((s.heap s.current).counter - 1)).taskAt j).counter = s.left i j :=
    fun j hj => h.left_eq hi hcur hj
  have hprio : ∀ j, ((s.setCounter s.current ((s.heap s.current).counter - 1)).taskAt j).priority = (s.taskAt j).priority :=
    fun j => retimed_setCounter.priority _
  split at hmore
  · obtain ⟨u, r, hu, hfilled⟩ := h.charge.filled (k := fuel)
    obtain rfl : u = t := Option.some.inj (hu.symm.trans hmore)
    refine ⟨r, retimed_setCounter.trans hfilled.same, hpays, fun j h1 hj => ?_, ?_⟩
    · rw [hfilled.counter j h1 hj, hleft j hj, hprio]
    · rcases hfilled.refill with hr | ⟨hr, hzero⟩
      · exact .inl hr
      · refine .inr ⟨hr, fun j h1 hj => ?_⟩
        rw [← hleft j hj]
        exact hzero j h1 hj
  · obtain rfl := Option.some.inj hmore
    refine ⟨0, retimed_setCounter, hpays, fun j _ hj => ?_, .inl rfl⟩
    rw [hleft j hj, Nat.zero_mul, Nat.add_zero]

theorem TaskTable.joined (h : TaskTable s) (hcur : s.current = s.task i) (hnew : ∀ i, i < NR_TASKS → s.task i ≠ child) :
    Joined s (s.doCowFork child).2 i := by
  have hn := h.number
  cases hslot : ZjuOs.freeSlot s.task with
  | none =>
      rw [doCowFork_none hslot]
      exact ⟨fun j hj => (heap_put ..).trans (if_neg (hnew j (by omega))), .inl rfl⟩
  | some j =>
      obtain ⟨rfl, hjlt⟩ := h.freeSlot hslot
      have hf : Forked s (s.doCowFork child).2 (s.tasksNumber + 1) child := (doCowFork_some hslot).2
      generalize (s.doCowFork child).2 = t at hf ⊢
      refine ⟨fun j hj => ?_, .inr ⟨hf.tasksNumber, ?_⟩⟩
      · rw [Sched.taskAt, hf.task, Function.update_of_ne (by omega)]
        exact hf.old _ (hnew j (by omega))
      · rw [Sched.taskAt, hf.task, hf.tasksNumber, Function.update_self, hf.new, hcur]
        rfl

end Steps

section Totals
variable {s t : Sched} {i j r : Nat}

/-- One tick less. -/
theorem sum_left (h1 : 1 ≤ i) (hi : i ≤ s.tasksNumber) (hpos : 0 < (s.taskAt i).counter) :
    ∑ j ∈ Finset.Icc 1 s.tasksNumber, s.left i j + 1 = s.total := by
  have hmem : i ∈ Finset.Icc 1 s.tasksNumber := Finset.mem_Icc.mpr ⟨h1, hi⟩
  have hself : s.left i i = (s.taskAt i).counter - 1 := if_pos rfl
  have hrest : ∑ j ∈ (Finset.Icc 1 s.tasksNumber).erase i, s.left i j =
      ∑ j ∈ (Finset.Icc 1 s.tasksNumber).erase i, (s.taskAt j).counter :=
    Finset.sum_congr rfl fun j hj => if_neg (Finset.ne_of_mem_erase hj)
  have hold := Finset.add_sum_erase (Finset.Icc 1 s.tasksNumber) (fun j => (s.taskAt j).counter) hmem
  have hnew := Finset.add_sum_erase (Finset.Icc 1 s.tasksNumber) (fun j => s.left i j) hmem
  rw [Sched.total]
  omega

theorem InRange.total_le (h : InRange s) : s.total ≤ s.tasksNumber * PRIORITY_MAX := by
  have hle : ∀ j ∈ Finset.Icc 1 s.tasksNumber, (s.taskAt j).counter ≤ PRIORITY_MAX := fun j hj => by
    obtain ⟨h1, hj⟩ := Finset.mem_Icc.mp hj
    exact (h.counter j h1 hj).trans (h.max j h1 hj)
  have hsum := Finset.sum_le_card_nsmul (Finset.Icc 1 s.tasksNumber) (fun j => (s.taskAt j).counter) PRIORITY_MAX hle
  rwa [Nat.card_Icc, smul_eq_mul, Nat.add_sub_cancel] at hsum

/-- The ticks that can go by before the next refill: the time that is left, and that of the tasks still to come. -/
def Sched.budget (s : Sched) : Nat := s.total + (NR_TASKS - 1 - s.tasksNumber) * PRIORITY_MAX

theorem TaskTable.budget_le (h : TaskTable s) : s.budget ≤ FULL := by
  have hn := h.number
  have htotal := h.range.total_le
  have hsplit : (NR_TASKS - 1) * PRIORITY_MAX = s.tasksNumber * PRIORITY_MAX + (NR_TASKS - 1 - s.tasksNumber) * PRIORITY_MAX := by
    rw [← Nat.add_mul]
    congr 1
    omega
  rw [FULL, hsplit, Sched.budget]
  omega

/-- A tick takes one from the budget, or it was the last one and a new epoch begins. -/
theorem Ticked.budget (h : Ticked s t i r) (ht : TaskTable t) (h1 : 1 ≤ i) (hi : i ≤ s.tasksNumber) :
    t.budget + 1 ≤ s.budget + r * FULL := by
  have hsum := sum_left h1 hi h.pos
  rcases h.refill with rfl | ⟨rfl, -⟩
  · have htotal : t.total = ∑ j ∈ Finset.Icc 1 s.tasksNumber, s.left i j := by
      rw [Sched.total, h.same.tasksNumber]
      refine Finset.sum_congr rfl fun j hj => ?_
      obtain ⟨hj1, hj⟩ := Finset.mem_Icc.mp hj
      rw [h.counter j hj1 hj, Nat.zero_mul, Nat.add_zero]
    rw [Sched.budget, Sched.budget, htotal, h.same.tasksNumber, Nat.zero_mul]
    omega
  · have hfull := ht.budget_le
    have hleft : 1 ≤ s.budget := by
      rw [Sched.budget]
      omega
    omega

/-- What a fork gives the child is what the child brings. -/
theorem Joined.budget (h : Joined s t i) (hs : TaskTable s) (ht : TaskTable t) (h1 : 1 ≤ i) (hi : i ≤ s.tasksNumber) :
    t.budget ≤ s.budget := by
  have hsum : ∑ j ∈ Finset.Icc 1 s.tasksNumber, (t.taskAt j).counter = s.total :=
    Finset.sum_congr rfl fun j hj => congrArg TaskStruct.counter (h.old j (Finset.mem_Icc.mp hj).2)
  rcases h.number with hn | ⟨hn, hcopy⟩
  · rw [Sched.budget, Sched.budget, Sched.total, hn, hsum]
  · have hlt := ht.number
    have hlast : (t.taskAt (s.tasksNumber + 1)).counter ≤ PRIORITY_MAX := by
      rw [← hn, hcopy]
      exact (hs.range.counter i h1 hi).trans (hs.range.max i h1 hi)
    have hslots : NR_TASKS - 1 - s.tasksNumber = NR_TASKS - 1 - (s.tasksNumber + 1) + 1 := by omega
    rw [Sched.budget, Sched.budget, Sched.total, hn, Finset.sum_Icc_succ_top (Nat.le_add_left ..), hsum, hslots, Nat.add_mul,
      Nat.one_mul]
    omega

end Totals

section Shares
variable {s t u : Sched} {l : List Nat} {i j k fuel : Nat}

/-- After `k` refills the ticks of a task, with what it has left, are what it had at first and `k` times its priority. -/
structure Account (s t : Sched) (l : List Nat) (k : Nat) : Prop where
  number : s.tasksNumber ≤ t.tasksNumber
  paid : ∀ i ∈ l, i ≤ t.tasksNumber
  priority : ∀ i, i ≤ s.tasksNumber → (t.taskAt i).priority = (s.taskAt i).priority
  old : ∀ i, 1 ≤ i → i ≤ s.tasksNumber → l.count i + (t.taskAt i).counter = (s.taskAt i).counter + k * (s.taskAt i).priority
  budget : l.length + t.budget ≤ (k + 1) * FULL

theorem Account.start (h : TaskTable s) : Account s s [] 0 where
  number := Nat.le_refl _
  paid := fun i hi => (List.not_mem_nil hi).elim
  priority := fun _ _ => rfl
  old := fun i _ _ => by rw [List.count_nil, Nat.zero_add, Nat.zero_mul, Nat.add_zero]
  budget := by
    rw [List.length_nil, Nat.zero_add, Nat.zero_add, Nat.one_mul]
    exact h.budget_le

/-- A tick goes to the ticks of its task. -/
theorem Ticked.count {r : Nat} (h : Ticked s t i r) (h1 : 1 ≤ j) (hj : j ≤ s.tasksNumber) :
    (i :: l).count j + (t.taskAt j).counter = l.count j + (s.taskAt j).counter + r * (s.taskAt j).priority := by
  have hpos := h.pos
  rw [h.counter j h1 hj, List.count_cons, Sched.left]
  by_cases hji : j = i
  · subst hji
    rw [if_pos rfl, if_pos (beq_self_eq_true j)]
    omega
  · rw [if_neg hji, if_neg fun heq => hji (beq_iff_eq.mp heq).symm]
    omega

theorem Account.tick {r : Nat} (h : Account s t l k) (hu : TaskTable u) (h1 : 1 ≤ i) (hi : i ≤ t.tasksNumber)
    (htick : Ticked t u i r) : Account s u (i :: l) (k + r) := by
  have hnumber := htick.same.tasksNumber
  have hprio : ∀ j, (u.taskAt j).priority = (t.taskAt j).priority := fun j => htick.same.priority_at
  constructor
  case number =>
    rw [hnumber]
    exact h.number
  case paid =>
    intro j hj
    rw [hnumber]
    rcases List.mem_cons.mp hj with rfl | hj
    · exact hi
    · exact h.paid j hj
  case priority =>
    intro j hj
    rw [hprio]
    exact h.priority j hj
  case old =>
    intro j hj1 hj
    rw [htick.count hj1 (hj.trans h.number), h.old j hj1 hj, h.priority j hj, Nat.add_mul, Nat.add_assoc]
  case budget =>
    have hold := h.budget
    have hstep := htick.budget hu h1 hi
    rw [List.length_cons, Nat.add_right_comm k r 1, Nat.add_mul]
    omega

theorem Account.join (h : Account s t l k) (ht : TaskTable t) (hu : TaskTable u) (h1 : 1 ≤ i) (hi : i ≤ t.tasksNumber)
    (hj : Joined t u i) : Account s u l k := by
  have hle : t.tasksNumber ≤ u.tasksNumber := by
    rcases hj.number with hn | ⟨hn, -⟩
    · exact Nat.le_of_eq hn.symm
    · exact hn.symm ▸ Nat.le_succ _
  constructor
  case number => exact h.number.trans hle
  case paid => exact fun j hjl => (h.paid j hjl).trans hle
  case priority =>
    intro j hj'
    rw [hj.old j (hj'.trans h.number)]
    exact h.priority j hj'
  case old =>
    intro j hj1 hj'
    rw [hj.old j (hj'.trans h.number)]
    exact h.old j hj1 hj'
  case budget => exact (Nat.add_le_add_left (hj.budget ht hu h1 hi) _).trans h.budget

theorem charged_current (h : t.charged = some (t.task i)) : t.current = t.task i := by
  rw [Sched.charged] at h
  split at h
  · cases h
  · exact Option.some.inj h

/-- A tick that ends an epoch is a tick with a refill. -/
theorem TaskTable.tick_fills (h : TaskTable t) (hrun : UserRuns t) (hi : i ≤ t.tasksNumber)
    (hcharged : t.charged = some (t.task i)) (hu : t.doTimer fuel = some u) :
    (¬ t.Last i → Ticked t u i 0) ∧ (t.Last i → Ticked t u i 1) := by
  obtain ⟨r, htick⟩ := h.ticked hrun hi (charged_current hcharged) hu
  refine ⟨fun hno => ?_, fun hlast => ?_⟩
  · rcases htick.refill with rfl | ⟨-, hlast⟩
    · exact htick
    · exact absurd hlast hno
  · rcases htick.refill with rfl | ⟨rfl, -⟩
    · -- the task that runs next has time left
      obtain ⟨-, j, hj1, hj, -, hpos⟩ := SchedStep.table h hrun (.tick hu)
      rw [htick.same.tasksNumber] at hj
      have hcounter := htick.counter j hj1 hj
      rw [hlast j hj1 hj, Nat.zero_mul] at hcounter
      omega
    · exact htick

theorem Shift.filling (h : Shift s l t) : ∃ k, Filling s l k t := by
  induction h with
  | start => exact ⟨0, .start⟩
  | @tick l t u i fuel _ h1 hi hcharged hu ih =>
      obtain ⟨k, hk⟩ := ih
      by_cases hlast : t.Last i
      · exact ⟨k + 1, hk.last h1 hi hcharged hu hlast⟩
      · exact ⟨k, hk.tick h1 hi hcharged hu hlast⟩
  | fork _ hchild hnew ih =>
      obtain ⟨k, hk⟩ := ih
      exact ⟨k, hk.fork hchild hnew⟩

theorem Filling.account (h : Filling s l k t) (hs : TaskTable s) (hrun : UserRuns s) :
    TaskTable t ∧ UserRuns t ∧ Account s t l k := by
  induction h with
  | start => exact ⟨hs, hrun, .start hs⟩
  | tick _ h1 hi hcharged hu hlast ih =>
      obtain ⟨htable, huser, hacc⟩ := ih
      obtain ⟨hu', hurun⟩ := SchedStep.table htable huser (.tick hu)
      exact ⟨hu', hurun, hacc.tick hu' h1 hi ((htable.tick_fills huser hi hcharged hu).1 hlast)⟩
  | last _ h1 hi hcharged hu hlast ih =>
      obtain ⟨htable, huser, hacc⟩ := ih
      obtain ⟨hu', hurun⟩ := SchedStep.table htable huser (.tick hu)
      exact ⟨hu', hurun, hacc.tick hu' h1 hi ((htable.tick_fills huser hi hcharged hu).2 hlast)⟩
  | fork _ hchild hnew ih =>
      obtain ⟨htable, huser, hacc⟩ := ih
      obtain ⟨hu, hurun⟩ := htable.doCowFork huser hchild hnew
      obtain ⟨i, h1, hi, hcur, -⟩ := huser
      exact ⟨hu, hurun, hacc.join htable hu h1 hi (htable.joined hcur hnew)⟩

/-- A run is cut where it enters a task. -/
theorem Filling.enters (h : Filling s l k t) (hs : TaskTable s) (hrun : UserRuns s) (hlo : s.tasksNumber < i)
    (hi : i ≤ t.tasksNumber) : ∃ u v p l₁ l₂ k₁ k₂, Filling s l₁ k₁ u ∧ Enters u v p i ∧ Filling v l₂ k₂ t ∧ l = l₂ ++ l₁ ∧
      k = k₁ + k₂ := by
  induction h with
  | start => exact absurd hi (Nat.not_le.mpr hlo)
  | @tick l k t u j fuel ht h1 hj hcharged hu hlast ih =>
      obtain ⟨htable, huser, -⟩ := ht.account hs hrun
      rw [((htable.tick_fills huser hj hcharged hu).1 hlast).same.tasksNumber] at hi
      obtain ⟨v, w, p, l₁, l₂, k₁, k₂, hbefore, henters, hafter, rfl, rfl⟩ := ih hi
      exact ⟨v, w, p, l₁, j :: l₂, k₁, k₂, hbefore, henters, hafter.tick h1 hj hcharged hu hlast, rfl, rfl⟩
  | @last l k t u j fuel ht h1 hj hcharged hu hlast ih =>
      obtain ⟨htable, huser, -⟩ := ht.account hs hrun
      rw [((htable.tick_fills huser hj hcharged hu).2 hlast).same.tasksNumber] at hi
      obtain ⟨v, w, p, l₁, l₂, k₁, k₂, hbefore, henters, hafter, rfl, rfl⟩ := ih hi
      exact ⟨v, w, p, l₁, j :: l₂, k₁, k₂ + 1, hbefore, henters, hafter.last h1 hj hcharged hu hlast, rfl, rfl⟩
  | @fork l k t child ht hchild hnew ih =>
      obtain ⟨htable, ⟨p, hp1, hp, hcur, -⟩, -⟩ := ht.account hs hrun
      by_cases hold : i ≤ t.tasksNumber
      · obtain ⟨v, w, p, l₁, l₂, k₁, k₂, hbefore, henters, hafter, rfl, rfl⟩ := ih hold
        exact ⟨v, w, p, l₁, l₂, k₁, k₂, hbefore, henters, hafter.fork hchild hnew, rfl, rfl⟩
      · have hnumber : i = t.tasksNumber + 1 ∧ (t.doCowFork child).2.tasksNumber = i := by
          rcases (htable.joined hcur hnew).number with hn | ⟨hn, -⟩ <;> omega
        exact ⟨t, _, p, l, [], k, 0, ht, ⟨⟨hp1, hp, hcur⟩, ⟨child, hchild, hnew, rfl⟩, hnumber⟩, .start, rfl, rfl⟩

/-- A child begins with what its parent has left. -/
theorem Enters.taskAt {p : Nat} (h : Enters s t p i) (hs : TaskTable s) :
    t.taskAt i = { s.taskAt p with pid := i } := by
  obtain ⟨-, -, hcur⟩ := h.parent
  obtain ⟨child, -, hnew, rfl⟩ := h.child
  obtain ⟨hi, hnumber⟩ := h.number
  rcases (hs.joined hcur hnew).number with hn | ⟨-, hcopy⟩
  · omega
  · rwa [hnumber] at hcopy

theorem Enters.table {p : Nat} (h : Enters s t p i) (hs : TaskTable s) (hrun : UserRuns s) : TaskTable t ∧ UserRuns t := by
  obtain ⟨child, hne, hnew, rfl⟩ := h.child
  exact hs.doCowFork hrun hne hnew

/-- The ticks are shared out by priority, whatever forks there are: for every task the ticks that it has had and has left
are what it had at first and as many times its priority as there have been refills. For a child they are what its parent had
left at the fork, and its priority for each refill since. Between two refills there are less than `FULL` ticks. -/
theorem shares_by_priority (h : SchedReachable s) (hl : Shift s l t) :
    ∃ k, Filling s l k t ∧ (∀ i, 1 ≤ i → i ≤ s.tasksNumber →
        l.count i + (t.taskAt i).counter = (s.taskAt i).counter + k * (s.taskAt i).priority) ∧
      (∀ i, s.tasksNumber < i → i ≤ t.tasksNumber → ∃ u v p l₁ l₂ k₁ k₂,
        Filling s l₁ k₁ u ∧ Enters u v p i ∧ Filling v l₂ k₂ t ∧ l = l₂ ++ l₁ ∧ k = k₁ + k₂ ∧
        l.count i + (t.taskAt i).counter = (u.taskAt p).counter + k₂ * (u.taskAt p).priority) ∧
      l.length < (k + 1) * FULL := by
  obtain ⟨hs, hrun⟩ := h.table
  obtain ⟨k, hk⟩ := hl.filling
  obtain ⟨ht, huser, hacc⟩ := hk.account hs hrun
  refine ⟨k, hk, hacc.old, fun i hlo hhi => ?_, ?_⟩
  · obtain ⟨u, v, p, l₁, l₂, k₁, k₂, hbefore, henters, hafter, rfl, rfl⟩ := hk.enters hs hrun hlo hhi
    refine ⟨u, v, p, l₁, l₂, k₁, k₂, hbefore, henters, hafter, rfl, rfl, ?_⟩
    obtain ⟨hu, hurun, hfirst⟩ := hbefore.account hs hrun
    obtain ⟨hv, hvrun⟩ := henters.table hu hurun
    obtain ⟨-, -, hsecond⟩ := hafter.account hv hvrun
    obtain ⟨hi, hnumber⟩ := henters.number
    -- the child has not paid before the fork
    have hcount : l₁.count i = 0 := List.count_eq_zero.mpr fun hmem => by
      have hle := hfirst.paid i hmem
      omega
    have hold := hsecond.old i (by omega) (Nat.le_of_eq hnumber.symm)
    rw [henters.taskAt hu] at hold
    rw [List.count_append, hcount, Nat.add_zero]
    exact hold
  · obtain ⟨i, h1, hi, -, hpos⟩ := huser
    have hsum := sum_left h1 hi hpos
    have hbudget := hacc.budget
    rw [Sched.budget] at hbudget
    omega

/-- Among `2 * FULL` ticks there is one of every task that was there before them. -/
theorem Shift.pays (hl : Shift s l t) (hs : TaskTable s) (hrun : UserRuns s) (h1 : 1 ≤ i) (hi : i ≤ s.tasksNumber)
    (hn : 2 * FULL ≤ l.length) : i ∈ l := by
  obtain ⟨k, hk⟩ := hl.filling
  obtain ⟨ht, huser, hacc⟩ := hk.account hs hrun
  obtain ⟨j, hj1, hj, -, hpos⟩ := huser
  have hsum := sum_left hj1 hj hpos
  have hbudget := hacc.budget
  rw [Sched.budget] at hbudget
  -- the second refill is behind `s`, so that a whole epoch has gone by
  have hk : 2 ≤ k := by
    by_contra hlt
    have hmul : (k + 1) * FULL ≤ 2 * FULL := Nat.mul_le_mul_right FULL (by omega)
    omega
  have hold := hacc.old i h1 hi
  have hmin := hs.range.min i h1 hi
  have hle := ht.range.counter i h1 (hi.trans hacc.number)
  have htwo : 2 * (s.taskAt i).priority ≤ k * (s.taskAt i).priority := Nat.mul_le_mul_right _ hk
  rw [hacc.priority i hi] at hle
  simp only [PRIORITY_MIN] at hmin
  refine List.count_pos_iff.mp ?_
  omega

/-- No task waits for ever: among any `2 * FULL` ticks there is one of every task, whatever forks there are. -/
theorem no_task_waits (h : SchedReachable s) (hl : Shift s l t) (h1 : 1 ≤ i) (hi : i ≤ s.tasksNumber)
    (hn : 2 * FULL ≤ l.length) : i ∈ l := by
  obtain ⟨hs, hrun⟩ := h.table
  exact hl.pays hs hrun h1 hi hn

/-- Ticks can go on for ever. -/
theorem TaskTable.shift (h : TaskTable s) (hrun : UserRuns s) (n : Nat) : ∃ l t, Shift s l t ∧ l.length = n := by
  induction n with
  | zero => exact ⟨[], s, .start, rfl⟩
  | succ n ih =>
      obtain ⟨l, t, hl, hn⟩ := ih
      obtain ⟨k, hk⟩ := hl.filling
      obtain ⟨htable, huser, -⟩ := hk.account h hrun
      obtain ⟨u, hu, -, -⟩ := htable.doTimer (k := 0) huser
      have hidle := htable.current_ne_idle huser
      have hpos : 0 < (t.heap t.current).counter := TaskTable.current_counter huser
      obtain ⟨i, h1, hi, hcur, -⟩ := huser
      refine ⟨i :: l, u, hl.tick h1 hi ?_ hu, congrArg Nat.succ hn⟩
      rw [Sched.charged, hcur, if_neg]
      rw [← hcur]
      rintro (h0 | h0)
      · exact hidle h0
      · omega

/-- One task in page 8192, which runs. -/
def oneTask : Sched :=
  { (bootTable.taskInit (fun i => 4096 * (i + 1)) fun _ => 4).refill 1 1 with current := 8192 }

theorem oneTask_reachable : SchedReachable oneTask := by
  have hboot : BootPages (fun i => 4096 * (i + 1)) bootTable :=
    ⟨rfl, Nat.le_refl 1, by decide, fun i _ => by omega, fun i j _ _ h => by omega⟩
  have hrun : (bootTable.taskInit (fun i => 4096 * (i + 1)) fun _ => 4).schedule 2 = some oneTask := rfl
  exact .start hboot hrun

/-- A tick, a fork into page 12288, and another tick. -/
theorem shares_by_priority_fork : ∃ t u v p l₁ l₂ k₁ k₂, Shift oneTask [1, 1] t ∧ t.task 2 = 12288 ∧
    Filling oneTask l₁ k₁ u ∧ Enters u v p 2 ∧ Filling v l₂ k₂ t ∧ [1, 1] = l₂ ++ l₁ ∧
    [1, 1].count 2 + (t.taskAt 2).counter = (u.taskAt p).counter + k₂ * (u.taskAt p).priority := by
  have htick : oneTask.doTimer 2 = some _ := rfl
  have hchild : 12288 ≠ 0 := by decide
  have hfork := (Shift.start.tick (Nat.le_refl 1) (Nat.le_refl 1) rfl htick).fork hchild (by decide)
  have hl := hfork.tick (Nat.le_refl 1) (show 1 ≤ 2 by decide) rfl (show Sched.doTimer 2 _ = some _ from rfl)
  obtain ⟨k, -, -, hnew, -⟩ := shares_by_priority oneTask_reachable hl
  obtain ⟨u, v, p, l₁, l₂, k₁, k₂, hbefore, henters, hafter, hsplit, -, hcount⟩ := hnew 2 (show 1 < 2 by decide) (Nat.le_refl 2)
  exact ⟨_, u, v, p, l₁, l₂, k₁, k₂, hl, rfl, hbefore, henters, hafter, hsplit, hcount⟩

theorem no_task_waits_boot : ∃ l t, Shift oneTask l t ∧ l.length = 2 * FULL ∧ 1 ∈ l := by
  obtain ⟨htable, huser⟩ := oneTask_reachable.table
  obtain ⟨l, t, hl, hn⟩ := htable.shift huser (2 * FULL)
  exact ⟨l, t, hl, hn, no_task_waits oneTask_reachable hl (Nat.le_refl 1) (Nat.le_refl 1) (Nat.le_of_eq hn.symm)⟩

end Shares

end ZjuOs
