import ZjuOs.TaskTable
import Mathlib.Data.List.Count

/-!
Without forks the ticks repeat one epoch: the tasks in order of decreasing priority, each for as many ticks
as its priority.
-/
namespace ZjuOs

/-- Different tasks, with priorities in their range. -/
structure Roster (s : Sched) : Prop where
  pos : 1 ≤ s.tasksNumber
  apart : ∀ i j, 1 ≤ i → i ≤ s.tasksNumber → 1 ≤ j → j ≤ s.tasksNumber → s.task i = s.task j → i = j
  notIdle : ∀ i, 1 ≤ i → i ≤ s.tasksNumber → s.task i ≠ s.idle
  min : ∀ i, 1 ≤ i → i ≤ s.tasksNumber → PRIORITY_MIN ≤ (s.taskAt i).priority
  max : ∀ i, 1 ≤ i → i ≤ s.tasksNumber → (s.taskAt i).priority ≤ PRIORITY_MAX

namespace Sched

/-- Task `i` comes before task `j`: its priority is greater, or the same and its index is lower. -/
def precedes (s : Sched) (i j : Nat) : Bool :=
  decide ((s.taskAt j).priority < (s.taskAt i).priority ∨
    ((s.taskAt j).priority = (s.taskAt i).priority ∧ i ≤ j))

def order (s : Sched) : List Nat := (List.range' 1 s.tasksNumber).mergeSort s.precedes

/-- The uninterrupted ticks of task `i`. -/
def block (s : Sched) (i : Nat) : List Nat := List.replicate (s.taskAt i).priority i

def epoch (s : Sched) : List Nat := s.order.flatMap s.block

/-- The task whose counter `do_timer` decrements. -/
def charged (s : Sched) : Option Nat :=
  if s.current = s.idle ∨ (s.heap s.current).counter = 0 then none else some s.current

def ticks (fuel : Nat) : Nat → Sched → Option Sched
  | 0, s => some s
  | n + 1, s => (ticks fuel n s).bind (doTimer fuel)

end Sched

section Order
variable {s : Sched} {i j : Nat}

theorem precedes_iff : s.precedes i j = true ↔ (s.taskAt j).priority < (s.taskAt i).priority ∨
    ((s.taskAt j).priority = (s.taskAt i).priority ∧ i ≤ j) := decide_eq_true_iff

theorem order_perm : s.order.Perm (List.range' 1 s.tasksNumber) := List.mergeSort_perm ..

theorem mem_order : i ∈ s.order ↔ 1 ≤ i ∧ i ≤ s.tasksNumber := by
  rw [order_perm.mem_iff, List.mem_range'_1]
  omega

theorem order_nodup : s.order.Nodup := order_perm.nodup_iff.mpr List.nodup_range'

theorem order_pairwise : s.order.Pairwise fun i j => s.precedes i j = true := by
  refine List.pairwise_mergeSort (fun i j k hij hjk => ?_) (fun i j => ?_) _
  · rw [precedes_iff] at hij hjk ⊢
    omega
  · rw [Bool.or_eq_true, precedes_iff, precedes_iff]
    omega

end Order

section Epoch
variable {s t : Sched} {i j c k : Nat} {done rest : List Nat}

/-- In the epoch of `s` the tasks `done` have had their ticks, task `i` has `c` left, and the tasks `rest` have
not run yet. -/
structure InEpoch (s t : Sched) (done : List Nat) (i : Nat) (rest : List Nat) (c : Nat) : Prop where
  order : s.order = done ++ i :: rest
  same : Retimed s t
  current : t.current = s.task i
  counter : (t.taskAt i).counter = c
  pos : 1 ≤ c
  le : c ≤ (s.taskAt i).priority
  done : ∀ j ∈ done, (t.taskAt j).counter = 0
  rest : ∀ j ∈ rest, (t.taskAt j).counter = (s.taskAt j).priority

theorem Retimed.priority_at (h : Retimed s t) : (t.taskAt i).priority = (s.taskAt i).priority := by
  rw [Sched.taskAt, Sched.taskAt, h.task]
  exact h.priority _

/-- At most one task is chosen. -/
theorem Chosen.unique (hi : Chosen s i) (hj : Chosen s j) : i = j := by
  have h1 := hi.most j hj.pos hj.le
  have h2 := hj.most i hi.pos hi.le
  rcases Nat.lt_trichotomy i j with hlt | heq | hgt
  · have := hj.first i hi.pos hlt
    omega
  · exact heq
  · have := hi.first j hj.pos hgt
    omega

/-- The tasks before a place of the order have run, the others have full counters. -/
structure Between (s t : Sched) (done rest : List Nat) : Prop where
  order : s.order = done ++ rest
  same : Retimed s t
  done : ∀ j ∈ done, (t.taskAt j).counter = 0
  rest : ∀ j ∈ rest, (t.taskAt j).counter = (s.taskAt j).priority

theorem Between.inRange (hs : Roster s) (h : Between s t done rest) : InRange t := by
  have hnumber := h.same.tasksNumber
  refine ⟨by rw [hnumber]; exact hs.pos, fun j h1 hj => ?_, fun j h1 hj => ?_, fun j h1 hj => ?_⟩
  all_goals
    rw [hnumber] at hj
    rw [h.same.priority_at]
  · exact hs.min j h1 hj
  · exact hs.max j h1 hj
  · have hmem := mem_order.mpr ⟨h1, hj⟩
    rw [h.order, List.mem_append] at hmem
    rcases hmem with hmem | hmem
    · rw [h.done j hmem]
      exact Nat.zero_le _
    · exact Nat.le_of_eq (h.rest j hmem)

/-- The first of the tasks that have not run is chosen. -/
theorem Between.chosen (hs : Roster s) (h : Between s t done (i :: rest)) : Chosen t i := by
  have hmem : ∀ j, j ∈ done ++ i :: rest → 1 ≤ j ∧ j ≤ s.tasksNumber := fun j hj => mem_order.mp (h.order ▸ hj)
  have hi := hmem i (List.mem_append_right _ List.mem_cons_self)
  have hfull := h.rest i List.mem_cons_self
  have hmin := hs.min i hi.1 hi.2
  have hnumber := h.same.tasksNumber
  simp only [PRIORITY_MIN] at hmin
  have hle : ∀ j, 1 ≤ j → j ≤ s.tasksNumber →
      (t.taskAt j).counter < (t.taskAt i).counter ∨ ((t.taskAt j).counter = (t.taskAt i).counter ∧ i ≤ j) := by
    intro j h1 hj
    have hj' := mem_order.mpr ⟨h1, hj⟩
    rw [h.order, List.mem_append, List.mem_cons] at hj'
    rcases hj' with hdone | rfl | hrest
    · left
      rw [h.done j hdone, hfull]
      omega
    · exact .inr ⟨rfl, Nat.le_refl _⟩
    · have hpair := order_pairwise (s := s)
      rw [h.order] at hpair
      have hlate := (List.pairwise_cons.mp (List.pairwise_append.mp hpair).2.1).1 j hrest
      rw [precedes_iff] at hlate
      rw [hfull, h.rest j (List.mem_cons_of_mem _ hrest)]
      exact hlate
  refine ⟨hi.1, by omega, by omega, fun j h1 hj => ?_, fun j h1 hj => ?_⟩
  · have := hle j h1 (by omega)
    omega
  · have := hle j h1 (by omega)
    omega

/-- `schedule` starts the ticks of the next task. -/
theorem Between.next (hs : Roster s) (h : Between s t done (i :: rest)) :
    ∃ u, t.schedule (k + 1) = some u ∧ InEpoch s u done i rest (s.taskAt i).priority := by
  have hchosen := h.chosen hs
  have hnumber := h.same.tasksNumber
  have hfull := h.rest i List.mem_cons_self
  have hpos := hchosen.counter
  obtain ⟨j, hj, hrun⟩ := (h.inRange hs).schedule_chosen (k := k)
    ⟨i, hchosen.pos, hchosen.le, Nat.ne_of_gt hpos⟩
  rw [hj.unique hchosen] at hrun
  refine ⟨_, hrun, h.order, h.same.trans retimed_current, ?_, hfull, by omega, Nat.le_refl _, h.done,
    fun j hj => h.rest j (List.mem_cons_of_mem _ hj)⟩
  exact congrFun h.same.task i

/-- After the last task `schedule` refills the counters and starts a new epoch. -/
theorem Between.restart (hs : Roster s) (h : Between s t s.order []) :
    ∃ i rest u, t.schedule (k + 2) = some u ∧ InEpoch s u [] i rest (s.taskAt i).priority := by
  have hnumber := h.same.tasksNumber
  have hzero : ∀ j, 1 ≤ j → j ≤ t.tasksNumber → (t.taskAt j).counter = 0 := fun j h1 hj =>
    h.done j (mem_order.mpr ⟨h1, by omega⟩)
  have hfull : Between s (t.refill t.tasksNumber 1) [] s.order := by
    refine ⟨rfl, h.same.trans retimed_refill, fun j hj => (List.not_mem_nil hj).elim, fun j hj => ?_⟩
    obtain ⟨h1, hle⟩ := mem_order.mp hj
    rw [refill_task h1 (by omega)]
    exact h.same.priority_at
  cases horder : s.order with
  | nil =>
      have := mem_order.mpr ⟨Nat.le_refl 1, hs.pos⟩
      rw [horder] at this
      cases this
  | cons i rest =>
      rw [horder] at hfull
      obtain ⟨u, hrun, hu⟩ := hfull.next (k := k) hs
      refine ⟨i, rest, u, ?_, hu⟩
      rw [(h.inRange hs).schedule_refill hzero]
      exact hrun

/-- `do_timer` charges the running task; what follows depends on what it has left. -/
theorem InEpoch.charge (hs : Roster s) (h : InEpoch s t done i rest c) :
    t.charged = some (s.task i) ∧
      Retimed s (t.setCounter (t.task i) (c - 1)) ∧
      (∀ j, 1 ≤ j → j ≤ s.tasksNumber → ((t.setCounter (t.task i) (c - 1)).taskAt j).counter =
        if j = i then c - 1 else (t.taskAt j).counter) ∧
      t.doTimer k = if c - 1 = 0 then (t.setCounter (t.task i) (c - 1)).schedule k
        else some (t.setCounter (t.task i) (c - 1)) := by
  have hmem : 1 ≤ i ∧ i ≤ s.tasksNumber := mem_order.mp (by rw [h.order]; exact List.mem_append_right _ List.mem_cons_self)
  have htask : t.task i = s.task i := congrFun h.same.task i
  have hcur : t.current = t.task i := h.current.trans htask.symm
  have hc : (t.heap (t.task i)).counter = c := h.counter
  have hpos := h.pos
  have hbusy : ¬ (t.current = t.idle ∨ (t.heap t.current).counter = 0) := by
    rw [hcur, hc, h.same.idle, htask]
    rintro (h0 | h0)
    · exact hs.notIdle i hmem.1 hmem.2 h0
    · omega
  have hself : (t.setCounter (t.task i) (c - 1)).heap (t.task i) = { t.heap (t.task i) with counter := c - 1 } :=
    (heap_put ..).trans (if_pos rfl)
  refine ⟨?_, h.same.trans retimed_setCounter, fun j h1 hj => ?_, ?_⟩
  · rw [Sched.charged, if_neg hbusy, h.current]
  · by_cases hji : j = i
    · rw [hji, if_pos rfl]
      exact congrArg TaskStruct.counter hself
    · rw [if_neg hji]
      have hne : t.task j ≠ t.task i := fun heq => by
        rw [h.same.task] at heq
        exact hji (hs.apart j i h1 hj hmem.1 hmem.2 heq)
      exact congrArg TaskStruct.counter ((heap_put ..).trans (if_neg hne))
  · rw [Sched.doTimer, if_neg hbusy]
    dsimp only
    have hzero : ((t.setCounter (t.task i) (c - 1)).heap (t.setCounter (t.task i) (c - 1)).current).counter = c - 1 := by
      have hsame : (t.setCounter (t.task i) (c - 1)).current = t.task i := hcur
      rw [hsame, hself]
    rw [hcur, hc, hzero]

/-- The place of the running tick in the epoch. -/
def Sched.place (s : Sched) (done : List Nat) (i c : Nat) : Nat :=
  (done.flatMap s.block).length + ((s.taskAt i).priority - c)

/-- A tick moves to the next place of the epoch. -/
theorem InEpoch.tick (hs : Roster s) (h : InEpoch s t done i rest c) :
    ∃ u done' i' rest' c', t.doTimer (k + 2) = some u ∧ InEpoch s u done' i' rest' c' ∧
      s.place done' i' c' = (s.place done i c + 1) % s.epoch.length := by
  obtain ⟨-, hsame, hcounter, hrun⟩ := h.charge (k := k + 2) hs
  have hnodup := order_nodup (s := s)
  rw [h.order, List.nodup_append] at hnodup
  obtain ⟨-, htail, hcross⟩ := hnodup
  have hmem : ∀ j, j ∈ done ++ i :: rest → 1 ≤ j ∧ j ≤ s.tasksNumber := fun j hj => mem_order.mp (h.order ▸ hj)
  have hi := hmem i (List.mem_append_right _ List.mem_cons_self)
  have hpos := h.pos
  have hle := h.le
  have hlength : s.epoch.length =
      (done.flatMap s.block).length + (s.taskAt i).priority + (rest.flatMap s.block).length := by
    rw [Sched.epoch, h.order, List.flatMap_append, List.flatMap_cons, List.length_append, List.length_append,
      Sched.block, List.length_replicate, Nat.add_assoc]
  have hdone : ∀ j ∈ done, ((t.setCounter (t.task i) (c - 1)).taskAt j).counter = 0 := fun j hj => by
    have hji : j ≠ i := hcross j hj i List.mem_cons_self
    obtain ⟨h1, hn⟩ := hmem j (List.mem_append_left _ hj)
    rw [hcounter j h1 hn, if_neg hji]
    exact h.done j hj
  have hrest : ∀ j ∈ rest, ((t.setCounter (t.task i) (c - 1)).taskAt j).counter = (s.taskAt j).priority :=
    fun j hj => by
      have hji : j ≠ i := fun heq => (List.nodup_cons.mp htail).1 (heq ▸ hj)
      obtain ⟨h1, hn⟩ := hmem j (List.mem_append_right _ (List.mem_cons_of_mem _ hj))
      rw [hcounter j h1 hn, if_neg hji]
      exact h.rest j hj
  have hself : ((t.setCounter (t.task i) (c - 1)).taskAt i).counter = c - 1 := by
    rw [hcounter i hi.1 hi.2, if_pos rfl]
  by_cases hlast : c - 1 = 0
  · rw [if_pos hlast] at hrun
    have hfull : ∀ j ∈ done ++ [i], ((t.setCounter (t.task i) (c - 1)).taskAt j).counter = 0 := fun j hj => by
      rcases List.mem_append.mp hj with hj | hj
      · exact hdone j hj
      · rw [List.mem_singleton.mp hj, hself]
        exact hlast
    have horder : s.order = (done ++ [i]) ++ rest := by
      rw [h.order, List.append_assoc]
      rfl
    have hbetween : Between s (t.setCounter (t.task i) (c - 1)) (done ++ [i]) rest := ⟨horder, hsame, hfull, hrest⟩
    cases rest with
    | nil =>
        -- the last counter has reached zero
        rw [List.append_nil] at horder
        rw [← horder] at hbetween
        obtain ⟨i', rest', u, hu, hin⟩ := hbetween.restart (k := k) hs
        refine ⟨u, [], i', rest', _, hrun.trans hu, hin, ?_⟩
        rw [Sched.place, Sched.place, List.flatMap_nil, List.length_nil, Nat.sub_self, hlength, List.flatMap_nil,
          List.length_nil]
        have hend : (done.flatMap s.block).length + ((s.taskAt i).priority - c) + 1 =
            (done.flatMap s.block).length + (s.taskAt i).priority + 0 := by omega
        rw [hend, Nat.mod_self]
    | cons i' rest' =>
        obtain ⟨u, hu, hin⟩ := hbetween.next (k := k + 1) hs
        have hi' := hmem i' (List.mem_append_right _ (List.mem_cons_of_mem _ List.mem_cons_self))
        have hmin := hs.min i' hi'.1 hi'.2
        simp only [PRIORITY_MIN] at hmin
        refine ⟨u, done ++ [i], i', rest', _, hrun.trans hu, hin, ?_⟩
        rw [List.flatMap_cons, List.length_append, Sched.block, List.length_replicate] at hlength
        rw [Sched.place, Sched.place, List.flatMap_append, List.length_append, List.flatMap_singleton, Nat.sub_self,
          Nat.mod_eq_of_lt (by omega), Sched.block, List.length_replicate]
        omega
  · rw [if_neg hlast] at hrun
    refine ⟨_, done, i, rest, c - 1, hrun, ⟨h.order, hsame, h.current, hself, by omega, by omega, hdone, hrest⟩, ?_⟩
    rw [Sched.place, Sched.place, Nat.mod_eq_of_lt (by omega)]
    omega

theorem count_flatMap_block {l : List Nat} (hl : l.Nodup) :
    (l.flatMap s.block).count j = if j ∈ l then (s.taskAt j).priority else 0 := by
  induction l with
  | nil => rfl
  | cons i l ih =>
      obtain ⟨hi, hrest⟩ := List.nodup_cons.mp hl
      rw [List.flatMap_cons, List.count_append, ih hrest, Sched.block, List.count_replicate]
      by_cases hji : j = i
      · subst hji
        rw [if_pos (beq_self_eq_true j), if_neg hi, if_pos List.mem_cons_self, Nat.add_zero]
      · have hbeq : ¬ (i == j) = true := fun h => hji (beq_iff_eq.mp h).symm
        rw [if_neg hbeq, Nat.zero_add]
        by_cases hj : j ∈ l
        · rw [if_pos hj, if_pos (List.mem_cons_of_mem _ hj)]
        · rw [if_neg hj, if_neg fun h => (List.mem_cons.mp h).elim hji hj]

/-- What the epoch says about a state within it. -/
theorem InEpoch.reads (hs : Roster s) (h : InEpoch s t done i rest c) :
    s.epoch[s.place done i c]? = some i ∧ t.charged = some (s.task i) ∧
      ∀ j, 1 ≤ j → j ≤ s.tasksNumber →
        (t.taskAt j).counter = (s.taskAt j).priority - (s.epoch.take (s.place done i c)).count j := by
  have hpos := h.pos
  have hle := h.le
  have hblock : s.block i = List.replicate ((s.taskAt i).priority - c) i ++ List.replicate c i := by
    rw [Sched.block, List.replicate_append_replicate]
    congr 1
    omega
  have hepoch : s.epoch = (done.flatMap s.block ++ List.replicate ((s.taskAt i).priority - c) i) ++
      (List.replicate c i ++ rest.flatMap s.block) := by
    rw [Sched.epoch, h.order, List.flatMap_append, List.flatMap_cons, hblock]
    simp only [List.append_assoc]
  have hlength : (done.flatMap s.block ++ List.replicate ((s.taskAt i).priority - c) i).length = s.place done i c := by
    rw [List.length_append, List.length_replicate, Sched.place]
  refine ⟨?_, (h.charge (k := 0) hs).1, fun j h1 hj => ?_⟩
  · obtain ⟨c, rfl⟩ := Nat.exists_eq_succ_of_ne_zero (Nat.ne_of_gt hpos)
    rw [hepoch, List.getElem?_append_right (Nat.le_of_eq hlength), hlength, Nat.sub_self, List.replicate_succ]
    rfl
  · have hnodup := order_nodup (s := s)
    have hmem := mem_order.mpr ⟨h1, hj⟩
    rw [h.order] at hnodup hmem
    obtain ⟨hdone, htail, hcross⟩ := List.nodup_append.mp hnodup
    rw [hepoch, List.take_left' hlength, List.count_append, count_flatMap_block hdone, List.count_replicate]
    rcases List.mem_append.mp hmem with hj' | hj'
    · have hji : ¬ (i == j) = true := fun heq => hcross j hj' i List.mem_cons_self (beq_iff_eq.mp heq).symm
      rw [if_pos hj', if_neg hji, h.done j hj', Nat.add_zero, Nat.sub_self]
    · have hjd : j ∉ done := fun hd => hcross j hd j hj' rfl
      rw [if_neg hjd, Nat.zero_add]
      rcases List.mem_cons.mp hj' with rfl | hrest
      · rw [if_pos (beq_self_eq_true j), h.counter]
        omega
      · have hji : ¬ (i == j) = true := fun heq => (List.nodup_cons.mp htail).1 (beq_iff_eq.mp heq ▸ hrest)
        rw [if_neg hji, h.rest j hrest, Nat.sub_zero]

/-- After the first `schedule` and `n` ticks the next tick is the one that the repeated epoch has at `n`, and
the counters are the priorities less the ticks of the running epoch. -/
theorem ticks_repeat_epoch {n : Nat} (hs : Roster s)
    (hzero : ∀ j, 1 ≤ j → j ≤ s.tasksNumber → (s.taskAt j).counter = 0) :
    s.order.Perm (List.range' 1 s.tasksNumber) ∧ s.order.Pairwise (fun i j => s.precedes i j = true) ∧
    ∃ t u i, s.schedule (k + 2) = some t ∧ t.ticks (k + 2) n = some u ∧ Retimed s u ∧
      s.epoch[n % s.epoch.length]? = some i ∧ u.charged = some (s.task i) ∧
      ∀ j, 1 ≤ j → j ≤ s.tasksNumber →
        (u.taskAt j).counter = (s.taskAt j).priority - (s.epoch.take (n % s.epoch.length)).count j := by
  have hbetween : Between s s s.order [] :=
    ⟨(List.append_nil _).symm, ⟨rfl, rfl, rfl, fun _ => rfl, fun _ => rfl⟩,
      fun j hj => hzero j (mem_order.mp hj).1 (mem_order.mp hj).2, fun j hj => (List.not_mem_nil hj).elim⟩
  obtain ⟨i₀, rest₀, t, hrun, hstart⟩ := hbetween.restart (k := k) hs
  have hticks : ∃ u done i rest c, t.ticks (k + 2) n = some u ∧ InEpoch s u done i rest c ∧
      s.place done i c = n % s.epoch.length := by
    induction n with
    | zero =>
        refine ⟨t, [], i₀, rest₀, _, rfl, hstart, ?_⟩
        rw [Sched.place, Nat.sub_self, Nat.zero_mod]
        rfl
    | succ n ih =>
        obtain ⟨u, done, i, rest, c, hu, hin, hplace⟩ := ih
        obtain ⟨v, done', i', rest', c', hv, hin', hplace'⟩ := hin.tick (k := k) hs
        refine ⟨v, done', i', rest', c', ?_, hin', ?_⟩
        · rw [Sched.ticks, hu]
          exact hv
        · rw [hplace', hplace, Nat.mod_add_mod]
  obtain ⟨u, done, i, rest, c, hu, hin, hplace⟩ := hticks
  have hreads := hin.reads hs
  rw [hplace] at hreads
  exact ⟨order_perm, order_pairwise, t, u, i, hrun, hu, hin.same, hreads⟩

/-- Three tasks with the priorities 2, 3 and 2. -/
def trio : Sched :=
  { heap := fun p => { counter := 0, priority := if p = 2 then 3 else 2, pid := p }, task := id, tasksNumber := 3
    idle := 0, current := 0 }

/-- Nine ticks of three tasks; the epoch has seven. -/
theorem ticks_repeat_epoch_trio : ∃ t u i, trio.schedule (0 + 2) = some t ∧ t.ticks (0 + 2) 9 = some u ∧
    trio.epoch[9 % trio.epoch.length]? = some i ∧ u.charged = some (trio.task i) := by
  have hroster : Roster trio := by
    refine ⟨by decide, fun i j _ _ _ _ h => h, fun i h1 _ => Nat.ne_of_gt h1, fun i _ _ => ?_, fun i _ _ => ?_⟩
    all_goals
      simp only [trio, Sched.taskAt, PRIORITY_MIN, PRIORITY_MAX]
      split <;> decide
  obtain ⟨-, -, t, u, i, hrun, hticks, -, hplace, hcharged, -⟩ :=
    ticks_repeat_epoch (k := 0) (n := 9) hroster fun _ _ _ => rfl
  exact ⟨t, u, i, hrun, hticks, hplace, hcharged⟩

end Epoch

end ZjuOs
