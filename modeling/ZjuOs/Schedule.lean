import ZjuOs.Syscall

/-!
The scheduler of `proc.c` on the fields of `task_struct` that it reads: `task_init`, `schedule`, `do_timer`
and the part of `do_cow_fork` that enters the child. Objects are kept by their address.
-/
namespace ZjuOs

structure TaskStruct where
  counter : Nat
  priority : Nat
  pid : Nat

structure Sched where
  heap : Nat → TaskStruct
  task : Nat → Nat
  tasksNumber : Nat
  idle : Nat
  current : Nat

/-- What the loop of `schedule` has found. -/
structure Scan where
  max : Nat
  next : Nat
  flag : Bool

/-- A `uint64_t` that has been kept in an `int` and is compared as `uint64_t` again. -/
def throughInt (c : Nat) : Nat := ((BitVec.ofNat 32 c).signExtend 64).toNat

namespace Sched

/-- `*task[i]`. -/
def taskAt (s : Sched) (i : Nat) : TaskStruct := s.heap (s.task i)

def put (s : Sched) (p : Nat) (v : TaskStruct) : Sched := { s with heap := Function.update s.heap p v }

def setCounter (s : Sched) (p c : Nat) : Sched := s.put p { s.heap p with counter := c }

/-- The loop of `schedule` over the `n` tasks from `i`. -/
def scan (s : Sched) : Nat → Nat → Scan → Scan
  | 0, _, r => r
  | n + 1, i, r =>
      let counter := (s.taskAt i).counter
      if counter = 0 then scan s n (i + 1) r
      else if counter > throughInt r.max then scan s n (i + 1) { max := counter, next := i, flag := true }
      else scan s n (i + 1) { r with flag := true }

/-- `task[i]->counter = task[i]->priority` for the `n` tasks from `i`. -/
def refill (s : Sched) : Nat → Nat → Sched
  | 0, _ => s
  | n + 1, i => refill (s.setCounter (s.task i) (s.taskAt i).priority) n (i + 1)

def switchTo (s : Sched) (next : Nat) : Sched := if next = s.current then s else { s with current := next }

/-- `schedule` with `fuel` recursive calls; without a counter to refill it calls itself for ever. -/
def schedule : Nat → Sched → Option Sched
  | 0, _ => none
  | fuel + 1, s =>
      let r := s.scan s.tasksNumber 1 { max := 0, next := 0, flag := false }
      if r.flag then some (s.switchTo (s.task r.next))
      else schedule fuel (s.refill s.tasksNumber 1)

def doTimer (fuel : Nat) (s : Sched) : Option Sched :=
  if s.current = s.idle ∨ (s.heap s.current).counter = 0 then s.schedule fuel
  else
    let s := s.setCounter s.current ((s.heap s.current).counter - 1)
    if (s.heap s.current).counter = 0 then s.schedule fuel else some s

/-- The round of `task_init` for `task[i]`, with the page and the number that it is given. -/
def initTask (s : Sched) (i page number : Nat) : Sched :=
  { s.put page { counter := 0, priority := number % (PRIORITY_MAX - PRIORITY_MIN + 1) + PRIORITY_MIN, pid := i } with
    task := Function.update s.task i page }

def initTasks (pages numbers : Nat → Nat) : Nat → Nat → Sched → Sched
  | 0, _, s => s
  | n + 1, i, s => initTasks pages numbers n (i + 1) (s.initTask i (pages i) (numbers i))

/-- `task_init`; `kalloc` returns `pages i` and `rand` returns `numbers i` in round `i`. -/
def taskInit (pages numbers : Nat → Nat) (s : Sched) : Sched :=
  initTasks pages numbers s.tasksNumber 1
    { s.put (pages 0) { counter := 0, priority := 0, pid := 0 } with
      idle := pages 0, current := pages 0, task := Function.update s.task 0 (pages 0) }

/-- `do_cow_fork` with the page `child`. -/
def doCowFork (s : Sched) (child : Nat) : Int × Sched :=
  let s := s.put child (s.heap s.current)
  match freeSlot s.task with
  | none => (-1, s)
  | some i =>
      let s := { s with tasksNumber := i, task := Function.update s.task i child }
      let s := s.put child { s.heap child with pid := s.tasksNumber }
      ((s.heap child).pid, s)

end Sched

section Scan
variable {s : Sched} {n i j p q c fuel : Nat} {r : Scan} {v : TaskStruct}

theorem throughInt_of_lt (h : c < 2 ^ 31) : throughInt c = c := by
  have hmsb : (BitVec.ofNat 32 c).msb = false := by
    rw [BitVec.msb_eq_false_iff_two_mul_lt, BitVec.toNat_ofNat]
    omega
  rw [throughInt, BitVec.signExtend_eq_setWidth_of_msb_false hmsb, BitVec.toNat_setWidth, BitVec.toNat_ofNat]
  omega

/-- What the loop knows about the tasks below `i`. -/
structure Best (s : Sched) (i : Nat) (r : Scan) : Prop where
  none : r.flag = false → r.max = 0 ∧ ∀ j, 1 ≤ j → j < i → (s.taskAt j).counter = 0
  pos : r.flag = true → 1 ≤ r.next ∧ r.next < i ∧ 0 < r.max
  counter : r.flag = true → (s.taskAt r.next).counter = r.max
  le : ∀ j, 1 ≤ j → j < i → (s.taskAt j).counter ≤ r.max
  first : r.flag = true → ∀ j, 1 ≤ j → j < r.next → (s.taskAt j).counter < r.max

theorem Best.step (h : Best s i r) (hi : 1 ≤ i) {r' : Scan}
    (hskip : (s.taskAt i).counter = 0 → r' = r)
    (htake : (s.taskAt i).counter > r.max → r' = { max := (s.taskAt i).counter, next := i, flag := true })
    (hkeep : (s.taskAt i).counter ≠ 0 → (s.taskAt i).counter ≤ r.max → r' = { r with flag := true }) :
    Best s (i + 1) r' := by
  by_cases hmax : (s.taskAt i).counter > r.max
  · rw [htake hmax]
    constructor
    case none => intro hf; cases hf
    case pos => exact fun _ => ⟨hi, Nat.lt_succ_self i, by dsimp only; omega⟩
    case counter => exact fun _ => rfl
    case le =>
      intro j h1 hj
      rcases Nat.lt_succ_iff_lt_or_eq.mp hj with hlt | rfl
      · exact Nat.le_of_lt (Nat.lt_of_le_of_lt (h.le j h1 hlt) hmax)
      · exact Nat.le_refl _
    case first =>
      intro _ j h1 hj
      exact Nat.lt_of_le_of_lt (h.le j h1 hj) hmax
  · have hle : ∀ j, 1 ≤ j → j < i + 1 → (s.taskAt j).counter ≤ r.max := by
      intro j h1 hj
      rcases Nat.lt_succ_iff_lt_or_eq.mp hj with hlt | rfl
      · exact h.le j h1 hlt
      · omega
    by_cases hzero : (s.taskAt i).counter = 0
    · rw [hskip hzero]
      constructor
      case none =>
        intro hf
        refine ⟨(h.none hf).1, fun j h1 hj => ?_⟩
        rcases Nat.lt_succ_iff_lt_or_eq.mp hj with hlt | rfl
        · exact (h.none hf).2 j h1 hlt
        · exact hzero
      case pos => exact fun hf => ⟨(h.pos hf).1, by have := (h.pos hf).2.1; omega, (h.pos hf).2.2⟩
      case counter => exact h.counter
      case le => exact hle
      case first => exact h.first
    · rw [hkeep hzero (by omega)]
      -- a counter that is not zero and not above the maximum: some task has been found before
      have hflag : r.flag = true := by
        cases hf : r.flag with
        | true => rfl
        | false => have := (h.none hf).1; omega
      constructor
      case none => intro hf; cases hf
      case pos => exact fun _ => ⟨(h.pos hflag).1, by have := (h.pos hflag).2.1; dsimp only; omega, (h.pos hflag).2.2⟩
      case counter => exact fun _ => h.counter hflag
      case le => exact hle
      case first => exact fun _ => h.first hflag

theorem scan_best (hb : Best s i r) (hi : 1 ≤ i)
    (hsmall : ∀ j, 1 ≤ j → j < i + n → (s.taskAt j).counter < 2 ^ 31) : Best s (i + n) (s.scan n i r) := by
  induction n generalizing i r with
  | zero => exact hb
  | succ n ih =>
      have hmax : throughInt r.max = r.max := by
        refine throughInt_of_lt ?_
        cases hf : r.flag with
        | false => have := (hb.none hf).1; omega
        | true =>
            have hpos := hb.pos hf
            have := hsmall r.next hpos.1 (by omega)
            have := hb.counter hf
            omega
      have hnext : i + (n + 1) = i + 1 + n := by omega
      rw [hnext] at hsmall ⊢
      rw [Sched.scan, hmax]
      split
      · next hz => exact ih (hb.step hi (fun _ => rfl) (fun hgt => by omega) fun hnz => absurd hz hnz) (by omega) hsmall
      · next hz =>
          split
          · next hgt =>
              exact ih (hb.step hi (fun h0 => absurd h0 hz) (fun _ => rfl) fun _ hle => by omega) (by omega) hsmall
          · next hle =>
              exact ih (hb.step hi (fun h0 => absurd h0 hz) (fun hgt => absurd hgt hle) fun _ _ => rfl) (by omega) hsmall

theorem Best.start : Best s 1 { max := 0, next := 0, flag := false } where
  none := fun _ => ⟨rfl, fun j h1 hj => by omega⟩
  pos := fun h => by cases h
  counter := fun h => by cases h
  le := fun j h1 hj => by omega
  first := fun h => by cases h

end Scan

section Refill
variable {s : Sched} {n i j p k : Nat}

/-- The task with a full counter. -/
def TaskStruct.refilled (v : TaskStruct) : TaskStruct := { v with counter := v.priority }

theorem heap_put {v : TaskStruct} {q : Nat} : (s.put p v).heap q = if q = p then v else s.heap q := by
  rw [Sched.put]
  exact Function.update_apply ..

/-- A refill leaves a task or fills its counter. -/
theorem refill_cases : (s.refill n i).heap p = s.heap p ∨ (s.refill n i).heap p = (s.heap p).refilled := by
  induction n generalizing s i with
  | zero => exact .inl rfl
  | succ n ih =>
      have hstep : (s.setCounter (s.task i) (s.taskAt i).priority).heap p = s.heap p ∨
          (s.setCounter (s.task i) (s.taskAt i).priority).heap p = (s.heap p).refilled := by
        rw [Sched.setCounter, heap_put]
        split
        · next hp =>
            rw [hp]
            exact .inr rfl
        · exact .inl rfl
      have hrest := ih (s := s.setCounter (s.task i) (s.taskAt i).priority) (i := i + 1)
      rw [Sched.refill]
      rcases hstep with h | h <;> rw [h] at hrest
      · exact hrest
      · exact .inr (hrest.elim id fun h' => h')

/-- What no refill changes. -/
structure SameTable (s t : Sched) : Prop where
  task : t.task = s.task
  tasksNumber : t.tasksNumber = s.tasksNumber
  idle : t.idle = s.idle
  current : t.current = s.current

theorem refill_same : SameTable s (s.refill n i) := by
  induction n generalizing s i with
  | zero => exact ⟨rfl, rfl, rfl, rfl⟩
  | succ n ih =>
      obtain ⟨htask, hnumber, hidle, hcurrent⟩ := ih (s := s.setCounter (s.task i) (s.taskAt i).priority) (i := i + 1)
      exact ⟨htask, hnumber, hidle, hcurrent⟩

theorem refill_task (hlo : i ≤ j) (hhi : j < i + n) : (s.refill n i).taskAt j = (s.taskAt j).refilled := by
  rw [Sched.taskAt, Sched.taskAt, refill_same.task]
  induction n generalizing s i with
  | zero => omega
  | succ n ih =>
      rw [Sched.refill]
      by_cases hj : j = i
      · subst hj
        have hfirst : (s.setCounter (s.task j) (s.taskAt j).priority).heap (s.task j) = (s.heap (s.task j)).refilled := by
          rw [Sched.setCounter, heap_put, if_pos rfl]
          rfl
        have hrest := refill_cases (s := s.setCounter (s.task j) (s.taskAt j).priority) (n := n) (i := j + 1)
          (p := s.task j)
        rw [hfirst] at hrest
        exact hrest.elim id fun h => h
      · have hrest := ih (s := s.setCounter (s.task i) (s.taskAt i).priority) (i := i + 1) (by omega) (by omega)
        have htask : (s.setCounter (s.task i) (s.taskAt i).priority).task = s.task := rfl
        rw [htask] at hrest
        rw [hrest, Sched.setCounter, heap_put]
        split
        · next hp =>
            rw [← hp]
            rfl
        · rfl

theorem refill_other (hp : ∀ j, i ≤ j → j < i + n → p ≠ s.task j) : (s.refill n i).heap p = s.heap p := by
  induction n generalizing s i with
  | zero => rfl
  | succ n ih =>
      have hrest := ih (s := s.setCounter (s.task i) (s.taskAt i).priority) (i := i + 1) fun j hlo hhi => hp j (by omega) (by omega)
      rw [Sched.refill, hrest, Sched.setCounter, heap_put, if_neg (hp i (Nat.le_refl i) (by omega))]

theorem switchTo_eq : s.switchTo p = { s with current := p } := by
  rw [Sched.switchTo]
  split
  · next h =>
      subst h
      rfl
  · rfl

/-- Task `i` has the greatest counter, and no task before it has the same. -/
structure Chosen (s : Sched) (i : Nat) : Prop where
  pos : 1 ≤ i
  le : i ≤ s.tasksNumber
  counter : 0 < (s.taskAt i).counter
  most : ∀ j, 1 ≤ j → j ≤ s.tasksNumber → (s.taskAt j).counter ≤ (s.taskAt i).counter
  first : ∀ j, 1 ≤ j → j < i → (s.taskAt j).counter < (s.taskAt i).counter

theorem Chosen.current (h : Chosen s i) (c : Nat) : Chosen { s with current := c } i :=
  ⟨h.pos, h.le, h.counter, h.most, h.first⟩

/-- The priorities and counters of the tasks are in their ranges. -/
structure InRange (s : Sched) : Prop where
  pos : 1 ≤ s.tasksNumber
  min : ∀ i, 1 ≤ i → i ≤ s.tasksNumber → PRIORITY_MIN ≤ (s.taskAt i).priority
  max : ∀ i, 1 ≤ i → i ≤ s.tasksNumber → (s.taskAt i).priority ≤ PRIORITY_MAX
  counter : ∀ i, 1 ≤ i → i ≤ s.tasksNumber → (s.taskAt i).counter ≤ (s.taskAt i).priority

theorem InRange.scan (h : InRange s) :
    Best s (1 + s.tasksNumber) (s.scan s.tasksNumber 1 { max := 0, next := 0, flag := false }) := by
  refine scan_best .start (Nat.le_refl _) fun j h1 hj => ?_
  have hmax := h.max j h1 (by omega)
  have hcounter := h.counter j h1 (by omega)
  simp only [PRIORITY_MAX] at hmax
  omega

theorem InRange.refill (h : InRange s) : InRange (s.refill s.tasksNumber 1) := by
  have htask : ∀ j, 1 ≤ j → j ≤ s.tasksNumber →
      (s.refill s.tasksNumber 1).taskAt j = (s.taskAt j).refilled := fun j h1 hj => refill_task h1 (by omega)
  have hnumber := (refill_same (s := s) (n := s.tasksNumber) (i := 1)).tasksNumber
  constructor
  case pos =>
    rw [hnumber]
    exact h.pos
  all_goals
    intro j h1 hj
    rw [hnumber] at hj
    rw [htask j h1 hj]
  case min => exact h.min j h1 hj
  case max => exact h.max j h1 hj
  case counter => exact Nat.le_refl _

/-- With a counter left `schedule` runs the chosen task. -/
theorem InRange.schedule_chosen (h : InRange s) (hleft : ∃ j, 1 ≤ j ∧ j ≤ s.tasksNumber ∧ (s.taskAt j).counter ≠ 0) :
    ∃ i, Chosen s i ∧ s.schedule (k + 1) = some { s with current := s.task i } := by
  have hb := h.scan
  rw [Sched.schedule]
  generalize s.scan s.tasksNumber 1 { max := 0, next := 0, flag := false } = r at hb ⊢
  obtain ⟨j, h1, hj, hne⟩ := hleft
  have hflag : r.flag = true := by
    cases hf : r.flag with
    | true => rfl
    | false => exact absurd ((hb.none hf).2 j h1 (by omega)) hne
  have hpos := hb.pos hflag
  have hcounter := hb.counter hflag
  refine ⟨r.next, ⟨hpos.1, by omega, by omega, fun j' h1' hj' => ?_, fun j' h1' hj' => ?_⟩, ?_⟩
  · rw [hcounter]
    exact hb.le j' h1' (by omega)
  · rw [hcounter]
    exact hb.first hflag j' h1' hj'
  · rw [if_pos hflag, switchTo_eq]

/-- With all counters at zero `schedule` refills them first. -/
theorem InRange.schedule_refill (h : InRange s) (hzero : ∀ j, 1 ≤ j → j ≤ s.tasksNumber → (s.taskAt j).counter = 0) :
    s.schedule (k + 1) = (s.refill s.tasksNumber 1).schedule k := by
  have hb := h.scan
  rw [Sched.schedule]
  generalize s.scan s.tasksNumber 1 { max := 0, next := 0, flag := false } = r at hb ⊢
  have hflag : ¬ r.flag = true := by
    intro hf
    have hpos := hb.pos hf
    have hcounter := hb.counter hf
    have := hzero r.next hpos.1 (by omega)
    omega
  rw [if_neg hflag]

theorem InRange.schedule_epoch (h : InRange s) (hzero : ∀ j, 1 ≤ j → j ≤ s.tasksNumber → (s.taskAt j).counter = 0) :
    ∃ i, Chosen (s.refill s.tasksNumber 1) i ∧
      s.schedule (k + 2) =
        some { s.refill s.tasksNumber 1 with current := (s.refill s.tasksNumber 1).task i } := by
  have hfull := refill_task (s := s) (n := s.tasksNumber) (i := 1) (j := 1) (Nat.le_refl _) (by have := h.pos; omega)
  have hmin := h.min 1 (Nat.le_refl _) h.pos
  obtain ⟨i, hi, hrun⟩ := h.refill.schedule_chosen (k := k)
    ⟨1, Nat.le_refl _, by rw [refill_same.tasksNumber]; exact h.pos, by
      rw [hfull]
      simp only [TaskStruct.refilled, PRIORITY_MIN] at hmin ⊢
      omega⟩
  exact ⟨i, hi, (h.schedule_refill hzero).trans hrun⟩

end Refill

end ZjuOs
